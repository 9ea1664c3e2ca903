import Xv6.FsTree

/-! Link, create and unlink keep the names, the counts and the tree in step. -/

namespace Xv6

open Function

namespace Fs

variable {F G : Nat → FileView} {N dp ip k d i c : Nat} {name : Name} {de : Dirent}

structure Namespace (N : Nat) (F : Nat → FileView) : Prop where
  dirs : Dirs F
  shaped : Shaped (LinkedDir F) F
  inum : ∀ i, (F i).type ≠ .none → 0 < i ∧ i < N
  counted : Counted N F
  tree : Tree F

theorem short_add_short (a b : Int) : Xv6.short (Xv6.short a + b) = Xv6.short (a + b) :=
  Int.bmod_add_bmod ..

theorem LinkedDir.typed (h : LinkedDir F d) : (F d).type ≠ .none := by
  rw [h.1]
  decide

theorem Namespace.lt (h : Namespace N F) (hd : LinkedDir F d) : 0 < d ∧ d < N :=
  h.inum d hd.typed

theorem Namespace.up_linked (h : Namespace N F) (hd : LinkedDir F d) : LinkedDir F (F d).up := by
  by_cases hr : d = ROOTINO
  · rw [hr, h.tree.rootUp]
    exact h.tree.root
  · obtain ⟨k, hk⟩ := h.tree.parent d hd hr
    exact hk.1

theorem Namespace.names_free (h : Namespace N F) (ht : (F i).type = .none) (hi : i ≠ 0) :
    names N F i = 0 := by
  apply Finset.sum_eq_zero
  intro d _
  by_cases hd : LinkedDir F d
  · rw [share_of_linkedDir hd]
    refine h.shaped.naming_zero hd ?_ (fun k hk hn => h.shaped.named d hd k i hk hn ht) hi
    rintro rfl
    exact (h.up_linked hd).typed ht
  · exact share_of_not hd

theorem Namespace.no_name (h : Namespace N F) (hz : names N F i = 0) (hd : LinkedDir F d) (hk : 2 ≤ k) :
    ¬ (F d).Names k i := by
  rintro ⟨h0, e, he, rfl⟩
  have hpos := FileView.naming_pos he rfl (h.shaped.plain d hd k e hk he h0).1
  have hle := share_le_names (F := F) (h.lt hd).2 e.inum
  rw [share_of_linkedDir hd] at hle
  omega

theorem Edited.of_setEnt (hd : (F dp).IsDir) (hk : k ≤ (F dp).ents.length) (hde : de.Valid)
    (hself : (G dp).type = .dir ∧ (G dp).ents = ((F dp).setEnt k de).ents)
    (hother : ∀ i, i ≠ dp → (G i).type = (F i).type ∧ (G i).ents = (F i).ents) :
    Edited F dp k de G where
  type i := by
    by_cases hi : i = dp
    · rw [hi, hself.1, hd.type]
    · exact (hother i hi).1
  slot i _ j := by
    by_cases hi : i = dp
    · rw [hi, hself.2, FileView.getElem?_setEnt hd.size hk hde]
      simp
    · rw [(hother i hi).2, if_neg (fun hc => hi hc.1)]

theorem Edited.edge_of_ne (h : Edited F dp k de G) {p j : Nat} (hlink : LinkedDir G p ↔ LinkedDir F p)
    (hne : ¬ (p = dp ∧ j = k)) : Edge G p j c ↔ Edge F p j c := by
  unfold Edge
  rw [hlink]
  refine and_congr_right fun hp => and_congr_right (fun _ => ?_)
  exact h.names_of_ne hp.1 hne

theorem Edited.edge_self (h : Edited F dp k de G) (hk : 2 ≤ k) (hF : (F dp).type = .dir)
    (hG : LinkedDir G dp) : Edge G dp k c ↔ c ≠ 0 ∧ de.inum = c := by
  unfold Edge
  rw [h.names_self hF]
  simp [hG, hk]

theorem Edited.edge_add (h : Edited F dp k de G) (hk : 2 ≤ k)
    (hfree : k < (F dp).ents.length → ((F dp).ent k).inum = 0) (hde : de.inum ≠ 0) (hF : LinkedDir F dp)
    (hlink : ∀ p, LinkedDir G p ↔ LinkedDir F p) (p j c : Nat) :
    Edge G p j c ↔ Edge F p j c ∨ p = dp ∧ j = k ∧ c = de.inum := by
  by_cases hc : p = dp ∧ j = k
  · obtain ⟨rfl, rfl⟩ := hc
    have hno : ¬ Edge F p j c := by
      rintro ⟨-, -, hn⟩
      obtain ⟨h0, hlt, hin⟩ := FileView.names_iff.mp hn
      exact h0 (hin.symm.trans (hfree hlt))
    rw [h.edge_self hk hF.1 ((hlink p).mpr hF)]
    constructor
    · rintro ⟨-, rfl⟩
      exact .inr ⟨rfl, rfl, rfl⟩
    · rintro (he | ⟨-, -, rfl⟩)
      · exact absurd he hno
      · exact ⟨hde, rfl⟩
  · rw [h.edge_of_ne (hlink p) hc]
    constructor
    · exact .inl
    · rintro (he | ⟨h1, h2, -⟩)
      · exact he
      · exact absurd ⟨h1, h2⟩ hc

theorem Namespace.of_edit (h : Namespace N F) (hedit : Edited F dp k de G) (hk : 2 ≤ k)
    (hlink : ∀ d, LinkedDir G d ↔ LinkedDir F d) (hdirs : Dirs G)
    (hname : de.inum ≠ 0 → de.name ≠ Xv6.dot ∧ de.name ≠ Xv6.dotdot)
    (hnew : de.inum ≠ 0 → (F de.inum).type ≠ .none ∧ (F de.inum).type ≠ .dir)
    (hold : ∀ c, (F dp).Names k c → (F c).type ≠ .dir) (hcounted : Counted N G) :
    Namespace N G where
  dirs := hdirs
  shaped := by
    rw [funext (fun d => propext (hlink d))]
    exact h.shaped.edit hedit hk hname (fun h0 => (hnew h0).1) fun h0 hd => absurd hd (hnew h0).2
  inum i hi := by
    rw [hedit.type] at hi
    exact h.inum i hi
  counted := hcounted
  tree := by
    refine h.tree.congr hlink (fun d hd => by rwa [← hedit.type])
      (fun _ _ c _ hc => by rwa [hedit.type]) (fun p j c hc => ?_)
      (fun d hd => h.shaped.up_edit hedit hk hd)
    by_cases hpj : p = dp ∧ j = k
    · obtain ⟨rfl, rfl⟩ := hpj
      constructor
      · rintro ⟨hp, -, hn⟩
        obtain ⟨h0, rfl⟩ := (hedit.names_self ((hlink p).mp hp).1).mp hn
        exact absurd hc (hnew h0).2
      · rintro ⟨-, -, hn⟩
        exact absurd hc (hold c hn)
    · exact hedit.edge_of_ne (hlink p) hpj

theorem names_edit (hdir : (F dp).IsDir) (hdp : LinkedDir F dp) (hlt : dp < N)
    (hk : k ≤ (F dp).ents.length) (hde : de.Valid) (hlink : ∀ d, LinkedDir G d ↔ LinkedDir F d)
    (hG : (G dp).ents = ((F dp).setEnt k de).ents) (hother : ∀ d, d ≠ dp → (G d).ents = (F d).ents)
    (i : Nat) : names N G i +
      (if k < (F dp).ents.length ∧ ((F dp).ent k).inum = i ∧ ((F dp).ent k).name ≠ Xv6.dot then 1 else 0) =
    names N F i + if de.inum = i ∧ de.name ≠ Xv6.dot then 1 else 0 := by
  have hchange := names_change (i := i) (G := G) (F := F) hlt
    fun e he => share_congr (hlink e) (fun _ => hother e he)
  have hn : (G dp).naming i = ((F dp).setEnt k de).naming i := by
    rw [FileView.naming, FileView.naming, hG]
  have hset := FileView.naming_setEnt hdir.size hk hde i
  rw [share_of_linkedDir hdp, share_of_linkedDir ((hlink dp).mpr hdp), hn] at hchange
  omega

theorem Counted.short_nlink (h : Counted N F) (ht : (F i).type ≠ .none) :
    Xv6.short (F i).nlink = (F i).nlink := by
  rw [h.nlink i ht]
  exact Int.bmod_bmod ..

theorem nlink_relink (hs : Xv6.short (F i).nlink = (F i).nlink) (δ : Int) :
    (relink F ip δ i).nlink = Xv6.short ((F i).nlink + if i = ip then δ else 0) := by
  split
  · rename_i hi
    rw [hi, relink_self]
  · rename_i hi
    rw [relink_of_ne _ hi, Int.add_zero, hs]

theorem Counted.shift {δ : Nat → Int} (h : Counted N F) (htype : ∀ i, (G i).type = (F i).type)
    (hlinks : ∀ i, (F i).type ≠ .none → (G i).nlink = Xv6.short ((F i).nlink + δ i))
    (hnames : ∀ i, (F i).type ≠ .none → (names N G i : Int) = names N F i + δ i)
    (hb : ∀ i, (F i).type ≠ .none → names N G i < 2 ^ 16) : Counted N G where
  nlink i hi := by
    rw [htype] at hi
    rw [hlinks i hi, hnames i hi, h.nlink i hi, short_add_short]
  bound i hi := hb i (by rwa [← htype])

/-- An entry of a file, which is not a directory, is made or cleared, and its count follows. -/
theorem Namespace.editFile {δ : Int} (h : Namespace N F) (ht : (F ip).type ≠ .none)
    (hnd : (F ip).type ≠ .dir) (hdp : LinkedDir F dp) (hk2 : 2 ≤ k) (hk : k ≤ (F dp).ents.length)
    (hde : de.Valid) (hname : de.inum ≠ 0 → de.name ≠ Xv6.dot ∧ de.name ≠ Xv6.dotdot)
    (hnew : de.inum ≠ 0 → de.inum = ip) (hold : ∀ c, (F dp).Names k c → c = ip)
    (hδ : (if k < (F dp).ents.length ∧ ((F dp).ent k).inum = ip then 1 else 0 : Nat) + δ =
      (if de.inum = ip then 1 else 0 : Nat)) (hb : names N F ip + δ < 2 ^ 16)
    (hG : G = relink (update F dp ((F dp).setEnt k de)) ip δ) :
    Namespace N G ∧ (∀ d, LinkedDir G d ↔ LinkedDir F d) ∧
      ∀ i, i ≠ 0 → (names N G i : Int) = names N F i + if i = ip then δ else 0 := by
  have hdir := h.dirs dp hdp.1
  have hset := FileView.setEnt_isDir hdir hk de
  set H := update F dp ((F dp).setEnt k de) with hH
  have hHdp : H dp = (F dp).setEnt k de := update_self ..
  have hHo : ∀ {i}, i ≠ dp → H i = F i := fun hi => update_of_ne hi _ _
  have hHn : ∀ i, (H i).nlink = (F i).nlink := by
    intro i
    by_cases hi : i = dp
    · rw [hi, hHdp]
      rfl
    · rw [hHo hi]
  have hsame : SameTree H G := hG ▸ sameTree_relink H ip δ
  have hedit : Edited F dp k de G := by
    refine Edited.of_setEnt hdir hk hde ⟨?_, ?_⟩ fun i hi => ?_
    · rw [(hsame dp).1, hHdp, hset.type]
    · rw [hsame.ents, hHdp]
    · rw [(hsame i).1, hsame.ents, hHo hi]
      exact ⟨rfl, rfl⟩
  have hlink : ∀ d, LinkedDir G d ↔ LinkedDir F d := by
    intro d
    unfold LinkedDir
    rw [hedit.type]
    by_cases hd : d = ip
    · simp [hd, hnd]
    · rw [hG, relink_of_ne _ hd, hHn]
  have hnames : ∀ i, i ≠ 0 → (names N G i : Int) = names N F i + if i = ip then δ else 0 := by
    intro i hi
    have hsum := names_edit hdir hdp (h.lt hdp).2 hk hde hlink (by rw [hsame.ents, hHdp])
      (fun d hd => by rw [hsame.ents, hHo hd]) i
    have hnew' : de.inum = i → i = ip ∧ de.name ≠ Xv6.dot := by
      rintro rfl
      exact ⟨hnew hi, (hname hi).1⟩
    have hold' : k < (F dp).ents.length → ((F dp).ent k).inum = i →
        i = ip ∧ ((F dp).ent k).name ≠ Xv6.dot := by
      intro hlt hin
      refine ⟨hold i (FileView.names_iff.mpr ⟨hi, hlt, hin⟩), ?_⟩
      exact (h.shaped.plain dp hdp k _ hk2 (by rw [FileView.getElem?_ents, if_pos hlt]) (by rwa [hin])).1
    by_cases hii : i = ip
    · subst hii
      have h1 : (de.inum = i ∧ de.name ≠ Xv6.dot) ↔ de.inum = i := and_iff_left_of_imp fun hc => (hnew' hc).2
      have h2 : (k < (F dp).ents.length ∧ ((F dp).ent k).inum = i ∧ ((F dp).ent k).name ≠ Xv6.dot) ↔
          k < (F dp).ents.length ∧ ((F dp).ent k).inum = i :=
        and_congr_right fun hlt => and_iff_left_of_imp fun hc => (hold' hlt hc).2
      rw [if_congr h1 rfl rfl, if_congr h2 rfl rfl] at hsum
      omega
    · rw [if_neg fun hc => hii (hold' hc.1 hc.2.1).1, if_neg fun hc => hii (hnew' hc.1).1] at hsum
      omega
  refine ⟨h.of_edit hedit hk2 hlink ((h.dirs.update dp fun _ => hset).relink ip δ |> (hG ▸ ·)) hname
    (fun h0 => hnew h0 ▸ ⟨ht, hnd⟩) (fun c hn => hold c hn ▸ hnd)
    (h.counted.shift hedit.type (fun i hi => ?_) (fun i hi => hnames i (h.inum i hi).1.ne')
      (fun i hi => ?_)), hlink, hnames⟩
  · rw [hG, nlink_relink (by rw [hHn, h.counted.short_nlink hi]), hHn]
  · have hsum := hnames i (h.inum i hi).1.ne'
    have hbound := h.counted.bound i hi
    by_cases hii : i = ip
    · rw [if_pos hii, hii] at hsum
      rw [hii]
      omega
    · rw [if_neg hii] at hsum
      omega

theorem Namespace.link (h : Namespace N F) (ht : (F ip).type ≠ .none) (hnd : (F ip).type ≠ .dir)
    (hdp : LinkedDir F dp) (habs : (F dp).find name = none) (hde : (Dirent.mk ip name).Valid)
    (hk : k ≤ (F dp).ents.length) (hfree : k < (F dp).ents.length → ((F dp).ent k).inum = 0)
    (hb : names N F ip + 1 < 2 ^ 16)
    (hG : G = update (relink F ip 1) dp ((F dp).setEnt k ⟨ip, name⟩)) :
    Namespace N G ∧ (∀ d, LinkedDir G d ↔ LinkedDir F d) ∧
      ∀ i, i ≠ 0 → names N G i = names N F i + if i = ip then 1 else 0 := by
  have hne : dp ≠ ip := by
    rintro rfl
    exact hnd hdp.1
  have hip0 : ip ≠ 0 := (h.inum ip ht).1.ne'
  have hdp0 : dp ≠ 0 := (h.lt hdp).1.ne'
  have hno : ¬ (k < (F dp).ents.length ∧ ((F dp).ent k).inum = ip) :=
    fun hc => hip0 (hc.2.symm.trans (hfree hc.1))
  obtain ⟨hN, hlink, hnames⟩ := h.editFile (δ := 1) ht hnd hdp (h.shaped.slot hdp hdp0 hk hfree) hk hde
    (fun _ => h.shaped.absent hdp hdp0 habs) (fun _ => rfl)
    (fun c hn => by
      obtain ⟨h0, hlt, hin⟩ := FileView.names_iff.mp hn
      exact absurd (hin.symm.trans (hfree hlt)) h0)
    (by rw [if_pos rfl, if_neg hno]; rfl) (by exact_mod_cast hb) rfl
  have hcomm : G = relink (update F dp ((F dp).setEnt k ⟨ip, name⟩)) ip 1 := by
    rw [hG, relink, relink, update_comm hne, update_of_ne hne.symm]
  rw [← hcomm] at hN hlink hnames
  refine ⟨hN, hlink, fun i hi => ?_⟩
  exact_mod_cast hnames i hi

theorem short_ne_zero {n : Nat} (h0 : n ≠ 0) (hn : n < 2 ^ 16) : Xv6.short n ≠ 0 := by
  rw [Xv6.short, Int.bmod_def]
  split <;> omega

section Create

variable {v : FileView} {ty : FileType} {major minor : Int}

theorem newInode_linked (hv : NewInode dp ip ty major minor v) (d : Nat)
    (hip : (F ip).type = .none) :
    LinkedDir (update F ip v) d ↔ d = ip ∧ ty = .dir ∨ LinkedDir F d := by
  unfold LinkedDir
  by_cases hd : d = ip
  · rw [hd, update_self, hv.type, hv.nlink, hip]
    simp
  · rw [update_of_ne hd]
    simp [hd]

theorem newInode_share (hv : NewInode dp ip ty major minor v) (i : Nat) :
    v.share i = if ty = .dir ∧ i = dp then 1 else 0 := by
  unfold FileView.share
  rw [hv.type, hv.nlink]
  by_cases hd : ty = .dir
  · have hne : Xv6.dotdot ≠ Xv6.dot := by decide
    rw [FileView.naming, (hv.dots hd).2]
    simp [hd, hne, eq_comm (a := dp)]
  · simp [hd]

theorem newInode_edge (hv : NewInode dp ip ty major minor v) (hip : (F ip).type = .none)
    (p j c : Nat) : Edge (update F ip v) p j c ↔ Edge F p j c := by
  by_cases hp : p = ip
  · subst hp
    constructor
    · rintro ⟨⟨hd, -⟩, h2, hn⟩
      rw [update_self] at hd hn
      exact absurd hn ((newInode_slot hv hd).2.2.2 j c h2)
    · rintro ⟨hl, -⟩
      exact absurd hip hl.typed
  · unfold Edge LinkedDir
    rw [update_of_ne hp]

theorem Namespace.newInode_shaped (h : Namespace N F) (hip : (F ip).type = .none) (h0 : 0 < ip)
    (hdp : LinkedDir F dp) (hv : NewInode dp ip ty major minor v) :
    Shaped (LinkedDir (update F ip v)) (update F ip v) := by
  have hz := h.names_free hip (by omega)
  have hbase : Shaped (LinkedDir F) (update F ip v) :=
    h.shaped.setOther (fun hl => hl.typed hip) (fun d hd k hk => h.no_name hz hd hk) v
  by_cases hd : ty = .dir
  · have hvd : v.type = .dir := hv.type.trans hd
    obtain ⟨hs0, hs1, -, hs2⟩ := newInode_slot hv hvd
    rw [← update_self ip v F] at hvd hs0 hs1 hs2
    have hadd := hbase.addDir hvd hs0 hs1 (h.lt hdp).1.ne' hs2
    have heq : LinkedDir (update F ip v) = fun d => d = ip ∨ LinkedDir F d := by
      funext d
      rw [newInode_linked hv d hip]
      simp [hd]
    rw [heq]
    exact hadd
  · have heq : LinkedDir (update F ip v) = LinkedDir F := by
      funext d
      rw [newInode_linked hv d hip]
      simp [hd]
    rw [heq]
    exact hbase

theorem Namespace.create (h : Namespace N F) (hty : ty ≠ .none) (hip : (F ip).type = .none)
    (h0 : 0 < ip) (hlt : ip < N) (hv : NewInode dp ip ty major minor v) (hdp : LinkedDir F dp)
    (habs : (F dp).find name = none) (hde : (Dirent.mk ip name).Valid)
    (hk : k ≤ (F dp).ents.length) (hfree : k < (F dp).ents.length → ((F dp).ent k).inum = 0)
    (hb : ty = .dir → names N F dp + 1 < 2 ^ 16)
    (hG : G = update (update F ip v) dp (entered (F dp) k ip name ty)) :
    Namespace N G ∧ (∀ d, LinkedDir G d ↔ d = ip ∧ ty = .dir ∨ LinkedDir F d) ∧
      ∀ i, i ≠ 0 → names N G i = names N F i + (if i = ip then 1 else 0) +
        if ty = .dir ∧ i = dp then 1 else 0 := by
  set H := update F ip v with hH
  have hne : dp ≠ ip := by
    rintro rfl
    exact hdp.typed hip
  have hHdp : H dp = F dp := update_of_ne hne _ _
  have hHip : H ip = v := update_self ..
  have hGo : ∀ i, i ≠ dp → G i = H i := fun i hi => by rw [hG, update_of_ne hi]
  have hGip : G ip = v := by rw [hGo ip hne.symm, hHip]
  have hGdp : G dp = entered (F dp) k ip name ty := by rw [hG, update_self]
  have hGents : (G dp).ents = ((F dp).setEnt k ⟨ip, name⟩).ents := by
    rw [hGdp, entered]
    split <;> rfl
  have hdp0 : dp ≠ 0 := by have := (h.lt hdp).1; omega
  have hk2 := h.shaped.slot hdp hdp0 hk hfree
  obtain ⟨hn1, hn2⟩ := h.shaped.absent hdp hdp0 habs
  have hdir := h.dirs dp hdp.1
  have hGtype : (G dp).type = .dir := by
    rw [hGdp]
    exact (entered_isDir hdir hk ip name ty).type
  have hpos : names N F dp ≠ 0 := fun hz => hdp.2 ((h.counted.zero_iff hdp.typed).mpr hz)
  have hGnlink : (G dp).nlink = Xv6.short (names N F dp + if ty = .dir then 1 else 0) := by
    rw [hGdp, entered]
    split
    · show Xv6.short ((F dp).nlink + 1) = _
      rw [h.counted.nlink dp hdp.typed, short_add_short]
    · rw [Int.add_zero]
      exact h.counted.nlink dp hdp.typed
  have hGdpl : LinkedDir G dp := by
    refine ⟨hGtype, ?_⟩
    rw [hGnlink]
    split
    · rename_i hd
      exact_mod_cast short_ne_zero (n := names N F dp + 1) (by omega) (hb hd)
    · rw [Int.add_zero]
      exact short_ne_zero hpos (h.counted.bound dp hdp.typed)
  have hedit : Edited H dp k ⟨ip, name⟩ G := by
    refine Edited.of_setEnt (by rwa [hHdp]) (by rwa [hHdp]) hde ⟨hGtype, by rw [hHdp, hGents]⟩ ?_
    intro i hi
    rw [hGo i hi]
    exact ⟨rfl, rfl⟩
  have hlinkH := fun d => newInode_linked (F := F) hv d hip
  have hlink : ∀ d, LinkedDir G d ↔ LinkedDir H d := by
    intro d
    by_cases hd : d = dp
    · rw [hd, hlinkH]
      simp [hGdpl, hdp]
    · unfold LinkedDir
      rw [hGo d hd]
  have hdpH : LinkedDir H dp := (hlink dp).mp hGdpl
  have hshaped : Shaped (LinkedDir H) H := h.newInode_shaped hip h0 hdp hv
  have hnames : ∀ i, i ≠ 0 → names N G i = names N F i +
      (if i = ip then 1 else 0) + if ty = .dir ∧ i = dp then 1 else 0 := by
    intro i hi
    have h1 := names_change (i := i) (G := H) (F := F) hlt
      fun e he => by rw [hH, update_of_ne he]
    have h2 := names_edit (k := k) (by rwa [hHdp]) hdpH (h.lt hdp).2 (by rwa [hHdp]) hde hlink
      (by rw [hHdp, hGents]) (fun d hd => by rw [hGo d hd]) i
    rw [share_of_not (fun hl => hl.typed hip), hHip, newInode_share hv] at h1
    rw [hHdp, if_neg fun hc => hi (hc.2.1.symm.trans (hfree hc.1))] at h2
    simp only [hn1, ne_eq, not_false_eq_true, and_true, eq_comm (a := ip)] at h2
    omega
  have htypeG : ∀ i, i ≠ ip → (G i).type = (F i).type := by
    intro i hi
    rw [hedit.type, hH, update_of_ne hi]
  have hedge : ∀ p j c, Edge G p j c ↔ Edge F p j c ∨ p = dp ∧ j = k ∧ c = ip := by
    intro p j c
    rw [hedit.edge_add hk2 (by rwa [hHdp]) (by simpa using h0.ne') hdpH hlink,
      newInode_edge hv hip]
  have hup : ∀ d, LinkedDir F d → (G d).up = (F d).up := by
    intro d hd
    have hdi : d ≠ ip := by
      rintro rfl
      exact hd.typed hip
    rw [hshaped.up_edit hedit hk2 ((hlinkH d).mpr (.inr hd)), hH, update_of_ne hdi]
  refine ⟨⟨?_, ?_, ?_, ⟨?_, ?_⟩, ?_⟩, fun d => (hlink d).trans (hlinkH d), hnames⟩
  · rw [hG]
    exact (h.dirs.update ip fun ht => (hv.dots (hv.type.symm.trans ht)).1).update dp
      fun _ => entered_isDir hdir hk ip name ty
  · rw [funext (fun d => propext (hlink d))]
    refine hshaped.edit hedit hk2 (fun _ => ⟨hn1, hn2⟩) (fun _ => ?_)
      (fun _ hd => ?_)
    · rw [show (Dirent.mk ip name).inum = ip from rfl, hHip, hv.type]
      exact hty
    · have hd : v.type = .dir := by rwa [← hHip]
      have hup : (H ip).up = dp := by
        rw [hHip]
        exact (newInode_slot hv hd).2.2.1
      exact ⟨(hlinkH ip).mpr (.inl ⟨rfl, hv.type.symm.trans hd⟩), hne.symm, hup⟩
  · intro i hi
    by_cases hii : i = ip
    · rw [hii]
      exact ⟨h0, hlt⟩
    · rw [htypeG i hii] at hi
      exact h.inum i hi
  · intro i hi
    by_cases hii : i = ip
    · rw [hnames i (by omega), hii, h.names_free hip (by omega), hGip, hv.nlink, if_pos rfl,
        if_neg (fun hc => hne hc.2.symm)]
      decide
    · rw [htypeG i hii] at hi
      rw [hnames i (by have := (h.inum i hi).1; omega), if_neg hii]
      by_cases hid : i = dp
      · rw [hid, hGnlink]
        simp
      · rw [hGo i hid, hH, update_of_ne hii, if_neg (fun hc => hid hc.2),
          h.counted.nlink i hi]
        rfl
  · intro i hi
    by_cases hii : i = ip
    · rw [hnames i (by omega), hii, h.names_free hip (by omega), if_pos rfl,
        if_neg (fun hc => hne hc.2.symm)]
      decide
    · rw [htypeG i hii] at hi
      rw [hnames i (by have := (h.inum i hi).1; omega), if_neg hii]
      have := h.counted.bound i hi
      split
      · rename_i hc
        obtain ⟨hd, rfl⟩ := hc
        exact hb hd
      · exact this
  · by_cases hd : ty = .dir
    · refine h.tree.addLeaf (show (F ip).type ≠ .dir by rw [hip]; decide) hdp
        (fun p j he => h.no_name (h.names_free hip (by omega)) he.1 he.2.1 he.2.2) (fun d => ?_)
        (fun d => ?_) hedge hup ?_
      · rw [hlink, hlinkH]
        simp [hd]
      · by_cases hdi : d = ip
        · rw [hdi, hGip, hv.type]
          simp [hd]
        · rw [htypeG d hdi]
          simp [hdi]
      · rw [hGip]
        exact (newInode_slot hv (hv.type.trans hd)).2.2.1
    · have hiff : ∀ d, (G d).type = .dir ↔ (F d).type = .dir := by
        intro d
        by_cases hdi : d = ip
        · rw [hdi, hGip, hv.type, hip]
          simp [hd]
        · rw [htypeG d hdi]
      refine h.tree.congr (fun d => ?_) (fun d => (hiff d).mp) (fun _ _ c _ => (hiff c).mpr)
        (fun p j c hc => ?_) hup
      · rw [hlink, hlinkH]
        simp [hd]
      · rw [hedge]
        constructor
        · rintro (he | ⟨-, -, rfl⟩)
          · exact he
          · rw [hip] at hc
            contradiction
        · exact .inl

end Create

theorem Namespace.free (h : Namespace N F) (ht : (F ip).type ≠ .none) (hz : (F ip).nlink = 0) :
    Namespace N (update F ip FileView.free) ∧
      (∀ d, LinkedDir (update F ip FileView.free) d ↔ LinkedDir F d) ∧
      ∀ i, names N (update F ip FileView.free) i = names N F i := by
  have hnot : ¬ LinkedDir F ip := fun hl => hl.2 hz
  have hnone := (h.counted.zero_iff ht).mp hz
  have hself : update F ip FileView.free ip = FileView.free := update_self ..
  have hother : ∀ {i}, i ≠ ip → update F ip FileView.free i = F i :=
    fun hi => update_of_ne hi _ _
  have hlink : ∀ d, LinkedDir (update F ip FileView.free) d ↔ LinkedDir F d := by
    intro d
    by_cases hd : d = ip
    · subst hd
      exact ⟨fun hl => absurd hself (fun he => by rw [LinkedDir, he] at hl; cases hl.1),
        fun hl => absurd hl hnot⟩
    · unfold LinkedDir
      rw [hother hd]
  have hne : ∀ {d}, LinkedDir F d → d ≠ ip := by
    rintro d hd rfl
    exact hnot hd
  have hnames : ∀ i, names N (update F ip FileView.free) i = names N F i :=
    fun i => names_congr fun e => share_congr (hlink e) (fun hl => by rw [hother (hne hl)])
  have htyped : ∀ {i}, (update F ip FileView.free i).type ≠ .none → i ≠ ip := by
    rintro i hi rfl
    exact hi (by rw [hself]; rfl)
  refine ⟨⟨fun i hi => ?_, ?_, fun i hi => ?_, ⟨fun i hi => ?_, fun i hi => ?_⟩, ?_⟩, hlink, hnames⟩
  · exact h.dirs.update ip (by rintro ⟨⟩) i hi
  · rw [funext (fun d => propext (hlink d))]
    exact h.shaped.setOther hnot (fun d hd k hk => h.no_name hnone hd hk) _
  · rw [hother (htyped hi)] at hi
    exact h.inum i hi
  · have hii := htyped hi
    rw [hother hii] at hi ⊢
    rw [hnames]
    exact h.counted.nlink i hi
  · rw [hother (htyped hi)] at hi
    rw [hnames]
    exact h.counted.bound i hi
  · refine h.tree.congr hlink (fun d hd => ?_) (fun p j c he hc => ?_) (fun p j c _ => ?_)
      (fun d hd => by rw [hother (hne hd)])
    · rwa [hother (htyped (by rw [hd]; decide))] at hd
    · rw [hother]
      · exact hc
      · rintro rfl
        exact h.no_name hnone he.1 he.2.1 he.2.2
    · unfold Edge
      rw [hlink]
      refine and_congr_right fun hp => ?_
      rw [hother (hne hp)]

theorem Namespace.found (h : Namespace N F) (hdp : LinkedDir F dp) (h1 : name ≠ Xv6.dot)
    (h2 : name ≠ Xv6.dotdot) (hfind : (F dp).find name = some k) :
    2 ≤ k ∧ Edge F dp k ((F dp).ent k).inum := by
  obtain ⟨hlt, -, hin, hname⟩ := find_some hfind
  have hslot : (F dp).ents[k]? = some ((F dp).ent k) := by rw [FileView.getElem?_ents, if_pos hlt]
  have hk : 2 ≤ k := by
    by_contra hc
    obtain rfl | rfl : k = 0 ∨ k = 1 := by omega
    · rw [h.shaped.dot dp hdp, Option.some.injEq] at hslot
      exact h1 (by rw [← hname, ← hslot])
    · rw [(h.shaped.dotdot dp hdp).2, Option.some.injEq] at hslot
      exact h2 (by rw [← hname, ← hslot])
  exact ⟨hk, hdp, hk, FileView.names_iff.mpr ⟨hin, hlt, rfl⟩⟩

theorem Namespace.unlinkFile (h : Namespace N F) (hdp : LinkedDir F dp) (hk : 2 ≤ k)
    (hedge : Edge F dp k ip) (hnd : (F ip).type ≠ .dir)
    (hG : G = relink (update F dp ((F dp).setEnt k Dirent.empty)) ip (-1)) :
    Namespace N G ∧ (∀ d, LinkedDir G d ↔ LinkedDir F d) ∧
      ∀ i, i ≠ 0 → names N G i + (if i = ip then 1 else 0) = names N F i := by
  obtain ⟨hip0, hlt, hin⟩ := FileView.names_iff.mp hedge.2.2
  have ht := h.shaped.named dp hdp k ip hk hedge.2.2
  have hbound := h.counted.bound ip ht
  obtain ⟨hN, hlink, hnames⟩ := h.editFile ht hnd hdp hk hlt.le Dirent.valid_empty
    (fun h0 => absurd rfl h0) (fun h0 => absurd rfl h0)
    (fun c hn => (FileView.names_iff.mp hn).2.2.symm.trans hin)
    (by rw [if_pos ⟨hlt, hin⟩, if_neg (show Dirent.empty.inum ≠ ip from hip0.symm)]; rfl) (by omega) hG
  refine ⟨hN, hlink, fun i hi => ?_⟩
  have hsum := hnames i hi
  by_cases hii : i = ip
  · rw [if_pos hii] at hsum ⊢
    omega
  · rw [if_neg hii] at hsum ⊢
    omega

theorem Namespace.two_le_names (h : Namespace N F) (hedge : Edge F dp k ip)
    (hd : (F ip).type = .dir) (hno : ∀ j c, ¬ Edge F ip j c) : 2 ≤ names N F dp := by
  have hdp := hedge.1
  obtain ⟨hip, hne, hup⟩ := h.shaped.kid dp hdp k ip hedge.2.1 hedge.2.2 hd
  -- The entry that names `dp` is in a directory other than `ip`.
  have hsrc : ∃ q, LinkedDir F q ∧ q ≠ ip ∧ 1 ≤ (F q).naming dp := by
    by_cases hr : dp = ROOTINO
    · refine ⟨dp, hdp, hne.symm, ?_⟩
      have hrup : (F dp).up = dp := by rw [hr]; exact h.tree.rootUp
      exact FileView.naming_pos (h.shaped.dotdot dp hdp).2 hrup (show Xv6.dotdot ≠ Xv6.dot by decide)
    · obtain ⟨j, hj⟩ := h.tree.parent dp hdp hr
      refine ⟨(F dp).up, hj.1, ?_, ?_⟩
      · intro he
        rw [he] at hj
        exact hno j dp hj
      · obtain ⟨h0, e, he, hin⟩ := hj.2.2
        exact FileView.naming_pos he hin (h.shaped.plain _ hj.1 j e hj.2.1 he (hin ▸ h0)).1
  obtain ⟨q, hq, hqi, hpos⟩ := hsrc
  have hchange := names_change (i := dp) (G := update F ip FileView.free) (F := F)
    (h.lt hip).2 fun e he => by rw [update_of_ne he]
  have hle := share_le_names (F := update F ip FileView.free) (h.lt hq).2 dp
  have hself := FileView.naming_pos (h.shaped.dotdot ip hip).2 hup (show Xv6.dotdot ≠ Xv6.dot by decide)
  rw [update_of_ne hqi, share_of_linkedDir hq] at hle
  have hfree : FileView.free.share dp = 0 := if_neg fun hc => by cases hc.1
  rw [share_of_linkedDir hip, update_self, hfree] at hchange
  omega

theorem Namespace.unlinkDir (h : Namespace N F) (hk : 2 ≤ k) (hedge : Edge F dp k ip)
    (hd : (F ip).type = .dir) (hempty : (F ip).Empty)
    (hG : G = relink (relink (update F dp ((F dp).setEnt k Dirent.empty)) dp (-1)) ip (-1)) :
    Namespace N G ∧ (∀ d, LinkedDir G d ↔ LinkedDir F d ∧ d ≠ ip) ∧ ∀ i, i ≠ 0 →
      names N G i + (if i = ip then 1 else 0) + (if i = dp then 1 else 0) = names N F i := by
  have hdp := hedge.1
  obtain ⟨hip0, hlt, hin⟩ := FileView.names_iff.mp hedge.2.2
  obtain ⟨hipl, hne, hup⟩ := h.shaped.kid dp hdp k ip hk hedge.2.2 hd
  have hdir := h.dirs dp hdp.1
  have hno : ∀ j c, ¬ Edge F ip j c := by
    rintro j c ⟨-, h2, hn⟩
    obtain ⟨h0, hlt, hin⟩ := FileView.names_iff.mp hn
    exact h0 (hin.symm.trans (empty_iff.mp hempty j h2 hlt))
  have hroot : ip ≠ ROOTINO := by
    rintro rfl
    exact h.tree.top dp k hedge
  set H := update F dp ((F dp).setEnt k Dirent.empty) with hH
  have hHdp : H dp = (F dp).setEnt k Dirent.empty := update_self ..
  have hHo : ∀ {i}, i ≠ dp → H i = F i := fun hi => update_of_ne hi _ _
  have hsame : SameTree H G := by
    intro i
    obtain ⟨a1, a2, a3⟩ := sameTree_relink H dp (-1) i
    obtain ⟨b1, b2, b3⟩ := sameTree_relink (relink H dp (-1)) ip (-1) i
    rw [hG]
    exact ⟨b1.trans a1, b2.trans a2, b3.trans a3⟩
  have hGdp : (G dp).nlink = Xv6.short ((F dp).nlink + -1) := by
    rw [hG, relink_of_ne _ hne.symm, relink_self, hHdp]
    rfl
  have hGip : (G ip).nlink = Xv6.short ((F ip).nlink + -1) := by
    rw [hG, relink_self, relink_of_ne _ hne, hHo hne]
  have hGo : ∀ {i}, i ≠ dp → i ≠ ip → (G i).nlink = (F i).nlink := by
    intro i h1 h2
    rw [hG, relink_of_ne _ h2, relink_of_ne _ h1, hHo h1]
  have hedit : Edited F dp k Dirent.empty H :=
    Edited.of_setEnt hdir hlt.le Dirent.valid_empty ⟨by rw [hHdp]; exact hdp.1, by rw [hHdp]⟩
      fun i hi => by rw [hHo hi]; exact ⟨rfl, rfl⟩
  have hlinkH : ∀ d, LinkedDir H d ↔ LinkedDir F d := by
    intro d
    unfold LinkedDir
    by_cases hdd : d = dp
    · rw [hdd, hHdp]
      exact Iff.rfl
    · rw [hHo hdd]
  have hname : ((F dp).ent k).name ≠ Xv6.dot :=
    (h.shaped.plain dp hdp k _ hk (by rw [FileView.getElem?_ents, if_pos hlt]) (by rwa [hin])).1
  have hnamesH : ∀ i, i ≠ 0 → names N H i + (if i = ip then 1 else 0) = names N F i := by
    intro i hi
    have hsum := names_edit hdir hdp (h.lt hdp).2 hlt.le Dirent.valid_empty hlinkH (by rw [hHdp])
      (fun d hd => by rw [hHo hd]) i
    rw [if_neg (fun hc => hi hc.1.symm : ¬ (Dirent.empty.inum = i ∧ _))] at hsum
    simpa only [hlt, hin, hname, true_and, ne_eq, not_false_eq_true, and_true, Nat.add_zero,
      eq_comm (a := ip)] using hsum
  have hshapedH : Shaped (LinkedDir F) H :=
    h.shaped.edit hedit hk (fun h0 => absurd rfl h0) (fun h0 => absurd rfl h0)
      (fun h0 => absurd rfl h0)
  have hupH : ∀ {d}, LinkedDir F d → (H d).up = (F d).up := fun hl => h.shaped.up_edit hedit hk hl
  have hnoH : ∀ d, LinkedDir F d → ∀ j, 2 ≤ j → ¬ (H d).Names j ip := by
    intro d hl j hj hn
    by_cases hc : d = dp ∧ j = k
    · obtain ⟨rfl, rfl⟩ := hc
      obtain ⟨h0, he⟩ := (hedit.names_self hl.1).mp hn
      exact h0 he.symm
    · have he : Edge F d j ip := ⟨hl, hj, (hedit.names_of_ne hl.1 hc).mp hn⟩
      exact hc (h.tree.unique ip hd d j dp k he hedge)
  -- No entry is left that names `ip`: its parent's is gone and it has no children.
  have hzero : names N H ip = 0 := by
    apply Finset.sum_eq_zero
    intro d _
    by_cases hl : LinkedDir F d
    · rw [share_of_linkedDir ((hlinkH d).mpr hl)]
      refine hshapedH.naming_zero hl ?_ (hnoH d hl) hip0
      rw [hupH hl]
      intro he
      by_cases hr : d = ROOTINO
      · rw [hr, h.tree.rootUp] at he
        exact hroot he.symm
      · obtain ⟨j, hj⟩ := h.tree.parent d hl hr
        rw [he] at hj
        exact hno j d hj
    · exact share_of_not fun hc => hl ((hlinkH d).mp hc)
  have hone : names N F ip = 1 := by
    have := hnamesH ip hip0
    rw [hzero, if_pos rfl] at this
    exact this.symm
  have hGipz : (G ip).nlink = 0 := by
    rw [hGip, h.counted.nlink ip hipl.typed, short_add_short, hone]
    decide
  have htwo := h.two_le_names hedge hd hno
  have hbound := h.counted.bound dp hdp.typed
  have hGdpn : (G dp).nlink = Xv6.short ((names N F dp - 1 : Nat) : Int) := by
    rw [hGdp, h.counted.nlink dp hdp.typed, short_add_short]
    congr 1
    omega
  have hGdpl : LinkedDir G dp := by
    refine ⟨by rw [(hsame dp).1, hHdp]; exact hdp.1, ?_⟩
    rw [hGdpn]
    exact short_ne_zero (by omega) (by omega)
  have hlink : ∀ d, LinkedDir G d ↔ LinkedDir F d ∧ d ≠ ip := by
    intro d
    by_cases hdi : d = ip
    · rw [hdi]
      exact ⟨fun hl => absurd hGipz hl.2, fun hc => absurd rfl hc.2⟩
    · by_cases hdd : d = dp
      · rw [hdd]
        exact ⟨fun _ => ⟨hdp, hne.symm⟩, fun _ => hGdpl⟩
      · have hiff : LinkedDir G d ↔ LinkedDir F d := by
          unfold LinkedDir
          rw [(hsame d).1, hGo hdd hdi, hHo hdd]
        rw [hiff]
        exact ⟨fun hl => ⟨hl, hdi⟩, And.left⟩
  have hnames : ∀ i, i ≠ 0 →
      names N G i + (if i = ip then 1 else 0) + (if i = dp then 1 else 0) = names N F i := by
    intro i hi
    have hchange := names_change (i := i) (G := G) (F := H) (h.lt hipl).2 (fun e he =>
      share_congr (by rw [hlink, hlinkH]; exact ⟨And.left, fun hl => ⟨hl, he⟩⟩)
        (fun _ => hsame.ents e))
    rw [share_of_not (fun hl => hl.2 hGipz), share_of_linkedDir ((hlinkH ip).mpr hipl), hHo hne,
      h.shaped.naming_empty hipl hempty hi, hup] at hchange
    have := hnamesH i hi
    simp only [eq_comm (a := dp)] at hchange
    omega
  have htype : ∀ i, (G i).type = (F i).type := fun i => by rw [(hsame i).1, hedit.type]
  refine ⟨⟨?_, ?_, ?_, ⟨?_, ?_⟩, ?_⟩, hlink, hnames⟩
  · exact hsame.dirs (h.dirs.update dp fun _ => FileView.setEnt_isDir hdir hlt.le _)
  · refine (hshapedH.congr hsame).restrict (fun d hl => ((hlink d).mp hl).1) ?_
    intro d hl j i hj hn hi
    have hl := ((hlink d).mp hl).1
    rw [(hsame i).1] at hi
    have hn := hsame.names_iff.mp hn
    refine (hlink i).mpr ⟨(hshapedH.kid d hl j i hj hn hi).1, ?_⟩
    rintro rfl
    exact hnoH d hl j hj hn
  · intro i hi
    rw [htype] at hi
    exact h.inum i hi
  · intro i hi
    rw [htype] at hi
    have hni := hnames i (by have := (h.inum i hi).1; omega)
    by_cases hii : i = ip
    · subst hii
      rw [hGipz, show names N G i = 0 by rw [hone] at hni; simp only [if_true] at hni; omega]
      decide
    · by_cases hid : i = dp
      · subst hid
        rw [hGdpn, show names N G i = names N F i - 1 by
          rw [if_neg hii, if_pos rfl] at hni; omega]
      · rw [hGo hid hii, h.counted.nlink i hi, ← hni, if_neg hii, if_neg hid]
        rfl
  · intro i hi
    rw [htype] at hi
    have hni := hnames i (by have := (h.inum i hi).1; omega)
    have := h.counted.bound i hi
    omega
  · refine h.tree.removeLeaf hroot hno hlink (fun d _ => by rw [htype]) (fun p j c => ?_)
      (fun d hl _ => by rw [hsame.up, hupH hl])
    constructor
    · rintro ⟨hl, hj, hn⟩
      have hl := ((hlink p).mp hl).1
      have hn := hsame.names_iff.mp hn
      have hc : c ≠ ip := by
        rintro rfl
        exact hnoH p hl j hj hn
      refine ⟨⟨hl, hj, ?_⟩, hc⟩
      refine (hedit.names_of_ne hl.1 ?_).mp hn
      rintro ⟨rfl, rfl⟩
      obtain ⟨h0, he⟩ := (hedit.names_self hl.1).mp hn
      exact h0 he.symm
    · rintro ⟨⟨hl, hj, hn⟩, hc⟩
      have hpi : p ≠ ip := by
        rintro rfl
        exact hno j c ⟨hl, hj, hn⟩
      refine ⟨(hlink p).mpr ⟨hl, hpi⟩, hj, hsame.names_iff.mpr ?_⟩
      refine (hedit.names_of_ne hl.1 ?_).mpr hn
      rintro ⟨rfl, rfl⟩
      exact hc ((FileView.names_iff.mp hn).2.2.symm.trans hin)

end Fs

end Xv6
