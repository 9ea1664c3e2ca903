import Xv6.FsBlocks

/-! Allocation and release of the blocks of an inode. The holder of an inode's lock works
on the in-memory copy, so the addresses that count are those of `inos`. -/

namespace Xv6

open BlockOwner Function StateProg

namespace Fs

variable {sb : Superblock} {A : FsPanic → Prop} {s t u : Fs} {ip bn k j ind : Nat} {data : Nat → Buffer}
  {f : Nat → Dinode} {d : Dinode}

def inos (s : Fs) (ip : Nat) : Nat → Dinode := update s.dinode ip (s.din ip)

theorem inos_self (s : Fs) (ip : Nat) : s.inos ip ip = s.din ip := update_self ..

structure Grew (ip : Nat) (s t : Fs) : Prop where
  dinode : t.dinode = s.dinode
  itable : t.itable = update s.itable ip { s.itable ip with din := t.din ip }
  keeps : Keeps ip s.data (s.inos ip) t.data (t.inos ip)

theorem Grew.refl (ip : Nat) (s : Fs) : Grew ip s s :=
  ⟨rfl, (update_eq_self ip s.itable).symm, Keeps.refl _ _ _⟩

theorem Grew.trans (h : Grew ip s t) (h' : Grew ip t u) : Grew ip s u where
  dinode := h'.dinode.trans h.dinode
  itable := by rw [h'.itable, h.itable, update_idem, update_self]
  keeps := h.keeps.trans h'.keeps

theorem Grew.same (h : Grew ip s t) : SameMeta (t.din ip) (s.din ip) := by
  have hs := h.keeps.same ip
  rwa [inos_self, inos_self] at hs

theorem balloc_spec : WpUpTo A (balloc sb) (fun r t =>
    r = 0 ∧ t = s ∧ free sb.size s.bitmap = 0 ∨
    s.bitmap r = false ∧ r < sb.size ∧ t = (s.setBit r true).setData r (fun _ => 0)) s := by
  apply upTo_bind_get
  cases hf : (List.range sb.size).find? (fun b => !s.bitmap b) with
  | none =>
    refine upTo_pure (.inl ⟨rfl, rfl, ?_⟩)
    rw [List.find?_eq_none] at hf
    exact List.countP_eq_zero.mpr hf
  | some b =>
    apply upTo_bind_modify
    refine upTo_pure (.inr ⟨?_, List.mem_range.mp (List.mem_of_find?_eq_some hf), rfl⟩)
    simpa using List.find?_some hf

/-- What `bmap` promises of its result `r` for block `bn`: nothing is allocated if there
is a block, and a result of 0 means that the disk is full. -/
structure Mapped (sb : Superblock) (ip bn : Nat) (s : Fs) (r : Nat) (t : Fs) : Prop where
  blocks : Blocks sb t.bitmap t.data (t.inos ip)
  grew : Grew ip s t
  kept : fileBlock s.data (s.din ip) bn ≠ 0 → t = s ∧ r = fileBlock s.data (s.din ip) bn
  room : free sb.size s.bitmap ≤ free sb.size t.bitmap + 2
  result : r = 0 ∧ free sb.size t.bitmap = 0 ∨ r ≠ 0 ∧ r = fileBlock t.data (t.din ip) bn

theorem Blocks.zero_marked (h : Blocks sb s.bitmap s.data (s.inos ip)) : s.bitmap 0 = true :=
  h.owned.reserved 0 sb.datastart_pos

theorem fillAddr_spec (h : Blocks sb s.bitmap s.data (s.inos ip)) (ht : (s.din ip).type ≠ .none)
    (hk : k ≤ NDIRECT) (hz : (s.din ip).addrs k = 0) :
    WpUpTo A (do
      let addr ← balloc sb
      if addr = 0 then pure 0
      else
        modify fun s => s.setAddr ip k addr
        pure addr) (fun r t => Blocks sb t.bitmap t.data (t.inos ip) ∧ Grew ip s t ∧
      free sb.size s.bitmap ≤ free sb.size t.bitmap + 1 ∧
      (r = 0 ∧ t = s ∧ free sb.size s.bitmap = 0 ∨ r ≠ 0 ∧ (t.din ip).addrs k = r ∧
        (k = NDIRECT → ∀ j, word (t.data r) j = 0))) s := by
  refine balloc_spec.bind fun r t hr => ?_
  rcases hr with ⟨rfl, rfl, hfree⟩ | ⟨hb, hlt, rfl⟩
  · exact upTo_pure ⟨h, Grew.refl _ _, by omega, .inl ⟨rfl, rfl, hfree⟩⟩
  · have hr0 : r ≠ 0 := by
      rintro rfl
      rw [h.zero_marked] at hb
      contradiction
    rw [if_neg hr0]
    apply upTo_bind_modify
    have hd : s.inos ip ip = s.din ip := inos_self s ip
    have hnew := h.allocAddr hb hlt (by rwa [hd]) hk (by rwa [hd])
    have hinos : (((s.setBit r true).setData r (fun _ => 0)).setAddr ip k r).inos ip =
        update (s.inos ip) ip ((s.inos ip ip).setAddr k r) := by
      simp only [inos, setAddr, setDin, setEntry, din, setData, setBit, update_self,
        update_idem]
    refine upTo_pure ⟨?_, ⟨rfl, ?_, ?_⟩, ?_, .inr ⟨hr0, ?_, ?_⟩⟩
    · rw [hinos]
      exact hnew.1
    · simp only [setAddr, setDin, setEntry, din, setData, setBit, update_self]
    · rw [hinos]
      exact hnew.2
    · exact Nat.le_of_eq (free_alloc hb hlt)
    · simp only [setAddr, setDin, setEntry, din, setData, setBit, update_self,
        Dinode.setAddr]
    · intro _ j
      simp only [setAddr, setDin, setEntry, setData, setBit, update_self, word_zero]

theorem fileBlock_direct (h : bn < NDIRECT) : fileBlock data d bn = d.addrs bn := by
  rw [fileBlock, slotOf, if_pos h, slotAddr, if_pos (Nat.le_of_lt h)]

theorem fileBlock_indirect (h : ¬ bn < NDIRECT) :
    fileBlock data d bn =
      if d.addrs NDIRECT = 0 then 0 else word (data (d.addrs NDIRECT)) (bn - NDIRECT) := by
  rw [fileBlock, slotOf, if_neg h, slotAddr, if_neg (by omega), Nat.add_sub_add_right]

theorem bmapIndirect_spec (h : Blocks sb s.bitmap s.data (s.inos ip))
    (ht : (s.din ip).type ≠ .none) : WpUpTo A (bmapIndirect sb ip) (fun r t =>
      Blocks sb t.bitmap t.data (t.inos ip) ∧ Grew ip s t ∧
      free sb.size s.bitmap ≤ free sb.size t.bitmap + 1 ∧
      ((s.din ip).addrs NDIRECT ≠ 0 → t = s ∧ r ≠ 0) ∧
      (r = 0 ∧ free sb.size t.bitmap = 0 ∨ r ≠ 0 ∧ (t.din ip).addrs NDIRECT = r)) s := by
  apply upTo_bind_get
  split
  · rename_i hz
    refine (fillAddr_spec h ht (Nat.le_refl _) hz).mono fun r t hr => ?_
    obtain ⟨hb, hg, hroom, hres⟩ := hr
    refine ⟨hb, hg, hroom, fun hne => absurd hz hne, ?_⟩
    rcases hres with ⟨hr, rfl, hfree⟩ | ⟨hr, haddr, -⟩
    · exact .inl ⟨hr, hfree⟩
    · exact .inr ⟨hr, haddr⟩
  · rename_i hz
    exact upTo_pure ⟨h, Grew.refl _ _, by omega, fun _ => ⟨rfl, hz⟩, .inr ⟨hz, rfl⟩⟩

theorem fillWord_spec (h : Blocks sb s.bitmap s.data (s.inos ip)) (ht : (s.din ip).type ≠ .none)
    (hj : j < NINDIRECT) (hind : (s.din ip).addrs NDIRECT = ind) (hne : ind ≠ 0)
    (hz : word (s.data ind) j = 0) :
    WpUpTo A (do
      let addr ← balloc sb
      if addr = 0 then pure 0
      else
        modify fun s => s.setData ind (setWord (s.data ind) j addr)
        pure addr) (fun r t => Blocks sb t.bitmap t.data (t.inos ip) ∧ Grew ip s t ∧
      free sb.size s.bitmap ≤ free sb.size t.bitmap + 1 ∧
      (r = 0 ∧ free sb.size t.bitmap = 0 ∨
        r ≠ 0 ∧ (t.din ip).addrs NDIRECT = ind ∧ word (t.data ind) j = r)) s := by
  refine balloc_spec.bind fun r t hr => ?_
  rcases hr with ⟨rfl, rfl, hfree⟩ | ⟨hb, hlt, rfl⟩
  · exact upTo_pure ⟨h, Grew.refl _ _, by omega, .inl ⟨rfl, hfree⟩⟩
  · have hr0 : r ≠ 0 := by
      rintro rfl
      rw [h.zero_marked] at hb
      contradiction
    rw [if_neg hr0]
    apply upTo_bind_modify
    have hd : s.inos ip ip = s.din ip := inos_self s ip
    have hindr : ind ≠ r := by
      have hir := h.indirect_ne (i := ip) (by rwa [hd]) hb
      rwa [hd, hind] at hir
    have hnew := h.allocWord hb hlt (by rwa [hd]) hj (by rwa [hd, hind]) (by rwa [hd, hind])
    rw [hd, hind] at hnew
    have hdata : (s.setBit r true |>.setData r (fun _ => 0)).data ind = s.data ind :=
      update_of_ne hindr _ _
    rw [hdata]
    refine upTo_pure ⟨hnew.1, ⟨rfl, ?_, hnew.2⟩, ?_, .inr ⟨hr0, hind, ?_⟩⟩
    · exact (update_eq_self ip s.itable).symm
    · exact Nat.le_of_eq (free_alloc hb hlt)
    · simp only [setData, update_self]
      exact word_setWord _ (Nat.lt_of_lt_of_le hlt sb.size_le)

theorem bmap_spec (h : Blocks sb s.bitmap s.data (s.inos ip)) (ht : (s.din ip).type ≠ .none)
    (hbn : bn < MAXFILE) : WpUpTo A (bmap sb ip bn) (Mapped sb ip bn s) s := by
  apply upTo_bind_get
  by_cases hdir : bn < NDIRECT
  · rw [if_pos hdir]
    split
    · rename_i hz
      refine (fillAddr_spec h ht (Nat.le_of_lt hdir) hz).mono fun r t hr => ?_
      obtain ⟨hb, hg, hroom, hres⟩ := hr
      refine ⟨hb, hg, fun hne => ?_, by omega, ?_⟩
      · rw [fileBlock_direct hdir] at hne
        exact absurd hz hne
      · rcases hres with ⟨hr, rfl, hfree⟩ | ⟨hr, haddr, -⟩
        · exact .inl ⟨hr, hfree⟩
        · exact .inr ⟨hr, by rw [fileBlock_direct hdir, haddr]⟩
    · rename_i hz
      have hblock : (s.din ip).addrs bn = fileBlock s.data (s.din ip) bn :=
        (fileBlock_direct hdir).symm
      exact upTo_pure ⟨h, Grew.refl _ _, fun _ => ⟨rfl, hblock⟩, by omega, .inr ⟨hz, hblock⟩⟩
  · have hj : bn - NDIRECT < NINDIRECT := by
      simp only [MAXFILE, NDIRECT, NINDIRECT, BSIZE] at hbn hdir ⊢
      omega
    rw [if_neg hdir, if_pos hj]
    refine (bmapIndirect_spec h ht).bind fun ind t hr => ?_
    obtain ⟨hb, hg, hroom, hkept, hres⟩ := hr
    have hkept' : fileBlock s.data (s.din ip) bn ≠ 0 → t = s ∧ ind ≠ 0 := by
      intro hne
      rw [fileBlock_indirect hdir] at hne
      split at hne
      · exact absurd rfl hne
      · exact hkept ‹_›
    rcases hres with ⟨hind, hfree⟩ | ⟨hind, haddr⟩
    · rw [if_pos hind]
      refine upTo_pure ⟨hb, hg, fun hne => ?_, by omega, .inl ⟨rfl, hfree⟩⟩
      exact absurd hind (hkept' hne).2
    · rw [if_neg hind]
      apply upTo_bind_get
      have hblock : fileBlock t.data (t.din ip) bn = word (t.data ind) (bn - NDIRECT) := by
        rw [fileBlock_indirect hdir, haddr, if_neg hind]
      split
      · rename_i hz
        refine (fillWord_spec hb (hg.same.type ▸ ht) hj haddr hind hz).mono fun r u hr => ?_
        obtain ⟨hb', hg', hroom', hres'⟩ := hr
        refine ⟨hb', hg.trans hg', fun hne => ?_, by omega, ?_⟩
        · rw [← (hkept' hne).1, hblock] at hne
          exact absurd hz hne
        · rcases hres' with hr | ⟨hr, haddr', hw⟩
          · exact .inl hr
          · refine .inr ⟨hr, ?_⟩
            rw [fileBlock_indirect hdir, haddr', if_neg hind, hw]
      · rename_i hz
        refine upTo_pure ⟨hb, hg, fun hne => ?_, by omega, .inr ⟨hz, hblock.symm⟩⟩
        obtain ⟨rfl, -⟩ := hkept' hne
        exact ⟨rfl, hblock.symm⟩

theorem bfree_spec {b : Nat} (hb : s.bitmap b = true) {Q : Unit → Fs → Prop}
    (hQ : Q () (s.setBit b false)) : WpUpTo A (bfree b) Q s := by
  apply upTo_bind_get
  rw [if_pos hb]
  exact upTo_modify hQ

structure Shrank (sb : Superblock) (ip : Nat) (s t : Fs) : Prop where
  data : t.data = s.data
  dinode : t.dinode = s.dinode
  itable : t.itable = update s.itable ip { s.itable ip with din := t.din ip }
  same : SameMeta (t.din ip) (s.din ip)
  room : free sb.size s.bitmap ≤ free sb.size t.bitmap

theorem Shrank.refl (sb : Superblock) (ip : Nat) (s : Fs) : Shrank sb ip s s :=
  ⟨rfl, rfl, (update_eq_self ip s.itable).symm, SameMeta.refl _, Nat.le_refl _⟩

theorem itable_setDin (h : t.itable = update s.itable ip { s.itable ip with din := t.din ip })
    (d : Dinode) : (t.setDin ip d).itable =
      update s.itable ip { s.itable ip with din := (t.setDin ip d).din ip } := by
  have hentry : t.itable ip = { s.itable ip with din := t.din ip } :=
    (congrFun h ip).trans (update_self ..)
  have hd : (t.setDin ip d).din ip = d := by
    simp only [setDin, setEntry, din, update_self]
  rw [hd]
  change update t.itable ip { t.itable ip with din := d } = _
  rw [hentry, h, update_idem]

theorem Shrank.clear (h : Shrank sb ip s t) (k b : Nat) :
    Shrank sb ip s ((t.setBit b false).setAddr ip k 0) where
  data := h.data
  dinode := h.dinode
  itable := itable_setDin h.itable _
  same := by
    have hd : ((t.setBit b false).setAddr ip k 0).din ip = (t.din ip).setAddr k 0 := by
      simp only [setAddr, setDin, setEntry, din, setBit, update_self]
    rw [hd]
    exact (sameMeta_setAddr _ _ _).trans h.same
  room := Nat.le_trans h.room (free_release b)

theorem own_clear_direct (hk : k < NDIRECT) :
    own data (update f ip ((f ip).setAddr k 0)) =
      update (own data f) (ip, k) 0 := by
  funext ⟨i, m⟩
  by_cases hi : i = ip
  · subst i
    by_cases hm : m = k
    · subst m
      rw [update_self, own, update_self, slotAddr, if_pos (Nat.le_of_lt hk)]
      simp only [Dinode.setAddr, update_self, ite_self]
    · rw [update_of_ne (fun he => hm (congrArg Prod.snd he))]
      refine own_congr (by rw [update_self]; rfl) fun _ => ?_
      have h12 : ((f ip).setAddr k 0).addrs NDIRECT = (f ip).addrs NDIRECT :=
        update_of_ne (by omega) _ _
      rw [update_self]
      unfold slotAddr
      rw [h12]
      split
      · exact update_of_ne hm _ _
      · rfl
  · rw [update_of_ne (fun he => hi (congrArg Prod.fst he))]
    exact own_congr (by rw [update_of_ne hi]) fun _ => by rw [update_of_ne hi]

theorem itruncDirect_spec (hr : Shrank sb ip s t) (ht : (s.din ip).type ≠ .none)
    (ho : Owned sb.datastart sb.size t.bitmap (own t.data (t.inos ip))) (hj : j < NDIRECT) :
    WpUpTo A (itruncDirect ip j) (fun r u => r = none ∧ Shrank sb ip s u ∧
      Owned sb.datastart sb.size u.bitmap (own u.data (u.inos ip)) ∧
      (∀ k, (u.din ip).addrs k = if k = j then 0 else (t.din ip).addrs k)) t := by
  apply upTo_bind_get
  split
  · rename_i hz
    refine upTo_pure ⟨rfl, hr, ho, fun k => ?_⟩
    split
    · rw [‹k = j›, hz]
    · rfl
  · rename_i hz
    have hown : own t.data (t.inos ip) (ip, j) = (t.din ip).addrs j := by
      rw [own_of_type (by rw [inos_self, hr.same.type]; exact ht)
        (Nat.le_trans (Nat.le_of_lt hj) (by decide)), inos_self, slotAddr,
        if_pos (Nat.le_of_lt hj)]
    apply upTo_bind
    refine bfree_spec (by rw [← hown]; exact ho.marked _ (by rwa [hown])) ?_
    apply upTo_bind_modify
    refine upTo_pure ⟨rfl, hr.clear j _, ?_, fun k => ?_⟩
    · have hrel := ho.release (p := (ip, j)) (by rwa [hown])
      rw [hown, ← own_clear_direct hj, inos_self] at hrel
      have hinos : ((t.setBit ((t.din ip).addrs j) false).setAddr ip j 0).inos ip =
          update (t.inos ip) ip ((t.din ip).setAddr j 0) := by
        simp only [inos, setAddr, setDin, setEntry, din, setBit, update_self,
          update_idem]
      rw [hinos]
      exact hrel
    · simp only [setAddr, setDin, setEntry, din, setBit, update_self, Dinode.setAddr,
        update_apply]

/-- The slots that are left when the first `j` words of the indirect block were freed. -/
def ownAfter (f : Nat × Nat → Nat) (ip j : Nat) (p : Nat × Nat) : Nat :=
  if p.1 = ip ∧ NDIRECT < p.2 ∧ p.2 < NDIRECT + 1 + j then 0 else f p

theorem ownAfter_succ (f : Nat × Nat → Nat) (ip j : Nat) :
    ownAfter f ip (j + 1) = update (ownAfter f ip j) (ip, NDIRECT + 1 + j) 0 := by
  funext ⟨i, m⟩
  by_cases hp : (i, m) = (ip, NDIRECT + 1 + j)
  · rw [hp, update_self, ownAfter, if_pos ⟨rfl, by simp only; omega, by simp only; omega⟩]
  · rw [update_of_ne hp]
    unfold ownAfter
    simp only
    congr 1
    apply propext
    constructor
    · rintro ⟨rfl, h1, h2⟩
      have hm : m ≠ NDIRECT + 1 + j := by
        rintro rfl
        exact hp rfl
      exact ⟨rfl, h1, by omega⟩
    · rintro ⟨h1, h2, h3⟩
      exact ⟨h1, h2, by omega⟩

theorem itruncIndirect_spec {f : Nat × Nat → Nat} (hfree : free sb.size s.bitmap ≤
      free sb.size t.bitmap) (hs : t = { s with bitmap := t.bitmap })
    (ho : Owned sb.datastart sb.size t.bitmap (ownAfter f ip j))
    (hf : f (ip, NDIRECT + 1 + j) = word (s.data ind) j) :
    WpUpTo A (itruncIndirect ind j) (fun r u => r = none ∧
      free sb.size s.bitmap ≤ free sb.size u.bitmap ∧ u = { s with bitmap := u.bitmap } ∧
      Owned sb.datastart sb.size u.bitmap (ownAfter f ip (j + 1))) t := by
  have hdata : t.data = s.data := by rw [hs]
  have hat : ownAfter f ip j (ip, NDIRECT + 1 + j) = word (s.data ind) j := by
    rw [ownAfter, if_neg (by simp), hf]
  apply upTo_bind_get
  rw [hdata]
  split
  · rename_i hz
    refine upTo_pure ⟨rfl, hfree, hs, ?_⟩
    rw [ownAfter_succ, ← hz, ← hat, update_eq_self]
    exact ho
  · rename_i hz
    apply upTo_bind
    refine bfree_spec (by rw [← hat]; exact ho.marked _ (by rwa [hat])) ?_
    refine upTo_pure ⟨rfl, Nat.le_trans hfree (free_release _), ?_, ?_⟩
    · rw [hs]
      rfl
    · have hrel := ho.release (p := (ip, NDIRECT + 1 + j)) (by rwa [hat])
      rwa [hat, ← ownAfter_succ] at hrel

theorem itruncDirect_loop (h : Blocks sb s.bitmap s.data (s.inos ip))
    (ht : (s.din ip).type ≠ .none) : WpUpTo A (loop NDIRECT (itruncDirect ip)) (fun _ t =>
      Shrank sb ip s t ∧ Owned sb.datastart sb.size t.bitmap (own t.data (t.inos ip)) ∧
      ∀ k, k < NDIRECT → (t.din ip).addrs k = 0) s := by
  refine upTo_loop (fun j t => Shrank sb ip s t ∧
    Owned sb.datastart sb.size t.bitmap (own t.data (t.inos ip)) ∧
    ∀ k, k < j → (t.din ip).addrs k = 0) ⟨Shrank.refl sb ip s, h.owned, by simp⟩ ?_ ?_
  · rintro j t hj ⟨hr, ho, hz⟩
    refine (itruncDirect_spec hr ht ho hj).mono ?_
    rintro _ u ⟨rfl, hr', ho', hz'⟩
    refine ⟨hr', ho', fun k hk => ?_⟩
    rw [hz']
    split
    · rfl
    · exact hz k (by omega)
  · rintro t ⟨hr, ho, hz⟩
    exact ⟨hr, ho, hz⟩

theorem own_of_beyond {i : Nat} (hk : ¬ k ≤ MAXFILE) :
    own data f (i, k) = 0 := if_neg fun h => hk h.1

theorem own_clear_indirect :
    own data (update f ip ((f ip).setAddr NDIRECT 0)) =
      update (ownAfter (own data f) ip NINDIRECT) (ip, NDIRECT) 0 := by
  have h12 : ((f ip).setAddr NDIRECT 0).addrs NDIRECT = 0 := by
    simp only [Dinode.setAddr, update_self]
  funext x
  obtain ⟨i, m⟩ := x
  by_cases hi : i = ip
  · subst i
    by_cases hm : m = NDIRECT
    · rw [hm, update_self, own, update_self, slotAddr, if_pos (Nat.le_refl _),
        h12, ite_self]
    · rw [update_of_ne (fun he => hm (congrArg Prod.snd he)), ownAfter]
      by_cases hin : NDIRECT < m
      · by_cases hmax : m ≤ MAXFILE
        · have hslot : slotAddr data ((f ip).setAddr NDIRECT 0) m = 0 := by
            rw [slotAddr, if_neg (by omega), if_pos h12]
          have hlt : m < NDIRECT + 1 + NINDIRECT := by
            simp only [MAXFILE, NDIRECT, NINDIRECT, BSIZE] at hmax ⊢
            omega
          rw [if_pos ⟨rfl, hin, hlt⟩, own, update_self, hslot, ite_self]
        · rw [own_of_beyond hmax, own_of_beyond hmax, ite_self]
      · rw [if_neg (fun hp => hin hp.2.1)]
        refine own_congr (by rw [update_self]; rfl) fun _ => ?_
        rw [update_self, slotAddr, slotAddr, if_pos (by omega), if_pos (by omega)]
        exact update_of_ne hm _ _
  · rw [update_of_ne (fun he => hi (congrArg Prod.fst he)), ownAfter,
      if_neg (fun hp => hi hp.1)]
    exact own_congr (by rw [update_of_ne hi]) fun _ => by rw [update_of_ne hi]

theorem itruncList_spec (hr : Shrank sb ip s t) (ht : (s.din ip).type ≠ .none)
    (ho : Owned sb.datastart sb.size t.bitmap (own t.data (t.inos ip)))
    (hz : ∀ k, k < NDIRECT → (t.din ip).addrs k = 0) : WpUpTo A (itruncList ip) (fun _ u =>
      Shrank sb ip s u ∧ Owned sb.datastart sb.size u.bitmap (own u.data (u.inos ip)) ∧
      ∀ k, k ≤ NDIRECT → (u.din ip).addrs k = 0) t := by
  have htt : (t.inos ip ip).type ≠ .none := by
    rw [inos_self, hr.same.type]
    exact ht
  apply upTo_bind_get
  dsimp only
  split
  · rename_i hind
    refine upTo_pure ⟨hr, ho, fun k hk => ?_⟩
    rcases Nat.lt_or_eq_of_le hk with hk | rfl
    · exact hz k hk
    · exact hind
  · rename_i hind
    have hstart : ownAfter (own t.data (t.inos ip)) ip 0 = own t.data (t.inos ip) := by
      funext p
      exact if_neg fun hp => by omega
    refine (upTo_loop (fun j u => free sb.size t.bitmap ≤ free sb.size u.bitmap ∧
      u = { t with bitmap := u.bitmap } ∧ Owned sb.datastart sb.size u.bitmap
        (ownAfter (own t.data (t.inos ip)) ip j)) (K := fun _ u =>
      free sb.size t.bitmap ≤ free sb.size u.bitmap ∧
      u = { t with bitmap := u.bitmap } ∧ Owned sb.datastart sb.size u.bitmap
        (ownAfter (own t.data (t.inos ip)) ip NINDIRECT))
      ⟨Nat.le_refl _, rfl, by rw [hstart]; exact ho⟩ ?_ ?_).bind ?_
    · rintro j u hj ⟨hfree, hs, ho'⟩
      have hword : own t.data (t.inos ip) (ip, NDIRECT + 1 + j) =
          word (t.data ((t.din ip).addrs NDIRECT)) j := by
        rw [own_of_type htt (by simp only [MAXFILE]; omega), inos_self, slotAddr,
          if_neg (by omega), if_neg hind, Nat.add_sub_cancel_left]
      refine (itruncIndirect_spec hfree hs ho' hword).mono ?_
      rintro _ v ⟨rfl, hv⟩
      exact hv
    · rintro u hu
      exact hu
    · rintro _ u ⟨hfree, hs, ho'⟩
      have hown : ownAfter (own t.data (t.inos ip)) ip NINDIRECT (ip, NDIRECT) =
          (t.din ip).addrs NDIRECT := by
        rw [ownAfter, if_neg (by simp), own_indirect htt, inos_self]
      have hrel := ho'.release (p := (ip, NDIRECT)) (by rwa [hown])
      apply upTo_bind
      refine bfree_spec (by rw [← hown]; exact ho'.marked _ (by rwa [hown])) ?_
      apply upTo_modify
      have hru : Shrank sb ip s u := by
        rw [hs]
        exact ⟨hr.data, hr.dinode, hr.itable, hr.same, Nat.le_trans hr.room hfree⟩
      refine ⟨hru.clear NDIRECT _, ?_, ?_⟩
      · rw [hown, ← own_clear_indirect, inos_self] at hrel
        have hinos : ((u.setBit ((t.din ip).addrs NDIRECT) false).setAddr ip NDIRECT 0).inos ip =
            update (t.inos ip) ip ((t.din ip).setAddr NDIRECT 0) := by
          rw [hs]
          simp only [inos, setAddr, setDin, setEntry, din, setBit, update_self,
            update_idem]
        have hdata : u.data = t.data := by rw [hs]
        rw [hinos]
        change Owned _ _ _ (own u.data _)
        rw [hdata]
        exact hrel
      · intro k hk
        have hdin : u.din ip = t.din ip := by rw [hs]; rfl
        simp only [setAddr, setDin, setEntry, din, setBit, update_self, Dinode.setAddr,
          update_apply]
        split
        · rfl
        · change (u.din ip).addrs k = 0
          rw [hdin]
          exact hz k (by omega)

structure Truncated (sb : Superblock) (ip : Nat) (s t : Fs) : Prop where
  blocks : Blocks sb t.bitmap t.data t.dinode
  data : t.data = s.data
  dinode : t.dinode = update s.dinode ip (t.din ip)
  itable : t.itable = update s.itable ip { s.itable ip with din := t.din ip }
  same : SameMeta (t.din ip) { s.din ip with size := 0 }
  cleared : ∀ k, k ≤ NDIRECT → (t.din ip).addrs k = 0
  room : free sb.size s.bitmap ≤ free sb.size t.bitmap

theorem itrunc_spec (h : Blocks sb s.bitmap s.data (s.inos ip)) (ht : (s.din ip).type ≠ .none) :
    WpUpTo A (itrunc ip) (fun _ => Truncated sb ip s) s := by
  refine (itruncDirect_loop h ht).bind ?_
  rintro _ t ⟨hr, ho, hz⟩
  refine (itruncList_spec hr ht ho hz).bind ?_
  rintro _ u ⟨hr', ho', hz'⟩
  apply upTo_bind_modify
  apply upTo_modify
  have hdin : ∀ d, (u.setDin ip d).din ip = d := by
    intro d
    simp only [setDin, setEntry, din, update_self]
  have hfinal : ∀ d, ((u.setDin ip d).setDinode ip d).din ip = d := hdin
  have hother : ∀ i, i ≠ ip → s.inos ip i = s.dinode i := fun i hi => update_of_ne hi _ _
  rw [hdin]
  refine ⟨?_, hr'.data, ?_, ?_, ?_, ?_, hr'.room⟩
  · -- the slots did not change when the size was set to 0
    have hown : own u.data (update u.dinode ip { u.din ip with size := 0 }) =
        own u.data (u.inos ip) := by
      have hset : own u.data (update (u.inos ip) ip { u.din ip with size := 0 }) =
          own u.data (u.inos ip) :=
        own_setInode (by rw [inos_self]) fun k _ => by rw [inos_self]; rfl
      rwa [inos, update_idem] at hset
    refine ⟨?_, ?_, ?_⟩
    · change Owned _ _ _ (own u.data (update u.dinode ip _))
      rw [hown]
      exact ho'
    · intro i hti bn hbn
      by_cases hi : i = ip
      · subst i
        simp [setDinode] at hbn
      · simp only [setDinode, setDin, setEntry, update_of_ne hi, hr'.dinode, hr'.data]
          at hti hbn ⊢
        have hfull := h.full i
        rw [hother i hi] at hfull
        exact hfull hti bn hbn
    · intro i hti
      by_cases hi : i = ip
      · subst i
        simp [setDinode]
      · simp only [setDinode, setDin, setEntry, update_of_ne hi, hr'.dinode] at hti ⊢
        have hfits := h.fits i
        rw [hother i hi] at hfits
        exact hfits hti
  · rw [hfinal]
    change update u.dinode ip _ = _
    rw [hr'.dinode]
  · exact itable_setDin hr'.itable _
  · rw [hfinal]
    exact ⟨hr'.same.type, hr'.same.major, hr'.same.minor, hr'.same.nlink, rfl⟩
  · rw [hfinal]
    exact hz'

end Fs

end Xv6
