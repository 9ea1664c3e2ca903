import Xv6.FsNamex

/-! What `create`, `sys_link` and `sys_unlink` do to the inodes, on every way through
them. -/

namespace Xv6

open BlockOwner Function StateProg

theorem short_sub_add {n : Int} (h : short n = n) (d : Int) : short (short (n + d) + -d) = n := by
  rw [short, short, Int.bmod_add_bmod, Int.add_neg_cancel_right]
  exact h

namespace Fs

variable {sb : Superblock} {A : FsPanic → Prop} {s t : Fs} {ip dp d : Nat} {refs lk : List Nat}
  {F G : Nat → FileView} {cwd : Nat} {name : Name} {path : Path}

def drop (F : Nat → FileView) (refs : List Nat) (i : Nat) : Nat → FileView :=
  if (F i).type ≠ .none ∧ (F i).nlink = 0 ∧ i ∉ refs then update F i FileView.free else F

theorem drop_spare (h : Spare F refs ip) : drop F refs ip = F :=
  if_neg fun hc => hc.2.2 (h hc.1 hc.2.1)

theorem iput_drop (h : Good sb s (ip :: refs) lk) (hl : ip ∉ lk) : WpUpTo A (iput ip)
    (fun _ t => Good sb t refs lk ∧ t.files = drop s.files refs ip ∧
      free sb.size s.bitmap ≤ free sb.size t.bitmap ∧ ∀ p, p.1 ≠ ip → t.slots p = s.slots p) s := by
  refine (iput_spec h hl).mono ?_
  rintro _ t ⟨hg, hroom, ⟨hs, hk⟩ | ⟨ht, hn, hr, hf, hsl⟩⟩
  · refine ⟨hg, ?_, hroom, fun p _ => by rw [hs.slots]⟩
    rw [hs.files, drop_spare]
    intro ht hn
    rw [files_type] at ht
    rw [files_nlink ht] at hn
    exact hk ht hn
  · refine ⟨hg, ?_, hroom, hsl⟩
    rw [hf, drop, if_pos ⟨by rwa [files_type], by rwa [files_nlink ht], hr⟩]

theorem iunlockput_drop (h : Good sb s (ip :: refs) (ip :: lk)) (hl : ip ∉ lk) :
    WpUpTo A (iunlockput ip) (fun _ t => Good sb t refs lk ∧ t.files = drop s.files refs ip ∧
      free sb.size s.bitmap ≤ free sb.size t.bitmap ∧ ∀ p, p.1 ≠ ip → t.slots p = s.slots p) s := by
  refine (iunlock_spec h hl).bind ?_
  rintro _ t ⟨hg, hs⟩
  refine (iput_drop hg hl).mono ?_
  rintro _ u ⟨hgu, hf, hroom⟩
  rw [hs.files] at hf
  rw [hs.bitmap, hs.slots] at hroom
  exact ⟨hgu, hf, hroom⟩

/-- What a call may rely on: no inode is locked, and the references that processes hold
are to inodes in use. -/
structure Ready (sb : Superblock) (A : FsPanic → Prop) (s : Fs) (held : List Nat) (cwd : Nat) :
    Prop where
  good : Good sb s held []
  dirs : Dirs s.files
  sound : Sound A s.files
  typed : ∀ i ∈ held, (s.files i).type ≠ .none
  cwd : cwd ∈ held
  root : (s.files ROOTINO).type ≠ .none ∨ A .ilockNoType

def SameTree (F G : Nat → FileView) : Prop :=
  ∀ i, (G i).type = (F i).type ∧ (G i).size = (F i).size ∧ (G i).byte = (F i).byte

theorem SameTree.ent (h : SameTree F G) (i k : Nat) : (G i).ent k = (F i).ent k := by
  simp only [FileView.ent, FileView.slice, (h i).2.2]

theorem SameTree.ents (h : SameTree F G) (i : Nat) : (G i).ents = (F i).ents := by
  rw [FileView.ents, FileView.ents, (h i).2.1]
  exact List.map_congr_left fun k _ => h.ent i k

theorem SameTree.find (h : SameTree F G) (i : Nat) (name : Name) :
    (G i).find name = (F i).find name := by
  rw [FileView.find, FileView.find, h.ents]

theorem SameTree.dirs (h : SameTree F G) (hd : Dirs F) : Dirs G := by
  intro i ht
  rw [(h i).1] at ht
  exact ⟨by rw [(h i).1, ht], by rw [(h i).2.1]; exact (hd i ht).size⟩

theorem SameTree.sound (h : SameTree F G) (hs : Sound A F) : Sound A G := by
  rcases hs with hs | hs
  · refine .inl fun d ht e he hne => ?_
    rw [(h d).1] at ht
    rw [h.ents] at he
    rw [(h _).1]
    exact hs d ht e he hne
  · exact .inr hs

theorem SameTree.walk (h : SameTree F G) (parent : Bool) : ∀ fuel ip path name,
    walk G parent fuel ip path name = walk F parent fuel ip path name := by
  intro fuel
  induction fuel with
  | zero => intro ip path name; rfl
  | succ fuel ih =>
    intro ip path name
    simp only [Fs.walk, lookup, (h ip).1, h.find, h.ent, ih]

theorem SameTree.resolve (h : SameTree F G) (cwd : Nat) (path : Path) (parent : Bool) :
    resolve G cwd path parent = resolve F cwd path parent := h.walk ..

theorem sameTree_nlink (F : Nat → FileView) (i : Nat) (n : Int) :
    SameTree F (update F i { F i with nlink := n }) := by
  intro j
  by_cases hj : j = i
  · rw [hj, update_self]
    exact ⟨rfl, rfl, rfl⟩
  · rw [update_of_ne hj]
    exact ⟨rfl, rfl, rfl⟩

theorem skipelem_valid {path rest : List UInt8} (hp : ∀ b ∈ path, b ≠ 0)
    (h : skipelem path = some (name, rest)) : Name.Valid name ∧ ∀ b ∈ rest, b ≠ 0 := by
  unfold skipelem at h
  dsimp only at h
  split at h
  · contradiction
  · simp only [Option.some.injEq, Prod.mk.injEq] at h
    obtain ⟨rfl, rfl⟩ := h
    have hdrop : ∀ b ∈ path.dropWhile (fun c => decide (c = slash)), b ≠ 0 :=
      fun b hb => hp b ((List.dropWhile_sublist _).subset hb)
    refine ⟨⟨List.length_take_le _ _, fun b hb => hdrop b ?_⟩, fun b hb => hdrop b ?_⟩
    · exact (List.takeWhile_sublist _).subset (List.mem_of_mem_take hb)
    · exact (List.dropWhile_sublist _).subset ((List.dropWhile_sublist _).subset hb)

theorem walk_valid : ∀ fuel ip path name, (∀ b ∈ path, b ≠ 0) → ∀ {d : Nat} {n : Name},
    walk F true fuel ip path name = some (d, n) → Name.Valid n ∧ (F d).type = .dir := by
  intro fuel
  induction fuel with
  | zero =>
    intro ip path name _ d n h
    simp [walk] at h
  | succ fuel ih =>
    intro ip path name hp d n h
    unfold walk at h
    cases hskip : skipelem path with
    | none => simp [hskip] at h
    | some elem =>
      obtain ⟨name', rest⟩ := elem
      obtain ⟨hvalid, hrest⟩ := skipelem_valid hp hskip
      simp only [hskip] at h
      split at h
      · contradiction
      · rename_i hdir
        push Not at hdir
        split at h
        · simp only [Option.some.injEq, Prod.mk.injEq] at h
          exact ⟨h.2 ▸ hvalid, h.1 ▸ hdir⟩
        · split at h
          · contradiction
          · exact ih _ _ _ hrest h

theorem resolve_valid (h : resolve F cwd path true = some (d, name)) : Name.Valid name :=
  (walk_valid _ _ _ _ path.nonzero h).1

theorem resolve_dir (h : resolve F cwd path true = some (d, name)) : (F d).type = .dir :=
  (walk_valid _ _ _ _ path.nonzero h).2

theorem Ready.namex (h : Ready sb A s refs cwd) (hA : Room A (refs.length + 1)) (path : Path)
    (parent : Bool) :
    WpUpTo A (Fs.namex sb cwd path.bytes parent) (fun r t =>
      r = Fs.resolve s.files cwd path parent ∧ Found sb A s refs parent r t) s :=
  namex_resolve h.good hA h.dirs h.sound h.cwd (h.typed _ h.cwd) h.root path parent

theorem Ready.nameiparent (h : Ready sb A s refs cwd) (hA : Room A (refs.length + 1)) (path : Path) :
    WpUpTo A (Fs.nameiparent sb cwd path) (fun r t =>
      r = Fs.resolve s.files cwd path true ∧ Found sb A s refs true r t) s :=
  h.namex hA path true

theorem Ready.namei (h : Ready sb A s refs cwd) (hA : Room A (refs.length + 1)) (path : Path) :
    WpUpTo A (Fs.namei sb cwd path) (fun r t =>
      r = (Fs.resolve s.files cwd path false).map Prod.fst ∧ SameDisk s t ∧
        match r with
        | none => Good sb t refs []
        | some i => Good sb t (i :: refs) [] ∧ Spare s.files refs i ∧
          ((s.files i).type ≠ .none ∨ A .ilockNoType)) s := by
  refine (h.namex hA path false).bind ?_
  rintro r t ⟨rfl, hs, hfound⟩
  refine upTo_pure ⟨rfl, hs, ?_⟩
  cases hr : resolve s.files cwd path false with
  | none => simpa only [hr, Option.map_none] using hfound
  | some e =>
    simp only [hr] at hfound
    exact ⟨hfound.1, hfound.2.1, hfound.2.2.1⟩

def relink (F : Nat → FileView) (ip : Nat) (d : Int) : Nat → FileView :=
  update F ip { F ip with nlink := Xv6.short ((F ip).nlink + d) }

theorem sameTree_relink (F : Nat → FileView) (ip : Nat) (d : Int) : SameTree F (relink F ip d) :=
  sameTree_nlink F ip _

theorem relink_self (F : Nat → FileView) (ip : Nat) (d : Int) :
    relink F ip d ip = { F ip with nlink := Xv6.short ((F ip).nlink + d) } :=
  update_self ..

theorem relink_of_ne (F : Nat → FileView) {i : Nat} (hi : i ≠ ip) (d : Int) :
    relink F ip d i = F i := update_of_ne hi _ _

theorem relink_back (hn : Xv6.short (F ip).nlink = (F ip).nlink) (d : Int) :
    relink (relink F ip d) ip (-d) = F := by
  have hback := short_sub_add hn d
  rw [relink, relink_self, relink, update_idem]
  simp only [hback]
  exact update_eq_self ip F

theorem sysLinkBad_spec (hg : Good sb s (ip :: refs) [])
    (hn : Xv6.short (F ip).nlink = (F ip).nlink) (hf : s.files = relink F ip 1)
    (ht : (F ip).type ≠ .none) (hk : Spare F refs ip) :
    WpUpTo A (sysLinkBad ip) (fun r t => r = -1 ∧ Good sb t refs [] ∧ t.files = F ∧
      t.bitmap = s.bitmap) s := by
  refine (ilock_spec hg List.mem_cons_self (by simp) (.inl ?_)).bind ?_
  · rw [← files_type, hf, relink_self]
    exact ht
  rintro _ t ⟨hgt, hst, -⟩
  refine (addLink_spec hgt List.mem_cons_self (-1)).bind ?_
  rintro _ u ⟨hgu, hbm, hfu⟩
  have hback : u.files = F := by
    rw [hfu, hst.files, hf]
    exact relink_back hn 1
  refine (iunlockput_spare hgu (by rwa [hback]) (by simp)).bind ?_
  rintro _ v ⟨hgv, hsv⟩
  refine upTo_pure ⟨rfl, hgv, by rw [hsv.files, hback], ?_⟩
  rw [hsv.bitmap, hbm, hst.bitmap]

structure LinkMade (sb : Superblock) (s : Fs) (held : List Nat) (ip dp : Nat) (name : Name)
    (t : Fs) : Prop where
  notDir : (s.files ip).type ≠ .dir
  typed : (s.files ip).type ≠ .none
  parent : (s.files dp).type = .dir
  absent : (s.files dp).find name = none
  valid : Name.Valid name
  entry : ∃ k, k ≤ (s.files dp).ents.length ∧
    (k < (s.files dp).ents.length → ((s.files dp).ent k).inum = 0) ∧
    free sb.size s.bitmap ≤ free sb.size t.bitmap + slotCost (s.files dp) k ∧
    t.files = drop (update (relink s.files ip 1) dp ((s.files dp).setEnt k ⟨ip, name⟩))
      held ip

def LinkFails (sb : Superblock) (F : Nat → FileView) (cwd : Nat) (new : Path) (t : Fs) : Prop :=
  ∀ dp name, resolve F cwd new true = some (dp, name) → (F dp).find name = none →
    free sb.size t.bitmap = 0 ∨ MAXFILE * BSIZE < (F dp).size + DESIZE

theorem linkEntry_spec (h : Ready sb A s refs cwd) (hA : Room A (refs.length + 2))
    (hnotdir : (s.files ip).type ≠ .dir) (htyped : (s.files ip).type ≠ .none)
    (hk : Spare s.files refs ip) (hg : Good sb t (ip :: refs) [])
    (hf : t.files = relink s.files ip 1) (hb : t.bitmap = s.bitmap) (new : Path) :
    WpUpTo A (linkEntry sb cwd ip new) (fun r u => Good sb u refs [] ∧
      (r = -1 ∧ u.files = s.files ∧ LinkFails sb s.files cwd new u ∨
        r = 0 ∧ ∃ dp name, resolve s.files cwd new true = some (dp, name) ∧
          LinkMade sb s refs ip dp name u)) t := by
  have htree := sameTree_relink s.files ip 1
  have hino : (s.dinode ip).type ≠ .none := by rwa [← files_type]
  have hshort : Xv6.short (s.files ip).nlink = (s.files ip).nlink := by
    rw [files_nlink hino]
    exact h.good.short ip
  have hlt : ip < 2 ^ 16 := Nat.lt_of_lt_of_le (h.good.inum ip hino).2 sb.ninodes_le
  have hready : Ready sb A t (ip :: refs) cwd := by
    refine ⟨hg, ?_, ?_, fun i hi => ?_, List.mem_cons_of_mem _ h.cwd, ?_⟩
    · rw [hf]
      exact htree.dirs h.dirs
    · rw [hf]
      exact htree.sound h.sound
    · rw [hf, (htree i).1]
      rcases List.mem_cons.mp hi with rfl | hi
      · exact htyped
      · exact h.typed i hi
    · rw [hf, (htree _).1]
      exact h.root
  refine (hready.nameiparent hA new).bind ?_
  rintro r x ⟨rfl, hsx, hfound⟩
  rw [hf, htree.resolve] at hfound ⊢
  have hfx : x.files = relink s.files ip 1 := by rw [hsx.files, hf]
  cases hnew : resolve s.files cwd new true with
  | none =>
    simp only [hnew] at hfound ⊢
    refine (sysLinkBad_spec hfound hshort hfx htyped hk).mono ?_
    rintro _ y ⟨rfl, hgy, hfy, -⟩
    refine ⟨hgy, .inl ⟨rfl, hfy, ?_⟩⟩
    intro dp name h3
    rw [hnew] at h3
    contradiction
  | some e =>
    obtain ⟨dp, name⟩ := e
    simp only [hnew] at hfound ⊢
    obtain ⟨hgx, hkd, -, hdir'⟩ := hfound
    have hdir : (s.files dp).type = .dir := by
      rw [← (htree dp).1]
      exact hdir' trivial
    have hne : dp ≠ ip := by
      rintro rfl
      exact hnotdir hdir
    have hxd : x.files dp = s.files dp := by rw [hfx, relink_of_ne _ hne]
    refine (ilock_spec hgx List.mem_cons_self (by simp) (.inl ?_)).bind ?_
    · rw [← files_type, hxd, hdir]
      decide
    rintro _ y ⟨hgy, hsy, -⟩
    have hyd : y.files dp = s.files dp := by rw [hsy.files, hxd]
    have hfy : y.files = relink s.files ip 1 := by rw [hsy.files, hfx]
    have hby : y.bitmap = s.bitmap := by rw [hsy.bitmap, hsx.bitmap, hb]
    have hde : (Dirent.mk ip name).Valid := ⟨hlt, resolve_valid hnew⟩
    refine (dirlink_spec hgy List.mem_cons_self (by rw [hyd]; exact h.dirs dp hdir) hA hde).bind ?_
    rw [hyd]
    rintro r z ⟨hgz, -, ⟨rfl, hfz, hfail⟩ | ⟨rfl, hlink⟩⟩
    · rw [hfy] at hfz
      simp only [Bool.false_eq_true, if_false]
      refine (iunlockput_spare hgz (by rw [hfz]; exact hkd) (by simp)).bind ?_
      rintro _ a ⟨hga, hsa⟩
      refine (sysLinkBad_spec hga hshort (by rw [hsa.files, hfz]) htyped hk).mono ?_
      rintro _ b ⟨rfl, hgb, hfb, hbb⟩
      refine ⟨hgb, .inl ⟨rfl, hfb, ?_⟩⟩
      intro dp' name' h3 h4
      rw [hnew, Option.some.injEq, Prod.mk.injEq] at h3
      obtain ⟨rfl, rfl⟩ := h3
      rw [hbb, hsa.bitmap]
      exact hfail.resolve_left fun hf => hf h4
    · obtain ⟨habsent, k, hk1, hk2, hroom, hfz⟩ := hlink
      rw [hyd] at habsent hk1 hk2 hroom hfz
      rw [hfy] at hfz
      simp only [if_true]
      have hspare : Spare z.files (ip :: refs) dp := by
        intro h1 h2
        rw [hfz, update_self] at h2
        refine hkd (by rw [(htree dp).1, hdir]; decide) ?_
        rw [relink_of_ne _ hne]
        exact h2
      refine (iunlockput_spare hgz hspare (by simp)).bind ?_
      rintro _ a ⟨hga, hsa⟩
      refine (iput_drop hga (by simp)).bind ?_
      rintro _ b ⟨hgb, hfb, hrb, -⟩
      refine upTo_pure ⟨hgb, .inr ⟨rfl, dp, name, rfl, hnotdir, htyped, hdir, habsent,
        resolve_valid hnew, k, hk1, hk2, ?_, ?_⟩⟩
      · rw [hsa.bitmap] at hrb
        rw [hby] at hroom
        omega
      · rw [hfb, hsa.files, hfz]

theorem sysLink_spec (h : Ready sb A s refs cwd) (hA : Room A (refs.length + 2)) (old new : Path) :
    WpUpTo A (sysLink sb cwd old new) (fun r t => Good sb t refs [] ∧
      (r = -1 ∧ t.files = s.files ∧ (∀ ip m, resolve s.files cwd old false = some (ip, m) →
          (s.files ip).type ≠ .dir → LinkFails sb s.files cwd new t) ∨
        r = 0 ∧ ∃ ip m dp name, resolve s.files cwd old false = some (ip, m) ∧
          resolve s.files cwd new true = some (dp, name) ∧
          LinkMade sb s refs ip dp name t)) s := by
  refine (h.namei (hA.mono (Nat.le_succ _)) old).bind ?_
  rintro r t ⟨rfl, hs, hfound⟩
  cases hold : resolve s.files cwd old false with
  | none =>
    simp only [hold, Option.map_none] at hfound ⊢
    exact upTo_pure ⟨hfound, .inl ⟨rfl, hs.files, fun _ _ h1 => by contradiction⟩⟩
  | some e =>
    obtain ⟨ip, m⟩ := e
    simp only [hold, Option.map_some] at hfound ⊢
    obtain ⟨hg, hk, hty⟩ := hfound
    refine (ilock_spec hg List.mem_cons_self (by simp) (by rw [← files_type, hs.files]; exact hty)).bind ?_
    rintro _ u ⟨hgu, hsu, htyped⟩
    have hsame := hs.trans hsu
    rw [← files_type, hs.files] at htyped
    have hl : ip ∈ [ip] := List.mem_cons_self
    apply upTo_bind_get
    rw [hgu.din_type hl, hsame.files]
    split
    · rename_i hdir
      refine (iunlockput_spare hgu (by rwa [hsame.files]) (by simp)).bind ?_
      rintro _ v ⟨hgv, hsv⟩
      refine upTo_pure ⟨hgv, .inl ⟨rfl, (hsame.trans hsv).files, ?_⟩⟩
      intro ip' m' h1 h2
      rw [Option.some.injEq, Prod.mk.injEq] at h1
      exact absurd (h1.1 ▸ hdir) h2
    · rename_i hnotdir
      refine (addLink_spec hgu hl 1).bind ?_
      rintro _ v ⟨hgv, hbv, hfv⟩
      refine (iunlock_spec hgv (by simp)).bind ?_
      rintro _ w ⟨hgw, hsw⟩
      have hfw : w.files = relink s.files ip 1 := by
        rw [hsw.files, hfv, hsame.files]
        rfl
      have hbw : w.bitmap = s.bitmap := by rw [hsw.bitmap, hbv, hsame.bitmap]
      refine (linkEntry_spec h hA hnotdir htyped hk hgw hfw hbw new).mono ?_
      rintro r x ⟨hgx, ⟨rfl, hfx, hfail⟩ | ⟨rfl, dp, name, hnew, hmade⟩⟩
      · exact ⟨hgx, .inl ⟨rfl, hfx, fun _ _ _ _ => hfail⟩⟩
      · exact ⟨hgx, .inr ⟨rfl, ip, m, dp, name, rfl, hnew, hmade⟩⟩

end Fs

end Xv6
