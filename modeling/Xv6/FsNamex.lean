import Xv6.FsPaths

/-! Path lookup. `resolve` says what a path means in a file system whose inodes are `F`;
`namex` finds just that and leaves the disk alone. -/

namespace Xv6

open BlockOwner StateProg

namespace Fs

variable {sb : Superblock} {A : FsPanic → Prop} {s t : Fs} {ip cwd : Nat} {refs lk : List Nat}
  {F : Nat → FileView} {parent : Bool} {names : List Name} {name : Name}

def walk (F : Nat → FileView) (parent : Bool) : Nat → Nat → List UInt8 → Name → Option (Nat × Name)
  | 0, _, _, _ => none
  | fuel + 1, ip, path, name =>
    match skipelem path with
    | none => if parent then none else some (ip, name)
    | some (name, rest) =>
      if (F ip).type ≠ .dir then none
      else if parent ∧ rest = [] then some (ip, name)
      else
        match lookup F ip name with
        | none => none
        | some next => walk F parent fuel next rest name

def resolve (F : Nat → FileView) (cwd : Nat) (path : Path) (parent : Bool) : Option (Nat × Name) :=
  walk F parent (path.bytes.length + 1)
    (if path.bytes.head? = some slash then ROOTINO else cwd) path.bytes []

def Dirs (F : Nat → FileView) : Prop := ∀ i, (F i).type = .dir → (F i).IsDir

def NoDangling (F : Nat → FileView) : Prop :=
  ∀ d, (F d).type = .dir → ∀ e ∈ (F d).ents, e.inum ≠ 0 → (F e.inum).type ≠ .none

/-- Either no lookup can come upon a free inode, or a panic about that is allowed. -/
def Sound (A : FsPanic → Prop) (F : Nat → FileView) : Prop := NoDangling F ∨ A .ilockNoType

theorem find_some {v : FileView} {k : Nat} (h : v.find name = some k) :
    k < v.ents.length ∧ v.ent k ∈ v.ents ∧ (v.ent k).inum ≠ 0 ∧ (v.ent k).name = name := by
  obtain ⟨hk, hm, -⟩ := List.findIdx?_eq_some_iff_getElem.mp h
  rw [FileView.getElem_ents hk] at hm
  have hm : (v.ent k).inum ≠ 0 ∧ name = (v.ent k).name := by simpa using hm
  exact ⟨hk, FileView.getElem_ents hk ▸ List.getElem_mem hk, hm.1, hm.2.symm⟩

theorem Sound.lookup_typed (h : Sound A F) {next : Nat} (hd : (F ip).type = .dir)
    (hnext : lookup F ip name = some next) : (F next).type ≠ .none ∨ A .ilockNoType := by
  obtain ⟨k, hfind, rfl⟩ := Option.map_eq_some_iff.mp hnext
  obtain ⟨-, hmem, hinum, -⟩ := find_some hfind
  exact h.imp_left fun hno => hno ip hd _ hmem hinum

def Spare (F : Nat → FileView) (refs : List Nat) (i : Nat) : Prop :=
  (F i).type ≠ .none → (F i).nlink = 0 → i ∈ refs

theorem Good.spare (h : Good sb s refs lk) (i : Nat) : Spare s.files refs i := by
  intro ht hn
  rw [files_type] at ht
  rw [files_nlink ht] at hn
  exact (h.orphan i ht hn).1

theorem Spare.dinode (h : Spare s.files refs ip) :
    (s.dinode ip).type ≠ .none → (s.dinode ip).nlink = 0 → ip ∈ refs := by
  intro ht hn
  exact h (by rwa [files_type]) (by rwa [files_nlink ht])

theorem iput_spare (h : Good sb s (ip :: refs) lk) (hk : Spare s.files refs ip)
    (hl : ip ∈ lk → ip ∈ refs) : WpUpTo A (iput ip)
      (fun _ t => Good sb t refs lk ∧ SameDisk s t) s :=
  iput_keep h hk.dinode hl

theorem iunlockput_spare (h : Good sb s (ip :: refs) (ip :: lk)) (hk : Spare s.files refs ip)
    (hl : ip ∉ lk) : WpUpTo A (iunlockput ip) (fun _ t => Good sb t refs lk ∧ SameDisk s t) s := by
  refine (iunlock_spec h hl).bind ?_
  rintro _ t ⟨hg, hs⟩
  refine (iput_spare hg (by rwa [hs.files]) (fun hin => absurd hin hl)).mono ?_
  rintro _ u ⟨hgu, hsu⟩
  exact ⟨hgu, hs.trans hsu⟩

def Found (sb : Superblock) (A : FsPanic → Prop) (s : Fs) (refs : List Nat) (parent : Bool)
    (r : Option (Nat × Name)) (t : Fs) : Prop :=
  SameDisk s t ∧
    match r with
    | none => Good sb t refs []
    | some (i, _) => Good sb t (i :: refs) [] ∧ Spare s.files refs i ∧
      ((s.files i).type ≠ .none ∨ A .ilockNoType) ∧ (parent → (s.files i).type = .dir)

theorem walk_eq : ∀ fuel ip path name, path.length < fuel →
    walk F parent fuel ip path name =
      if parent then parentDir F ip (comps path)
      else (follow F ip (comps path)).map (·, (comps path).getLastD name) := by
  intro fuel
  induction fuel with
  | zero => intro _ _ _ h; omega
  | succ fuel ih =>
    intro ip path name hfuel
    unfold walk
    cases hskip : skipelem path with
    | none =>
      rw [comps_of_skipelem_none hskip]
      rfl
    | some elem =>
      obtain ⟨name', rest⟩ := elem
      obtain ⟨hcomps, hrest⟩ := comps_of_skipelem hskip
      have hlen := skipelem_length hskip
      have hnext := fun next => ih next rest name' (by omega)
      simp only [hcomps, List.getLastD_cons]
      by_cases hd : (F ip).type = .dir
      · rw [if_neg (not_not.mpr hd)]
        cases parent with
        | false =>
          simp only [Bool.false_eq_true, false_and, if_false, follow, if_pos hd]
          cases lookup F ip name' with
          | none => rfl
          | some next => exact hnext next
        | true =>
          cases hc : comps rest with
          | nil => simp [hrest.mpr hc, parentDir, follow, hd]
          | cons c cs =>
            have hne : rest ≠ [] := fun h => by simp [hrest.mp h] at hc
            simp only [hne, and_false, if_false, if_true, parentDir_cons_cons, if_pos hd]
            cases lookup F ip name' with
            | none => rfl
            | some next =>
              dsimp only [Option.bind_some]
              rw [hnext next, hc, if_pos rfl]
      · rw [if_pos hd]
        cases parent with
        | false => simp [follow, hd]
        | true =>
          cases hc : comps rest with
          | nil => simp [parentDir, follow, hd]
          | cons c cs => simp [parentDir_cons_cons, hd]

/-- What `namex` leaves: a reference to the inode it returns, if there is one. -/
def Left (sb : Superblock) (s : Fs) (refs : List Nat) (parent : Bool)
    (r : Option (Nat × Name)) (t : Fs) : Prop :=
  SameDisk s t ∧
    match r with
    | none => Good sb t refs []
    | some (i, _) => Good sb t (i :: refs) [] ∧ Spare s.files refs i ∧
      (parent → (s.files i).type = .dir)

theorem Left.of_same {r : Option (Nat × Name)} {u : Fs} (hs : SameDisk s t)
    (h : Left sb t refs parent r u) : Left sb s refs parent r u := by
  obtain ⟨hs', h⟩ := h
  rw [hs.files] at h
  exact ⟨hs.trans hs', h⟩

theorem namexLoop_spec (parent : Bool) : ∀ fuel ip path name s,
    path.length < fuel → Good sb s (ip :: refs) [] → Dirs s.files → Spare s.files refs ip →
    Passable A s.files refs parent ip (comps path) →
    WpUpTo A (namexLoop sb parent fuel ip path name) (fun r t =>
      r = walk s.files parent fuel ip path name ∧ Left sb s refs parent r t) s := by
  intro fuel
  induction fuel with
  | zero =>
    intro ip path name s hfuel
    omega
  | succ fuel ih =>
    intro ip path name s hfuel h hdirs hk hpass
    unfold namexLoop walk
    cases hskip : skipelem path with
    | none =>
      dsimp only
      by_cases hp : parent = true
      · rw [if_pos hp, if_pos hp]
        refine (iput_spare h hk (by simp)).bind ?_
        rintro _ t ⟨hg, hs⟩
        exact upTo_pure ⟨rfl, hs, hg⟩
      · rw [if_neg hp, if_neg hp]
        exact upTo_pure ⟨rfl, SameDisk.refl s, h, hk, fun hp' => absurd hp' hp⟩
    | some elem =>
      obtain ⟨name, rest⟩ := elem
      obtain ⟨hcomps, hrest⟩ := comps_of_skipelem hskip
      rw [hcomps, Passable] at hpass
      obtain ⟨ht, hpass⟩ := hpass
      dsimp only
      refine (ilock_spec h List.mem_cons_self (by simp) (by rwa [← files_type])).bind ?_
      rintro _ t ⟨hg, hs, hty⟩
      rw [← files_type] at hty
      have hl : ip ∈ [ip] := List.mem_cons_self
      apply upTo_bind_get
      rw [hg.din_type hl, hs.files]
      by_cases hdir : (s.files ip).type ≠ .dir
      · rw [if_pos hdir, if_pos hdir]
        refine (iunlockput_spare hg (by rwa [hs.files]) (by simp)).bind ?_
        rintro _ u ⟨hgu, hsu⟩
        exact upTo_pure ⟨rfl, hs.trans hsu, hgu⟩
      · rw [if_neg hdir, if_neg hdir]
        push Not at hdir
        by_cases hlast : parent = true ∧ rest = []
        · rw [if_pos hlast, if_pos hlast]
          refine (iunlock_spec hg (by simp)).bind ?_
          rintro _ u ⟨hgu, hsu⟩
          exact upTo_pure ⟨rfl, hs.trans hsu, hgu, hk, fun _ => hdir⟩
        · rw [if_neg hlast, if_neg hlast]
          -- the name is looked up in `ip`, which stays locked meanwhile
          have hnext : ∀ k, (s.files ip).find name = some k →
              Fits A (ip :: refs) ((s.files ip).ent k).inum ∧
                Passable A s.files refs parent ((s.files ip).ent k).inum (comps rest) := by
            intro k hk
            exact hpass hdir (by rwa [← hrest]) _ (by rw [lookup, hk]; rfl)
          refine (dirlookup_fits hg hl (by rw [hs.files]; exact hdirs ip hdir) name
            (by rw [hs.files]; exact fun k hk => (hnext k hk).1)).bind ?_
          rw [hs.files]
          rintro r u (⟨rfl, hfind, rfl⟩ | ⟨k, hfind, rfl, hgu, hsu⟩)
          · rw [lookup, hfind]
            dsimp only [Option.map_none]
            refine (iunlockput_spare hg (by rwa [hs.files]) (by simp)).bind ?_
            rintro _ v ⟨hgv, hsv⟩
            exact upTo_pure ⟨rfl, hs.trans hsv, hgv⟩
          · rw [lookup, hfind]
            dsimp only [Option.map_some]
            have hgo := (hnext k hfind).2
            generalize ((s.files ip).ent k).inum = next at hgu hgo
            -- the next inode was referred to before if it has no links
            have hspare : Spare s.files refs next := by
              intro htn hn
              have hin := h.spare next htn hn
              rcases List.mem_cons.mp hin with rfl | hin
              · exact hk htn hn
              · exact hin
            have hkeep : Spare u.files (next :: refs) ip := by
              rw [hsu.files, hs.files]
              exact fun h1 h2 => List.mem_cons_of_mem _ (hk h1 h2)
            refine (iunlockput_spare (hgu.perm (List.Perm.swap _ _ _)) hkeep (by simp)).bind ?_
            rintro _ v ⟨hgv, hsv⟩
            have hsame := (hs.trans hsu).trans hsv
            have hloop := ih next rest name v (by have := skipelem_length hskip; omega) hgv
              (by rwa [hsame.files]) (by rwa [hsame.files]) (by rwa [hsame.files])
            refine hloop.mono ?_
            rintro r w ⟨hr, hfound⟩
            rw [hsame.files] at hr
            exact ⟨hr, hfound.of_same hsame⟩

def Starts (A : FsPanic → Prop) (refs : List Nat) (path : List UInt8) : Prop :=
  path.head? = some slash → Fits A refs ROOTINO

theorem namex_spec (h : Good sb s refs []) (hdirs : Dirs s.files) (hcwd : cwd ∈ refs)
    {path : List UInt8} (hstart : Starts A refs path)
    (hpass : Passable A s.files refs parent (startOf cwd path) (comps path)) :
    WpUpTo A (namex sb cwd path parent) (fun r t =>
      r = walk s.files parent (path.length + 1) (startOf cwd path) path [] ∧
        Left sb s refs parent r t) s := by
  apply upTo_bind
  have hbegin : WpUpTo A (namexStart sb cwd path)
      (fun ip t => ip = startOf cwd path ∧ Good sb t (ip :: refs) [] ∧ SameDisk s t) s := by
    unfold namexStart startOf
    split
    · rename_i habs
      refine (iget_fits h (hstart habs)).mono ?_
      rintro _ t ⟨rfl, ht⟩
      exact ⟨rfl, ht⟩
    · refine (idup_spec h hcwd).mono ?_
      rintro _ t ⟨rfl, ht⟩
      exact ⟨rfl, ht⟩
  refine hbegin.mono ?_
  rintro ip t ⟨rfl, hg, hs⟩
  refine (namexLoop_spec parent _ _ path [] t (Nat.lt_succ_self _) hg (by rwa [hs.files])
    (by rw [hs.files]; exact h.spare _) (by rwa [hs.files])).mono ?_
  rintro r u ⟨hr, hleft⟩
  rw [hs.files] at hr
  exact ⟨hr, hleft.of_same hs⟩

theorem Sound.passable (hsound : Sound A F) (hA : Room A (refs.length + 1))
    (ht : (F ip).type ≠ .none ∨ A .ilockNoType) : Passable A F refs parent ip names := by
  induction names generalizing ip with
  | nil => trivial
  | cons name rest ih =>
    refine ⟨ht, fun hd _ next hnext => ⟨hA.fits _, ih ?_⟩⟩
    exact hsound.lookup_typed hd hnext

theorem Sound.follow_typed (hsound : Sound A F) {i : Nat} (ht : (F ip).type ≠ .none ∨ A .ilockNoType)
    (hf : follow F ip names = some i) : (F i).type ≠ .none ∨ A .ilockNoType := by
  induction names generalizing ip with
  | nil =>
    cases hf
    exact ht
  | cons name rest ih =>
    rw [follow] at hf
    split at hf
    · rename_i hd
      obtain ⟨next, hnext, hf⟩ := Option.bind_eq_some_iff.mp hf
      exact ih (hsound.lookup_typed hd hnext) hf
    · cases hf

theorem namex_resolve (h : Good sb s refs []) (hA : Room A (refs.length + 1)) (hdirs : Dirs s.files)
    (hsound : Sound A s.files) (hcwd : cwd ∈ refs) (ht : (s.files cwd).type ≠ .none)
    (hroot : (s.files ROOTINO).type ≠ .none ∨ A .ilockNoType) (path : Path) (parent : Bool) :
    WpUpTo A (namex sb cwd path.bytes parent) (fun r t =>
      r = resolve s.files cwd path parent ∧ Found sb A s refs parent r t) s := by
  have hstart : (s.files (startOf cwd path.bytes)).type ≠ .none ∨ A .ilockNoType := by
    unfold startOf
    split
    · exact hroot
    · exact .inl ht
  refine (namex_spec h hdirs hcwd (fun _ => (hA.mono (Nat.le_succ _)).fits _)
    (hsound.passable hA hstart)).mono ?_
  rintro r t ⟨hr, hsame, hleft⟩
  refine ⟨hr, hsame, ?_⟩
  cases r with
  | none => exact hleft
  | some x =>
    obtain ⟨hg, hk, hp⟩ := hleft
    refine ⟨hg, hk, ?_, hp⟩
    cases parent with
    | true => exact .inl (by rw [hp rfl]; exact (nofun))
    | false =>
      rw [walk_eq _ _ _ _ (Nat.lt_succ_self _)] at hr
      obtain ⟨i, hi, rfl⟩ := Option.map_eq_some_iff.mp hr.symm
      exact hsound.follow_typed hstart hi

end Fs

end Xv6
