import Xv6.ActionRun
import Xv6.FsResolve

/-! A directory is a finite map from names to inode numbers. Names are compared with
`strncmp` and stored with `strncpy` (`kernel/string.c`), so what counts of a name is its
`key`: the bytes before the first zero, `DIRSIZ` at most. -/

namespace Xv6

open ActionRun BlockOwner Function StateProg

def strncmp : Nat → List UInt8 → List UInt8 → Int
  | 0, _, _ => 0
  | n + 1, p, q =>
    if p.headD 0 ≠ 0 ∧ p.headD 0 = q.headD 0 then strncmp n p.tail q.tail
    else (p.headD 0).toNat - (q.headD 0).toNat

def strncpy : Nat → List UInt8 → List UInt8
  | 0, _ => []
  | n + 1, t =>
    if t.headD 0 = 0 then List.replicate (n + 1) 0 else t.headD 0 :: strncpy n t.tail

def namecmp (s t : List UInt8) : Int := strncmp DIRSIZ s t

def cut (n : Nat) (s : List UInt8) : Name := (s.takeWhile (· ≠ 0)).take n

def key (name : List UInt8) : Name := cut DIRSIZ name

theorem cut_succ (n : Nat) (s : List UInt8) :
    cut (n + 1) s = if s.headD 0 = 0 then [] else s.headD 0 :: cut n s.tail := by
  cases s with
  | nil => rfl
  | cons b s =>
    by_cases hb : b = 0
    · simp [cut, hb]
    · simp [cut, hb]

theorem strncmp_eq_zero (n : Nat) (p q : List UInt8) : strncmp n p q = 0 ↔ cut n p = cut n q := by
  induction n generalizing p q with
  | zero => simp [strncmp, cut]
  | succ n ih =>
    rw [strncmp, cut_succ, cut_succ]
    generalize p.headD 0 = a
    generalize q.headD 0 = b
    by_cases hab : a = b
    · subst b
      by_cases ha : a = 0
      · simp [ha]
      · simp [ha, ih]
    · have hne : a.toNat ≠ b.toNat := fun h => hab (UInt8.toNat_inj.mp h)
      rw [if_neg (fun h => hab h.2)]
      refine iff_of_false (by omega) ?_
      by_cases ha : a = 0
      · have hb : b ≠ 0 := fun hb => hab (ha.trans hb.symm)
        simp [ha, hb]
      · by_cases hb : b = 0
        · simp [ha, hb]
        · simp [ha, hb, hab]

theorem strncpy_eq (n : Nat) (t : List UInt8) :
    strncpy n t = cut n t ++ List.replicate (n - (cut n t).length) 0 := by
  induction n generalizing t with
  | zero => simp [strncpy, cut]
  | succ n ih =>
    rw [strncpy, cut_succ]
    split
    · simp
    · simp [ih, Nat.add_sub_add_right]

theorem takeWhile_take_eq_cut (n : Nat) (s : List UInt8) : (s.take n).takeWhile (· ≠ 0) = cut n s := by
  induction n generalizing s with
  | zero => simp [cut]
  | succ n ih =>
    rw [cut_succ]
    cases s with
    | nil => rfl
    | cons b s =>
      by_cases hb : b = 0
      · simp [hb]
      · rw [List.take_succ_cons, List.takeWhile_cons_of_pos (by simpa using hb), ih, List.headD_cons,
          if_neg hb, List.tail_cons]

theorem valid_key (name : List UInt8) : Name.Valid (key name) := by
  refine ⟨List.length_take_le _ _, fun b hb => ?_⟩
  simpa using List.mem_takeWhile_imp (List.mem_of_mem_take hb)

theorem bytes_key (inum : Nat) (name : List UInt8) : (Dirent.mk inum (key name)).bytes =
    [UInt8.ofNat inum, UInt8.ofNat (inum / 256)] ++ strncpy DIRSIZ name := by
  rw [strncpy_eq, Dirent.bytes, List.take_of_length_le (valid_key name).short]
  rfl

theorem namecmp_eq_zero (name bytes : List UInt8) :
    namecmp name (bytes.drop 2) = 0 ↔ key name = (Dirent.ofBytes bytes).name := by
  rw [namecmp, strncmp_eq_zero, Dirent.ofBytes, takeWhile_take_eq_cut]
  rfl

namespace Fs

section Code

variable (sb : Superblock)

def dirlookupStrAt (dp : Nat) (name : List UInt8) (k : Nat) : FsM (Option (Nat × Nat)) := do
  let (r, de) ← readi sb dp DESIZE (DESIZE * k) DESIZE
  if r ≠ DESIZE then throw .dirlookupRead
  else if (Dirent.ofBytes de).inum = 0 then pure none
  else if namecmp name (de.drop 2) = 0 then
    let ip ← iget sb (Dirent.ofBytes de).inum
    pure (some (ip, DESIZE * k))
  else pure none

def dirlookupStr (dp : Nat) (name : List UInt8) : FsM (Option (Nat × Nat)) := do
  let s ← get
  if (s.din dp).type ≠ .dir then throw .dirlookupNotDir
  else loop (entries (s.din dp).size) (dirlookupStrAt sb dp name)

def dirlinkStr (dp : Nat) (name : List UInt8) (inum : Nat) : FsM Bool := do
  match ← dirlookupStr sb dp name with
  | some (ip, _) =>
    iput ip
    pure false
  | none =>
    let s ← get
    let n := entries (s.din dp).size
    let off ← loop n (emptyAt sb dp)
    let r ← writei sb dp ([UInt8.ofNat inum, UInt8.ofNat (inum / 256)] ++ strncpy DIRSIZ name)
      (off.getD (DESIZE * n)) DESIZE
    pure (r = DESIZE)

def removeEntry (dp : Nat) (name : List UInt8) : FsM Unit := do
  match ← dirlookupStr sb dp name with
  | none => pure ()
  | some (ip, off) =>
    let r ← writei sb dp Dirent.empty.bytes off DESIZE
    if r ≠ DESIZE then throw .unlinkWritei else iput ip

end Code

theorem dirlookupStrAt_eq (sb : Superblock) (dp : Nat) (name : List UInt8) (k : Nat) :
    dirlookupStrAt sb dp name k = dirlookupAt sb dp (key name) k := by
  unfold dirlookupStrAt dirlookupAt readDirent
  rw [bind_assoc]
  congr 1
  funext x
  obtain ⟨r, de⟩ := x
  dsimp only
  by_cases hr : r = DESIZE
  · rw [if_neg (not_not.mpr hr), if_pos hr, pure_bind]
    simp only [namecmp_eq_zero]
  · rw [if_pos hr, if_neg hr]
    rfl

theorem dirlookupStr_eq (sb : Superblock) (dp : Nat) (name : List UInt8) :
    dirlookupStr sb dp name = dirlookup sb dp (key name) := by
  have hat : dirlookupStrAt sb dp name = dirlookupAt sb dp (key name) :=
    funext fun k => dirlookupStrAt_eq sb dp name k
  rw [dirlookupStr, dirlookup, hat]

theorem dirlinkStr_eq (sb : Superblock) (dp : Nat) (name : List UInt8) (inum : Nat) :
    dirlinkStr sb dp name inum = dirlink sb dp (key name) inum := by
  rw [dirlinkStr, dirlookupStr_eq, ← bytes_key]
  rfl

def Distinct (es : List Dirent) : Prop :=
  ∀ (i j : Nat) (e f : Dirent), es[i]? = some e → es[j]? = some f → e.inum ≠ 0 → f.inum ≠ 0 →
    e.name = f.name → i = j

variable {de e : Dirent} {es : List Dirent} {v : FileView} {k : Nat}

theorem Distinct.of_cons {fs : List Dirent} (h : Distinct es)
    (hnew : de.inum ≠ 0 → ∀ e ∈ es, e.inum ≠ 0 → de.name ≠ e.name)
    (hfs : ∀ (i : Nat) (e : Dirent), fs[i]? = some e → i = k ∧ e = de ∨ es[i]? = some e) :
    Distinct fs := by
  intro i j e f hi hj he hf hname
  rcases hfs i e hi with ⟨rfl, rfl⟩ | hi'
  · rcases hfs j f hj with ⟨rfl, rfl⟩ | hj'
    · rfl
    · exact absurd hname (hnew he f (List.mem_of_getElem? hj') hf)
  · rcases hfs j f hj with ⟨rfl, rfl⟩ | hj'
    · exact absurd hname.symm (hnew hf e (List.mem_of_getElem? hi') he)
    · exact h i j e f hi' hj' he hf hname

theorem Distinct.set (h : Distinct es) (hk : k < es.length)
    (hnew : de.inum ≠ 0 → ∀ e ∈ es, e.inum ≠ 0 → de.name ≠ e.name) : Distinct (es.set k de) := by
  refine h.of_cons (k := k) hnew fun i e hi => ?_
  by_cases hik : i = k
  · subst i
    rw [List.getElem?_set_self hk] at hi
    exact .inl ⟨rfl, (Option.some.inj hi).symm⟩
  · rw [List.getElem?_set_ne (Ne.symm hik)] at hi
    exact .inr hi

theorem Distinct.append (h : Distinct es)
    (hnew : de.inum ≠ 0 → ∀ e ∈ es, e.inum ≠ 0 → de.name ≠ e.name) : Distinct (es ++ [de]) := by
  refine h.of_cons (k := es.length) hnew fun i e hi => ?_
  by_cases hlt : i < es.length
  · rw [List.getElem?_append_left hlt] at hi
    exact .inr hi
  · rw [List.getElem?_append_right (by omega)] at hi
    cases hn : i - es.length with
    | zero =>
      rw [hn] at hi
      exact .inl ⟨by omega, (Option.some.inj hi).symm⟩
    | succ n => simp [hn] at hi

theorem find_eq_none {name : Name} : v.find name = none ↔ ∀ e ∈ v.ents, e.inum ≠ 0 → name ≠ e.name := by
  simp [FileView.find, List.findIdx?_eq_none_iff]

theorem Distinct.find_eq (h : Distinct v.ents) (hk : v.ents[k]? = some e) (he : e.inum ≠ 0) :
    v.find e.name = some k := by
  cases hf : v.find e.name with
  | none => exact absurd rfl (find_eq_none.mp hf e (List.mem_of_getElem? hk) he)
  | some j =>
    obtain ⟨hj, -, hinum, hname⟩ := find_some hf
    have hj' : v.ents[j]? = some (v.ent j) := by
      rw [List.getElem?_eq_getElem hj, FileView.getElem_ents]
    rw [h j k _ _ hj' hk hinum he hname]

def Added (es : List Dirent) (de : Dirent) (es' : List Dirent) : Prop :=
  (∃ (k : Nat) (e : Dirent), es[k]? = some e ∧ e.inum = 0 ∧ es' = es.set k de) ∨ es' = es ++ [de]

theorem Distinct.added {es' : List Dirent} (h : Distinct es) (ha : Added es de es')
    (hnew : ∀ e ∈ es, e.inum ≠ 0 → de.name ≠ e.name) : Distinct es' := by
  rcases ha with ⟨k, e, hk, -, rfl⟩ | rfl
  · exact h.set (List.getElem?_eq_some_iff.mp hk).1 fun _ => hnew
  · exact h.append fun _ => hnew

variable {sb : Superblock} {A : FsPanic → Prop} {s t : Fs} {refs lk : List Nat} {dp : Nat}
  {name : List UInt8}

theorem Linked.added (hd : (s.files dp).IsDir) (hde : de.Valid) (h : Linked sb s dp de t) :
    (t.files dp).IsDir ∧ Added (s.files dp).ents de (t.files dp).ents := by
  obtain ⟨k, hk, hempty, -, hf⟩ := h.entry
  rw [hf, update_self]
  refine ⟨⟨hd.type, ?_⟩, ?_⟩
  · rw [FileView.setEnt_size hd.size hk]
    split
    · exact hd.size
    · rw [Nat.add_mod_right]
      exact hd.size
  · by_cases hlt : k < (s.files dp).ents.length
    · rw [FileView.ents_setEnt_lt hd.size hlt hde]
      refine .inl ⟨k, _, List.getElem?_eq_getElem hlt, ?_, rfl⟩
      rw [FileView.getElem_ents]
      exact hempty hlt
    · obtain rfl : k = (s.files dp).ents.length := by omega
      exact .inr (FileView.ents_setEnt_end hd.size hde)

structure Directory (sb : Superblock) (refs lk : List Nat) (dp : Nat) (s : Fs) : Prop where
  good : Good sb s refs lk
  locked : dp ∈ lk
  dir : (s.files dp).IsDir
  distinct : Distinct (s.files dp).ents

inductive DirOp where
  | link (name : List UInt8) (inum : Nat) (h : 1 ≤ inum ∧ inum < 2 ^ 16)
  | remove (name : List UInt8)

def DirOp.exec (sb : Superblock) (dp : Nat) : DirOp → FsM Unit
  | .link name inum _ => do
    let _ ← dirlinkStr sb dp name inum
    pure ()
  | .remove name => removeEntry sb dp name

def runOps (sb : Superblock) (dp : Nat) : List DirOp → FsM Unit
  | [] => pure ()
  | op :: ops => do
    op.exec sb dp
    runOps sb dp ops

abbrev TableFull : FsPanic → Prop := (· = .igetNoInodes)

namespace Directory

theorem valid {inum : Nat} (h : 1 ≤ inum ∧ inum < 2 ^ 16) :
    (Dirent.mk inum (key name)).Valid := ⟨h.2, valid_key name⟩

theorem link (h : Directory sb refs lk dp s) (name : List UInt8) {inum : Nat}
    (hi : 1 ≤ inum ∧ inum < 2 ^ 16)
    (hA : ∀ k, (s.files dp).find (key name) = some k → Fits A refs ((s.files dp).ent k).inum) :
    WpUpTo A (dirlinkStr sb dp name inum) (fun r t => Directory sb refs lk dp t ∧
      (r = false ∧ t.files = s.files ∧ ((s.files dp).find (key name) ≠ none ∨
          free sb.size t.bitmap = 0 ∨ MAXFILE * BSIZE < (s.files dp).size + DESIZE) ∨
        r = true ∧ (s.files dp).find (key name) = none ∧
          Added (s.files dp).ents ⟨inum, key name⟩ (t.files dp).ents)) s := by
  rw [dirlinkStr_eq]
  refine (dirlink_fits h.good h.locked h.dir (valid hi) hA).mono ?_
  rintro r t ⟨hg, -, ⟨rfl, hf, hwhy⟩ | ⟨rfl, hl⟩⟩
  · refine ⟨⟨hg, h.locked, ?_, ?_⟩, .inl ⟨rfl, hf, hwhy⟩⟩
    · rw [hf]; exact h.dir
    · rw [hf]; exact h.distinct
  · obtain ⟨hdir, hadd⟩ := hl.added h.dir (valid hi)
    exact ⟨⟨hg, h.locked, hdir, h.distinct.added hadd (find_eq_none.mp hl.absent)⟩,
      .inr ⟨rfl, hl.absent, hadd⟩⟩

theorem remove (h : Directory sb refs lk dp s) (name : List UInt8) :
    WpUpTo TableFull (removeEntry sb dp name) (fun _ t => Directory sb refs lk dp t) s := by
  unfold removeEntry
  rw [dirlookupStr_eq]
  refine (dirlookup_fits (A := TableFull) h.good h.locked h.dir _ (fun _ _ => .inl rfl)).bind ?_
  rintro r t (⟨rfl, -, rfl⟩ | ⟨k, hfind, rfl, hg, hs⟩)
  · exact upTo_pure h
  · obtain ⟨hk, -⟩ := find_some hfind
    apply upTo_bind
    rw [← hs.files] at hk
    refine (writeEnt_spec hg h.locked (by rw [hs.files]; exact h.dir) (Nat.le_of_lt hk)
      Dirent.valid_empty).mono ?_
    rintro r u ⟨hgu, -, -, ⟨rfl, hf⟩ | ⟨-, -, hend, -⟩⟩
    · rw [if_neg (not_not.mpr rfl)]
      generalize ((s.files dp).ent k).inum = ip at hgu ⊢
      have hdir : (u.files dp).IsDir ∧ (u.files dp).ents = (s.files dp).ents.set k Dirent.empty := by
        rw [hs.files] at hf hk
        have hsize := FileView.setEnt_size h.dir.size (Nat.le_of_lt hk) Dirent.empty
        rw [if_pos hk] at hsize
        rw [hf, update_self]
        exact ⟨⟨h.dir.type, by rw [hsize]; exact h.dir.size⟩,
          FileView.ents_setEnt_lt h.dir.size hk Dirent.valid_empty⟩
      -- the inode named has the type and the link count it had, so `iput` does not free it
      have hspare : Spare u.files refs ip := by
        have hold := h.good.spare ip
        rw [hf, hs.files]
        by_cases hip : ip = dp
        · subst ip
          unfold Spare
          rw [update_self]
          exact hold
        · unfold Spare
          rw [update_of_ne hip]
          exact hold
      refine (iput_spare hgu hspare fun hin => (h.good.held ip hin).1).mono ?_
      rintro _ v ⟨hgv, hsv⟩
      refine ⟨hgv, h.locked, ?_, ?_⟩
      · rw [hsv.files]
        exact hdir.1
      · rw [hsv.files, hdir.2]
        rw [hs.files] at hk
        exact h.distinct.set hk fun hne => absurd rfl hne
    · omega

theorem exec (h : Directory sb refs lk dp s) (op : DirOp) :
    WpUpTo TableFull (op.exec sb dp) (fun _ t => Directory sb refs lk dp t) s := by
  cases op with
  | link name inum hi =>
    refine (h.link (A := TableFull) name hi (fun _ _ => .inl rfl)).bind ?_
    rintro r t ⟨ht, -⟩
    exact upTo_pure ht
  | remove name => exact h.remove name

theorem run (h : Directory sb refs lk dp s) (ops : List DirOp) :
    WpUpTo TableFull (runOps sb dp ops) (fun _ t => Directory sb refs lk dp t) s := by
  induction ops generalizing s with
  | nil => exact upTo_pure h
  | cons op ops ih =>
    apply upTo_bind
    exact (h.exec op).mono fun _ t ht => ih ht

end Directory

def Absent (v : FileView) (name : List UInt8) : Prop :=
  ∀ e ∈ v.ents, e.inum ≠ 0 → e.name ≠ key name

/-- The directory as a map. `Fits` says that the inode table has room for the inode that
`dirlookup` returns. -/
structure IsMap (sb : Superblock) (refs : List Nat) (dp : Nat) (s : Fs) : Prop where
  distinct : Distinct (s.files dp).ents
  lookup_absent : ∀ name, Absent (s.files dp) name → dirlookupStr sb dp name s = .ok (none, s)
  lookup_entry : ∀ name (k : Nat) e, (s.files dp).ents[k]? = some e → e.inum ≠ 0 →
    e.name = key name → Fits Never refs e.inum →
    ∃ t, dirlookupStr sb dp name s = .ok (some (e.inum, DESIZE * k), t) ∧ SameDisk s t
  link_present : ∀ name inum e, 1 ≤ inum ∧ inum < 2 ^ 16 → e ∈ (s.files dp).ents → e.inum ≠ 0 →
    e.name = key name → Fits Never refs e.inum →
    ∃ t, dirlinkStr sb dp name inum s = .ok (false, t) ∧ (t.files dp).ents = (s.files dp).ents
  link_absent : ∀ name inum, 1 ≤ inum ∧ inum < 2 ^ 16 → Absent (s.files dp) name →
    ∃ r t, dirlinkStr sb dp name inum s = .ok (r, t) ∧
      (r = true ∧ Added (s.files dp).ents ⟨inum, key name⟩ (t.files dp).ents ∨
        r = false ∧ (t.files dp).ents = (s.files dp).ents ∧
          (free sb.size t.bitmap = 0 ∨ MAXFILE * BSIZE < (s.files dp).size + DESIZE))

theorem Absent.find (h : Absent v name) : v.find (key name) = none :=
  find_eq_none.mpr fun e he hne => (h e he hne).symm

theorem Directory.fits (h : Directory sb refs lk dp s) (hk : (s.files dp).ents[k]? = some e)
    (he : e.inum ≠ 0) (hname : e.name = key name) (hA : Fits Never refs e.inum) :
    (s.files dp).find (key name) = some k ∧
      ∀ j, (s.files dp).find (key name) = some j → Fits Never refs ((s.files dp).ent j).inum := by
  have hfind := h.distinct.find_eq hk he
  rw [hname] at hfind
  refine ⟨hfind, fun j hj => ?_⟩
  obtain rfl : k = j := Option.some.inj (hfind.symm.trans hj)
  obtain ⟨hlt, rfl⟩ := List.getElem?_eq_some_iff.mp hk
  rwa [FileView.getElem_ents] at hA

theorem Directory.isMap (h : Directory sb refs lk dp s) : IsMap sb refs dp s where
  distinct := h.distinct
  lookup_absent name habs := by
    have hfind := habs.find
    rw [dirlookupStr_eq]
    obtain ⟨r, t, hrun, ⟨rfl, -, rfl⟩ | ⟨k, hk, -⟩⟩ := exists_of_never
      (dirlookup_fits h.good h.locked h.dir (key name) fun k hk => by cases hfind.symm.trans hk)
    · exact hrun
    · cases hfind.symm.trans hk
  lookup_entry name k e hk he hname hA := by
    obtain ⟨hfind, hfits⟩ := h.fits hk he hname hA
    rw [dirlookupStr_eq]
    obtain ⟨r, t, hrun, ⟨-, hnone, -⟩ | ⟨j, hj, rfl, -, hs⟩⟩ := exists_of_never
      (dirlookup_fits h.good h.locked h.dir (key name) hfits)
    · cases hfind.symm.trans hnone
    · obtain rfl : k = j := Option.some.inj (hfind.symm.trans hj)
      obtain ⟨hlt, rfl⟩ := List.getElem?_eq_some_iff.mp hk
      rw [FileView.getElem_ents]
      exact ⟨t, hrun, hs⟩
  link_present name inum e hi he hne hname hA := by
    obtain ⟨k, hk⟩ := List.mem_iff_getElem?.mp he
    obtain ⟨hfind, hfits⟩ := h.fits hk hne hname hA
    obtain ⟨r, t, hrun, -, ⟨rfl, hf, -⟩ | ⟨-, hnone, -⟩⟩ := exists_of_never (h.link name hi hfits)
    · exact ⟨t, hrun, by rw [hf]⟩
    · cases hfind.symm.trans hnone
  link_absent name inum hi habs := by
    have hfind := habs.find
    obtain ⟨r, t, hrun, -, ⟨rfl, hf, hwhy⟩ | ⟨rfl, -, hadd⟩⟩ := exists_of_never
      (h.link name hi fun k hk => by cases hfind.symm.trans hk)
    · exact ⟨false, t, hrun, .inr ⟨rfl, by rw [hf], hwhy.resolve_left fun hne => hne hfind⟩⟩
    · exact ⟨true, t, hrun, .inl ⟨rfl, hadd⟩⟩

/-- Whatever has been linked and removed, the directory is a map. -/
theorem directory_is_map (h : Directory sb refs lk dp s) (ops : List DirOp)
    (hrun : runOps sb dp ops s = .ok ((), t)) : IsMap sb refs dp t := by
  have hinv := h.run ops
  unfold WpUpTo at hinv
  rw [hrun] at hinv
  exact Directory.isMap hinv

def crowdedLocked : Fs := crowded.setEntry ROOTINO ⟨1, true, true, crowdedDinode ROOTINO⟩

theorem crowdedLocked_directory :
    Directory mkfsSuper crowdedRefs [ROOTINO] ROOTINO crowdedLocked where
  good := by
    have hin : ROOTINO ∈ crowdedRefs := List.mem_cons_self
    refine crowded_good.setEntry (fun _ _ => rfl) (fun i hi => by simp [hi]) (by decide) rfl
      (fun _ => ⟨hin, rfl⟩) (fun _ _ => ⟨rfl, by decide⟩) fun _ _ => ⟨hin, rfl⟩
  locked := List.mem_cons_self
  dir := crowded_dirs ROOTINO (by decide)
  distinct := by
    intro i j e f hi hj he hf hname
    have unused : ∀ {k : Nat} {g : Dirent}, (List.replicate 61 Dirent.empty)[k]? = some g →
        g.inum = 0 := by
      intro k g hg
      rw [List.eq_of_mem_replicate (List.mem_of_getElem? hg)]
      rfl
    match i, j with
    | 0, 0 | 1, 1 | 2, 2 => rfl
    | 0, 1 | 0, 2 | 1, 0 | 1, 2 | 2, 0 | 2, 1 =>
      cases hi
      cases hj
      exact absurd hname (by decide)
    | i + 3, _ => exact absurd (unused hi) he
    | _, j + 3 => exact absurd (unused hj) hf

/-- A link is made and removed, and another one gets its slot. -/
def reuse : List DirOp := [.link [98] 3 (by decide), .remove [98], .link [99] 3 (by decide)]

theorem directory_is_map_after_reuse : ∃ t, runOps mkfsSuper ROOTINO reuse crowdedLocked = .ok ((), t) ∧
    (t.files ROOTINO).ents[3]? = some ⟨3, [99]⟩ ∧ IsMap mkfsSuper crowdedRefs ROOTINO t := by
  obtain ⟨⟨⟨⟩, t⟩, hrun, hent⟩ := Ends.exists_ok (P := fun x => (x.2.files ROOTINO).ents[3]? = some ⟨3, [99]⟩)
    (r := runOps mkfsSuper ROOTINO reuse crowdedLocked) (by decide +kernel)
  exact ⟨t, hrun, hent, directory_is_map crowdedLocked_directory _ hrun⟩

/-- The entry of `a` is there, and `dirlookup` does not return. -/
theorem dirlookup_panics_on_full_table :
    Directory mkfsSuper crowdedRefs [ROOTINO] ROOTINO crowdedLocked ∧
      runOps mkfsSuper ROOTINO [] crowdedLocked = .ok ((), crowdedLocked) ∧
      (crowdedLocked.files ROOTINO).ents[2]? = some ⟨2, key fileName⟩ ∧
      ∀ r, dirlookupStr mkfsSuper ROOTINO fileName crowdedLocked ≠ .ok r := by
  refine ⟨crowdedLocked_directory, rfl, by decide +kernel, fun r hr => ?_⟩
  have herr : (dirlookupStr mkfsSuper ROOTINO fileName crowdedLocked).toOption.isNone = true := by
    decide +kernel
  rw [hr] at herr
  cases herr

end Fs

end Xv6
