import Xv6.FsDirents

/-! Paths as lists of names, and what they mean in a file system whose inodes are `F`. -/

namespace Xv6

open BlockOwner StateProg

namespace Fs

variable {A : FsPanic → Prop} {F : Nat → FileView} {refs : List Nat} {ip : Nat}
  {path cs rest : List UInt8} {name : Name} {c : UInt8}

def lookup (F : Nat → FileView) (d : Nat) (name : Name) : Option Nat :=
  ((F d).find name).map (fun k => ((F d).ent k).inum)

/-- The elements of a path: its maximal runs of bytes other than slashes, cut to `DIRSIZ`
bytes. -/
def comps (path : List UInt8) : List Name :=
  ((path.splitOn slash).filter (· ≠ [])).map (·.take DIRSIZ)

def follow (F : Nat → FileView) : Nat → List Name → Option Nat
  | ip, [] => some ip
  | ip, name :: rest =>
    if (F ip).type = .dir then (lookup F ip name).bind (follow F · rest) else none

def parentDir (F : Nat → FileView) (ip : Nat) (names : List Name) : Option (Nat × Name) :=
  names.getLast?.bind fun name =>
    ((follow F ip names.dropLast).filter fun d => (F d).type = .dir).map (·, name)

def startOf (cwd : Nat) (path : List UInt8) : Nat :=
  if path.head? = some slash then ROOTINO else cwd

/-- No inode in which a name is looked up is free, and the inode table has an entry for each
inode looked up; or the panic is allowed. -/
def Passable (A : FsPanic → Prop) (F : Nat → FileView) (refs : List Nat) (parent : Bool) :
    Nat → List Name → Prop
  | _, [] => True
  | ip, name :: rest =>
    ((F ip).type ≠ .none ∨ A .ilockNoType) ∧
      ((F ip).type = .dir → ¬ (parent = true ∧ rest = []) → ∀ next, lookup F ip name = some next →
        Fits A (ip :: refs) next ∧ Passable A F refs parent next rest)

theorem parentDir_cons_cons (name name' : Name) (rest : List Name) :
    parentDir F ip (name :: name' :: rest) =
      if (F ip).type = .dir then (lookup F ip name).bind (parentDir F · (name' :: rest))
      else none := by
  unfold parentDir
  rw [List.getLast?_cons_cons, List.dropLast_cons_cons, follow]
  cases hl : (name' :: rest).getLast? with
  | none => simp
  | some last =>
    by_cases hd : (F ip).type = .dir
    · simp only [if_pos hd]
      cases lookup F ip name <;> rfl
    · simp [if_neg hd]

theorem head_dropWhile {p : UInt8 → Bool} {l : List UInt8} (h : l.dropWhile p = c :: cs) :
    p c = false := by
  have hne : l.dropWhile p ≠ [] := by simp [h]
  have hc := List.head_dropWhile_not p hne
  simpa only [h, List.head_cons] using hc

theorem comps_slash_cons (path : List UInt8) : comps (slash :: path) = comps path := by
  simp [comps, List.splitOn, List.splitOnP_cons_eq_if_modifyHead]

theorem comps_dropWhile_slash (path : List UInt8) :
    comps (path.dropWhile (· = slash)) = comps path := by
  induction path with
  | nil => rfl
  | cons c cs ih =>
    by_cases hc : c = slash
    · rw [List.dropWhile_cons_of_pos (by simpa using hc), ih, hc, comps_slash_cons]
    · rw [List.dropWhile_cons_of_neg (by simpa using hc)]

theorem comps_run (hc : c ≠ slash) :
    comps (c :: cs) = ((c :: cs).takeWhile (· ≠ slash)).take DIRSIZ ::
      comps ((c :: cs).dropWhile (· ≠ slash)) := by
  have hsplit := (c :: cs).takeWhile_append_dropWhile (p := (· ≠ slash))
  have hne : (c :: cs).takeWhile (· ≠ slash) ≠ [] := by
    rw [List.takeWhile_cons_of_pos (by simpa using hc)]
    exact List.cons_ne_nil _ _
  have hrun : ∀ b ∈ (c :: cs).takeWhile (· ≠ slash), (b == slash) = false := by
    intro b hb
    simpa using List.mem_takeWhile_imp hb
  generalize (c :: cs).takeWhile (· ≠ slash) = run at *
  cases hrest : (c :: cs).dropWhile (· ≠ slash) with
  | nil =>
    rw [hrest, List.append_nil] at hsplit
    rw [← hsplit, comps, List.splitOn, List.splitOnP_eq_singleton hrun]
    simp [hne, comps]
  | cons b rest =>
    have hb : b = slash := by simpa using head_dropWhile hrest
    subst b
    rw [hrest] at hsplit
    rw [← hsplit, comps_slash_cons, comps, List.splitOn,
      List.splitOnP_append_cons_of_forall_mem hrun slash (by simp)]
    simp [hne, comps, List.splitOn]

theorem comps_of_skipelem_none (h : skipelem path = none) : comps path = [] := by
  rw [← comps_dropWhile_slash]
  unfold skipelem at h
  dsimp only at h
  split at h
  · rename_i hnil
    rw [hnil]
    rfl
  · cases h

theorem comps_of_skipelem (h : skipelem path = some (name, rest)) :
    comps path = name :: comps rest ∧ (rest = [] ↔ comps rest = []) := by
  rw [← comps_dropWhile_slash path]
  unfold skipelem at h
  cases hp : path.dropWhile (fun c => decide (c = slash)) with
  | nil => simp [hp] at h
  | cons c cs =>
    have hc : c ≠ slash := by simpa using head_dropWhile hp
    simp only [hp, List.cons_ne_nil, if_false, Option.some.injEq, Prod.mk.injEq] at h
    obtain ⟨rfl, rfl⟩ := h
    refine ⟨?_, fun hnil => by rw [hnil]; rfl, fun hnil => ?_⟩
    · rw [comps_run hc, comps_dropWhile_slash]
    · cases hr : ((c :: cs).dropWhile (fun b => decide (b ≠ slash))).dropWhile
        (fun b => decide (b = slash)) with
      | nil => rfl
      | cons b bs =>
        have hb : b ≠ slash := by simpa using head_dropWhile hr
        rw [hr, comps_run hb] at hnil
        cases hnil

theorem skipelem_length (h : skipelem path = some (name, rest)) : rest.length < path.length := by
  unfold skipelem at h
  have hle := (List.dropWhile_sublist (fun c : UInt8 => decide (c = slash)) (l := path)).length_le
  cases hp : path.dropWhile (fun c => decide (c = slash)) with
  | nil => simp [hp] at h
  | cons c cs =>
    have hc : c ≠ slash := by simpa using head_dropWhile hp
    rw [hp] at h hle
    simp only [List.cons_ne_nil, if_false, Option.some.injEq, Prod.mk.injEq] at h
    obtain ⟨-, rfl⟩ := h
    have h1 := (List.dropWhile_sublist (fun c : UInt8 => decide (c = slash))
      (l := (c :: cs).dropWhile (fun c => decide (c ≠ slash)))).length_le
    have h2 := (List.dropWhile_sublist (fun c : UInt8 => decide (c ≠ slash)) (l := cs)).length_le
    rw [List.dropWhile_cons_of_pos (by simpa using hc)] at h1 ⊢
    simp only [List.length_cons] at hle
    omega

end Fs

end Xv6
