import Xv6.FsImage

/-! `namei` and `nameiparent` on a file system at rest: what they return, and that they leave
behind one reference, to what they return, and no lock. -/

namespace Xv6

open BlockOwner StateProg

namespace Fs

variable {sb : Superblock} {s t : Fs} {refs : List Nat} {i : Nat}

abbrev Never : FsPanic → Prop := fun _ => False

structure Resolved (s t : Fs) (r : Option Nat) : Prop where
  disk : SameDisk s t
  refs : ∀ i, (t.itable i).ref = (s.itable i).ref + if r = some i then 1 else 0
  unlocked : ∀ i, (t.itable i).locked = false

theorem Left.resolved {parent : Bool} {r : Option (Nat × Name)} (h : Good sb s refs [])
    (hl : Left sb s refs parent r t) : Resolved s t (r.map Prod.fst) := by
  obtain ⟨hs, hl⟩ := hl
  cases r with
  | none =>
    refine ⟨hs, fun i => ?_, fun i => ?_⟩
    · rw [hl.ref, h.ref]
      simp
    · rw [hl.locked]
      simp
  | some x =>
    refine ⟨hs, fun i => ?_, fun i => ?_⟩
    · rw [hl.1.ref, h.ref, List.count_cons]
      simp
    · rw [hl.1.locked]
      simp

theorem exists_of_never {σ α : Type} {m : Prog σ FsPanic α} {Q : α → σ → Prop} {s : σ}
    (h : WpUpTo Never m Q s) :
    ∃ a t, m s = .ok (a, t) ∧ Q a t := wp_of_upTo h

/-- `refs` are the pointers to inodes in open files and current directories. -/
theorem namex_follows_path (h : Good sb s refs []) (hdirs : Dirs s.files) {cwd : Nat}
    (hcwd : cwd ∈ refs) (path : List UInt8) (parent : Bool) (hstart : Starts Never refs path)
    (hpass : Passable Never s.files refs parent (startOf cwd path) (comps path)) :
    ∃ r t, namex sb cwd path parent s = .ok (r, t) ∧ Resolved s t (r.map Prod.fst) ∧
      if parent then r = parentDir s.files (startOf cwd path) (comps path)
      else r.map Prod.fst = follow s.files (startOf cwd path) (comps path) := by
  obtain ⟨r, t, hrun, hr, hleft⟩ := exists_of_never (namex_spec h hdirs hcwd hstart hpass)
  refine ⟨r, t, hrun, hleft.resolved h, ?_⟩
  rw [hr, walk_eq _ _ _ _ (Nat.lt_succ_self _)]
  cases parent with
  | true => rfl
  | false => simp [Option.map_map, Function.comp_def]

theorem namex_follows_dotdot : ∃ r t, namex mkfsSuper ROOTINO (slash :: dotdot) false mkfsImage =
    .ok (r, t) ∧ Resolved mkfsImage t (r.map Prod.fst) ∧
      if false then r = parentDir mkfsImage.files (startOf ROOTINO (slash :: dotdot))
        (comps (slash :: dotdot))
      else r.map Prod.fst = follow mkfsImage.files (startOf ROOTINO (slash :: dotdot))
        (comps (slash :: dotdot)) := by
  have hup : lookup mkfsImage.files ROOTINO dotdot = some ROOTINO := by decide +kernel
  refine namex_follows_path mkfsImage_good mkfsImage_fresh.dirs List.mem_cons_self _ false
    (fun _ => .inr (.inl List.mem_cons_self)) ⟨.inl (by decide), fun _ _ next hnext => ?_⟩
  obtain rfl : ROOTINO = next := Option.some.inj (hup.symm.trans hnext)
  exact ⟨.inr (.inl List.mem_cons_self), trivial⟩

/-! A table without a free entry: the root is the current directory of the first process, and
49 files are open that have been unlinked since. The image's file `a` is not. -/

def crowdedDinode (i : Nat) : Dinode :=
  if i = ROOTINO then mkfsImage.dinode ROOTINO
  else if i < 52 then ⟨.file, 0, 0, if i = 2 then 1 else 0, 0, fun _ => 0⟩
  else Dinode.zero

def crowdedRefs : List Nat := ROOTINO :: List.range' 3 49

def crowded : Fs where
  bitmap := mkfsImage.bitmap
  data := mkfsImage.data
  dinode i := if i = 0 then Dinode.zero else crowdedDinode i
  itable i := if i ∈ crowdedRefs then ⟨1, true, false, crowdedDinode i⟩
    else ⟨0, false, false, Dinode.zero⟩

theorem mem_crowdedRefs : i ∈ crowdedRefs ↔ i = ROOTINO ∨ 2 < i ∧ i < 52 := by
  simp only [crowdedRefs, List.mem_cons, List.mem_range'_1]
  omega

theorem crowded_dinode (h : (crowded.dinode i).type ≠ .none) : 0 < i ∧ i < 52 := by
  by_contra hne
  apply h
  by_cases h0 : i = 0
  · simp [crowded, h0, Dinode.zero]
  · have h1 : i ≠ ROOTINO := by simp only [ROOTINO]; omega
    have h52 : ¬ i < 52 := by omega
    simp [crowded, crowdedDinode, h0, h1, h52, Dinode.zero]

theorem crowded_own (p : Nat × Nat) : own crowded.data crowded.dinode p =
    if p = (ROOTINO, 0) then nmeta else 0 := by
  obtain ⟨i, k⟩ := p
  by_cases hi : i = ROOTINO
  · subst hi
    by_cases hk : k = 0
    · subst hk
      rfl
    · simp [own, slotAddr, crowded, crowdedDinode, mkfsImage, hk]
  · have haddr : ∀ k, (crowded.dinode i).addrs k = 0 := by
      intro k
      simp only [crowded, crowdedDinode, if_neg hi]
      split
      · rfl
      · split <;> rfl
    simp [own, slotAddr, haddr, hi]

theorem crowded_good : Good mkfsSuper crowded crowdedRefs [] where
  blocks := by
    refine blocks_of_root crowded_own fun i => ?_
    by_cases hi : i = ROOTINO
    · rw [if_pos hi, hi]
      decide
    · rw [if_neg hi]
      simp only [crowded, crowdedDinode, if_neg hi]
      split
      · exact Nat.le_refl 0
      · split <;> exact Nat.le_refl 0
  ref i := by
    by_cases hi : i ∈ crowdedRefs
    · rw [List.count_eq_one_of_mem (by decide) hi]
      simp [crowded, hi]
    · rw [List.count_eq_zero_of_not_mem hi]
      simp [crowded, hi]
  locked i := by
    simp only [crowded]
    split <;> rfl
  held i hi := by contradiction
  synced i hi _ := by
    have h0 : i ≠ 0 := by
      have := mem_crowdedRefs.mp hi
      simp only [ROOTINO] at this
      omega
    simp [din, crowded, hi, h0]
  typed i hi _ := by
    rcases mem_crowdedRefs.mp hi with rfl | hlt
    · decide
    · have h0 : i ≠ 0 := by omega
      have h1 : i ≠ ROOTINO := by simp only [ROOTINO]; omega
      simp [crowded, crowdedDinode, h0, h1, hlt.2]
  orphan i ht hn := by
    have hlt := crowded_dinode ht
    have hin : i ∈ crowdedRefs := by
      rw [mem_crowdedRefs]
      by_contra hne
      obtain rfl : i = 2 := by simp only [ROOTINO] at hne; omega
      cases hn
    exact ⟨hin, by simp [crowded, hin]⟩
  inum i ht := by
    have hlt := crowded_dinode ht
    exact ⟨hlt.1, hlt.2.trans (by decide)⟩
  short i := by
    simp only [crowded, crowdedDinode]
    split
    · decide
    · split
      · decide
      · split
        · split <;> decide
        · decide

theorem crowded_dirs : Dirs crowded.files := by
  intro i ht
  rw [files_type] at ht
  obtain rfl : i = ROOTINO := by
    by_contra hi
    simp only [crowded, crowdedDinode, if_neg hi] at ht
    split at ht
    · cases ht
    · split at ht <;> cases ht
  exact ⟨by decide, by decide⟩

/-- `namei("a")` finds the entry, and `iget` has no slot for its inode. -/
theorem namex_panics_on_full_table : Good mkfsSuper crowded crowdedRefs [] ∧ Dirs crowded.files ∧
    ROOTINO ∈ crowdedRefs ∧ follow crowded.files (startOf ROOTINO fileName) (comps fileName) = some 2 ∧
    ∀ r, namex mkfsSuper ROOTINO fileName false crowded ≠ .ok r := by
  refine ⟨crowded_good, crowded_dirs, List.mem_cons_self, by decide +kernel, fun r hr => ?_⟩
  have herr : (namex mkfsSuper ROOTINO fileName false crowded).toOption.isNone = true := by
    decide +kernel
  rw [hr] at herr
  cases herr

end Fs

end Xv6
