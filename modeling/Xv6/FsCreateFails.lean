import Xv6.FsKeepLinks

/-! A `create` that fails leaves the file system as it was. -/

namespace Xv6

open StateProg

namespace Fs

variable {sb : Superblock} {s t : Fs} {cwd : Nat} {held : List Nat} {path : Path}

/-- The offset in a file from which on slot `k` of its inode is needed. -/
def slotStart (k : Nat) : Nat := (if k ≤ NDIRECT then k else k - 1) * BSIZE

theorem Good.slot_used {lk : List Nat} (h : Good sb s held lk) {i k : Nat}
    (ht : (s.dinode i).type ≠ .none) (hk : k ≤ MAXFILE) (hsize : slotStart k < (s.files i).size) :
    s.slots (i, k) ≠ 0 := by
  rw [files_size ht] at hsize
  have hne := h.blocks.full i ht _ hsize
  rw [slots, own_of_type ht hk]
  rw [fileBlock, slotOf] at hne
  by_cases hk12 : k ≤ NDIRECT
  · rw [if_pos hk12] at hne
    by_cases hlt : k < NDIRECT
    · rwa [if_pos hlt] at hne
    · -- slot 12 is the indirect block, which block 12 of the file is found through
      obtain rfl : k = NDIRECT := by omega
      rw [if_neg hlt, slotAddr, if_neg (by omega)] at hne
      rw [slotAddr, if_pos hk12]
      exact fun hz => hne (if_pos hz)
  · rwa [if_neg hk12, if_neg (by omega), Nat.sub_add_cancel (by omega)] at hne

/-- What there is after a failed `create`: the inodes, directories and files of before, no lock,
the references of before, and no new block but in slots past the end of the parent. -/
structure Undone (sb : Superblock) (s : Fs) (cwd : Nat) (path : Path) (t : Fs) : Prop where
  files : t.files = s.files
  unlocked : ∀ i, (t.itable i).locked = false
  ref : ∀ i, (t.itable i).ref = (s.itable i).ref
  blocks : Blocks sb t.bitmap t.data t.dinode
  slots : ∀ i k, t.slots (i, k) = s.slots (i, k) ∨ s.slots (i, k) = 0 ∧
    (s.files i).size ≤ slotStart k ∧ ∃ name, resolve s.files cwd path true = some (i, name)

/-- A `create` that fails, for whatever reason, is undone. -/
theorem create_failed_undone (h : Ready sb (fun _ => True) s held cwd) (type : FileType)
    (major minor : Int) (hrun : create sb cwd path type major minor s = .ok (none, t)) :
    Undone sb s cwd path t := by
  have hspec := WpUpTo.ok (create_spec h (.inl trivial) path (.inr trivial)) hrun
  obtain ⟨-, hg, hf, hgrew⟩ : _ ∧ Good sb t held [] ∧ t.files = s.files ∧ ParentGrew s cwd path t := by
    rcases hspec with hnone | ⟨ip, hip, -⟩ | ⟨ip, dp, name, hip, -⟩
    · exact hnone
    · contradiction
    · contradiction
  refine ⟨hf, fun i => ?_, fun i => by rw [hg.ref, h.good.ref], hg.blocks, fun i k => ?_⟩
  · rw [hg.locked]
    rfl
  · rcases hgrew (i, k) with he | ⟨hz, name, hres⟩
    · exact .inl he
    · have htyped : (s.dinode i).type ≠ .none := by
        rw [← files_type, resolve_dir hres]
        decide
      by_cases hk : k ≤ MAXFILE
      · refine .inr ⟨hz, ?_, name, hres⟩
        by_contra hlt
        exact h.good.slot_used htyped hk (by omega) hz
      · left
        rw [Fs.slots, Fs.slots, own_of_beyond hk, own_of_beyond hk]

/-- A disk that ends with the only block of the root directory. -/
def fullSuper : Superblock := { mkfsSuper with
  size := nmeta + 1
  size_le := by decide }

theorem mkfsImage_full : Good fullSuper mkfsImage [ROOTINO] [] :=
  { mkfsImage_good with
    inum := mkfsImage_good.inum
    blocks := { mkfsImage_blocks with
      owned := { mkfsImage_blocks.owned with
        range := fun p hp => by
          rw [mkfsImage_own] at hp ⊢
          split at hp
          · rw [if_pos ‹_›]
            decide
          · contradiction
        stored := fun b h1 h2 => mkfsImage_blocks.owned.stored b h1 (h2.trans (by decide)) } } }

/-- There is an inode for the new directory, but no block for its entries. -/
theorem create_failed_undone_full : ∃ t, create fullSuper ROOTINO pathD .dir 0 0 mkfsImage =
    .ok (none, t) ∧ Undone fullSuper mkfsImage ROOTINO pathD t := by
  obtain ⟨⟨_, t⟩, hrun, rfl⟩ := ActionRun.Ends.exists_ok (P := fun r => r.1 = none)
    (r := create fullSuper ROOTINO pathD .dir 0 0 mkfsImage) (by decide +kernel)
  have hready : Ready fullSuper (fun _ => True) mkfsImage [ROOTINO] ROOTINO :=
    ⟨mkfsImage_full, mkfsImage_fresh.dirs, .inr trivial, mkfsImage_accurate.typed,
      List.mem_singleton_self _, .inr trivial⟩
  generalize mkfsImage = s at hrun hready ⊢
  exact ⟨t, hrun, create_failed_undone hready .dir 0 0 hrun⟩

end Fs

end Xv6
