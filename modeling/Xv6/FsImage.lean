import Xv6.FsAccurate

/-! The file system that `mkfs/mkfs.c` makes. -/

namespace Xv6

namespace Fs

variable {F : Nat → FileView} {N i k d : Nat}

/-- A fresh image: the root directory and the files that were put into it, each under one
name. -/
structure Fresh (N : Nat) (F : Nat → FileView) : Prop where
  root : (F ROOTINO).IsDir
  dot : (F ROOTINO).ents[0]? = some ⟨ROOTINO, dot⟩
  dotdot : (F ROOTINO).ents[1]? = some ⟨ROOTINO, dotdot⟩
  entry : ∀ k e, 2 ≤ k → (F ROOTINO).ents[k]? = some e → e.inum ≠ 0 →
    e.name ≠ Xv6.dot ∧ e.name ≠ Xv6.dotdot ∧ (F e.inum).type = .file
  file : ∀ i, (F i).type ≠ .none → i ≠ ROOTINO → (F i).type = .file
  nlink : ∀ i, (F i).type ≠ .none → (F i).nlink = 1
  once : ∀ i, (F i).type ≠ .none → (F ROOTINO).naming i = 1
  inum : ∀ i, (F i).type ≠ .none → 0 < i ∧ i < N

theorem Fresh.linked_iff (h : Fresh N F) (d : Nat) : LinkedDir F d ↔ d = ROOTINO := by
  constructor
  · intro hl
    by_contra hne
    have := h.file d hl.typed hne
    rw [hl.1] at this
    contradiction
  · rintro rfl
    refine ⟨h.root.type, ?_⟩
    rw [h.nlink _ (by rw [h.root.type]; decide)]
    decide

theorem Fresh.typed (h : Fresh N F) : (F ROOTINO).type ≠ .none := by
  rw [h.root.type]
  decide

theorem Fresh.names_eq (h : Fresh N F) (i : Nat) : names N F i = (F ROOTINO).naming i := by
  have hroot := (h.inum ROOTINO h.typed).2
  rw [names, Finset.sum_eq_single ROOTINO]
  · exact share_of_linkedDir ((h.linked_iff _).mpr rfl)
  · intro d _ hd
    exact share_of_not (fun hl => hd ((h.linked_iff d).mp hl))
  · intro hnot
    exact absurd (Finset.mem_range.mpr hroot) hnot

theorem Fresh.accurate (h : Fresh N F) : Accurate N F := by
  intro i ht
  rw [h.nlink i ht, h.names_eq, h.once i ht]
  rfl

theorem Fresh.up (h : Fresh N F) : (F ROOTINO).up = ROOTINO := up_of_slot h.dotdot

theorem Fresh.no_dir (h : Fresh N F) (hk : 2 ≤ k) (hn : (F ROOTINO).Names k i) :
    (F i).type = .file := by
  obtain ⟨h0, e, he, rfl⟩ := hn
  exact (h.entry k e hk he h0).2.2

theorem Fresh.dirs (h : Fresh N F) : Dirs F := by
  intro i hi
  by_cases hr : i = ROOTINO
  · rw [hr]
    exact h.root
  · have := h.file i (by rw [hi]; decide) hr
    rw [hi] at this
    contradiction

theorem Fresh.shaped (h : Fresh N F) : Shaped (LinkedDir F) F := by
  refine ⟨?_, ?_, ?_, ?_, ?_, ?_⟩
  all_goals
    intro d hd
    obtain rfl := (h.linked_iff d).mp hd
  · exact hd.1
  · exact h.dot
  · rw [h.up]
    exact ⟨by decide, h.dotdot⟩
  · intro k e hk he hne
    obtain ⟨h1, h2, -⟩ := h.entry k e hk he hne
    exact ⟨h1, h2⟩
  · intro k i hk hn
    rw [h.no_dir hk hn]
    decide
  · intro k i hk hn hi
    rw [h.no_dir hk hn] at hi
    contradiction

theorem Fresh.parent_linked (h : Fresh N F) {cwd : Nat} {path : Path} {name : Name}
    (hres : resolve F cwd path true = some (d, name)) : (F d).nlink ≠ 0 := by
  have hd : d = ROOTINO := by
    by_contra hne
    have hdir := resolve_dir hres
    rw [h.file d (by rw [hdir]; decide) hne] at hdir
    contradiction
  rw [hd, h.nlink _ h.typed]
  decide

theorem Fresh.no_edge (h : Fresh N F) {p : Nat} (hd : (F d).type = .dir) : ¬ Edge F p k d := by
  rintro ⟨hp, hk, hn⟩
  obtain rfl := (h.linked_iff p).mp hp
  rw [h.no_dir hk hn] at hd
  contradiction

theorem Fresh.tree (h : Fresh N F) : Tree F where
  root := (h.linked_iff _).mpr rfl
  rootUp := h.up
  top p k he := h.no_edge h.root.type he
  unique d hd p k _ _ he := absurd he (h.no_edge hd)
  parent d hd hne := absurd ((h.linked_iff d).mp hd) hne
  reach d hd := by
    rw [(h.linked_iff d).mp hd]

abbrev NINODES : Nat := 200

abbrev IPB : Nat := BSIZE / 64

abbrev nmeta : Nat := 2 + LOGSIZE + (NINODES / IPB + 1) + (FSSIZE / (BSIZE * 8) + 1)

def mkfsSuper : Superblock where
  size := FSSIZE
  ninodes := NINODES
  datastart := nmeta
  datastart_pos := by decide
  size_le := by decide
  root_lt := by decide
  ninodes_le := by decide

def fileName : Name := [97]

/-- The image for one empty input file, `a`, with the reference to the root directory that `userinit`
takes for the first process. -/
def mkfsImage : Fs where
  bitmap b := decide (b < nmeta + 1)
  data b :=
    if b = nmeta then
      ((Buffer.write (fun _ => 0) 0 (Dirent.mk ROOTINO dot).bytes).write DESIZE
        (Dirent.mk ROOTINO dotdot).bytes).write (2 * DESIZE) (Dirent.mk 2 fileName).bytes
    else fun _ => 0
  dinode i :=
    if i = ROOTINO then ⟨.dir, 0, 0, 1, (3 * DESIZE / BSIZE + 1) * BSIZE,
      fun k => if k = 0 then nmeta else 0⟩
    else if i = 2 then ⟨.file, 0, 0, 1, 0, fun _ => 0⟩
    else Dinode.zero
  itable i := ⟨if i = ROOTINO then 1 else 0, false, false, Dinode.zero⟩

theorem mkfsImage_dinode (h : (mkfsImage.dinode i).type ≠ .none) : i = ROOTINO ∨ i = 2 := by
  by_contra hne
  rw [not_or] at hne
  exact h (by simp only [mkfsImage, if_neg hne.1, if_neg hne.2, Dinode.zero])

theorem mkfsImage_ents : (mkfsImage.files ROOTINO).ents = ⟨ROOTINO, dot⟩ :: ⟨ROOTINO, dotdot⟩ ::
    ⟨2, fileName⟩ :: List.replicate 61 Dirent.empty := by
  decide +kernel

theorem mkfsImage_own (p : Nat × Nat) : own mkfsImage.data mkfsImage.dinode p =
    if p = (ROOTINO, 0) then nmeta else 0 := by
  obtain ⟨i, k⟩ := p
  by_cases hi : i = ROOTINO
  · subst hi
    by_cases hk : k = 0
    · subst hk
      rfl
    · simp [own, slotAddr, mkfsImage, hk]
  · by_cases h2 : i = 2
    · simp [own, slotAddr, mkfsImage, h2, ROOTINO]
    · simp [own, mkfsImage, hi, h2, Dinode.zero]

theorem blocks_of_root {data : Nat → Buffer} {inos : Nat → Dinode}
    (hown : ∀ p, own data inos p = if p = (ROOTINO, 0) then nmeta else 0)
    (hsize : ∀ i, (inos i).size ≤ if i = ROOTINO then BSIZE else 0) :
    Blocks mkfsSuper (fun b => decide (b < nmeta + 1)) data inos where
  owned := by
    have honly : ∀ p, own data inos p ≠ 0 → p = (ROOTINO, 0) := by
      intro p hp
      rw [hown] at hp
      by_contra hne
      exact hp (if_neg hne)
    have hroot : own data inos (ROOTINO, 0) = nmeta := by rw [hown, if_pos rfl]
    refine ⟨by decide, fun b hb => ?_, fun p hp => ?_, fun p hp => ?_, fun p q hp he => ?_,
      fun b hlo _ hb => ⟨(ROOTINO, 0), ?_⟩⟩
    · exact decide_eq_true (Nat.lt_succ_of_lt hb)
    · rw [honly p hp, hroot]
      decide
    · rw [honly p hp, hroot]
      rfl
    · rw [honly p hp, honly q (he ▸ hp)]
    · have hlt : b < nmeta + 1 := of_decide_eq_true hb
      rw [hroot]
      exact Nat.le_antisymm hlo (Nat.lt_succ_iff.mp hlt)
  full i ht bn hbn := by
    have hle := hsize i
    obtain rfl : i = ROOTINO := by
      by_contra hne
      rw [if_neg hne] at hle
      omega
    obtain rfl : bn = 0 := by
      rw [if_pos rfl] at hle
      simp only [BSIZE] at hbn hle
      omega
    rw [← own_fileBlock ht (by decide), hown, if_pos (show (ROOTINO, slotOf 0) = (ROOTINO, 0) from rfl)]
    decide
  fits i _ := by
    have hle := hsize i
    split at hle
    · exact hle.trans (by decide)
    · exact hle.trans (Nat.zero_le _)

theorem mkfsImage_blocks :
    Blocks mkfsSuper mkfsImage.bitmap mkfsImage.data mkfsImage.dinode := by
  refine blocks_of_root mkfsImage_own fun i => ?_
  by_cases hi : i = ROOTINO
  · rw [if_pos hi, hi]
    decide
  · rw [if_neg hi]
    simp only [mkfsImage, if_neg hi]
    split <;> exact Nat.le_refl 0

theorem mkfsImage_good : Good mkfsSuper mkfsImage [ROOTINO] [] where
  blocks := mkfsImage_blocks
  ref i := by
    by_cases hi : i = ROOTINO
    · rw [hi]
      rfl
    · rw [List.count_singleton]
      simp [mkfsImage, hi, Ne.symm hi]
  locked i := by simp [mkfsImage]
  held i hi := by contradiction
  synced i _ hv := by contradiction
  typed i _ hv := by contradiction
  orphan i ht hn := by
    obtain rfl | rfl := mkfsImage_dinode ht
    · contradiction
    · contradiction
  inum i ht := by
    obtain rfl | rfl := mkfsImage_dinode ht
    · decide
    · decide
  short i := by
    simp only [mkfsImage]
    split
    · decide
    · split <;> decide

theorem mkfsImage_fresh : Fresh NINODES mkfsImage.files := by
  have htyped : ∀ {i}, (mkfsImage.files i).type ≠ .none → i = ROOTINO ∨ i = 2 := by
    intro i ht
    rw [files_type] at ht
    exact mkfsImage_dinode ht
  refine ⟨⟨by decide, by decide⟩, ?_, ?_, fun k e hk he hne => ?_, fun i ht hne => ?_, fun i ht => ?_,
    fun i ht => ?_, fun i ht => ?_⟩
  · rw [mkfsImage_ents]
    rfl
  · rw [mkfsImage_ents]
    rfl
  · rw [mkfsImage_ents] at he
    obtain ⟨j, rfl⟩ := Nat.exists_eq_add_of_le' hk
    cases j with
    | zero =>
      cases he
      decide
    | succ j =>
      have hmem := List.mem_of_getElem? (show (List.replicate 61 Dirent.empty)[j]? = some e from he)
      rw [List.eq_of_mem_replicate hmem] at hne
      exact absurd rfl hne
  · rw [(htyped ht).resolve_left hne]
    decide
  · obtain rfl | rfl := htyped ht
    · decide
    · decide
  · rw [FileView.naming, mkfsImage_ents]
    obtain rfl | rfl := htyped ht
    · decide
    · decide
  · obtain rfl | rfl := htyped ht
    · decide
    · decide

end Fs

end Xv6
