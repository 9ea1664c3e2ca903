import Mathlib.Algebra.Group.Nat.Defs
import Mathlib.Data.Nat.Basic
import Mathlib.Tactic.Tauto

/-! Addresses and page-table entries of `kernel/riscv.h` and `kernel/memlayout.h`. -/

namespace Xv6

abbrev PGSIZE : Nat := 4096

abbrev KERNBASE : Nat := 0x80000000

abbrev PHYSTOP : Nat := KERNBASE + 128 * 1024 * 1024

abbrev MAXVA : Nat := 2 ^ 38

abbrev TRAMPOLINE : Nat := MAXVA - PGSIZE

abbrev TRAPFRAME : Nat := TRAMPOLINE - PGSIZE

def pgRoundUp (sz : Nat) : Nat := (sz + PGSIZE - 1) / PGSIZE * PGSIZE

def pgRoundDown (a : Nat) : Nat := a / PGSIZE * PGSIZE

theorem pgRoundDown_div (a : Nat) : pgRoundDown a / PGSIZE = a / PGSIZE := by
  simp only [pgRoundDown, PGSIZE]
  omega

theorem sub_pgRoundDown (a : Nat) : a - pgRoundDown a = a % PGSIZE := by
  simp only [pgRoundDown, PGSIZE]
  omega

theorem pgRoundDown_add (a : Nat) : pgRoundDown a + PGSIZE = (a / PGSIZE + 1) * PGSIZE := by
  simp only [pgRoundDown, PGSIZE]
  omega

abbrev Pte := BitVec 64

abbrev PTE_V : Pte := 1
abbrev PTE_R : Pte := 2
abbrev PTE_W : Pte := 4
abbrev PTE_X : Pte := 8
abbrev PTE_U : Pte := 16
abbrev PTE_COW : Pte := 256

def Pte.has (pte flag : Pte) : Bool := pte &&& flag != 0

@[irreducible] def pa2pte (pa : Nat) : Pte := (BitVec.ofNat 64 pa >>> 12) <<< 10

@[irreducible] def pte2pa (pte : Pte) : Nat := ((pte >>> 10) <<< 12).toNat

def pteFlags (pte : Pte) : Pte := pte &&& 0x3FF

def px (level va : Nat) : Nat := va / 2 ^ (12 + 9 * level) % 512

@[irreducible] def pa2cowIndex (pa : Nat) : Nat := (pa - KERNBASE) / PGSIZE

def PageAddr (pa : Nat) : Prop := pa % PGSIZE = 0 ∧ pa < 2 ^ 56

variable {i pa : Nat} {x : BitVec 64} {flag : Pte}

theorem Pte.has_twoPow (pte : Pte) (hi : i < 64) : pte.has (BitVec.twoPow 64 i) = pte.getLsbD i := by
  have hne : BitVec.twoPow 64 i ≠ 0#64 := by
    intro h
    have hbit := congrArg (fun x => BitVec.getLsbD x i) h
    simp [hi] at hbit
  rw [Pte.has, BitVec.and_twoPow]
  cases pte.getLsbD i <;> simp [hne]

theorem Pte.has_V (pte : Pte) : pte.has PTE_V = pte.getLsbD 0 :=
  pte.has_twoPow (show 0 < 64 by decide)

theorem Pte.has_R (pte : Pte) : pte.has PTE_R = pte.getLsbD 1 :=
  pte.has_twoPow (show 1 < 64 by decide)

theorem Pte.has_W (pte : Pte) : pte.has PTE_W = pte.getLsbD 2 :=
  pte.has_twoPow (show 2 < 64 by decide)

theorem Pte.has_U (pte : Pte) : pte.has PTE_U = pte.getLsbD 4 :=
  pte.has_twoPow (show 4 < 64 by decide)

theorem Pte.has_COW (pte : Pte) : pte.has PTE_COW = pte.getLsbD 8 :=
  pte.has_twoPow (show 8 < 64 by decide)

theorem Pte.has_RWX (pte : Pte) : pte.has (PTE_R ||| PTE_W ||| PTE_X) =
    (pte.getLsbD 1 || pte.getLsbD 2 || pte.getLsbD 3) := by
  have h1 := pte.has_twoPow (show 1 < 64 by decide)
  have h2 := pte.has_twoPow (show 2 < 64 by decide)
  have h3 := pte.has_twoPow (show 3 < 64 by decide)
  rw [← h1, ← h2, ← h3]
  have hdist : pte &&& (PTE_R ||| PTE_W ||| PTE_X) =
      (pte &&& BitVec.twoPow 64 1) ||| (pte &&& BitVec.twoPow 64 2) |||
        (pte &&& BitVec.twoPow 64 3) := by
    rw [← BitVec.and_or_distrib_left, ← BitVec.and_or_distrib_left]
    rfl
  have hor : ∀ x y : BitVec 64, (x ||| y != 0) = (x != 0 || y != 0) := by
    intro x y
    rw [Bool.eq_iff_iff, Bool.or_eq_true, bne_iff_ne, bne_iff_ne, bne_iff_ne]
    have hz := BitVec.or_eq_zero_iff (x := x) (y := y)
    tauto
  simp only [Pte.has, hdist, hor]

theorem pte2pa_congr {a b : Pte} (h : ∀ i, 10 ≤ i → a.getLsbD i = b.getLsbD i) :
    pte2pa a = pte2pa b := by
  have hs : a >>> 10 = b >>> 10 := by
    apply BitVec.eq_of_getLsbD_eq
    intro i _
    rw [BitVec.getLsbD_ushiftRight, BitVec.getLsbD_ushiftRight]
    exact h (10 + i) (by omega)
  rw [pte2pa, pte2pa, hs]

theorem pte2pa_pa2pte (h : PageAddr pa) : pte2pa (pa2pte pa) = pa := by
  obtain ⟨hal, hlt⟩ := h
  simp only [pte2pa, pa2pte, BitVec.toNat_shiftLeft, BitVec.toNat_ushiftRight, BitVec.toNat_ofNat,
    Nat.shiftRight_eq_div_pow, Nat.shiftLeft_eq]
  simp only [PGSIZE] at hal
  omega

theorem pa2pte_low (pa : Nat) (hi : i < 10) : (pa2pte pa).getLsbD i = false := by
  simp [pa2pte, BitVec.getLsbD_shiftLeft, hi]

theorem getLsbD_of_lt (h : x.toNat < 1024) (hi : 10 ≤ i) : x.getLsbD i = false := by
  rw [BitVec.getLsbD]
  apply Nat.testBit_lt_two_pow
  calc x.toNat < 2 ^ 10 := h
    _ ≤ 2 ^ i := Nat.pow_le_pow_right (by decide) hi

theorem pteFlags_getLsbD (pte : Pte) (i : Nat) :
    (pteFlags pte).getLsbD i = (decide (i < 10) && pte.getLsbD i) := by
  have hmask : (0x3FF : BitVec 64) = BitVec.ofNat 64 (2 ^ 10 - 1) := rfl
  rw [pteFlags, BitVec.getLsbD_and, hmask, BitVec.getLsbD_ofNat, Nat.testBit_two_pow_sub_one]
  by_cases hi : i < 10
  · have h64 : i < 64 := by omega
    simp [hi, h64]
  · simp [hi]

theorem pteFlags_lt (pte : Pte) : (pteFlags pte).toNat < 1024 := by
  rw [pteFlags, BitVec.toNat_and]
  exact Nat.lt_of_le_of_lt Nat.and_le_right (by decide)

/-- Two entries agree on the flags the kernel looks at, apart from `PTE_W` and `PTE_COW`. -/
structure Pte.SameAccess (p q : Pte) : Prop where
  valid : p.has PTE_V = q.has PTE_V
  readable : p.has PTE_R = q.has PTE_R
  user : p.has PTE_U = q.has PTE_U

theorem mapped_flags (pa : Nat) (perm : Pte) :
    (pa2pte pa ||| perm ||| PTE_V).has PTE_V = true ∧
    (pa2pte pa ||| perm ||| PTE_V).has PTE_R = perm.has PTE_R ∧
    (pa2pte pa ||| perm ||| PTE_V).has PTE_W = perm.has PTE_W ∧
    (pa2pte pa ||| perm ||| PTE_V).has PTE_U = perm.has PTE_U ∧
    (pa2pte pa ||| perm ||| PTE_V).has PTE_COW = perm.has PTE_COW := by
  have hlow : ∀ i, i < 10 → (pa2pte pa).getLsbD i = false := fun i hi => pa2pte_low pa hi
  simp only [Pte.has_V, Pte.has_R, Pte.has_W, Pte.has_U, Pte.has_COW, BitVec.getLsbD_or,
    hlow 0 (by decide), hlow 1 (by decide), hlow 2 (by decide), hlow 4 (by decide),
    hlow 8 (by decide)]
  simp

theorem mapped_pa {perm : Pte} (ha : PageAddr pa) (hp : perm.toNat < 1024) :
    pte2pa (pa2pte pa ||| perm ||| PTE_V) = pa := by
  have hb : pte2pa (pa2pte pa ||| perm ||| PTE_V) = pte2pa (pa2pte pa) := by
    apply pte2pa_congr
    intro i hi
    rw [BitVec.getLsbD_or, BitVec.getLsbD_or, getLsbD_of_lt hp hi,
      getLsbD_of_lt (x := PTE_V) (by decide) hi, Bool.or_false, Bool.or_false]
  rw [hb, pte2pa_pa2pte ha]

theorem getLsbD_not_of_lt (h : x.toNat < 1024) (hi : 10 ≤ i) (h64 : i < 64) :
    (~~~x).getLsbD i = true := by
  rw [BitVec.getLsbD_not, getLsbD_of_lt h hi]
  simp [h64]

theorem pte2pa_clear (pte : Pte) (hf : flag.toNat < 1024) : pte2pa (pte &&& ~~~flag) = pte2pa pte := by
  apply pte2pa_congr
  intro i hi
  by_cases h64 : i < 64
  · rw [BitVec.getLsbD_and, getLsbD_not_of_lt hf hi h64, Bool.and_true]
  · rw [BitVec.getLsbD_of_ge _ _ (by omega), BitVec.getLsbD_of_ge _ _ (by omega)]

theorem pte2pa_set (pte : Pte) (hf : flag.toNat < 1024) : pte2pa (pte ||| flag) = pte2pa pte := by
  apply pte2pa_congr
  intro i hi
  rw [BitVec.getLsbD_or, getLsbD_of_lt hf hi, Bool.or_false]

theorem cowMark (pte : Pte) :
    ((pte &&& ~~~PTE_W) ||| PTE_COW).SameAccess pte ∧
    ((pte &&& ~~~PTE_W) ||| PTE_COW).has PTE_W = false ∧
    ((pte &&& ~~~PTE_W) ||| PTE_COW).has PTE_COW = true ∧
    pte2pa ((pte &&& ~~~PTE_W) ||| PTE_COW) = pte2pa pte := by
  refine ⟨⟨?_, ?_, ?_⟩, ?_, ?_, ?_⟩
  · rw [Pte.has_V, Pte.has_V]
    simp
  · rw [Pte.has_R, Pte.has_R]
    simp
  · rw [Pte.has_U, Pte.has_U]
    simp
  · rw [Pte.has_W]
    simp
  · rw [Pte.has_COW]
    simp
  · rw [pte2pa_set _ (by decide), pte2pa_clear _ (by decide)]

theorem cowCopy_getLsbD (pte : Pte) (mem : Nat) (hi : i < 10) :
    ((pteFlags pte &&& ~~~PTE_COW) ||| PTE_W ||| pa2pte mem).getLsbD i =
      (pte.getLsbD i && !decide (i = 8) || decide (i = 2)) := by
  have hcow : ∀ i : Fin 10, (~~~PTE_COW : Pte).getLsbD i.val = !decide (i.val = 8) := by decide
  have hw : ∀ i : Fin 10, (PTE_W : Pte).getLsbD i.val = decide (i.val = 2) := by decide
  rw [BitVec.getLsbD_or, BitVec.getLsbD_or, BitVec.getLsbD_and, pteFlags_getLsbD, pa2pte_low mem hi,
    hcow ⟨i, hi⟩, hw ⟨i, hi⟩, Bool.or_false, decide_eq_true hi, Bool.true_and]

theorem cowCopy (pte : Pte) {mem : Nat} (ha : PageAddr mem) :
    ((pteFlags pte &&& ~~~PTE_COW) ||| PTE_W ||| pa2pte mem).SameAccess pte ∧
    ((pteFlags pte &&& ~~~PTE_COW) ||| PTE_W ||| pa2pte mem).has PTE_W = true ∧
    ((pteFlags pte &&& ~~~PTE_COW) ||| PTE_W ||| pa2pte mem).has PTE_COW = false ∧
    pte2pa ((pteFlags pte &&& ~~~PTE_COW) ||| PTE_W ||| pa2pte mem) = mem := by
  refine ⟨⟨?_, ?_, ?_⟩, ?_, ?_, ?_⟩
  · rw [Pte.has_V, Pte.has_V, cowCopy_getLsbD pte mem (by decide)]
    simp
  · rw [Pte.has_R, Pte.has_R, cowCopy_getLsbD pte mem (by decide)]
    simp
  · rw [Pte.has_U, Pte.has_U, cowCopy_getLsbD pte mem (by decide)]
    simp
  · rw [Pte.has_W, cowCopy_getLsbD pte mem (by decide)]
    simp
  · rw [Pte.has_COW, cowCopy_getLsbD pte mem (by decide)]
    simp
  · have hb : pte2pa ((pteFlags pte &&& ~~~PTE_COW) ||| PTE_W ||| pa2pte mem) =
        pte2pa (pa2pte mem) := by
      apply pte2pa_congr
      intro i hi
      have h10 : ¬ i < 10 := by omega
      rw [BitVec.getLsbD_or, BitVec.getLsbD_or, BitVec.getLsbD_and, pteFlags_getLsbD,
        getLsbD_of_lt (x := PTE_W) (by decide) hi, decide_eq_false h10]
      simp
    rw [hb, pte2pa_pa2pte ha]

theorem clearUser (pte : Pte) :
    (pte &&& ~~~PTE_U).has PTE_V = pte.has PTE_V ∧ (pte &&& ~~~PTE_U).has PTE_R = pte.has PTE_R ∧
    (pte &&& ~~~PTE_U).has PTE_W = pte.has PTE_W ∧
    (pte &&& ~~~PTE_U).has PTE_COW = pte.has PTE_COW ∧
    (pte &&& ~~~PTE_U).has PTE_U = false ∧ pte2pa (pte &&& ~~~PTE_U) = pte2pa pte := by
  refine ⟨?_, ?_, ?_, ?_, ?_, pte2pa_clear pte (by decide)⟩
  · rw [Pte.has_V, Pte.has_V]
    simp
  · rw [Pte.has_R, Pte.has_R]
    simp
  · rw [Pte.has_W, Pte.has_W]
    simp
  · rw [Pte.has_COW, Pte.has_COW]
    simp
  · rw [Pte.has_U]
    simp

theorem pteFlags_has (pte : Pte) :
    (pteFlags pte).has PTE_R = pte.has PTE_R ∧ (pteFlags pte).has PTE_W = pte.has PTE_W ∧
    (pteFlags pte).has PTE_U = pte.has PTE_U ∧ (pteFlags pte).has PTE_COW = pte.has PTE_COW := by
  refine ⟨?_, ?_, ?_, ?_⟩
  · rw [Pte.has_R, Pte.has_R, pteFlags_getLsbD]
    rfl
  · rw [Pte.has_W, Pte.has_W, pteFlags_getLsbD]
    rfl
  · rw [Pte.has_U, Pte.has_U, pteFlags_getLsbD]
    rfl
  · rw [Pte.has_COW, Pte.has_COW, pteFlags_getLsbD]
    rfl

theorem pteFlags_ne_V {pte : Pte} (h : pte.has PTE_R = true) : pteFlags pte ≠ PTE_V := by
  intro he
  have hr := (pteFlags_has pte).1
  rw [he, h] at hr
  revert hr
  decide

end Xv6
