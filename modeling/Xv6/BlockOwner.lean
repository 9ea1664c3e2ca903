import Mathlib.Data.List.Basic
import Mathlib.Logic.Function.Basic

/-! Blocks handed out by a bitmap and stored in places. Place `p` stores block `own p`,
and 0 stands for no block. The blocks below `lo` are reserved. -/

namespace BlockOwner

open Function

variable {P : Type} {lo hi b : Nat} {bm : Nat → Bool} {own : P → Nat} {p : P}

/-- Every stored block is a block of the data area that is marked and stored nowhere
else, and every marked block of the data area is stored. -/
structure Owned (lo hi : Nat) (bm : Nat → Bool) (own : P → Nat) : Prop where
  lo_pos : 0 < lo
  reserved : ∀ b, b < lo → bm b = true
  range : ∀ p, own p ≠ 0 → lo ≤ own p ∧ own p < hi
  marked : ∀ p, own p ≠ 0 → bm (own p) = true
  unique : ∀ p q, own p ≠ 0 → own p = own q → p = q
  stored : ∀ b, lo ≤ b → b < hi → bm b = true → ∃ p, own p = b

def free (hi : Nat) (bm : Nat → Bool) : Nat := (List.range hi).countP (fun b => !bm b)

theorem Owned.unmarked_ne (h : Owned lo hi bm own) (hb : bm b = false) (p : P) : own p ≠ b := by
  rintro rfl
  by_cases h0 : own p = 0
  · rw [h0, h.reserved 0 h.lo_pos] at hb
    contradiction
  · rw [h.marked p h0] at hb
    contradiction

theorem Owned.unmarked_ge (h : Owned lo hi bm own) (hb : bm b = false) : lo ≤ b := by
  by_contra hlt
  rw [h.reserved b (by omega)] at hb
  contradiction

variable [DecidableEq P]

theorem Owned.alloc (h : Owned lo hi bm own) (hb : bm b = false) (hlt : b < hi) (hp : own p = 0) :
    Owned lo hi (update bm b true) (update own p b) where
  lo_pos := h.lo_pos
  reserved c hc := by
    have hge := h.unmarked_ge hb
    rw [update_of_ne (by omega)]
    exact h.reserved c hc
  range q hq := by
    by_cases hqp : q = p
    · rw [hqp, update_self]
      exact ⟨h.unmarked_ge hb, hlt⟩
    · rw [update_of_ne hqp] at hq ⊢
      exact h.range q hq
  marked q hq := by
    by_cases hqp : q = p
    · rw [hqp, update_self, update_self]
    · rw [update_of_ne hqp] at hq ⊢
      rw [update_of_ne (h.unmarked_ne hb q)]
      exact h.marked q hq
  unique q r hq he := by
    by_cases hqp : q = p <;> by_cases hrp : r = p
    · rw [hqp, hrp]
    · rw [hqp, update_self, update_of_ne hrp] at he
      exact absurd he.symm (h.unmarked_ne hb r)
    · rw [hrp, update_self, update_of_ne hqp] at he
      exact absurd he (h.unmarked_ne hb q)
    · rw [update_of_ne hqp] at hq he
      rw [update_of_ne hrp] at he
      exact h.unique q r hq he
  stored c h1 h2 hc := by
    by_cases hcb : c = b
    · exact ⟨p, by rw [update_self, hcb]⟩
    · rw [update_of_ne hcb] at hc
      obtain ⟨q, hq⟩ := h.stored c h1 h2 hc
      have hlo := h.lo_pos
      have hqp : q ≠ p := by
        rintro rfl
        omega
      exact ⟨q, by rw [update_of_ne hqp, hq]⟩

theorem Owned.release (h : Owned lo hi bm own) (hp : own p ≠ 0) :
    Owned lo hi (update bm (own p) false) (update own p 0) where
  lo_pos := h.lo_pos
  reserved c hc := by
    have hlo := (h.range p hp).1
    rw [update_of_ne (by omega)]
    exact h.reserved c hc
  range q hq := by
    by_cases hqp : q = p
    · simp [hqp] at hq
    · rw [update_of_ne hqp] at hq ⊢
      exact h.range q hq
  marked q hq := by
    by_cases hqp : q = p
    · simp [hqp] at hq
    · rw [update_of_ne hqp] at hq ⊢
      rw [update_of_ne (fun he => hqp (h.unique q p hq he))]
      exact h.marked q hq
  unique q r hq he := by
    by_cases hqp : q = p
    · simp [hqp] at hq
    · rw [update_of_ne hqp] at hq he
      by_cases hrp : r = p
      · rw [hrp, update_self] at he
        exact absurd he hq
      · rw [update_of_ne hrp] at he
        exact h.unique q r hq he
  stored c h1 h2 hc := by
    by_cases hcp : c = own p
    · rw [hcp, update_self] at hc
      contradiction
    · rw [update_of_ne hcp] at hc
      obtain ⟨q, hq⟩ := h.stored c h1 h2 hc
      have hqp : q ≠ p := by
        rintro rfl
        exact hcp hq.symm
      exact ⟨q, by rw [update_of_ne hqp, hq]⟩

theorem countP_update {l : List Nat} (hnd : l.Nodup) (hb : bm b = false) (hmem : b ∈ l) :
    l.countP (fun c => !bm c) = l.countP (fun c => !update bm b true c) + 1 := by
  induction l with
  | nil => simp at hmem
  | cons a l ih =>
    obtain ⟨ha, hnd⟩ := List.nodup_cons.mp hnd
    simp only [List.countP_cons]
    rcases List.mem_cons.mp hmem with rfl | hin
    · have hrest : l.countP (fun c => !update bm b true c) = l.countP (fun c => !bm c) := by
        apply List.countP_congr
        intro c hc
        have hcb : c ≠ b := by
          rintro rfl
          exact ha hc
        rw [update_of_ne hcb]
      rw [hrest]
      simp [hb]
    · have hab : a ≠ b := fun he => ha (he ▸ hin)
      rw [ih hnd hin, update_of_ne hab]
      omega

theorem free_alloc (hb : bm b = false) (hlt : b < hi) : free hi bm = free hi (update bm b true) + 1 :=
  countP_update List.nodup_range hb (List.mem_range.mpr hlt)

theorem free_release (b : Nat) : free hi bm ≤ free hi (update bm b false) := by
  apply List.countP_mono_left
  intro c _ hc
  rw [update_apply]
  split
  · rfl
  · exact hc

end BlockOwner
