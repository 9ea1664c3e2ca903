import Mathlib.Data.List.Nodup
import Mathlib.Logic.Function.Iterate

/-! A queue in the slots of a ring, between two counters. `next` moves a counter on and
`slot` is its place in the ring; counters less than `size` apart have different places. -/

namespace SlotQueue

open Function

variable {C S α : Type*} {next : C → C} {slot : C → S} {size n : Nat} {ring : S → α} {lo hi : C}
  {l : List α} {x : α} {k : S}

def Holds (next : C → C) (slot : C → S) (ring : S → α) : C → List α → C → Prop
  | lo, [], hi => lo = hi
  | lo, x :: l, hi => ring (slot lo) = x ∧ Holds next slot ring (next lo) l hi

def slots (next : C → C) (slot : C → S) : C → Nat → List S
  | _, 0 => []
  | lo, n + 1 => slot lo :: slots next slot (next lo) n

def Spread (next : C → C) (slot : C → S) (size : Nat) : Prop :=
  ∀ c j, 0 < j → j < size → slot (next^[j] c) ≠ slot c

theorem Holds.iterate (h : Holds next slot ring lo l hi) : next^[l.length] lo = hi := by
  induction l generalizing lo with
  | nil => exact h
  | cons x l ih => exact ih h.2

theorem mem_slots : k ∈ slots next slot lo n ↔ ∃ j < n, k = slot (next^[j] lo) := by
  induction n generalizing lo with
  | zero => simp [slots]
  | succ n ih =>
    rw [slots, List.mem_cons, ih]
    constructor
    · rintro (rfl | ⟨j, hj, rfl⟩)
      · exact ⟨0, Nat.succ_pos n, rfl⟩
      · exact ⟨j + 1, Nat.succ_lt_succ hj, rfl⟩
    · rintro ⟨j, hj, rfl⟩
      cases j with
      | zero => exact Or.inl rfl
      | succ j => exact Or.inr ⟨j, Nat.lt_of_succ_lt_succ hj, rfl⟩

theorem Holds.slot_not_mem (h : Holds next slot ring lo l hi) (hs : Spread next slot size)
    (hl : l.length < size) : slot hi ∉ slots next slot lo l.length := by
  rw [mem_slots]
  rintro ⟨j, hj, he⟩
  have hhi : hi = next^[l.length - j] (next^[j] lo) := by
    rw [← Function.iterate_add_apply, Nat.sub_add_cancel (Nat.le_of_lt hj), h.iterate]
  exact hs (next^[j] lo) (l.length - j) (by omega) (by omega) (hhi ▸ he)

theorem Holds.congr {ring' : S → α} (h : Holds next slot ring lo l hi)
    (hr : ∀ k ∈ slots next slot lo l.length, ring' k = ring k) : Holds next slot ring' lo l hi := by
  induction l generalizing lo with
  | nil => exact h
  | cons x l ih =>
    refine ⟨?_, ih h.2 (fun k hk => hr k (List.mem_cons_of_mem _ hk))⟩
    rw [hr _ List.mem_cons_self]
    exact h.1

theorem Holds.snoc (h : Holds next slot ring lo l hi) (hx : ring (slot hi) = x) :
    Holds next slot ring lo (l ++ [x]) (next hi) := by
  induction l generalizing lo with
  | nil =>
    cases h
    exact ⟨hx, rfl⟩
  | cons y l ih => exact ⟨h.1, ih h.2⟩

theorem Holds.push [DecidableEq S] (h : Holds next slot ring lo l hi) (hs : Spread next slot size)
    (hl : l.length < size) (x : α) :
    Holds next slot (update ring (slot hi) x) lo (l ++ [x]) (next hi) := by
  have hfree := h.slot_not_mem hs hl
  refine (h.congr (fun k hk => update_of_ne ?_ ..)).snoc (update_self ..)
  rintro rfl
  exact hfree hk

theorem Holds.eq_iff (h : Holds next slot ring lo l hi) (hs : Spread next slot size) (hl : l.length < size) :
    lo = hi ↔ l = [] := by
  constructor
  · intro he
    by_contra hne
    have hit := h.iterate
    rw [← he] at hit
    exact hs lo l.length (List.length_pos_iff.mpr hne) hl (congrArg slot hit)
  · rintro rfl
    exact h

theorem slots_snoc (hk : k ∈ slots next slot lo n ∨ k = slot (next^[n] lo)) :
    k ∈ slots next slot lo (n + 1) := by
  rw [mem_slots]
  rcases hk with hk | rfl
  · obtain ⟨j, hj, rfl⟩ := mem_slots.mp hk
    exact ⟨j, Nat.lt_succ_of_lt hj, rfl⟩
  · exact ⟨n, Nat.lt_succ_self n, rfl⟩

end SlotQueue
