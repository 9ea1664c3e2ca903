import Mathlib.Data.List.Range
import Mathlib.Data.Nat.ModEq
import Mathlib.Logic.Function.Basic

/-! The part of a ring between two 32-bit counters that run on and wrap. The size of the
ring divides `2 ^ 32`, so a wrap does not move a slot. -/

namespace WrapRing

open Function

variable {α : Type} {size : Nat} {data : Nat → α} {a b c : UInt32}

def dist (a b : UInt32) : Nat := (b - a).toNat

def window (size : Nat) (data : Nat → α) (a b : UInt32) : List α :=
  (List.range (dist a b)).map fun j => data ((a.toNat + j) % size)

theorem dist_eq (a b : UInt32) : b.toNat = (a.toNat + dist a b) % 2 ^ 32 := by
  have ha := a.toNat_lt
  have hb := b.toNat_lt
  rw [dist, UInt32.toNat_sub]
  omega

theorem dist_lt (a b : UInt32) : dist a b < 2 ^ 32 := (b - a).toNat_lt

@[simp] theorem dist_self (a : UInt32) : dist a a = 0 := by
  rw [dist, UInt32.sub_self]
  rfl

theorem dist_eq_zero : dist a b = 0 ↔ a = b := by
  have h := dist_eq a b
  rw [← UInt32.toNat_inj]
  have ha := a.toNat_lt
  have hd := dist_lt a b
  omega

theorem dist_add (h : dist a b + dist b c < 2 ^ 32) : dist a c = dist a b + dist b c := by
  have h1 := dist_eq a b
  have h2 := dist_eq b c
  have h3 := dist_eq a c
  have hd := dist_lt a c
  omega

@[simp] theorem dist_one (a : UInt32) : dist a (a + 1) = 1 := by
  rw [dist, UInt32.add_comm, UInt32.add_sub_cancel]
  rfl

theorem dist_succ (h : dist a b + 1 < 2 ^ 32) : dist a (b + 1) = dist a b + 1 := by
  rw [dist_add (b := b) (by rwa [dist_one]), dist_one]

theorem dist_pred (h : a ≠ b) : dist a (b - 1) + 1 = dist a b := by
  have hpos : dist a b ≠ 0 := fun h0 => h (dist_eq_zero.mp h0)
  have h1 := dist_eq a b
  have h2 := dist_eq a (b - 1)
  have hd := dist_lt a b
  have hd' := dist_lt a (b - 1)
  rw [UInt32.toNat_sub] at h2
  simp only [UInt32.reduceToNat] at h2
  omega

theorem dist_next (h : a ≠ b) : dist (a + 1) b + 1 = dist a b := by
  have hpos : dist a b ≠ 0 := fun h0 => h (dist_eq_zero.mp h0)
  have h1 := dist_eq a b
  have h2 := dist_eq (a + 1) b
  have hd := dist_lt a b
  have hd' := dist_lt (a + 1) b
  rw [UInt32.toNat_add] at h2
  simp only [UInt32.reduceToNat] at h2
  omega

theorem slot_eq (hs : size ∣ 2 ^ 32) (a b : UInt32) :
    b.toNat % size = (a.toNat + dist a b) % size := by
  rw [dist_eq a b, Nat.mod_mod_of_dvd _ hs]

@[simp] theorem length_window : (window size data a b).length = dist a b := by
  simp [window]

@[simp] theorem window_self : window size data a a = [] := by
  simp [window]

theorem window_append (hs : size ∣ 2 ^ 32) (h : dist a b + dist b c < 2 ^ 32) :
    window size data a c = window size data a b ++ window size data b c := by
  rw [window, dist_add h, List.range_add, List.map_append, List.map_map]
  congr 1
  apply List.map_congr_left
  intro j _
  simp only [Function.comp_apply]
  rw [← Nat.add_assoc, Nat.add_mod, ← slot_eq hs, ← Nat.add_mod]

theorem window_succ (b : UInt32) : window size data b (b + 1) = [data (b.toNat % size)] := by
  simp [window]

theorem window_pop (hs : size ∣ 2 ^ 32) (h : a ≠ b) :
    window size data a b = data (a.toNat % size) :: window size data (a + 1) b := by
  have hone := dist_one a
  have hn := dist_next h
  have hd := dist_lt a b
  rw [window_append hs (b := a + 1) (by omega), window_succ]
  rfl

theorem window_pred (hs : size ∣ 2 ^ 32) (h : a ≠ b) :
    window size data a b = window size data a (b - 1) ++ [data ((b - 1).toNat % size)] := by
  have hone : window size data (b - 1) b = [data ((b - 1).toNat % size)] := by
    have hw : window size data (b - 1) (b - 1 + 1) = _ := window_succ (b - 1)
    rwa [UInt32.sub_add_cancel] at hw
  have hp := dist_pred h
  have hd := dist_lt a b
  have hl := congrArg List.length hone
  rw [length_window, List.length_singleton] at hl
  rw [window_append hs (b := b - 1) (by omega), hone]

theorem window_update (hs : size ∣ 2 ^ 32) (h : dist a b + dist b c < size) (x : α) :
    window size (update data (c.toNat % size) x) a b = window size data a b := by
  apply List.map_congr_left
  intro j hj
  rw [List.mem_range] at hj
  apply update_of_ne
  have hle : size ≤ 2 ^ 32 := Nat.le_of_dvd (by decide) hs
  rw [slot_eq hs a c, dist_add (b := b) (by omega)]
  intro he
  have hmod := Nat.ModEq.add_left_cancel' a.toNat he
  rw [Nat.ModEq, Nat.mod_eq_of_lt (by omega), Nat.mod_eq_of_lt h] at hmod
  omega

end WrapRing
