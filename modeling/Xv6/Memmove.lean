import Mathlib.Data.BitVec
import Mathlib.Logic.Function.Basic

/-! The two versions of `memmove`, of `kernel/string.c` and `user/ulib.c`: whatever the overlap, both
leave the bytes that were at the source. -/

namespace Xv6

open Function

abbrev Addr := BitVec 64

abbrev ByteMem := Addr → UInt8

/-- The loop `while(n-- > 0) *d++ = *s++`. -/
def copyUp (m : ByteMem) (d s : Addr) : Nat → ByteMem
  | 0 => m
  | n + 1 => copyUp (update m d (m s)) (d + 1) (s + 1) n

/-- The loop `while(n-- > 0) *--d = *--s`. -/
def copyDown (m : ByteMem) (d s : Addr) : Nat → ByteMem
  | 0 => m
  | n + 1 => copyDown (update m (d - 1) (m (s - 1))) (d - 1) (s - 1) n

/-- The kernel counts in a `uint`. -/
def KernelString.memmove (m : ByteMem) (dst src : Addr) (n : BitVec 32) : Addr × ByteMem :=
  if n = 0 then (dst, m)
  else if src < dst ∧ src + n.setWidth 64 > dst then
    (dst, copyDown m (dst + n.setWidth 64) (src + n.setWidth 64) n.toNat)
  else (dst, copyUp m dst src n.toNat)

/-- The user library counts in an `int`, so a negative count copies nothing. -/
def Ulib.memmove (m : ByteMem) (vdst vsrc : Addr) (n : BitVec 32) : Addr × ByteMem :=
  if vsrc > vdst then (vdst, copyUp m vdst vsrc n.toInt.toNat)
  else (vdst, copyDown m (vdst + n.signExtend 64) (vsrc + n.signExtend 64) n.toInt.toNat)

namespace ByteMem

variable {m t : ByteMem} {d s : Addr} {n i : Nat}

def nth (p : Addr) (i : Nat) : Addr := p + BitVec.ofNat 64 i

theorem nth_zero (p : Addr) : nth p 0 = p := BitVec.add_zero p

theorem nth_succ (p : Addr) (i : Nat) : nth (p + 1) i = nth p (i + 1) := by
  rw [nth, nth, BitVec.add_assoc, Nat.add_comm i 1, BitVec.ofNat_add]
  rfl

theorem nth_succ_sub (p : Addr) (n : Nat) : nth p (n + 1) - 1 = nth p n := by
  rw [nth, BitVec.ofNat_add, ← BitVec.add_assoc]
  exact BitVec.add_sub_cancel _ _

theorem nth_toNat {p : Addr} (h : p.toNat + n ≤ 2 ^ 64) (hi : i < n) : (nth p i).toNat = p.toNat + i := by
  rw [nth, BitVec.toNat_add, BitVec.toNat_ofNat, Nat.mod_eq_of_lt (show i < 2 ^ 64 by omega),
    Nat.mod_eq_of_lt (by omega)]

/-- The `n` bytes from `s` on in `m` stand from `d` on in `t`, and nothing else has changed. -/
structure Moved (m : ByteMem) (d s : Addr) (n : Nat) (t : ByteMem) : Prop where
  moved : ∀ i < n, t (nth d i) = m (nth s i)
  kept : ∀ a, (∀ i < n, a ≠ nth d i) → t a = m a

theorem Moved.unique {u : ByteMem} (h : Moved m d s n t) (hu : Moved m d s n u) : t = u := by
  funext a
  by_cases ha : ∃ i < n, a = nth d i
  · obtain ⟨i, hi, rfl⟩ := ha
    rw [h.moved i hi, hu.moved i hi]
  · push Not at ha
    rw [h.kept a ha, hu.kept a ha]

/-- A byte of the range that starts at `p` differs from every later byte of the range that starts
at `q`. -/
def Before (p q : Addr) (n : Nat) : Prop := ∀ i j, i < j → j < n → nth p i ≠ nth q j

theorem Before.of_le (hd : d.toNat + n ≤ 2 ^ 64) (hs : s.toNat + n ≤ 2 ^ 64)
    (h : d.toNat ≤ s.toNat ∨ s.toNat + n ≤ d.toNat) : Before d s n := by
  intro i j hij hj he
  have hn := congrArg BitVec.toNat he
  rw [nth_toNat hd (hij.trans hj), nth_toNat hs hj] at hn
  omega

theorem Before.refl (hd : d.toNat + n ≤ 2 ^ 64) : Before d d n := Before.of_le hd hd (.inl le_rfl)

/-- Copying upwards never writes a source byte it has not read. -/
theorem copyUp_moved (hself : Before d d n) (h : Before d s n) : Moved m d s n (copyUp m d s n) := by
  induction n generalizing m d s with
  | zero => exact ⟨fun _ hi => absurd hi (Nat.not_lt_zero _), fun _ _ => rfl⟩
  | succ n ih =>
    have hshift : ∀ {p q : Addr}, Before p q (n + 1) → Before (p + 1) (q + 1) n := by
      intro p q hp i j hij hj
      rw [nth_succ, nth_succ]
      exact hp (i + 1) (j + 1) (by omega) (by omega)
    have hrest := ih (m := update m d (m s)) (hshift hself) (hshift h)
    refine ⟨fun i hi => ?_, fun a ha => ?_⟩
    · cases i with
      | zero =>
        rw [nth_zero, nth_zero]
        refine (hrest.kept d fun j hj => ?_).trans (update_self ..)
        have hne := hself 0 (j + 1) (by omega) (by omega)
        rwa [nth_zero, ← nth_succ] at hne
      | succ i =>
        have hmoved := hrest.moved i (by omega)
        rw [nth_succ, nth_succ] at hmoved
        refine hmoved.trans (update_of_ne ?_ ..)
        exact (nth_zero d ▸ h 0 (i + 1) (by omega) hi).symm
    · have hd := ha 0 (by omega)
      rw [nth_zero] at hd
      refine (hrest.kept a fun j hj => ?_).trans (update_of_ne hd ..)
      rw [nth_succ]
      exact ha (j + 1) (by omega)

/-- Copying downwards, from behind the ranges, never does either. -/
theorem copyDown_moved (hself : Before d d n) (h : Before s d n) :
    Moved m d s n (copyDown m (nth d n) (nth s n) n) := by
  induction n generalizing m with
  | zero => exact ⟨fun _ hi => absurd hi (Nat.not_lt_zero _), fun _ _ => rfl⟩
  | succ n ih =>
    have hrest := ih (m := update m (nth d n) (m (nth s n))) (fun i j hij hj => hself i j hij (by omega))
      (fun i j hij hj => h i j hij (by omega))
    rw [copyDown, nth_succ_sub, nth_succ_sub]
    refine ⟨fun i hi => ?_, fun a ha => ?_⟩
    · rcases Nat.lt_succ_iff_lt_or_eq.mp hi with hlt | rfl
      · exact (hrest.moved i hlt).trans (update_of_ne (h i n hlt (by omega)) ..)
      · refine (hrest.kept _ fun j hj => ?_).trans (update_self ..)
        exact (hself j i hj hi).symm
    · exact (hrest.kept a fun j hj => ha j (by omega)).trans (update_of_ne (ha n (by omega)) ..)

end ByteMem

open ByteMem

section

variable (m : ByteMem) (dst src : Addr) {n : Nat}

/-- Past the end of an overlap the sum `src + n` does not wrap, so the kernel's test sees every
overlap that asks for the other direction. -/
theorem KernelString.memmove_moved (hn : n < 2 ^ 32) (hd : dst.toNat + n ≤ 2 ^ 64)
    (hs : src.toNat + n ≤ 2 ^ 64) :
    (memmove m dst src (BitVec.ofNat 32 n)).1 = dst ∧
      Moved m dst src n (memmove m dst src (BitVec.ofNat 32 n)).2 := by
  have hto : (BitVec.ofNat 32 n).toNat = n := by
    rw [BitVec.toNat_ofNat, Nat.mod_eq_of_lt hn]
  have hwide : (BitVec.ofNat 32 n).setWidth 64 = BitVec.ofNat 64 n := by
    apply BitVec.eq_of_toNat_eq
    rw [BitVec.toNat_setWidth, hto, BitVec.toNat_ofNat]
  rw [memmove, hwide, hto]
  split_ifs with h0 hover
  · have hz : n = 0 := by rw [← hto, h0]; rfl
    subst hz
    exact ⟨rfl, fun _ hi => absurd hi (Nat.not_lt_zero _), fun _ _ => rfl⟩
  · refine ⟨rfl, copyDown_moved (Before.refl hd) (Before.of_le hs hd (.inl ?_))⟩
    exact le_of_lt hover.1
  · refine ⟨rfl, copyUp_moved (Before.refl hd) (Before.of_le hd hs ?_)⟩
    by_contra hcon
    push Not at hcon
    refine hover ⟨hcon.1, ?_⟩
    show dst.toNat < (src + BitVec.ofNat 64 n).toNat
    rw [BitVec.toNat_add, BitVec.toNat_ofNat, Nat.mod_eq_of_lt (show n < 2 ^ 64 by omega),
      Nat.mod_eq_of_lt (by omega)]
    exact hcon.2

theorem Ulib.memmove_moved (hn : n < 2 ^ 31) (hd : dst.toNat + n ≤ 2 ^ 64) (hs : src.toNat + n ≤ 2 ^ 64) :
    (memmove m dst src (BitVec.ofNat 32 n)).1 = dst ∧
      Moved m dst src n (memmove m dst src (BitVec.ofNat 32 n)).2 := by
  have hto : (BitVec.ofNat 32 n).toInt = n := by
    have hnat : (BitVec.ofNat 32 n).toNat = n := by
      rw [BitVec.toNat_ofNat, Nat.mod_eq_of_lt (by omega)]
    rw [BitVec.toInt_eq_toNat_of_lt (by omega), hnat]
  have hwide : (BitVec.ofNat 32 n).signExtend 64 = BitVec.ofNat 64 n := by
    rw [BitVec.signExtend, hto, BitVec.ofInt_natCast]
  rw [memmove, hwide, hto, Int.toNat_natCast]
  split_ifs with h
  · exact ⟨rfl, copyUp_moved (Before.refl hd) (Before.of_le hd hs (.inl (le_of_lt h)))⟩
  · refine ⟨rfl, copyDown_moved (Before.refl hd) (Before.of_le hs hd (.inl ?_))⟩
    exact not_lt.mp h

/-- Both versions return `dst` with the same memory, in which the `n` bytes of the source stand at
the destination and every other byte is as before. -/
theorem memmove_overlap_safe (hn : n < 2 ^ 31) (hd : dst.toNat + n ≤ 2 ^ 64)
    (hs : src.toNat + n ≤ 2 ^ 64) :
    ∃ t, KernelString.memmove m dst src (BitVec.ofNat 32 n) = (dst, t) ∧
      Ulib.memmove m dst src (BitVec.ofNat 32 n) = (dst, t) ∧ Moved m dst src n t := by
  obtain ⟨hk, hkm⟩ := KernelString.memmove_moved m dst src (by omega) hd hs
  obtain ⟨hu, hum⟩ := Ulib.memmove_moved m dst src hn hd hs
  exact ⟨_, Prod.ext hk rfl, Prod.ext hu (hum.unique hkm), hkm⟩

/-- Three bytes moved up by one. -/
theorem memmove_overlap_safe_up :
    ∃ t, KernelString.memmove (fun a => UInt8.ofNat a.toNat) 1 0 3 = (1, t) ∧
      Ulib.memmove (fun a => UInt8.ofNat a.toNat) 1 0 3 = (1, t) ∧
      Moved (fun a => UInt8.ofNat a.toNat) 1 0 3 t :=
  memmove_overlap_safe _ 1 0 (n := 3) (by decide) (by decide) (by decide)

end

end Xv6
