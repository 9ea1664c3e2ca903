import Mathlib.Data.List.GetD
import Mathlib.Data.List.TakeWhile
import Mathlib.Logic.Function.Basic
import Mathlib.Tactic.Ring

/-! The constants of `kernel/param.h` and `kernel/fs.h`, and byte buffers: read and written byte
by byte, as little-endian integers of any width, as NUL-terminated strings, and in runs. -/

namespace Xv6

abbrev NPROC : Nat := 64

instance : @NeZero Nat Zero.ofOfNat0 NPROC := ⟨by decide⟩

abbrev MAXARG : Nat := 32

abbrev ROOTDEV : Nat := 1

abbrev MAXOPBLOCKS : Nat := 10

abbrev LOGSIZE : Nat := MAXOPBLOCKS * 3

abbrev NBUF : Nat := MAXOPBLOCKS * 3

abbrev FSSIZE : Nat := 2000

abbrev BSIZE : Nat := 1024

abbrev NINODE : Nat := 50

abbrev NDEV : Nat := 10

abbrev MAXPATH : Nat := 128

abbrev ROOTINO : Nat := 1

abbrev NDIRECT : Nat := 12

abbrev NINDIRECT : Nat := BSIZE / 4

abbrev MAXFILE : Nat := NDIRECT + NINDIRECT

abbrev DIRSIZ : Nat := 14

abbrev DESIZE : Nat := 2 + DIRSIZ

def cstring (s : List UInt8) : List UInt8 := s.takeWhile (· ≠ 0)

theorem cstring_append {s : List UInt8} (h0 : 0 ∉ s) (rest : List UInt8) : cstring (s ++ 0 :: rest) = s := by
  rw [cstring, List.takeWhile_append_of_pos, List.takeWhile_cons_of_neg (by simp), List.append_nil]
  intro b hb
  exact decide_eq_true fun he => h0 (he ▸ hb)

section Splice

variable {α : Type}

/-- The array `c` with `b` in the place of what stands from `off` on; it grows if `b` does not
fit. -/
def splice (c : List α) (off : Nat) (b : List α) : List α :=
  c.take off ++ b ++ c.drop (off + b.length)

theorem splice_append_left (a b d : List α) : splice (a ++ d) a.length b = a ++ b ++ d.drop b.length := by
  rw [splice, List.take_left, List.drop_append, List.drop_of_length_le (Nat.le_add_right ..), List.nil_append,
    Nat.add_sub_cancel_left]

theorem getElem?_splice {xs b : List α} {off : Nat} (h : off ≤ xs.length) (i : Nat) :
    (splice xs off b)[i]? = if off ≤ i ∧ i < off + b.length then b[i - off]? else xs[i]? := by
  have htake : (xs.take off).length = off := by
    rw [List.length_take]
    omega
  unfold splice
  by_cases hlo : i < off
  · rw [if_neg (by omega), List.append_assoc, List.getElem?_append_left (by omega),
      List.getElem?_take_of_lt hlo]
  · by_cases hhi : i < off + b.length
    · rw [if_pos (by omega), List.append_assoc, List.getElem?_append_right (by omega), htake,
        List.getElem?_append_left (by omega)]
    · rw [if_neg (by omega), List.getElem?_append_right (by simp only [List.length_append]; omega),
        List.getElem?_drop, List.length_append, htake]
      congr 1
      omega

end Splice

end Xv6

abbrev Buffer := Nat → UInt8

namespace Buffer

open Function

def getLE (b : Buffer) (off : Nat) : Nat → Nat
  | 0 => 0
  | k + 1 => (b off).toNat + 256 * getLE b (off + 1) k

def setLE (b : Buffer) (off v : Nat) : Nat → Buffer
  | 0 => b
  | k + 1 => update (setLE b (off + 1) (v / 256) k) off (UInt8.ofNat v)

def read (b : Buffer) (off n : Nat) : List UInt8 := (List.range n).map (fun i => b (off + i))

def write (b : Buffer) (off : Nat) (bytes : List UInt8) : Buffer := fun i =>
  if off ≤ i ∧ i < off + bytes.length then bytes.getD (i - off) 0 else b i

variable {b c : Buffer} {off k o n v : Nat}

theorem setLE_outside (h : o < off ∨ off + k ≤ o) : setLE b off v k o = b o := by
  induction k generalizing off v with
  | zero => rfl
  | succ k ih =>
    have hne : o ≠ off := by omega
    simp only [setLE, update_of_ne hne]
    exact ih (by omega)

theorem write_outside {bytes : List UInt8} (h : o < off ∨ off + bytes.length ≤ o) :
    write b off bytes o = b o := if_neg (by omega)

theorem read_congr (h : ∀ o, off ≤ o → o < off + n → b o = c o) : read b off n = read c off n := by
  apply List.map_congr_left
  intro i hi
  rw [List.mem_range] at hi
  exact h _ (by omega) (by omega)

theorem length_read (b : Buffer) (off n : Nat) : (read b off n).length = n := by
  rw [read, List.length_map, List.length_range]

theorem getElem_read {i : Nat} (h : i < (read b off n).length) : (read b off n)[i] = b (off + i) := by
  simp only [read, List.getElem_map, List.getElem_range]

theorem read_write (b : Buffer) (off : Nat) (bytes : List UInt8) :
    read (write b off bytes) off bytes.length = bytes := by
  apply List.ext_getElem (length_read _ _ _)
  intro i h1 h2
  rw [getElem_read, write, if_pos (by omega), Nat.add_sub_cancel_left, List.getD_eq_getElem _ _ h2]

theorem getLE_shift {o' : Nat} (h : ∀ j < k, b (o + j) = c (o' + j)) : getLE b o k = getLE c o' k := by
  induction k generalizing o o' with
  | zero => rfl
  | succ k ih =>
    have hrest : getLE b (o + 1) k = getLE c (o' + 1) k := by
      apply ih
      intro j hj
      rw [Nat.add_assoc, Nat.add_assoc, Nat.add_comm 1 j]
      exact h (j + 1) (by omega)
    rw [getLE, getLE, hrest]
    have h0 := h 0 (by omega)
    rw [Nat.add_zero, Nat.add_zero] at h0
    rw [h0]

theorem getLE_congr (h : ∀ o, off ≤ o → o < off + k → b o = c o) : getLE b off k = getLE c off k :=
  getLE_shift (fun j _ => h (off + j) (by omega) (by omega))

theorem getLE_setLE_disjoint {m : Nat} (h : o + m ≤ off ∨ off + k ≤ o) :
    getLE (setLE b off v k) o m = getLE b o m :=
  getLE_congr (fun _ h1 h2 => setLE_outside (by omega))

theorem getLE_setLE (b : Buffer) (off v k : Nat) :
    getLE (setLE b off v k) off k = v % 256 ^ k := by
  induction k generalizing off v with
  | zero => simp [getLE, Nat.mod_one]
  | succ k ih =>
    have hrest : getLE (setLE b off v (k + 1)) (off + 1) k = v / 256 % 256 ^ k := by
      rw [← ih (off + 1) (v / 256)]
      apply getLE_congr
      intro o h1 _
      exact update_of_ne (by omega) _ _
    have hfirst : (setLE b off v (k + 1) off).toNat = v % 256 := by
      simp [setLE]
    rw [getLE, hrest, hfirst, pow_succ', Nat.mod_mul]

theorem getLE_lt (b : Buffer) (off k : Nat) : getLE b off k < 256 ^ k := by
  induction k generalizing off with
  | zero => simp [getLE]
  | succ k ih =>
    have hb := (b off).toNat_lt
    have hr := ih (off + 1)
    simp only [getLE, pow_succ']
    omega

end Buffer
