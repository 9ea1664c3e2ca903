import Mathlib.Data.List.Nodup
import Xv6.Basic

/-! The in-memory log of `kernel/log.c`: its header, the critical sections of
`begin_op`, `log_write` and `end_op`, and the header block's byte layout. -/

namespace Xv6

open Function

/-- Only the first `n` entries of `block` are meaningful; the rest is left over
from earlier transactions. -/
structure LogHeader where
  n : Nat
  block : Nat → Nat

structure Log where
  start : Nat
  size : Nat
  outstanding : Int
  committing : Bool
  lh : LogHeader

inductive LogPanic where
  | tooBig
  | outsideTrans
  | committing
  deriving DecidableEq, Repr

def LogHeader.blocks (lh : LogHeader) : List Nat := (List.range lh.n).map lh.block

/-- The slot `log_write` stops at: the block's own slot, or the first unused one. -/
def LogHeader.slot (lh : LogHeader) (blockno : Nat) : Nat :=
  ((List.range lh.n).find? (fun i => lh.block i == blockno)).getD lh.n

def beginOp (l : Log) : Option Log :=
  if l.committing then none
  else if l.lh.n + (l.outstanding + 1) * MAXOPBLOCKS > LOGSIZE then none
  else some { l with outstanding := l.outstanding + 1 }

/-- The Boolean tells whether the block is new in the log and `bpin` is called. -/
def logWrite (l : Log) (blockno : Nat) : Except LogPanic (Log × Bool) :=
  if l.lh.n ≥ LOGSIZE ∨ (l.lh.n : Int) ≥ l.size - 1 then .error .tooBig
  else if l.outstanding < 1 then .error .outsideTrans
  else
    let i := l.lh.slot blockno
    let block := update l.lh.block i blockno
    if i = l.lh.n then .ok ({ l with lh := ⟨l.lh.n + 1, block⟩ }, true)
    else .ok ({ l with lh := ⟨l.lh.n, block⟩ }, false)

def endOp (l : Log) : Except LogPanic (Log × Bool) :=
  let l := { l with outstanding := l.outstanding - 1 }
  if l.committing then .error .committing
  else if l.outstanding = 0 then .ok ({ l with committing := true }, true)
  else .ok (l, false)

def readHead (lh : LogHeader) (hb : Buffer) : LogHeader where
  n := hb.getLE 0 4
  block i := if i < hb.getLE 0 4 then hb.getLE (4 + 4 * i) 4 else lh.block i

/-- The header block after `write_head` stored the count and the first `n` entries. -/
def headBlock (lh : LogHeader) (hb : Buffer) : Buffer :=
  (List.range lh.n).foldl (fun b i => b.setLE (4 + 4 * i) (lh.block i) 4) (hb.setLE 0 lh.n 4)

theorem LogHeader.length_blocks (lh : LogHeader) : lh.blocks.length = lh.n := by
  simp [blocks]

variable {b : Nat} {lh : LogHeader} {l' : Log} {e : LogPanic} {new : Bool}

theorem LogHeader.mem_blocks : b ∈ lh.blocks ↔ ∃ i < lh.n, lh.block i = b := by
  simp [blocks]

theorem LogHeader.slot_spec (lh : LogHeader) (b : Nat) :
    (lh.slot b < lh.n ∧ lh.block (lh.slot b) = b) ∨ (lh.slot b = lh.n ∧ b ∉ lh.blocks) := by
  unfold slot
  cases h : (List.range lh.n).find? (fun i => lh.block i == b) with
  | none =>
    refine .inr ⟨rfl, ?_⟩
    intro hb
    obtain ⟨i, hi, he⟩ := LogHeader.mem_blocks.mp hb
    have hn := List.find?_eq_none.mp h i (List.mem_range.mpr hi)
    exact hn (by simpa using he)
  | some i =>
    have hm := List.mem_range.mp (List.mem_of_find?_eq_some h)
    have he := List.find?_some h
    exact .inl ⟨hm, by simpa using he⟩

variable {l : Log}

theorem logWrite_ok (h : logWrite l b = .ok (l', new)) :
    l.lh.n < LOGSIZE ∧ (l.lh.n : Int) < l.size - 1 ∧ 1 ≤ l.outstanding ∧
    l' = { l with lh := l'.lh } ∧
    ((new = true ∧ b ∉ l.lh.blocks ∧ l'.lh.blocks = l.lh.blocks ++ [b]) ∨
     (new = false ∧ b ∈ l.lh.blocks ∧ l'.lh = l.lh)) := by
  unfold logWrite at h
  split at h
  · cases h
  rename_i hsize
  split at h
  · cases h
  rename_i hout
  refine ⟨by omega, by omega, by omega, ?_⟩
  rcases l.lh.slot_spec b with ⟨hlt, he⟩ | ⟨heq, hb⟩
  · simp only [Nat.ne_of_lt hlt, if_false, Except.ok.injEq, Prod.mk.injEq] at h
    obtain ⟨rfl, rfl⟩ := h
    refine ⟨rfl, .inr ⟨rfl, LogHeader.mem_blocks.mpr ⟨_, hlt, he⟩, ?_⟩⟩
    have hup : update l.lh.block (l.lh.slot b) b = l.lh.block := by
      nth_rewrite 2 [← he]
      exact update_eq_self _ _
    simp only [hup]
  · simp only [heq, if_true, Except.ok.injEq, Prod.mk.injEq] at h
    obtain ⟨rfl, rfl⟩ := h
    refine ⟨rfl, .inl ⟨rfl, hb, ?_⟩⟩
    simp only [LogHeader.blocks, List.range_succ, List.map_append, List.map_cons,
      List.map_nil, update_self]
    congr 1
    apply List.map_congr_left
    intro i hi
    have hi := List.mem_range.mp hi
    exact update_of_ne (by omega) _ _

theorem headBlock_entries (lh : LogHeader) (hb : Buffer) (k : Nat) :
    let b := (List.range k).foldl (fun b i => b.setLE (4 + 4 * i) (lh.block i) 4)
      (hb.setLE 0 lh.n 4)
    b.getLE 0 4 = lh.n % 256 ^ 4 ∧
      ∀ i < k, b.getLE (4 + 4 * i) 4 = lh.block i % 256 ^ 4 := by
  induction k with
  | zero => exact ⟨Buffer.getLE_setLE _ _ _ _, fun i hi => by omega⟩
  | succ k ih =>
    simp only [List.range_succ, List.foldl_append, List.foldl_cons, List.foldl_nil]
    refine ⟨(Buffer.getLE_setLE_disjoint (by omega)).trans ih.1, ?_⟩
    intro i hi
    by_cases he : i = k
    · subst i
      exact Buffer.getLE_setLE _ _ _ _
    · exact (Buffer.getLE_setLE_disjoint (by omega)).trans (ih.2 i (by omega))

theorem headBlock_get (hb : Buffer) (hn : lh.n < 256 ^ 4) (hlt : ∀ i < lh.n, lh.block i < 256 ^ 4) :
    (headBlock lh hb).getLE 0 4 = lh.n ∧
      ∀ i < lh.n, (headBlock lh hb).getLE (4 + 4 * i) 4 = lh.block i := by
  obtain ⟨h0, hi⟩ := headBlock_entries lh hb lh.n
  refine ⟨h0.trans (Nat.mod_eq_of_lt hn), ?_⟩
  intro i h
  exact (hi i h).trans (Nat.mod_eq_of_lt (hlt i h))

theorem logWrite_nodup (h : logWrite l b = .ok (l', new)) (hnd : l.lh.blocks.Nodup) :
    l'.lh.blocks.Nodup := by
  obtain ⟨_, _, _, _, ⟨_, hb, he⟩ | ⟨_, _, he⟩⟩ := logWrite_ok h
  · rw [he, ← List.concat_eq_append]
    exact hnd.concat hb
  · rwa [he]

theorem logWrite_of_room (b : Nat) (hn : l.lh.n < LOGSIZE) (hsize : (l.lh.n : Int) < l.size - 1)
    (hout : 1 ≤ l.outstanding) : ∃ l' new, logWrite l b = .ok (l', new) := by
  have h1 : ¬ (l.lh.n ≥ LOGSIZE ∨ (l.lh.n : Int) ≥ l.size - 1) := by omega
  have h2 : ¬ l.outstanding < 1 := by omega
  simp only [logWrite, h1, h2, if_false]
  by_cases hs : l.lh.slot b = l.lh.n
  · exact ⟨_, true, by rw [if_pos hs]⟩
  · exact ⟨_, false, by rw [if_neg hs]⟩

theorem logWrite_error (h : logWrite l b = .error e) :
    (e = .tooBig ∧ (l.lh.n ≥ LOGSIZE ∨ (l.lh.n : Int) ≥ l.size - 1)) ∨
      (e = .outsideTrans ∧ l.outstanding < 1) := by
  unfold logWrite at h
  split at h
  · cases h; exact .inl ⟨rfl, ‹_›⟩
  split at h
  · cases h; exact .inr ⟨rfl, ‹_›⟩
  · simp only at h
    split at h <;> cases h

theorem beginOp_some (h : beginOp l = some l') :
    l.committing = false ∧ l.lh.n + (l.outstanding + 1) * MAXOPBLOCKS ≤ LOGSIZE ∧
    l' = { l with outstanding := l.outstanding + 1 } := by
  unfold beginOp at h
  split at h
  · cases h
  split at h
  · cases h
  rename_i hc hn
  exact ⟨by simpa using hc, by omega, by simpa using h.symm⟩

theorem beginOp_none (h : beginOp l = none) :
    l.committing = true ∨ l.lh.n + (l.outstanding + 1) * MAXOPBLOCKS > LOGSIZE := by
  unfold beginOp at h
  split at h
  · exact .inl ‹_›
  split at h
  · exact .inr ‹_›
  · cases h

theorem endOp_ok {doCommit : Bool} (h : endOp l = .ok (l', doCommit)) :
    l.committing = false ∧
    ((doCommit = true ∧ l.outstanding = 1 ∧ l' = { l with outstanding := 0, committing := true }) ∨
     (doCommit = false ∧ l.outstanding ≠ 1 ∧ l' = { l with outstanding := l.outstanding - 1 })) := by
  simp only [endOp] at h
  split at h
  · cases h
  rename_i hc
  refine ⟨by simpa using hc, ?_⟩
  split at h
  · rename_i ho
    simp only [Except.ok.injEq, Prod.mk.injEq] at h
    obtain ⟨rfl, rfl⟩ := h
    exact .inl ⟨rfl, by omega, by simp [ho]⟩
  · rename_i ho
    simp only [Except.ok.injEq, Prod.mk.injEq] at h
    obtain ⟨rfl, rfl⟩ := h
    exact .inr ⟨rfl, by omega, rfl⟩

theorem endOp_error (h : endOp l = .error e) : e = .committing ∧ l.committing = true := by
  simp only [endOp] at h
  split at h
  · cases h; exact ⟨rfl, ‹_›⟩
  · split at h <;> cases h

end Xv6
