import Mathlib.Data.List.Range
import Xv6.Pipe

/-! The pipe is a queue: the 512-byte ring and its two 32-bit counters hold exactly
the bytes that have been written and not yet read. -/

namespace Xv6

open ActionRun Function

namespace Pipe

variable {pi : Pipe}

def count (pi : Pipe) : Nat := (pi.nwrite - pi.nread).toNat

def ring (pi : Pipe) : List UInt8 :=
  (List.range pi.count).map fun j => pi.data ((pi.nread + UInt32.ofNat j).toNat % pipeSize)

/-- Wrapping a counter at `2 ^ 32` does not disturb its index into `data`, since
512 divides `2 ^ 32`. -/
theorem slot_add (a : UInt32) (j : Nat) :
    (a + UInt32.ofNat j).toNat % pipeSize = (a.toNat + j) % pipeSize := by
  rw [UInt32.toNat_add, UInt32.toNat_ofNat', pipeSize]
  omega

theorem ring_eq (pi : Pipe) :
    pi.ring = (List.range pi.count).map fun j => pi.data ((pi.nread.toNat + j) % pipeSize) := by
  simp only [ring, slot_add]

theorem nwrite_toNat (pi : Pipe) : pi.nwrite.toNat = (pi.nread.toNat + pi.count) % 2 ^ 32 := by
  have hr := pi.nread.toNat_lt
  have hw := pi.nwrite.toNat_lt
  rw [count, UInt32.toNat_sub]
  omega

theorem count_eq_iff (n : Nat) (hn : n < 2 ^ 32) :
    pi.count = n ↔ pi.nwrite = pi.nread + UInt32.ofNat n := by
  rw [← UInt32.toNat_inj, UInt32.toNat_add, UInt32.toNat_ofNat', nwrite_toNat]
  have hc : pi.count < 2 ^ 32 := (pi.nwrite - pi.nread).toNat_lt
  omega

theorem full_iff : pi.full = true ↔ pi.count = pipeSize := by
  rw [count_eq_iff pipeSize (by decide), full, decide_eq_true_iff]

theorem empty_iff : pi.empty = true ↔ pi.count = 0 := by
  rw [count_eq_iff 0 (by decide), empty, decide_eq_true_iff]
  simp [eq_comm]

theorem count_push (ch : UInt8) (h : pi.count < pipeSize) : (pi.push ch).count = pi.count + 1 := by
  have hs : pipeSize < 2 ^ 32 := by decide
  rw [count_eq_iff _ (by omega)]
  have hw := (count_eq_iff pi.count (by omega)).mp rfl
  show pi.nwrite + 1 = pi.nread + _
  rw [hw, UInt32.ofNat_add, UInt32.add_assoc]
  rfl

theorem ring_push (ch : UInt8) (h : pi.count < pipeSize) :
    (pi.push ch).ring = pi.ring ++ [ch] := by
  rw [ring_eq, ring_eq, count_push ch h, List.range_succ, List.map_append]
  have hslot : pi.nwrite.toNat % pipeSize = (pi.nread.toNat + pi.count) % pipeSize := by
    rw [nwrite_toNat, pipeSize]
    omega
  congr 1
  · -- the slots in use differ from the one written
    apply List.map_congr_left
    intro j hj
    rw [List.mem_range] at hj
    apply update_of_ne
    rw [hslot]
    simp only [push, pipeSize] at h ⊢
    omega
  · simp only [push, List.map_cons, List.map_nil, ← hslot, update_self]

theorem count_pop (h : pi.count ≠ 0) :
    ({ pi with nread := pi.nread + 1 } : Pipe).count + 1 = pi.count := by
  have hw := nwrite_toNat pi
  have hc : pi.count < 2 ^ 32 := (pi.nwrite - pi.nread).toNat_lt
  rw [Pipe.count.eq_def { pi with nread := pi.nread + 1 }, UInt32.toNat_sub, UInt32.toNat_add]
  simp only [UInt32.reduceToNat]
  omega

theorem ring_pop (h : pi.count ≠ 0) :
    pi.ring = pi.head :: ({ pi with nread := pi.nread + 1 } : Pipe).ring := by
  rw [ring_eq, ring_eq, ← count_pop h, List.range_succ_eq_map, List.map_cons, List.map_map]
  congr 1
  apply List.map_congr_left
  intro j _
  have hslot : (pi.nread + 1).toNat % pipeSize = (pi.nread.toNat + 1) % pipeSize :=
    slot_add pi.nread 1
  show pi.data _ = pi.data _
  congr 1
  simp only [pipeSize] at hslot ⊢
  omega

end Pipe

theorem copyLoop_spec (dst : Nat → Bool) (k i : Nat) (pi : Pipe) :
    pi.ring = (PipeSys.copyLoop dst k i pi).2.1 ++ (PipeSys.copyLoop dst k i pi).1.ring ∧
      (PipeSys.copyLoop dst k i pi).1.count ≤ pi.count := by
  induction k generalizing i pi with
  | zero => simp [PipeSys.copyLoop]
  | succ k ih =>
    by_cases he : pi.empty = true
    · simp [PipeSys.copyLoop, he]
    · have hc : pi.count ≠ 0 := mt Pipe.empty_iff.mpr he
      have hpop := Pipe.count_pop hc
      cases hd : dst i with
      | false =>
        simp only [PipeSys.copyLoop, he, hd, Bool.false_eq_true, if_false]
        exact ⟨Pipe.ring_pop hc, by omega⟩
      | true =>
        obtain ⟨hring, hle⟩ := ih (i + 1) { pi with nread := pi.nread + 1 }
        simp only [PipeSys.copyLoop, he, hd, if_true, Bool.false_eq_true, if_false]
        exact ⟨by rw [Pipe.ring_pop hc, List.cons_append, ← hring], by omega⟩

namespace PipeSys

variable {P : Type*} {s t : PipeSys P}

@[simp] theorem writer_wakeNread (pc : PipePc) : pc.wakeNread.writer = pc.writer := by
  cases pc <;> rfl

@[simp] theorem writer_wakeNwrite (pc : PipePc) : pc.wakeNwrite.writer = pc.writer := by
  cases pc <;> rfl

/-- A step that moves no byte: the ring and the histories are as before, and every
`pipewrite` in progress is where it was in its buffer. -/
structure Moves (s t : PipeSys P) : Prop where
  count : t.pi.count = s.pi.count
  ring : t.pi.ring = s.pi.ring
  put : t.put = s.put
  got : t.got = s.got
  calls : t.calls = s.calls
  writer : ∀ q w', (t.pc q).writer = some w' →
    ∃ w, (s.pc q).writer = some w ∧ w.call = w'.call ∧ w.i = w'.i

theorem Moves.trans {u : PipeSys P} (h : Moves s t) (k : Moves t u) : Moves s u := by
  refine ⟨k.count.trans h.count, k.ring.trans h.ring, k.put.trans h.put, k.got.trans h.got,
    k.calls.trans h.calls, ?_⟩
  intro q w₂ hw₂
  obtain ⟨w₁, hw₁, hc₁, hi₁⟩ := k.writer q w₂ hw₂
  obtain ⟨w, hw, hc, hi⟩ := h.writer q w₁ hw₁
  exact ⟨w, hw, hc.trans hc₁, hi.trans hi₁⟩

theorem Moves.of_writer (hcount : t.pi.count = s.pi.count) (hring : t.pi.ring = s.pi.ring)
    (hput : t.put = s.put) (hgot : t.got = s.got) (hcalls : t.calls = s.calls)
    (hw : ∀ q, (t.pc q).writer = (s.pc q).writer) : Moves s t :=
  ⟨hcount, hring, hput, hgot, hcalls, fun q w' h => ⟨w', hw q ▸ h, rfl, rfl⟩⟩

theorem moves_wakeupNread : Moves s s.wakeupNread :=
  Moves.of_writer rfl rfl rfl rfl rfl fun q => writer_wakeNread (s.pc q)

theorem moves_wakeupNwrite : Moves s s.wakeupNwrite :=
  Moves.of_writer rfl rfl rfl rfl rfl fun q => writer_wakeNwrite (s.pc q)

theorem moves_pipeclose (writable : Bool) : Moves s (s.pipeclose writable) := by
  cases writable with
  | true => exact moves_wakeupNread.trans (Moves.of_writer rfl rfl rfl rfl rfl fun _ => rfl)
  | false => exact moves_wakeupNwrite.trans (Moves.of_writer rfl rfl rfl rfl rfl fun _ => rfl)

variable [DecidableEq P]

def bytesOf (s : PipeSys P) (p : P) (k : Nat) : List UInt8 :=
  (s.put.filter fun b => b.1 = (p, k)).map Prod.snd

/-- The pipe is a queue: what has been read is a prefix of what was written, the
rest is in the ring, and each call's bytes are in the order of its buffer. -/
structure Fifo (s : PipeSys P) : Prop where
  count : s.pi.count ≤ pipeSize
  queue : s.got ++ s.pi.ring = s.put.map Prod.snd
  inOrder : ∀ p k, (s.bytesOf p k).map some =
    (List.range (s.bytesOf p k).length).map fun i => (s.calls p)[k]?.bind fun c => c.src i

/-- A process inside `pipewrite` is in its latest call, which has stored `i` bytes. -/
def Current (s : PipeSys P) : Prop :=
  ∀ p w, (s.pc p).writer = some w →
    ∃ old, s.calls p = old ++ [w.call] ∧ (s.bytesOf p old.length).length = w.i

structure Queue (s : PipeSys P) : Prop extends s.Fifo where
  current : s.Current

theorem Queue.moves (h : s.Queue) (hm : Moves s t) : t.Queue := by
  have hb : t.bytesOf = s.bytesOf := by
    unfold bytesOf
    rw [hm.put]
  refine ⟨⟨by rw [hm.count]; exact h.count, by rw [hm.got, hm.ring, hm.put]; exact h.queue,
    by rw [hb, hm.calls]; exact h.inOrder⟩, ?_⟩
  intro q w' hw'
  obtain ⟨w, hw, hc, hi⟩ := hm.writer q w' hw'
  rw [hm.calls, hb, ← hc, ← hi]
  exact h.current q w hw

theorem moves_set (p : P) (pc : PipePc) (hw : ∀ w', pc.writer = some w' →
    ∃ w, (s.pc p).writer = some w ∧ w.call = w'.call ∧ w.i = w'.i) : Moves s (s.set p pc) := by
  refine ⟨rfl, rfl, rfl, rfl, rfl, ?_⟩
  intro q w' hw'
  by_cases hq : q = p
  · subst q
    rw [set_pc_self] at hw'
    exact hw w' hw'
  · rw [set_pc_of_ne s pc hq] at hw'
    exact ⟨w', hw', rfl, rfl⟩

theorem moves_release (p : P) (pc : PipePc) (hw : ∀ w', pc.writer = some w' →
    ∃ w, (s.pc p).writer = some w ∧ w.call = w'.call ∧ w.i = w'.i) : Moves s (s.release p pc) :=
  (moves_set p pc hw).trans (Moves.of_writer rfl rfl rfl rfl rfl fun _ => rfl)

theorem moves_acquire (p : P) (pc : PipePc) (hw : ∀ w', pc.writer = some w' →
    ∃ w, (s.pc p).writer = some w ∧ w.call = w'.call ∧ w.i = w'.i) : Moves s (s.acquire p pc) :=
  (moves_set p pc hw).trans (Moves.of_writer rfl rfl rfl rfl rfl fun _ => rfl)

theorem moves_kill (p : P) : Moves s (s.kill p) := by
  have hset : Moves s (s.set p (s.pc p).wakeNread.wakeNwrite) := by
    apply moves_set
    intro w' hw'
    rw [writer_wakeNwrite, writer_wakeNread] at hw'
    exact ⟨w', hw', rfl, rfl⟩
  exact hset.trans (Moves.of_writer rfl rfl rfl rfl rfl fun _ => rfl)

theorem moves_writeDone (p : P) (w : Writer) : Moves s (s.writeDone p w) :=
  moves_wakeupNread.trans (moves_release p _ nofun)

theorem Queue.writeByte {p : P} {w : Writer} {ch : UInt8} (h : s.Queue)
    (hw : (s.pc p).writer = some w) (hroom : s.pi.full = false) (hch : w.call.src w.i = some ch) :
    (s.writeByte p w ch).Queue := by
  have hlt : s.pi.count < pipeSize :=
    lt_of_le_of_ne h.count fun he => by simp [Pipe.full_iff.mpr he] at hroom
  obtain ⟨old, hcalls, hlen⟩ := h.current p w hw
  have hk : (s.calls p).length - 1 = old.length := by simp [hcalls]
  have hself : (s.writeByte p w ch).bytesOf p old.length = s.bytesOf p old.length ++ [ch] := by
    simp [bytesOf, PipeSys.writeByte, hk]
  have hother : ∀ q k, (q, k) ≠ (p, old.length) →
      (s.writeByte p w ch).bytesOf q k = s.bytesOf q k := by
    intro q k hne
    simp [bytesOf, PipeSys.writeByte, hk, hne.symm]
  refine ⟨⟨?_, ?_, ?_⟩, ?_⟩
  · show (s.pi.push ch).count ≤ pipeSize
    rw [Pipe.count_push ch hlt]
    omega
  · show s.got ++ (s.pi.push ch).ring = (s.put ++ [_]).map Prod.snd
    rw [Pipe.ring_push ch hlt, ← List.append_assoc, h.queue, List.map_append]
    rfl
  · intro q k
    by_cases hq : (q, k) = (p, old.length)
    · obtain ⟨rfl, rfl⟩ := Prod.mk.inj hq
      have hin := h.inOrder q old.length
      rw [hself, List.map_append, hin, List.length_append, List.length_singleton,
        List.range_succ, List.map_append, hlen]
      simp [PipeSys.writeByte, PipeSys.set, hcalls, hch]
    · rw [hother q k hq]
      exact h.inOrder q k
  · intro q w' hw'
    by_cases hq : q = p
    · subst q
      have hpc : (s.writeByte p w ch).pc p = .writing { w with i := w.i + 1 } :=
        update_self ..
      rw [hpc, PipePc.writer, Option.some.injEq] at hw'
      subst w'
      exact ⟨old, hcalls, by rw [hself, List.length_append, hlen]; rfl⟩
    · have hpc : (s.writeByte p w ch).pc q = s.pc q := update_of_ne hq ..
      rw [hpc] at hw'
      obtain ⟨old', hc', hl'⟩ := h.current q w' hw'
      exact ⟨old', hc', by rw [hother q _ (fun he => hq (Prod.mk.inj he).1)]; exact hl'⟩

theorem Queue.readDone (h : s.Queue) (p : P) (r : ReadCall) : (s.readDone p r).Queue := by
  obtain ⟨hring, hle⟩ := copyLoop_spec r.dst r.n.toNat 0 s.pi
  have hm : Moves s (s.wakeupNwrite.release p (.outside (copyLoop r.dst r.n.toNat 0 s.pi).2.2)) :=
    moves_wakeupNwrite.trans (moves_release p _ nofun)
  have hq := h.moves hm
  refine ⟨⟨hle.trans h.count, ?_, hq.inOrder⟩, hq.current⟩
  show (s.got ++ _) ++ (copyLoop r.dst r.n.toNat 0 s.pi).1.ring = s.put.map Prod.snd
  rw [List.append_assoc, ← hring, h.queue]

theorem Queue.pipewrite (h : s.Queue) (p : P) (c : WriteCall) :
    ({ s.acquire p (.writing ⟨c, 0, 0⟩) with
        calls := update s.calls p (s.calls p ++ [c]) } : PipeSys P).Queue := by
  -- no byte carries the number of the new call yet
  have hnew : s.bytesOf p (s.calls p).length = [] := by
    have hin := h.inOrder p (s.calls p).length
    cases hb : s.bytesOf p (s.calls p).length with
    | nil => rfl
    | cons b bs => simp [hb, List.range_succ_eq_map] at hin
  refine ⟨⟨h.count, h.queue, ?_⟩, ?_⟩
  · intro q k
    show (s.bytesOf q k).map some = (List.range (s.bytesOf q k).length).map _
    by_cases hq : q = p
    · subst q
      by_cases hk : k = (s.calls p).length
      · simp [hk, hnew]
      · rw [h.inOrder p k]
        simp only [update_self]
        apply List.map_congr_left
        intro i _
        rw [List.getElem?_append]
        split
        · rfl
        · rw [List.getElem?_eq_none (by omega), List.getElem?_eq_none (by simp; omega)]
    · rw [h.inOrder q k]
      simp only [update_of_ne hq]
  · intro q w' hw'
    by_cases hq : q = p
    · subst q
      have hpc : (PipePc.writing ⟨c, 0, 0⟩).writer = some w' := by
        rwa [← set_pc_self s p (.writing ⟨c, 0, 0⟩)]
      obtain rfl : ⟨c, 0, 0⟩ = w' := Option.some.inj hpc
      exact ⟨s.calls p, update_self .., congrArg List.length hnew⟩
    · have hpc : (s.pc q).writer = some w' := by
        rwa [← set_pc_of_ne s (.writing ⟨c, 0, 0⟩) hq]
      simp only [update_of_ne hq]
      exact h.current q w' hpc

theorem Queue.advance (h : s.Queue) (p : P) : (s.advance p).Queue := by
  cases hpc : s.pc p with
  | writing w =>
    simp only [PipeSys.advance, hpc]
    split_ifs
    · exact h.moves (moves_release p _ nofun)
    · exact h.moves (moves_set p _ fun w' hw' => ⟨w', by rw [hpc]; exact hw', rfl, rfl⟩)
    · exact h.moves (moves_writeDone p w)
  | storing w =>
    simp only [PipeSys.advance, hpc]
    split_ifs with hfull
    · apply h.moves
      apply moves_wakeupNread.trans
      apply moves_release
      intro w' hw'
      obtain rfl : { w with told := w.i } = w' := Option.some.inj hw'
      exact ⟨w, by rw [wakeupNread, writer_wakeNread, hpc]; rfl, rfl, rfl⟩
    · cases hsrc : w.call.src w.i with
      | none => exact h.moves (moves_writeDone p w)
      | some ch => exact h.writeByte (by rw [hpc]; rfl) (by simpa using hfull) hsrc
  | fullWoken w =>
    simp only [PipeSys.advance, hpc]
    split_ifs
    · exact h.moves (moves_acquire p _ fun w' hw' => ⟨w', by rw [hpc]; exact hw', rfl, rfl⟩)
    · exact h
  | reading r =>
    simp only [PipeSys.advance, hpc]
    split_ifs
    · exact h.moves (moves_release p _ nofun)
    · exact h.moves (moves_set p _ nofun)
    · exact h.readDone p r
  | emptying r =>
    simp only [PipeSys.advance, hpc]
    exact h.moves (moves_release p _ nofun)
  | emptyWoken r =>
    simp only [PipeSys.advance, hpc]
    split_ifs
    · exact h.moves (moves_acquire p _ nofun)
    · exact h
  | outside ret => simpa only [PipeSys.advance, hpc] using h
  | fullAsleep w => simpa only [PipeSys.advance, hpc] using h
  | emptyAsleep r => simpa only [PipeSys.advance, hpc] using h

theorem Queue.step (h : s.Queue) (a : PipeAct P) : (s.step a).Queue := by
  cases a with
  | pipewrite p c =>
    simp only [PipeSys.step]
    split
    · exact h.pipewrite p c
    · exact h
  | piperead p r =>
    simp only [PipeSys.step]
    split
    · exact h.moves (moves_acquire p _ nofun)
    · exact h
  | advance p => exact h.advance p
  | pipeclose writable =>
    simp only [PipeSys.step]
    split
    · exact h.moves (moves_pipeclose writable)
    · exact h
  | kill p => exact h.moves (moves_kill p)

theorem queue_alloc (data : Nat → UInt8) : (alloc data : PipeSys P).Queue :=
  ⟨⟨by simp [alloc, Pipe.count], by simp [alloc, Pipe.ring, Pipe.count], fun _ _ => rfl⟩, nofun⟩

theorem queue_run {data : Nat → UInt8} {as : List (PipeAct P)}
    (h : run pipeStep (alloc data) as = .ok s) : s.Queue :=
  run_inv (fun t a u ht hu => by cases hu; exact ht.step a) (queue_alloc data) h

end PipeSys

/-- In every state of every run, `nwrite - nread` is at most `PIPESIZE`, the bytes
read are a prefix of the bytes written with the ring as the rest, and the bytes of
one call are in the order of its buffer. -/
theorem pipe_fifo {P : Type*} [DecidableEq P] (data : Nat → UInt8) (as : List (PipeAct P))
    (s : PipeSys P) (h : run pipeStep (PipeSys.alloc data) as = .ok s) : s.Fifo :=
  (PipeSys.queue_run h).toFifo

def readOne : List (PipeAct Bool) :=
  [.pipewrite false ⟨2, fun i => some (UInt8.ofNat (7 + i))⟩, .advance false, .advance false,
    .advance false, .advance false, .advance false, .piperead true ⟨1, fun _ => true⟩,
    .advance true]

theorem pipe_fifo_read_one :
    ∃ s : PipeSys Bool, run pipeStep (PipeSys.alloc fun _ => 0) readOne = .ok s ∧
      s.got = [7] ∧ s.pi.count = 1 ∧ s.Fifo :=
  ⟨_, rfl, by decide, by decide, pipe_fifo (fun _ => 0) readOne _ rfl⟩

end Xv6
