import Xv6.PipeFifo

/-! Who sleeps on a pipe. A reader that sleeps has found the pipe empty and a
writer that sleeps has found it full; the other side wakes them when that ends. The
one exit that does not is `pipewrite`'s return of -1 after it has stored bytes. -/

namespace Xv6

open ActionRun PipePc

namespace PipeSys

variable {P : Type*} {s : PipeSys P}

/-- While `pi->lock` is free, whoever sleeps on the pipe has something to wait for. -/
def NoLostWakeup (s : PipeSys P) : Prop :=
  s.lock = none →
    (∀ p, (s.pc p).onNread = true → s.pi.nread = s.pi.nwrite ∧ s.pi.writeopen = true) ∧
    (∀ p, (s.pc p).onNwrite = true →
      s.pi.nwrite = s.pi.nread + UInt32.ofNat pipeSize ∧ s.pi.readopen = true)

/-- A `pipewrite` that is about to return -1, because it finds itself killed or the
read end closed, has told the sleeping readers of all the bytes it stored. -/
def TellsReaders (s : PipeSys P) (a : PipeAct P) : Prop :=
  ∀ p w, a = .advance p → s.pc p = .writing w → (w.i : Int) < w.call.n →
    (s.pi.readopen = false ∨ s.killed p = true) → w.told < w.i →
    ∀ q, (s.pc q).onNread = false

end PipeSys

def PipePc.untold : PipePc → Bool
  | writing w | storing w => w.told < w.i
  | _ => false

/-- What holds of a process at each point, when `u` says that the holder of the
lock has bytes it has not told the readers of. -/
def PipePc.Okay (pi : Pipe) (u : Bool) : PipePc → Prop
  | writing w => w.told ≤ w.i ∧ (w.told < w.i → pi.empty = false)
  | storing w => w.told ≤ w.i ∧ (w.told < w.i → pi.empty = false) ∧ pi.readopen = true
  | fullAsleep w => w.told = w.i ∧ pi.full = true ∧ pi.readopen = true
  | fullWoken w => w.told = w.i
  | emptying _ => pi.empty = true ∧ pi.writeopen = true
  | emptyAsleep _ => u = true ∨ pi.empty = true ∧ pi.writeopen = true
  | outside _ | reading _ | emptyWoken _ => True

namespace PipePc

@[simp] theorem locked_wakeNread (pc : PipePc) : pc.wakeNread.locked = pc.locked := by
  cases pc <;> rfl

@[simp] theorem locked_wakeNwrite (pc : PipePc) : pc.wakeNwrite.locked = pc.locked := by
  cases pc <;> rfl

variable {pi pi' : Pipe} {u u' : Bool} {pc : PipePc}

theorem Okay.other (h : pc.Okay pi u) (hl : pc.locked = false)
    (hw : pi.full = true ∧ pi.readopen = true → pi'.full = true ∧ pi'.readopen = true)
    (hr : pc.onNread = true → u = true ∨ pi.empty = true ∧ pi.writeopen = true →
      u' = true ∨ pi'.empty = true ∧ pi'.writeopen = true) : pc.Okay pi' u' := by
  cases pc with
  | fullAsleep w => exact ⟨h.1, hw h.2⟩
  | emptyAsleep r => exact hr rfl h
  | writing w | storing w | reading r | emptying r => cases hl
  | outside ret | fullWoken w | emptyWoken r => exact h

theorem Okay.wakeNread (h : pc.Okay pi u) (hl : pc.locked = false)
    (hw : pi.full = true ∧ pi.readopen = true → pi'.full = true ∧ pi'.readopen = true) :
    pc.wakeNread.Okay pi' u' := by
  cases pc with
  | fullAsleep w => exact ⟨h.1, hw h.2⟩
  | writing w | storing w | reading r | emptying r => cases hl
  | emptyAsleep r => trivial
  | outside ret | fullWoken w | emptyWoken r => exact h

theorem Okay.wakeNwrite (h : pc.Okay pi u) (hl : pc.locked = false)
    (hr : u = true ∨ pi.empty = true ∧ pi.writeopen = true →
      u' = true ∨ pi'.empty = true ∧ pi'.writeopen = true) : pc.wakeNwrite.Okay pi' u' := by
  cases pc with
  | fullAsleep w => exact h.1
  | emptyAsleep r => exact hr h
  | writing w | storing w | reading r | emptying r => cases hl
  | outside ret | fullWoken w | emptyWoken r => exact h

theorem untold_wake (pc : PipePc) : pc.wakeNread.wakeNwrite.untold = pc.untold := by
  cases pc <;> rfl

theorem Okay.wake (h : pc.Okay pi u) : pc.wakeNread.wakeNwrite.Okay pi u := by
  cases pc with
  | fullAsleep w => exact h.1
  | emptyAsleep r => trivial
  | writing w | storing w | reading r | emptying r => exact h
  | outside ret | fullWoken w | emptyWoken r => exact h

end PipePc

namespace PipeSys

variable {P : Type*} {s t : PipeSys P} {p : P} {pc : PipePc}

def untold (s : PipeSys P) : Bool :=
  match s.lock with
  | none => false
  | some p => (s.pc p).untold

structure Waits (s : PipeSys P) : Prop where
  lock : ∀ p, (s.pc p).locked = true ↔ s.lock = some p
  okay : ∀ p, (s.pc p).Okay s.pi s.untold

theorem Waits.of_holder (h : s.Waits) (hp : s.lock = some p) (ht : t.lock = some p ∨ t.lock = none)
    (hpl : (t.pc p).locked = true ↔ t.lock = some p) (hself : (t.pc p).Okay t.pi t.untold)
    (hother : ∀ q, q ≠ p → (s.pc q).locked = false → (s.pc q).Okay s.pi s.untold →
      (t.pc q).locked = false ∧ (t.pc q).Okay t.pi t.untold) : t.Waits := by
  have hfree : ∀ q, q ≠ p → (s.pc q).locked = false := by
    intro q hq
    rw [Bool.eq_false_iff, ne_eq, h.lock q, hp]
    exact fun he => hq (Option.some.inj he).symm
  constructor
  · intro q
    by_cases hq : q = p
    · exact hq ▸ hpl
    · rw [(hother q hq (hfree q hq) (h.okay q)).1]
      rcases ht with ht | ht <;> simp [ht, Ne.symm hq]
  · intro q
    by_cases hq : q = p
    · exact hq ▸ hself
    · exact (hother q hq (hfree q hq) (h.okay q)).2

theorem Waits.free (h : s.Waits) (hl : s.lock = none) (p : P) : (s.pc p).locked = false := by
  rw [Bool.eq_false_iff, ne_eq, h.lock p, hl]
  nofun

theorem Waits.of_free (h : s.Waits) (hs : s.lock = none) (ht : t.lock = none)
    (hall : ∀ q, (s.pc q).locked = false → (s.pc q).Okay s.pi false →
      (t.pc q).locked = false ∧ (t.pc q).Okay t.pi false) : t.Waits := by
  have hus : s.untold = false := by simp [untold, hs]
  have hut : t.untold = false := by simp [untold, ht]
  have hboth : ∀ q, (t.pc q).locked = false ∧ (t.pc q).Okay t.pi false :=
    fun q => hall q (h.free hs q) (hus ▸ h.okay q)
  refine ⟨?_, fun q => hut ▸ (hboth q).2⟩
  intro q
  rw [(hboth q).1, ht]
  exact iff_of_false nofun nofun

theorem Waits.pipeclose (h : s.Waits) (hs : s.lock = none) (writable : Bool) :
    (s.pipeclose writable).Waits := by
  cases writable with
  | true =>
    apply h.of_free (t := s.pipeclose true) hs hs
    intro q hfree hok
    exact ⟨(locked_wakeNread _).trans hfree, hok.wakeNread hfree id⟩
  | false =>
    apply h.of_free (t := s.pipeclose false) hs hs
    intro q hfree hok
    exact ⟨(locked_wakeNwrite _).trans hfree, hok.wakeNwrite hfree id⟩

theorem waits_alloc (data : Nat → UInt8) : (alloc data : PipeSys P).Waits :=
  ⟨fun _ => iff_of_false nofun nofun, fun _ => trivial⟩

theorem Waits.noLostWakeup (h : s.Waits) : s.NoLostWakeup := by
  intro hfree
  have hu : s.untold = false := by simp [untold, hfree]
  constructor
  · intro p hp
    have hok := h.okay p
    cases hpc : s.pc p with
    | emptyAsleep r =>
      rw [hpc, hu] at hok
      obtain ⟨hempty, hopen⟩ := hok.resolve_left nofun
      exact ⟨by simpa [Pipe.empty] using hempty, hopen⟩
    | _ => simp [hpc, onNread] at hp
  · intro p hp
    have hok := h.okay p
    cases hpc : s.pc p with
    | fullAsleep w =>
      rw [hpc] at hok
      exact ⟨by simpa [Pipe.full] using hok.2.1, hok.2.2⟩
    | _ => simp [hpc, onNwrite] at hp

variable [DecidableEq P]

theorem Waits.acquire (h : s.Waits) (hs : s.lock = none) (hl : pc.locked = true)
    (hu : pc.untold = false) (hpc : pc.Okay s.pi false) : (s.acquire p pc).Waits := by
  have hut : (s.acquire p pc).untold = false := by
    simp [untold, PipeSys.acquire, hu]
  have hus : s.untold = false := by simp [untold, hs]
  constructor
  · intro q
    show ((s.set p pc).pc q).locked = true ↔ some p = some q
    by_cases hq : q = p
    · simp [hq, hl]
    · simp [set_pc_of_ne s pc hq, h.free hs q, Ne.symm hq]
  · intro q
    rw [hut]
    show ((s.set p pc).pc q).Okay s.pi false
    by_cases hq : q = p
    · rw [hq, set_pc_self]
      exact hpc
    · rw [set_pc_of_ne s pc hq, ← hus]
      exact h.okay q

theorem Waits.kill (h : s.Waits) (p : P) : (s.kill p).Waits := by
  have hpc : ∀ q, (s.kill p).pc q = s.pc q ∨ (s.kill p).pc q = (s.pc q).wakeNread.wakeNwrite := by
    intro q
    by_cases hq : q = p
    · exact .inr (hq ▸ set_pc_self ..)
    · exact .inl (set_pc_of_ne s _ hq)
  have hu : (s.kill p).untold = s.untold := by
    have hlock : (s.kill p).lock = s.lock := rfl
    unfold untold
    rw [hlock]
    cases s.lock with
    | none => rfl
    | some q => rcases hpc q with he | he <;> simp only [he, untold_wake]
  constructor
  · intro q
    show _ ↔ s.lock = some q
    rw [← h.lock q]
    rcases hpc q with he | he <;> simp [he]
  · intro q
    rw [hu]
    show ((s.kill p).pc q).Okay s.pi s.untold
    rcases hpc q with he | he <;> rw [he]
    · exact h.okay q
    · exact (h.okay q).wake

theorem Waits.set (h : s.Waits) (hp : s.lock = some p) (hl : pc.locked = true)
    (hu : pc.untold = (s.pc p).untold) (hpc : pc.Okay s.pi s.untold) : (s.set p pc).Waits := by
  have ht : (s.set p pc).untold = s.untold := by
    simp [untold, PipeSys.set, hp, hu]
  refine h.of_holder hp (.inl hp) ?_ ?_ ?_
  · rw [set_pc_self]
    exact iff_of_true hl hp
  · rw [set_pc_self, ht]
    exact hpc
  · intro q hq hfree hok
    rw [set_pc_of_ne s pc hq, ht]
    exact ⟨hfree, hok⟩

theorem Waits.release (h : s.Waits) (hp : s.lock = some p) (hl : pc.locked = false)
    (hpc : pc.Okay s.pi false) (hr : (s.pc p).untold = true → ∀ q, (s.pc q).onNread = false) :
    (s.release p pc).Waits := by
  refine h.of_holder hp (.inr rfl) ?_ ?_ ?_
  · show ((s.set p pc).pc p).locked = true ↔ none = some p
    simp [hl]
  · show ((s.set p pc).pc p).Okay s.pi false
    rw [set_pc_self]
    exact hpc
  · intro q hq hfree hok
    show ((s.set p pc).pc q).locked = false ∧ ((s.set p pc).pc q).Okay s.pi false
    rw [set_pc_of_ne s pc hq]
    refine ⟨hfree, hok.other hfree id ?_⟩
    intro hn hor
    have hfalse : s.untold = false := by
      rw [Bool.eq_false_iff]
      intro htrue
      simp only [untold, hp] at htrue
      simp [hr htrue q] at hn
    rwa [hfalse] at hor

theorem Waits.wakeNread_release (h : s.Waits) (hp : s.lock = some p) (hl : pc.locked = false)
    (hpc : pc.Okay s.pi false) : (s.wakeupNread.release p pc).Waits := by
  refine h.of_holder hp (.inr rfl) ?_ ?_ ?_
  · show ((s.wakeupNread.set p pc).pc p).locked = true ↔ none = some p
    simp [hl]
  · show ((s.wakeupNread.set p pc).pc p).Okay s.pi false
    rw [set_pc_self]
    exact hpc
  · intro q hq hfree hok
    show ((s.wakeupNread.set p pc).pc q).locked = false ∧
      ((s.wakeupNread.set p pc).pc q).Okay s.pi false
    rw [set_pc_of_ne _ pc hq]
    exact ⟨by rw [wakeupNread, locked_wakeNread, hfree], hok.wakeNread hfree id⟩

theorem Waits.writeByte {w : Writer} {ch : UInt8} (h : s.Waits) (hq : s.Queue)
    (hpc : s.pc p = .storing w) (hroom : s.pi.full = false) : (s.writeByte p w ch).Waits := by
  have hp : s.lock = some p := (h.lock p).mp (by rw [hpc]; rfl)
  have htold : w.told ≤ w.i := by
    have hok := h.okay p
    rw [hpc] at hok
    exact hok.1
  have hne : (s.pi.push ch).empty = false := by
    rw [Bool.eq_false_iff, ne_eq, Pipe.empty_iff, Pipe.count_push ch]
    · omega
    · exact lt_of_le_of_ne hq.count fun he => by simp [Pipe.full_iff.mpr he] at hroom
  have hself : (s.writeByte p w ch).pc p = .writing { w with i := w.i + 1 } := set_pc_self ..
  have hu : (s.writeByte p w ch).untold = true := by
    have hlock : (s.writeByte p w ch).lock = some p := hp
    simp only [untold, hlock, hself, PipePc.untold, decide_eq_true_iff]
    omega
  refine h.of_holder hp (.inl hp) ?_ ?_ ?_
  · rw [hself]
    exact iff_of_true rfl hp
  · rw [hself]
    exact ⟨by simp only; omega, fun _ => hne⟩
  · intro q hq hfree hok
    have hother : (s.writeByte p w ch).pc q = s.pc q := set_pc_of_ne s _ hq
    rw [hother]
    refine ⟨hfree, hok.other hfree ?_ fun _ _ => .inl hu⟩
    intro hfull
    simp [hroom] at hfull

theorem Waits.readDone {r : ReadCall} (h : s.Waits) (hpc : s.pc p = .reading r)
    (hsome : ¬ (s.pi.empty = true ∧ s.pi.writeopen = true)) : (s.readDone p r).Waits := by
  have hp : s.lock = some p := (h.lock p).mp (by rw [hpc]; rfl)
  have hself : (s.readDone p r).pc p = .outside (copyLoop r.dst r.n.toNat 0 s.pi).2.2 :=
    set_pc_self ..
  refine h.of_holder hp (.inr rfl) ?_ ?_ ?_
  · rw [hself]
    exact iff_of_false nofun nofun
  · rw [hself]
    trivial
  · intro q hq hfree hok
    have hother : (s.readDone p r).pc q = (s.pc q).wakeNwrite := set_pc_of_ne s.wakeupNwrite _ hq
    rw [hother]
    refine ⟨by rw [locked_wakeNwrite, hfree], hok.wakeNwrite hfree ?_⟩
    rintro (hu | hor)
    · simp [untold, hp, hpc, PipePc.untold] at hu
    · exact absurd hor hsome

theorem Waits.advance (h : s.Waits) (hq : s.Queue) (p : P)
    (htell : s.TellsReaders (.advance p)) : (s.advance p).Waits := by
  have hok := h.okay p
  have hlock := h.lock p
  cases hpc : s.pc p with
  | writing w =>
    rw [hpc] at hok hlock
    have hp : s.lock = some p := hlock.mp rfl
    simp only [PipeSys.advance, hpc]
    split_ifs with hlt hdead
    · refine h.release hp rfl trivial ?_
      intro hu
      rw [hpc, PipePc.untold, decide_eq_true_iff] at hu
      exact htell p w rfl hpc hlt hdead hu
    · have hopen : s.pi.readopen = true := by simpa using (not_or.mp hdead).1
      exact h.set hp rfl (by rw [hpc]; rfl) ⟨hok.1, hok.2, hopen⟩
    · exact h.wakeNread_release hp rfl trivial
  | storing w =>
    rw [hpc] at hok hlock
    have hp : s.lock = some p := hlock.mp rfl
    simp only [PipeSys.advance, hpc]
    split_ifs with hfull
    · exact h.wakeNread_release hp rfl ⟨rfl, hfull, hok.2.2⟩
    · cases w.call.src w.i with
      | none => exact h.wakeNread_release hp rfl trivial
      | some ch => exact h.writeByte hq hpc (by simpa using hfull)
  | reading r =>
    rw [hpc] at hlock
    have hp : s.lock = some p := hlock.mp rfl
    have hu : (s.pc p).untold = true → ∀ q, (s.pc q).onNread = false := by simp [hpc, PipePc.untold]
    simp only [PipeSys.advance, hpc]
    split_ifs with hempty
    · exact h.release hp rfl trivial hu
    · exact h.set hp rfl (by rw [hpc]; rfl) hempty
    · exact h.readDone hpc hempty
  | emptying r =>
    rw [hpc] at hok hlock
    simp only [PipeSys.advance, hpc]
    exact h.release (hlock.mp rfl) rfl (.inr hok) (by simp [hpc, PipePc.untold])
  | fullWoken w =>
    rw [hpc] at hok
    have htold : w.told = w.i := hok
    simp only [PipeSys.advance, hpc]
    split_ifs with hfree
    · exact h.acquire hfree rfl (by simp [PipePc.untold, htold]) ⟨by omega, by omega⟩
    · exact h
  | emptyWoken r =>
    simp only [PipeSys.advance, hpc]
    split_ifs with hfree
    · exact h.acquire hfree rfl rfl trivial
    · exact h
  | outside ret => simpa only [PipeSys.advance, hpc] using h
  | fullAsleep w => simpa only [PipeSys.advance, hpc] using h
  | emptyAsleep r => simpa only [PipeSys.advance, hpc] using h

theorem Waits.step (h : s.Waits) (hq : s.Queue) (a : PipeAct P) (htell : s.TellsReaders a) :
    (s.step a).Waits := by
  cases a with
  | pipewrite p c =>
    simp only [PipeSys.step]
    split
    · rename_i hfree _
      have ha : (s.acquire p (.writing ⟨c, 0, 0⟩)).Waits :=
        h.acquire hfree rfl rfl ⟨le_refl 0, by rintro ⟨⟩⟩
      exact ⟨ha.lock, ha.okay⟩
    · exact h
  | piperead p r =>
    simp only [PipeSys.step]
    split
    · rename_i hfree _
      exact h.acquire hfree rfl rfl trivial
    · exact h
  | advance p => exact h.advance hq p htell
  | pipeclose writable =>
    simp only [PipeSys.step]
    split
    · rename_i hfree _
      exact h.pipeclose hfree writable
    · exact h
  | kill p => exact h.kill p

theorem Waits.lost (h : s.Waits) {a : PipeAct P} (ha : ¬ s.TellsReaders a) :
    ¬ (s.step a).NoLostWakeup := by
  simp only [TellsReaders, not_forall] at ha
  obtain ⟨p, w, rfl, hpc, hlt, hdead, htold, q, hq⟩ := ha
  have hstep : s.step (.advance p) = s.release p (.outside (-1)) := by
    simp only [PipeSys.step, PipeSys.advance, hpc, if_pos hlt, if_pos hdead]
  have hne : q ≠ p := by
    rintro rfl
    simp [hpc, onNread] at hq
  have hok := h.okay p
  rw [hpc] at hok
  intro hno
  rw [hstep] at hno
  have hqpc : (s.release p (.outside (-1))).pc q = s.pc q := set_pc_of_ne s _ hne
  have hsame : s.pi.nread = s.pi.nwrite := ((hno rfl).1 q (by rw [hqpc]; simpa using hq)).1
  simpa [Pipe.empty, hsame] using hok.2 htold

theorem waits_run {data : Nat → UInt8} {as : List (PipeAct P)}
    (hal : Along pipeStep TellsReaders (alloc data) as)
    (h : run pipeStep (alloc data) as = .ok s) : s.Waits ∧ s.Queue := by
  have hstep : ∀ (t : PipeSys P) a u, t.Waits ∧ t.Queue → t.TellsReaders a →
      pipeStep t a = .ok u → u.Waits ∧ u.Queue := by
    intro t a u ht ha hu
    cases hu
    exact ⟨ht.1.step ht.2 a ha, ht.2.step a⟩
  have halloc : (alloc data : PipeSys P).Waits ∧ (alloc data : PipeSys P).Queue :=
    ⟨waits_alloc data, queue_alloc data⟩
  exact run_inv_along hstep halloc hal h

end PipeSys

/-- As long as no `pipewrite` returns -1 with sleeping readers it has not told of its
bytes, whoever sleeps on the pipe has something to wait for; and every step that
breaks the rule leaves a reader asleep on a pipe that is not empty. -/
theorem pipe_wakeups_iff_told {P : Type*} [DecidableEq P] (data : Nat → UInt8)
    (as : List (PipeAct P)) (s : PipeSys P)
    (hal : Along pipeStep PipeSys.TellsReaders (PipeSys.alloc data) as)
    (h : run pipeStep (PipeSys.alloc data) as = .ok s) :
    s.NoLostWakeup ∧ ∀ a, (s.step a).NoLostWakeup ↔ s.TellsReaders a := by
  obtain ⟨hw, hq⟩ := PipeSys.waits_run hal h
  refine ⟨hw.noLostWakeup, fun a => ⟨?_, fun ha => (hw.step hq a ha).noLostWakeup⟩⟩
  exact fun hno => by_contra fun ha => hw.lost ha hno

def readerAsleep : List (PipeAct Bool) :=
  [.piperead true ⟨1, fun _ => true⟩, .advance true, .advance true]

theorem pipe_wakeups_reader_asleep :
    ∃ s, run pipeStep (PipeSys.alloc fun _ => 0) readerAsleep = .ok s ∧
      (s.pc true).onNread = true ∧
      s.NoLostWakeup ∧ ∀ a, (s.step a).NoLostWakeup ↔ s.TellsReaders a := by
  refine ⟨_, rfl, rfl, pipe_wakeups_iff_told (fun _ => 0) readerAsleep _ ?_ rfl⟩
  refine ⟨nofun, fun t ht => ?_⟩
  cases ht
  refine ⟨?_, fun t ht => ?_⟩
  · rintro p w ⟨⟩ ⟨⟩
  · cases ht
    refine ⟨?_, fun _ _ => trivial⟩
    rintro p w ⟨⟩ ⟨⟩

/-- A writer of two bytes is killed after the first: it returns -1 and the reader
sleeps on although `nread` is 0 and `nwrite` 1. -/
theorem killed_writer_loses_wakeup :
    ∃ s, run pipeStep (PipeSys.alloc fun _ => 0)
        (readerAsleep ++
          [.pipewrite false ⟨2, fun _ => some 7⟩, .advance false, .advance false, .kill false,
            .advance false]) = .ok s ∧
      s.lock = none ∧ (s.pc true).onNread = true ∧ s.pi.nread = 0 ∧ s.pi.nwrite = 1 ∧
      ¬ s.NoLostWakeup := by
  refine ⟨_, rfl, rfl, rfl, rfl, rfl, ?_⟩
  intro hno
  exact absurd ((hno rfl).1 true rfl).1 (by decide)

end Xv6
