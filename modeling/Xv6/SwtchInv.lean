import Xv6.Swtch

/-! What holds of each CPU and each process between two steps. A `p->lock` belongs to one
CPU, and passes from a process's thread to the scheduler's and back through `swtch`: the
CPU keeps it while the threads change. -/

namespace Xv6.Swtch

variable {P C : Type*}

def Cpu.held (x : Cpu P C) : Option P :=
  match x.pc with
  | .base _ => none
  | .visit _ q _ | .picked q | .leaving _ q => some q
  | .swtch _ _ _ | .back | .returned | .forkret => x.proc

/-- What `y` will be resumed with leads back into its own thread, to a place it can go on
from. -/
def Proc.Resumable (q : P) (y : Proc P C) : Prop :=
  y.saved sp = .stack (.proc q) ∧
    (y.saved ra = .code .forkret ∨
      y.saved ra = .code .sched ∧ ∃ why, why ≠ Why.exit ∧ y.frame = some (why, q))

def Proc.Waits (y : Proc P C) : Prop := y.state = .used ∨ y.state = .sleeping ∨ y.state = .runnable

def Proc.Kept (q : P) (y : Proc P C) : Prop := y.Waits → y.context = y.saved ∧ y.Resumable q

structure AtSched (c : C) (x : Cpu P C) : Prop where
  proc : x.proc = none
  stack : x.regs sp = .stack (.sched c)

/-- The scheduler of `c` is in the middle of running `q`: it has called `swtch` for it. -/
structure Awaits (c : C) (x : Cpu P C) (q : P) : Prop where
  proc : x.proc = some q
  loopVar : x.loopVar = some q
  savedRa : x.saved ra = .code .scheduler
  savedSp : x.saved sp = .stack (.sched c)

structure Runs (c : C) (x : Cpu P C) (ps : P → Proc P C) (q : P) : Prop
    extends Awaits c x q where
  context : x.context = x.saved
  state : (ps q).state = .running
  stack : x.regs sp = .stack (.proc q)

structure Entering (c : C) (x : Cpu P C) (ps : P → Proc P C) (q : P) (k : Nat) : Prop
    extends Awaits c x q where
  state : (ps q).state = .running
  whole : (ps q).context = (ps q).saved
  resumable : (ps q).Resumable q
  stored : ∀ i : Fin 14, i < k → x.context i = x.saved i
  regs : ∀ i : Fin 14, x.regs i = if i + 14 < k then (ps q).saved i else x.saved i

structure Exiting (c : C) (x : Cpu P C) (ps : P → Proc P C) (q : P) (k : Nat) : Prop
    extends Awaits c x q where
  state : (ps q).state ≠ .running
  resumable : (ps q).Waits → (ps q).Resumable q
  savedStack : (ps q).saved sp = .stack (.proc q)
  context : x.context = x.saved
  stored : ∀ i : Fin 14, i < k → (ps q).context i = (ps q).saved i
  regs : ∀ i : Fin 14, x.regs i = if i + 14 < k then x.saved i else (ps q).saved i

structure Returned (c : C) (x : Cpu P C) (ps : P → Proc P C) (q : P) : Prop
    extends Awaits c x q where
  state : (ps q).state ≠ .running
  kept : (ps q).Kept q
  stack : x.regs sp = .stack (.sched c)

def CpuOk (c : C) (x : Cpu P C) (ps : P → Proc P C) : Prop :=
  match x.pc with
  | .base .loop | .visit _ _ .loop | .picked _ => AtSched c x
  | .base .run | .visit _ _ .run | .forkret => ∃ q, Runs c x ps q
  | .leaving _ q => Runs c x ps q
  | .returned => ∃ q, Runs c x ps q ∧ ∃ why, why ≠ Why.exit ∧ (ps q).frame = some (why, q)
  | .swtch old new k => ∃ q, old = .cpu c ∧ new = .proc q ∧ Entering c x ps q k ∨
      old = .proc q ∧ new = .cpu c ∧ Exiting c x ps q k
  | .back => ∃ q, Returned c x ps q

structure Inv (s : Sys P C) : Prop where
  locks : ∀ c q, (s.proc q).lock = some c ↔ (s.cpu c).held = some q
  cpu : ∀ c, CpuOk c (s.cpu c) s.proc
  unique : ∀ c c' q, (s.cpu c).proc = some q → (s.cpu c').proc = some q → c = c'
  running : ∀ q, (s.proc q).state = .running → ∃ c, (s.cpu c).proc = some q
  kept : ∀ q, (∀ c, (s.cpu c).proc ≠ some q) → (s.proc q).Kept q

section Frame

variable {c : C} {x : Cpu P C} {ps ps' : P → Proc P C} {q : P}

theorem Runs.frame (h : Runs c x ps q) (hq : (ps' q).state = .running) : Runs c x ps' q :=
  { h with state := hq }

/-- What holds of a CPU depends on the process whose lock it holds, and on the one it runs
being `RUNNING`. -/
theorem CpuOk.frame (h : CpuOk c x ps) (hheld : ∀ q, x.held = some q → ps' q = ps q)
    (hrun : ∀ q, x.proc = some q → (ps q).state = .running → (ps' q).state = .running) :
    CpuOk c x ps' := by
  have runs : ∀ q, Runs c x ps q → Runs c x ps' q := fun q hq =>
    hq.frame (hrun q hq.proc hq.state)
  unfold CpuOk at h ⊢
  cases hpc : x.pc with
  | base b =>
    rw [hpc] at h
    cases b with
    | loop => exact h
    | run => exact h.imp runs
  | visit v q b =>
    rw [hpc] at h
    cases b with
    | loop => exact h
    | run => exact h.imp runs
  | picked q => rw [hpc] at h; exact h
  | forkret => rw [hpc] at h; exact h.imp runs
  | leaving why q => rw [hpc] at h; exact runs q h
  | returned =>
    rw [hpc] at h
    obtain ⟨q, hq, why, hne, hf⟩ := h
    refine ⟨q, runs q hq, why, hne, ?_⟩
    rw [hheld q (by rw [Cpu.held, hpc]; exact hq.proc)]
    exact hf
  | swtch old new k =>
    rw [hpc] at h
    obtain ⟨q, ⟨ho, hn, hq⟩ | ⟨ho, hn, hq⟩⟩ := h
    · have he := hheld q (by rw [Cpu.held, hpc]; exact hq.proc)
      exact ⟨q, .inl ⟨ho, hn, hq.toAwaits, by rw [he]; exact hq.state, by rw [he]; exact hq.whole,
        by rw [he]; exact hq.resumable, hq.stored, by rw [he]; exact hq.regs⟩⟩
    · have he := hheld q (by rw [Cpu.held, hpc]; exact hq.proc)
      exact ⟨q, .inr ⟨ho, hn, hq.toAwaits, by rw [he]; exact hq.state, by rw [he]; exact hq.resumable,
        by rw [he]; exact hq.savedStack, hq.context, by rw [he]; exact hq.stored,
        by rw [he]; exact hq.regs⟩⟩
  | back =>
    rw [hpc] at h
    obtain ⟨q, hq⟩ := h
    have he := hheld q (by rw [Cpu.held, hpc]; exact hq.proc)
    exact ⟨q, hq.toAwaits, by rw [he]; exact hq.state, by rw [he]; exact hq.kept, hq.stack⟩

theorem CpuOk.proc_eq (h : CpuOk c x ps) (hq : x.proc = some q) :
    (ps q).state = .running ∨ x.held = some q := by
  unfold CpuOk at h
  unfold Cpu.held
  have runs : ∀ q', Runs c x ps q' → (ps q).state = .running := by
    intro q' h'
    rw [← Option.some.inj (h'.proc.symm.trans hq)]
    exact h'.state
  have idle : AtSched c x → False := fun h' => by cases h'.proc.symm.trans hq
  cases hpc : x.pc with
  | base b =>
    rw [hpc] at h
    cases b with
    | loop => exact (idle h).elim
    | run => exact .inl (h.elim runs)
  | visit v q' b =>
    rw [hpc] at h
    cases b with
    | loop => exact (idle h).elim
    | run => exact .inl (h.elim runs)
  | picked q' => rw [hpc] at h; exact (idle h).elim
  | leaving why q' => rw [hpc] at h; exact .inl (runs q' h)
  | _ => exact .inr hq

theorem CpuOk.stack_eq (h : CpuOk c x ps) (hs : x.regs sp = .stack (.proc q)) : x.proc = some q := by
  have runs : ∀ q', Runs c x ps q' → x.proc = some q := by
    intro q' h'
    cases h'.stack.symm.trans hs
    exact h'.proc
  have idle : ∀ {p : Prop}, x.regs sp = .stack (.sched c) → p := fun h' => by
    cases h'.symm.trans hs
  unfold CpuOk at h
  cases hpc : x.pc with
  | base b =>
    rw [hpc] at h
    cases b with
    | loop => exact idle h.stack
    | run => exact h.elim runs
  | visit v q' b =>
    rw [hpc] at h
    cases b with
    | loop => exact idle h.stack
    | run => exact h.elim runs
  | picked q' => rw [hpc] at h; exact idle h.stack
  | forkret => rw [hpc] at h; exact h.elim runs
  | leaving why q' => rw [hpc] at h; exact runs q' h
  | returned => rw [hpc] at h; exact h.elim fun q' h' => runs q' h'.1
  | back => rw [hpc] at h; exact h.elim fun q' h' => idle h'.stack
  | swtch old new k =>
    rw [hpc] at h
    -- before `ld sp` it is the stack of the thread that calls, after it that of the other
    obtain ⟨q', ⟨-, -, hq⟩ | ⟨-, -, hq⟩⟩ := h
    · have hr := hq.regs sp
      split at hr
      · cases (hq.resumable.1.symm.trans (hr.symm.trans hs))
        exact hq.proc
      · exact idle (hr.trans hq.savedSp)
    · have hr := hq.regs sp
      split at hr
      · exact idle (hr.trans hq.savedSp)
      · cases (hq.savedStack.symm.trans (hr.symm.trans hs))
        exact hq.proc

end Frame

end Xv6.Swtch
