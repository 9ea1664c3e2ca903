import Xv6.ActionRun
import Xv6.LogMachine

/-! Any number of processes sharing the log. Each critical section under
`log.lock` is one action, and so is each step of `commit`. A process keeps the
blocks its current operation has logged; `group` collects those of all
operations since the last commit, and `last` is the transaction just committed. -/

namespace Xv6

open Function

inductive OpPc where
  | outside
  | asleep
  | woken
  | inOp (logged : List Nat)
  | inCommit (logged : List Nat)
  deriving DecidableEq, Repr

structure LogSystem (P : Type) where
  machine : LogMachine
  proc : P → OpPc
  group : List Nat
  last : List Nat

inductive LogAct (P : Type) where
  | beginOp (p : P)
  | logWrite (p : P) (b : Nat) (data : Buffer)
  | endOp (p : P)
  | commit (p : P)

def wakeupLog {P : Type} (proc : P → OpPc) : P → OpPc :=
  fun q => if proc q = .asleep then .woken else proc q

namespace LogSystem

variable {P : Type} [DecidableEq P]

def step (s : LogSystem P) : LogAct P → Except LogPanic (LogSystem P)
  | .beginOp p =>
    if s.proc p = .outside ∨ s.proc p = .woken then
      match Xv6.beginOp s.machine.log with
      | none => .ok { s with proc := update s.proc p .asleep }
      | some l => .ok { s with
          machine := { s.machine with log := l }
          proc := update s.proc p (.inOp []) }
    else .ok s
  | .logWrite p b data =>
    match s.proc p with
    | .inOp logged =>
      match Xv6.logWrite s.machine.log b with
      | .error e => .error e
      | .ok (l, _) => .ok { s with
          machine := { s.machine with bufs := update s.machine.bufs b data, log := l }
          proc := update s.proc p (.inOp (b :: logged))
          group := b :: s.group }
    | _ => .ok s
  | .endOp p =>
    match s.proc p with
    | .inOp logged =>
      match Xv6.endOp s.machine.log with
      | .error e => .error e
      | .ok (l, true) => .ok { s with
          machine := { s.machine with log := l, pc := .commit }
          proc := update s.proc p (.inCommit logged)
          last := [] }
      | .ok (l, false) => .ok { s with
          machine := { s.machine with log := l }
          proc := wakeupLog (update s.proc p .outside) }
    | _ => .ok s
  | .commit p =>
    match s.proc p with
    | .inCommit _ =>
      match s.machine.pc with
      | .finish => .ok { s with
          machine := s.machine.advance
          proc := wakeupLog (update s.proc p .outside)
          group := [] }
      | .commitHead => .ok { s with
          machine := s.machine.advance
          last := s.machine.log.lh.blocks }
      | _ => .ok { s with machine := s.machine.advance }
    | _ => .ok s

/-- After `initlog`: no process has called into the log, whose header may hold
stale entries. -/
def init (start size : Nat) (disk : Nat → Buffer) (stale : Nat → Nat) : LogSystem P where
  machine := ⟨disk, disk, ⟨start, size, 0, false, ⟨0, stale⟩⟩, .run⟩
  proc := fun _ => .outside
  group := []
  last := []

end LogSystem

end Xv6
