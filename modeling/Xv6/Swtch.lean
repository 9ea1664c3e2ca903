import Xv6.ActionRun
import Xv6.Sched

/-! `scheduler`, `sched`, `yield`, `forkret`, `sleep`, `wakeup`, `kill` and the parts of
`exit`, `fork` and `wait` that change a process's state (`kernel/proc.c`), on any number of
CPUs, with `swtch` (`kernel/swtch.S`) taken one instruction at a time. The registers and
contexts are there, so that it shows which thread a CPU resumes and where.

Acquiring `p->lock`, what is done while holding it, and each `sd` and `ld` of `swtch` are
separate steps. While a CPU holds a `p->lock` its interrupts are off, so a thread is
interrupted only where it holds none. -/

namespace Xv6.Swtch

open Function

/-- Whose stack it is: the kernel thread of a process, or a CPU's scheduler. -/
inductive Thread (P C : Type*) where
  | proc (p : P)
  | sched (c : C)
  deriving DecidableEq

inductive Label where
  | scheduler | sched | forkret
  deriving DecidableEq

/-- What a register may hold: a number, a return address, a place on a stack. -/
inductive Word (P C : Type*) where
  | num (n : UInt64)
  | code (l : Label)
  | stack (t : Thread P C)

abbrev Context (P C : Type*) := Fin 14 → Word P C

abbrev ra : Fin 14 := 0
abbrev sp : Fin 14 := 1

inductive Why where
  | yield
  | sleep (chan : UInt64)
  | exit
  deriving DecidableEq

/-- What a CPU does with a process whose lock it takes and releases again. -/
inductive Visit where
  | wakeup (chan : UInt64)
  | kill
  | wait
  | allocproc
  | freeproc
  | start
  deriving DecidableEq

/-- The places from which a CPU may visit a process: the loop of `scheduler` (in an
interrupt), and the code of a process. -/
inductive Base where
  | loop | run
  deriving DecidableEq

inductive CtxAddr (P C : Type*) where
  | proc (p : P)
  | cpu (c : C)
  deriving DecidableEq

inductive Pc (P C : Type*) where
  | base (b : Base)
  | visit (v : Visit) (q : P) (b : Base)
  | picked (q : P)
  | swtch (old new : CtxAddr P C) (k : Nat)
  | back
  | returned
  | forkret
  /-- In `yield`, `sleep` or `exit`, with `q->lock` acquired; `q` is the local `p`. -/
  | leaving (why : Why) (q : P)

structure Cpu (P C : Type*) where
  proc : Option P
  context : Context P C
  regs : Context P C
  pc : Pc P C
  /-- The variable `p` of `scheduler`, on this CPU's scheduler stack. -/
  loopVar : Option P
  saved : Context P C

structure Proc (P C : Type*) where
  state : RunState
  chan : UInt64
  lock : Option C
  context : Context P C
  /-- On its kernel stack: who called `sched`, and that function's variable `p`. -/
  frame : Option (Why × P)
  /-- The registers with which its thread last called `swtch`, or those `allocproc` gave it. -/
  saved : Context P C

structure Sys (P C : Type*) where
  cpu : C → Cpu P C
  proc : P → Proc P C

/-- The panics of `acquire`, `release`, `sched` and `exit`, a null `myproc()`, and a `ret` to
an address that is none. -/
inductive Fault where
  | acquire | release | schedLock | schedRunning | zombieExit | nullProc | badJump
  deriving DecidableEq, Repr

variable {P C : Type*}

def forkretContext (q : P) : Context P C :=
  update (update (fun _ => .num 0) ra (.code .forkret)) sp (.stack (.proc q))

/-- What a CPU does to process `q` while it holds `q->lock`. `fork` and `wait` come upon the
states named here only in a child of their own. -/
def Visit.apply (q : P) (y : Proc P C) : Visit → Proc P C
  | .wakeup ch => if y.state = .sleeping ∧ y.chan = ch then { y with state := .runnable } else y
  | .kill => if y.state = .sleeping then { y with state := .runnable } else y
  | .wait => if y.state = .zombie then { y with chan := 0, state := .unused } else y
  | .allocproc =>
    if y.state = .unused then
      { y with state := .used, context := forkretContext q, saved := forkretContext q }
    else y
  | .freeproc => if y.state = .used then { y with chan := 0, state := .unused } else y
  | .start => if y.state = .used then { y with state := .runnable } else y

def Why.enter (y : Proc P C) : Why → Proc P C
  | .yield => { y with state := .runnable }
  | .sleep ch => { y with chan := ch, state := .sleeping }
  | .exit => { y with state := .zombie }

namespace Sys

section SetCpu

variable [DecidableEq C]

def setCpu (s : Sys P C) (c : C) (x : Cpu P C) : Sys P C :=
  { s with cpu := update s.cpu c x }

def setPc (s : Sys P C) (c : C) (pc : Pc P C) : Sys P C := s.setCpu c { s.cpu c with pc }

@[simp] theorem setCpu_cpu_self (s : Sys P C) (c : C) (x : Cpu P C) : (s.setCpu c x).cpu c = x :=
  update_self ..

theorem setCpu_cpu_of_ne (s : Sys P C) {c c' : C} (h : c' ≠ c) (x : Cpu P C) :
    (s.setCpu c x).cpu c' = s.cpu c' :=
  update_of_ne h ..

@[simp] theorem setCpu_setCpu (s : Sys P C) (c : C) (x z : Cpu P C) :
    (s.setCpu c x).setCpu c z = s.setCpu c z := by
  simp only [setCpu, update_idem]

end SetCpu

section SetProc

variable [DecidableEq P]

def setProc (s : Sys P C) (q : P) (y : Proc P C) : Sys P C :=
  { s with proc := update s.proc q y }

@[simp] theorem setProc_proc_self (s : Sys P C) (q : P) (y : Proc P C) :
    (s.setProc q y).proc q = y :=
  update_self ..

theorem setProc_proc_of_ne (s : Sys P C) {q q' : P} (h : q' ≠ q) (y : Proc P C) :
    (s.setProc q y).proc q' = s.proc q' :=
  update_of_ne h ..

@[simp] theorem setProc_cpu (s : Sys P C) (q : P) (y : Proc P C) : (s.setProc q y).cpu = s.cpu := rfl

@[simp] theorem setProc_setProc (s : Sys P C) (q : P) (y z : Proc P C) :
    (s.setProc q y).setProc q z = s.setProc q z := by
  simp only [setProc, update_idem]

end SetProc

variable [DecidableEq P] [DecidableEq C]

/-- `acquire(&q->lock)` on CPU `c`, which is then at `pc`; it spins while the lock is taken. -/
def acquire (s : Sys P C) (c : C) (q : P) (pc : Pc P C) : Except Fault (Sys P C) :=
  match (s.proc q).lock with
  | none => .ok ((s.setProc q { s.proc q with lock := some c }).setPc c pc)
  | some c' => if c' = c then .error .acquire else .ok s

def release (s : Sys P C) (c : C) (q : P) : Except Fault (Sys P C) :=
  if (s.proc q).lock = some c then .ok (s.setProc q { s.proc q with lock := none })
  else .error .release

def context (s : Sys P C) : CtxAddr P C → Context P C
  | .proc q => (s.proc q).context
  | .cpu c => (s.cpu c).context

def store (s : Sys P C) (r : Fin 14) (w : Word P C) : CtxAddr P C → Sys P C
  | .proc q => s.setProc q { s.proc q with context := update (s.proc q).context r w }
  | .cpu c => s.setCpu c { s.cpu c with context := update (s.cpu c).context r w }

/-- `c->proc = p; swtch(&c->context, &p->context)` up to the entry of `swtch`, the call of
which puts the return address into `ra`. -/
def resume (s : Sys P C) (c : C) (q : P) : Sys P C :=
  let regs := update (s.cpu c).regs ra (.code .scheduler)
  (s.setProc q { s.proc q with state := .running }).setCpu c
    { s.cpu c with proc := some q, regs, loopVar := some q, saved := regs,
                   pc := .swtch (.cpu c) (.proc q) 0 }

def pickedStep (s : Sys P C) (c : C) (q : P) : Except Fault (Sys P C) :=
  if (s.proc q).state = .runnable then .ok (s.resume c q)
  else (s.release c q).map (·.setPc c (.base .loop))

/-- The `ret` of `swtch`: on which stack, and to which address, is in the registers. -/
def ret (s : Sys P C) (c : C) : Except Fault (Sys P C) :=
  match (s.cpu c).regs ra, (s.cpu c).regs sp with
  | .code .scheduler, .stack (.sched _) => .ok (s.setPc c .back)
  | .code .sched, .stack (.proc _) => .ok (s.setPc c .returned)
  | .code .forkret, .stack (.proc _) => .ok (s.setPc c .forkret)
  | _, _ => .error .badJump

/-- One instruction of `swtch(old, new)`: fourteen `sd`, fourteen `ld`, `ret`. -/
def swtchStep (s : Sys P C) (c : C) (old new : CtxAddr P C) (k : Nat) :
    Except Fault (Sys P C) :=
  if h : k < 14 then
    .ok ((s.store ⟨k, h⟩ ((s.cpu c).regs ⟨k, h⟩) old).setPc c (.swtch old new (k + 1)))
  else if h : k - 14 < 14 then
    let regs := update (s.cpu c).regs ⟨k - 14, h⟩ (s.context new ⟨k - 14, h⟩)
    .ok (s.setCpu c { s.cpu c with regs, pc := .swtch old new (k + 1) })
  else s.ret c

/-- `scheduler` after `swtch`: `c->proc = 0`, and `release` of the process in its variable. -/
def backStep (s : Sys P C) (c : C) : Except Fault (Sys P C) :=
  match (s.cpu c).regs sp with
  | .stack (.sched c') =>
    match (s.cpu c').loopVar with
    | some q =>
      (s.release c q).map fun t => t.setCpu c { t.cpu c with proc := none, pc := .base .loop }
    | none => .error .nullProc
  | _ => .error .badJump

def returnedStep (s : Sys P C) (c : C) : Except Fault (Sys P C) :=
  match (s.cpu c).regs sp with
  | .stack (.proc t) =>
    match (s.proc t).frame with
    | some (.yield, q) => (s.release c q).map (·.setPc c (.base .run))
    | some (.sleep _, q) =>
      ((s.setProc q { s.proc q with chan := 0 }).release c q).map (·.setPc c (.base .run))
    | some (.exit, _) => .error .zombieExit
    | none => .error .badJump
  | _ => .error .badJump

def forkretStep (s : Sys P C) (c : C) : Except Fault (Sys P C) :=
  match (s.cpu c).proc with
  | some q => (s.release c q).map (·.setPc c (.base .run))
  | none => .error .nullProc

/-- `sched`, up to the entry of `swtch`; `t` is the thread, whose stack has the caller's frame. -/
def sched (s : Sys P C) (c : C) (t : P) (frame : Why × P) : Except Fault (Sys P C) :=
  match (s.cpu c).proc with
  | none => .error .nullProc
  | some q =>
    if (s.proc q).lock ≠ some c then .error .schedLock
    else if (s.proc q).state = .running then .error .schedRunning
    else
      let regs := update (s.cpu c).regs ra (.code .sched)
      .ok ((s.setProc t { s.proc t with frame := some frame, saved := regs }).setCpu c
        { s.cpu c with regs, pc := .swtch (.proc q) (.cpu c) 0 })

def leavingStep (s : Sys P C) (c : C) (why : Why) (q : P) : Except Fault (Sys P C) :=
  match (s.cpu c).regs sp with
  | .stack (.proc t) => (s.setProc q (why.enter (s.proc q))).sched c t (why, q)
  | _ => .error .badJump

def visitStep (s : Sys P C) (c : C) (v : Visit) (q : P) (b : Base) : Except Fault (Sys P C) :=
  ((s.setProc q (v.apply q (s.proc q))).release c q).map (·.setPc c (.base b))

def advance (s : Sys P C) (c : C) : Except Fault (Sys P C) :=
  match (s.cpu c).pc with
  | .base _ => .ok s
  | .visit v q b => s.visitStep c v q b
  | .picked q => s.pickedStep c q
  | .swtch old new k => s.swtchStep c old new k
  | .back => s.backStep c
  | .returned => s.returnedStep c
  | .forkret => s.forkretStep c
  | .leaving why q => s.leavingStep c why q

end Sys

inductive Act (P C : Type*) where
  | pick (c : C) (q : P)
  | leave (c : C) (why : Why)
  | visit (c : C) (v : Visit) (q : P)
  | advance (c : C)
  /-- The code between these steps leaves `w` in a register; its stack stays its own. -/
  | compute (c : C) (r : Fin 14) (w : Word P C)

namespace Sys

variable [DecidableEq P] [DecidableEq C]

def enterVisit (s : Sys P C) (c : C) (v : Visit) (q : P) (b : Base) : Except Fault (Sys P C) :=
  match v with
  | .wakeup _ => if (s.cpu c).proc = some q then .ok s else s.acquire c q (.visit v q b)
  | _ => s.acquire c q (.visit v q b)

def step (s : Sys P C) : Act P C → Except Fault (Sys P C)
  | .pick c q =>
    match (s.cpu c).pc with
    | .base .loop => s.acquire c q (.picked q)
    | _ => .ok s
  | .leave c why =>
    match (s.cpu c).pc with
    | .base .run =>
      match (s.cpu c).proc with
      | some q => s.acquire c q (.leaving why q)
      | none => .error .nullProc
    | _ => .ok s
  | .visit c v q =>
    match (s.cpu c).pc with
    | .base b => s.enterVisit c v q b
    | _ => .ok s
  | .advance c => s.advance c
  | .compute c r w =>
    match (s.cpu c).pc with
    | .base _ =>
      if r = sp then .ok s
      else .ok (s.setCpu c { s.cpu c with regs := update (s.cpu c).regs r w })
    | _ => .ok s

/-- Every CPU has entered the loop of `scheduler`, and there is no process yet. -/
def init : Sys P C where
  cpu c :=
    { proc := none, context := fun _ => .num 0, pc := .base .loop, loopVar := none
      regs := update (fun _ => .num 0) sp (.stack (.sched c)), saved := fun _ => .num 0 }
  proc _ :=
    { state := .unused, chan := 0, lock := none, context := fun _ => .num 0, frame := none
      saved := fun _ => .num 0 }

end Sys

end Xv6.Swtch
