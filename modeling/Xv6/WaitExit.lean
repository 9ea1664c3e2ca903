import Xv6.ActionRun
import Xv6.Sched

/-! `fork`, `exit`, `reparent` and `wait` of `kernel/proc.c`, interleaved with each other, with
`kill` and with scheduling. A step is a section under one `p->lock`; what `wait_lock`
protects is kept apart by a holder that others have to wait for. -/

namespace Xv6

open ActionRun Function

/-- Where a process is. Between `exitReparent` and `exitZombie`, and between `waitScan` and
`waitSleep`, it holds `wait_lock`. -/
inductive Ctl where
  | user (ret : Int)
  | sleepOther
  | forkScan (i : Nat)
  | forkParent (np : ProcId)
  | forkRunnable (np : ProcId)
  | exitReparent (i : Nat) (status : Int)
  /-- Slot `i` has gone to init; `wakeup(initproc)` looks at slot `j`. -/
  | exitWakeInit (i j : Nat) (status : Int)
  | exitWakeParent (j : Nat) (status : Int)
  | exitZombie (status : Int)
  | gone
  /-- `wait(addr)` looks at slot `i`; `toUser` tells whether `addr` is not 0. -/
  | waitScan (toUser : Bool) (i : Nat) (havekids : Bool)
  | waitDecide (toUser : Bool) (havekids : Bool)
  | waitSleep (toUser : Bool)
  | waitAsleep (toUser : Bool)
  deriving DecidableEq

def Ctl.locked : Ctl → Bool
  | exitReparent _ _ | exitWakeInit _ _ _ | exitWakeParent _ _ | exitZombie _ => true
  | waitScan _ _ _ | waitDecide _ _ | waitSleep _ => true
  | _ => false

structure ExitRec where
  slot : ProcId
  pid : Int
  status : Int
  deriving DecidableEq

/-- A `wait` that has returned a child: the exit it returned, what it returned, and the
child's parent at that time. -/
structure ReapRec where
  waiter : ProcId
  exit : Nat
  pid : Int
  status : Int
  parent : Option ProcId
  deriving DecidableEq

/-- The processes. `exits` lists the exits so far, `exitOf` gives the number of the one
that left a zombie in its slot, and `reaps` lists what `wait` has returned. -/
structure WaitSys where
  slot : ProcId → ProcSlot
  ctl : ProcId → Ctl
  waitLock : Option ProcId
  initproc : ProcId
  nextpid : Int
  exits : List ExitRec
  exitOf : ProcId → Nat
  reaps : List ReapRec

namespace WaitSys

def setSlot (s : WaitSys) (q : ProcId) (x : ProcSlot) : WaitSys :=
  { s with slot := update s.slot q x }

def goto (s : WaitSys) (p : ProcId) (c : Ctl) : WaitSys :=
  { s with ctl := update s.ctl p c }

def acquire (s : WaitSys) (p : ProcId) (c : Ctl) : WaitSys :=
  if s.waitLock = none then { s.goto p c with waitLock := some p } else s

def release (s : WaitSys) (p : ProcId) (c : Ctl) : WaitSys := { s.goto p c with waitLock := none }

/-- `allocproc` and the copying in `fork`, at slot `i`; `mem` tells whether the
allocations succeed. -/
def forkScan (s : WaitSys) (p : ProcId) (i : Nat) (mem : Bool) : WaitSys :=
  if h : i < NPROC then
    let q : ProcId := ⟨i, h⟩
    if (s.slot q).state = .unused then
      let s' := { s with nextpid := succPid s.nextpid }
      if mem then (s'.setSlot q ((s.slot q).alloc s.nextpid)).goto p (.forkParent q)
      else (s'.setSlot q .free).goto p (.user (-1))
    else s.goto p (.forkScan (i + 1))
  else s.goto p (.user (-1))

def forkParent (s : WaitSys) (p np : ProcId) : WaitSys :=
  if s.waitLock = none then
    (s.setSlot np { s.slot np with parent := some p }).goto p (.forkRunnable np)
  else s

def forkRunnable (s : WaitSys) (p np : ProcId) : WaitSys :=
  ((s.setSlot np { s.slot np with state := .runnable }).goto np (.user 0)).goto p
    (.user (s.slot np).pid)

def exitReparent (s : WaitSys) (p : ProcId) (i : Nat) (status : Int) : WaitSys :=
  if h : i < NPROC then
    let q : ProcId := ⟨i, h⟩
    if (s.slot q).parent = some p then
      (s.setSlot q { s.slot q with parent := some s.initproc }).goto p (.exitWakeInit i 0 status)
    else s.goto p (.exitReparent (i + 1) status)
  else s.goto p (.exitWakeParent 0 status)

/-- `wakeup(ch)` by `p` at slot `j`, and where it goes on before and after the last slot. -/
def wakeAt (s : WaitSys) (p : ProcId) (ch : Option SleepChan) (j : Nat) (next done : Ctl) :
    WaitSys :=
  if h : j < NPROC then
    let q : ProcId := ⟨j, h⟩
    (if q = p then s else s.setSlot q ((s.slot q).wake ch)).goto p next
  else s.goto p done

def exitZombie (s : WaitSys) (p : ProcId) (status : Int) : WaitSys :=
  { (s.setSlot p { s.slot p with xstate := status, state := .zombie }).release p .gone with
    exits := s.exits ++ [⟨p, (s.slot p).pid, status⟩]
    exitOf := update s.exitOf p s.exits.length }

/-- `wait` at slot `i`; `copied` tells whether a `copyout` of the status succeeds. -/
def waitScan (s : WaitSys) (p : ProcId) (toUser : Bool) (i : Nat) (havekids copied : Bool) :
    WaitSys :=
  if h : i < NPROC then
    let q : ProcId := ⟨i, h⟩
    if (s.slot q).parent = some p then
      if (s.slot q).state = .zombie then
        if toUser ∧ copied = false then s.release p (.user (-1))
        else
          { (s.setSlot q .free).release p (.user (s.slot q).pid) with
            reaps := s.reaps ++
              [⟨p, s.exitOf q, (s.slot q).pid, (s.slot q).xstate, (s.slot q).parent⟩] }
      else s.goto p (.waitScan toUser (i + 1) true)
    else s.goto p (.waitScan toUser (i + 1) havekids)
  else s.goto p (.waitDecide toUser havekids)

def waitSleep (s : WaitSys) (p : ProcId) (toUser : Bool) : WaitSys :=
  (s.setSlot p { s.slot p with state := .sleeping, chan := some (.proc p) }).release p
    (.waitAsleep toUser)

/-- The next section of a running process; `ok` is the outcome of what can fail in it. -/
def advance (s : WaitSys) (p : ProcId) (ok : Bool) : WaitSys :=
  match s.ctl p with
  | .user _ | .gone => s
  | .sleepOther => s.goto p (.user 0)
  | .forkScan i => s.forkScan p i ok
  | .forkParent np => s.forkParent p np
  | .forkRunnable np => s.forkRunnable p np
  | .exitReparent i status => s.exitReparent p i status
  | .exitWakeInit i j status =>
    s.wakeAt p (some (.proc s.initproc)) j (.exitWakeInit i (j + 1) status)
      (.exitReparent (i + 1) status)
  | .exitWakeParent j status =>
    s.wakeAt p ((s.slot p).parent.map .proc) j (.exitWakeParent (j + 1) status)
      (.exitZombie status)
  | .exitZombie status => s.exitZombie p status
  | .waitScan toUser i havekids => s.waitScan p toUser i havekids ok
  | .waitDecide toUser havekids =>
    if havekids = false ∨ (s.slot p).killed then s.release p (.user (-1))
    else s.goto p (.waitSleep toUser)
  | .waitSleep toUser => s.waitSleep p toUser
  | .waitAsleep toUser => s.acquire p (.waitScan toUser 0 false)

end WaitSys

inductive WaitAct where
  | fork (p : ProcId)
  | exit (p : ProcId) (status : Int)
  | wait (p : ProcId) (toUser : Bool)
  | advance (p : ProcId) (ok : Bool)
  | kill (q : ProcId) (pid : Int)
  | setkilled (p : ProcId)
  | dispatch (p : ProcId)
  | yield (p : ProcId)
  | sleep (p : ProcId) (n : Nat)
  | wakeup (q : ProcId) (n : Nat)

inductive WaitPanic where
  | initExiting
  deriving DecidableEq

/-- One step. Calls are made by running processes in user space; what cannot happen
leaves the state as it is. -/
def waitStep (s : WaitSys) : WaitAct → Except WaitPanic WaitSys
  | .fork p =>
    match (s.slot p).state, s.ctl p with
    | .running, .user _ => .ok (s.goto p (.forkScan 0))
    | _, _ => .ok s
  | .exit p status =>
    match (s.slot p).state, s.ctl p with
    | .running, .user _ =>
      if p = s.initproc then .error .initExiting else .ok (s.acquire p (.exitReparent 0 status))
    | _, _ => .ok s
  | .wait p toUser =>
    match (s.slot p).state, s.ctl p with
    | .running, .user _ => .ok (s.acquire p (.waitScan toUser 0 false))
    | _, _ => .ok s
  | .advance p ok => .ok (if (s.slot p).state = .running then s.advance p ok else s)
  | .kill q pid => .ok (if (s.slot q).pid = pid then s.setSlot q (s.slot q).kill else s)
  | .setkilled p =>
    .ok (if (s.slot p).state = .running then s.setSlot p (s.slot p).setkilled else s)
  | .dispatch p =>
    .ok (if (s.slot p).state = .runnable then
      s.setSlot p { s.slot p with state := .running, chan := none } else s)
  | .yield p =>
    .ok (if (s.slot p).state = .running ∧ (s.ctl p).locked = false then
      s.setSlot p { s.slot p with state := .runnable } else s)
  | .sleep p n =>
    match (s.slot p).state, s.ctl p with
    | .running, .user _ =>
      .ok ((s.setSlot p { s.slot p with state := .sleeping, chan := some (.other n) }).goto p
        .sleepOther)
    | _, _ => .ok s
  | .wakeup q n => .ok (s.setSlot q ((s.slot q).wake (some (.other n))))

def WaitSys.boot : WaitSys where
  slot := update (fun _ => .free) 0 { ProcSlot.free.alloc 1 with state := .runnable }
  ctl _ := .user 0
  waitLock := none
  initproc := 0
  nextpid := 2
  exits := []
  exitOf _ := 0
  reaps := []

end Xv6
