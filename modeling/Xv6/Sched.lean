import Mathlib.Data.Fintype.Basic
import Mathlib.Logic.Relation
import Xv6.Basic

/-! `sleep`, `wakeup`, `kill`, `yield`, `sched` and `scheduler` of `kernel/proc.c` on any
number of CPUs, one shared access at a time. Each function is a program text: a relation
saying from which point which access leads to which point. What an access does to
memory is said once, for all of them.

The processes share a condition `C`, protected by the lock `lk` and waited for on the
channel `chan`. Other locks and what else the processes do are not in the model. -/

namespace Xv6

open Function

inductive RunState where
  | unused
  | used
  | sleeping
  | runnable
  | running
  | zombie
  deriving DecidableEq, Repr

inductive LockId (N : Nat) where
  | lk
  | proc (p : Fin N)
  deriving DecidableEq

inductive Access (N : Nat) (K : Type*) where
  | acquire (l : LockId N)
  | release (l : LockId N)
  | setState (p : Fin N) (st : RunState)
  | setChan (p : Fin N) (ch : Option K)
  | isState (p : Fin N) (st : RunState) (b : Bool)
  | isChan (p : Fin N) (ch : K) (b : Bool)
  | isCond (b : Bool)
  | setCond (b : Bool)
  | nop

structure SharedMem (N : Nat) (K C : Type*) where
  locks : LockId N → Option C
  state : Fin N → RunState
  chan : Fin N → Option K
  cond : Bool

variable {N : Nat} {K C : Type*} [DecidableEq K]

/-- CPU `c` performs an access. A lock that is held cannot be acquired, and `release`
panics unless `c` holds the lock. -/
def Access.Does (c : C) (m m' : SharedMem N K C) : Access N K → Prop
  | acquire l => m.locks l = none ∧ m' = { m with locks := update m.locks l (some c) }
  | release l => m.locks l = some c ∧ m' = { m with locks := update m.locks l none }
  | setState p st => m' = { m with state := update m.state p st }
  | setChan p ch => m' = { m with chan := update m.chan p ch }
  | isState p st b => decide (m.state p = st) = b ∧ m' = m
  | isChan p ch b => decide (m.chan p = some ch) = b ∧ m' = m
  | isCond b => m.cond = b ∧ m' = m
  | setCond b => m' = { m with cond := b }
  | nop => m' = m

inductive SleepAt where
  | acquire | releaseLk | setChan | setState | sched | clearChan | release | reacquire
  deriving DecidableEq

inductive WakeAt where
  | next | testState | testChan | set | release
  deriving DecidableEq

inductive YieldAt where
  | acquire | setState | sched | release
  deriving DecidableEq

/-- The points at which a process holds no lock, so that a timer interrupt may make it
`yield`. -/
inductive Interruptible (K : Type*) where
  | outside
  | reacquire (ch : Option K)
  | waking (ch : K) (i : Nat)
  | killing (i : Nat)

/-- Where a process's kernel thread is. In `sleep` the channel is `none` for
`sleep(chan, lk)` and `some ch` for a sleep on `ch` with another lock. -/
inductive Point (K : Type*) where
  | outside
  /-- Holds `lk`; since it took it, it has `made` `C` true, and `woke` the sleepers by
  calling `wakeup(chan)`. -/
  | critical (made woke : Bool)
  | sleep (ch : Option K) (pos : SleepAt)
  /-- `wakeup(ch)` at process `i`; `ret` is the critical section it was called from. -/
  | wakeup (ret : Option (Bool × Bool)) (ch : K) (i : Nat) (pos : WakeAt)
  | kill (i : Nat) (pos : WakeAt)
  | yield (pos : YieldAt) (back : Interruptible K)

def Interruptible.point : Interruptible K → Point K
  | outside => .outside
  | reacquire ch => .sleep ch .reacquire
  | waking ch i => .wakeup none ch i .next
  | killing i => .kill i .next

open Point in
inductive Text (chan : K) (me : Fin N) : Point K → Access N K → Point K → Prop
  | enter : Text chan me outside (.acquire .lk) (critical false false)
  -- whoever has made `C` true gives `lk` up only after a `wakeup(chan)`
  | leave (made woke) (h : made = true → woke = true) :
      Text chan me (critical made woke) (.release .lk) outside
  | makeTrue (made woke) : Text chan me (critical made woke) (.setCond true) (critical true woke)
  | makeFalse (made woke) : Text chan me (critical made woke) (.setCond false) (critical made woke)
  -- `sleep`; the caller has found `C` false
  | callSleep (made woke) (h : made = true → woke = true) :
      Text chan me (critical made woke) (.isCond false) (sleep none .acquire)
  | callSleepOn (ch) : Text chan me outside .nop (sleep (some ch) .acquire)
  | sleepAcquire (o) : Text chan me (sleep o .acquire) (.acquire (.proc me)) (sleep o .releaseLk)
  | releaseLk : Text chan me (sleep none .releaseLk) (.release .lk) (sleep none .setChan)
  | releaseOther (ch) : Text chan me (sleep (some ch) .releaseLk) .nop (sleep (some ch) .setChan)
  | setChan (o) : Text chan me (sleep o .setChan) (.setChan me (some (o.getD chan)))
      (sleep o .setState)
  | setSleeping (o) : Text chan me (sleep o .setState) (.setState me .sleeping) (sleep o .sched)
  | clearChan (o) : Text chan me (sleep o .clearChan) (.setChan me none) (sleep o .release)
  | sleepRelease (o) : Text chan me (sleep o .release) (.release (.proc me)) (sleep o .reacquire)
  | reacquireLk : Text chan me (sleep none .reacquire) (.acquire .lk) (critical false false)
  | reacquireOther (ch) : Text chan me (sleep (some ch) .reacquire) .nop outside
  -- `wakeup`
  | callWakeup (made woke ch) : Text chan me (critical made woke) .nop
      (wakeup (some (made, woke)) ch 0 .next)
  | callWakeupOutside (ch) : Text chan me outside .nop (wakeup none ch 0 .next)
  | wakeSelf (r ch) : Text chan me (wakeup r ch me .next) .nop (wakeup r ch (me + 1) .next)
  | wakeAcquire (r ch) (i : Fin N) (h : i ≠ me) : Text chan me (wakeup r ch i .next)
      (.acquire (.proc i)) (wakeup r ch i .testState)
  | wakeAsleep (r ch) (i : Fin N) : Text chan me (wakeup r ch i .testState)
      (.isState i .sleeping true) (wakeup r ch i .testChan)
  | wakeNotAsleep (r ch) (i : Fin N) : Text chan me (wakeup r ch i .testState)
      (.isState i .sleeping false) (wakeup r ch i .release)
  | wakeChan (r ch) (i : Fin N) : Text chan me (wakeup r ch i .testChan)
      (.isChan i ch true) (wakeup r ch i .set)
  | wakeOtherChan (r ch) (i : Fin N) : Text chan me (wakeup r ch i .testChan)
      (.isChan i ch false) (wakeup r ch i .release)
  | wakeSet (r ch) (i : Fin N) : Text chan me (wakeup r ch i .set)
      (.setState i .runnable) (wakeup r ch i .release)
  | wakeRelease (r ch) (i : Fin N) : Text chan me (wakeup r ch i .release)
      (.release (.proc i)) (wakeup r ch (i + 1) .next)
  | wakeReturn (made woke ch) : Text chan me (wakeup (some (made, woke)) ch N .next) .nop
      (critical made (woke || ch = chan))
  | wakeReturnOutside (ch) : Text chan me (wakeup none ch N .next) .nop outside
  -- `kill`; which process has the pid is not in the model
  | callKill : Text chan me outside .nop (kill 0 .next)
  | killAcquire (i : Fin N) : Text chan me (kill i .next) (.acquire (.proc i)) (kill i .testState)
  | killAsleep (i : Fin N) : Text chan me (kill i .testState) (.isState i .sleeping true)
      (kill i .set)
  | killNotAsleep (i : Fin N) : Text chan me (kill i .testState) (.isState i .sleeping false)
      (kill i .release)
  | killOther (i : Fin N) : Text chan me (kill i .testState) .nop (kill i .release)
  | killSet (i : Fin N) : Text chan me (kill i .set) (.setState i .runnable) (kill i .release)
  | killFound (i : Fin N) : Text chan me (kill i .release) (.release (.proc i)) outside
  | killNext (i : Fin N) : Text chan me (kill i .release) (.release (.proc i)) (kill (i + 1) .next)
  | killNone : Text chan me (kill N .next) .nop outside
  -- `yield`
  | interrupt (b) : Text chan me b.point .nop (yield .acquire b)
  | yieldAcquire (b) : Text chan me (yield .acquire b) (.acquire (.proc me)) (yield .setState b)
  | yieldRunnable (b) : Text chan me (yield .setState b) (.setState me .runnable) (yield .sched b)
  | yieldRelease (b) : Text chan me (yield .release b) (.release (.proc me)) b.point

def Point.afterSched : Point K → Option (Point K)
  | sleep o .sched => some (sleep o .clearChan)
  | yield .sched b => some (yield .release b)
  | _ => none

/-- Where a CPU is in `scheduler`; in `running p` the thread of `p` runs, and
`c->proc` is `p`. -/
inductive CpuPoint (N : Nat) where
  | scan (p : Fin N)
  | test (p : Fin N)
  | found (p : Fin N)
  | switch (p : Fin N)
  | running (p : Fin N)
  | back (p : Fin N)
  | release (p : Fin N)

def nextProc (p : Fin N) : Fin N :=
  ⟨(p + 1) % N, Nat.mod_lt _ (Nat.lt_of_le_of_lt (Nat.zero_le p) p.isLt)⟩

open CpuPoint in
inductive SchedText : CpuPoint N → Access N K → CpuPoint N → Prop
  | acquire (p) : SchedText (scan p) (.acquire (.proc p)) (test p)
  | runnable (p) : SchedText (test p) (.isState p .runnable true) (found p)
  | notRunnable (p) : SchedText (test p) (.isState p .runnable false) (release p)
  | setRunning (p) : SchedText (found p) (.setState p .running) (switch p)
  | clearProc (p) : SchedText (back p) .nop (release p)
  | release (p) : SchedText (release p) (.release (.proc p)) (scan (nextProc p))

structure Machine (N : Nat) (K C : Type*) where
  mem : SharedMem N K C
  point : Fin N → Point K
  cpu : C → CpuPoint N

variable [DecidableEq C]

/-- One step of the machine: an access by the scheduler or by the thread that a CPU
runs, or a `swtch` between the two. -/
inductive MachineStep (chan : K) (s : Machine N K C) : Machine N K C → Prop
  | scheduler {c a x m} (ht : SchedText (s.cpu c) a x) (ha : a.Does c s.mem m) :
      MachineStep chan s { s with mem := m, cpu := update s.cpu c x }
  | thread {c p a x m} (hc : s.cpu c = .running p) (ht : Text chan p (s.point p) a x)
      (ha : a.Does c s.mem m) :
      MachineStep chan s { s with mem := m, point := update s.point p x }
  | swtchTo {c p} (hc : s.cpu c = .switch p) :
      MachineStep chan s { s with cpu := update s.cpu c (.running p) }
  | swtchBack {c p x} (hc : s.cpu c = .running p) (hx : (s.point p).afterSched = some x) :
      MachineStep chan s
        { s with point := update s.point p x, cpu := update s.cpu c (.back p) }

/-- All CPUs are about to scan the process table; no process has run yet, and each
will start by releasing its lock in `forkret`. -/
structure Machine.Start (s : Machine N K C) : Prop where
  locks : ∀ l, s.mem.locks l = none
  state : ∀ p, s.mem.state p ≠ .sleeping ∧ s.mem.state p ≠ .running
  point : ∀ p, s.point p = .yield .release .outside
  cpu : ∀ c, ∃ p, s.cpu c = .scan p

abbrev Machine.Reaches (chan : K) : Machine N K C → Machine N K C → Prop :=
  Relation.ReflTransGen (MachineStep chan)

/-! The slots of the process table as `kernel/proc.c` changes them while it holds one
`p->lock`: what `allocproc`, `freeproc`, `kill`, `setkilled` and the wakeups do to the
slot they have locked. -/

abbrev ProcId : Type := Fin NPROC

/-- What a process can sleep on: `wait` sleeps on the process itself. -/
inductive SleepChan where
  | proc (p : ProcId)
  | other (n : Nat)
  deriving DecidableEq

structure ProcSlot where
  state : RunState
  pid : Int
  parent : Option ProcId
  xstate : Int
  killed : Bool
  chan : Option SleepChan
  deriving DecidableEq

def ProcSlot.live (q : ProcSlot) : Bool :=
  q.state = .sleeping ∨ q.state = .runnable ∨ q.state = .running

def ProcSlot.free : ProcSlot := ⟨.unused, 0, none, 0, false, none⟩

/-- The slot `allocproc` has found, once it has its page table: it sets the pid and the
state and leaves the rest as it is. -/
def ProcSlot.alloc (q : ProcSlot) (pid : Int) : ProcSlot := { q with pid, state := .used }

def succPid (pid : Int) : Int := (pid + 1).bmod (2 ^ 32)

def ProcSlot.wake (q : ProcSlot) (ch : Option SleepChan) : ProcSlot :=
  if q.state = .sleeping ∧ q.chan = ch then { q with state := .runnable } else q

def ProcSlot.kill (q : ProcSlot) : ProcSlot :=
  { q with killed := true, state := if q.state = .sleeping then .runnable else q.state }

theorem ProcSlot.kill_state_ne (q : ProcSlot) : q.kill.state ≠ .sleeping := by
  simp only [kill]
  split_ifs with h
  · exact nofun
  · exact h

def ProcSlot.setkilled (q : ProcSlot) : ProcSlot := { q with killed := true }

end Xv6
