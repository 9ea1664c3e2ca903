import Xv6.Pipe
import Xv6.Sched

/-! A `kill` against a process in one of the interruptible wait loops: those of `wait`,
`piperead`, `pipewrite`, `consoleread` and `sys_sleep`. Each loop holds its lock, looks at
what the lock protects, asks `killed`, which takes `p->lock` for itself, and calls `sleep`. -/

namespace Xv6

open ActionRun

structure LoopEnv where
  /-- An exited child's pid, and whether there are children (`wait_lock`). -/
  zombie : Option Int
  havekids : Bool
  pi : Pipe
  consR : UInt32
  consW : UInt32
  consBuf : Nat → UInt8
  ticks : UInt32

/-- A call of one of the five functions, with its local variables. -/
inductive LoopCall where
  | wait (copied : Bool)
  | piperead (r : ReadCall)
  | pipewrite (c : WriteCall) (i : Nat)
  | consoleread (target n : Int) (dst : Nat → Bool)
  | sysSleep (n ticks0 : UInt32)

inductive LoopNext where
  | done (ret : Int)
  | again (c : LoopCall)
  | killed
  | sleep

def inputBufSize : Nat := 128

def consoleByte (target n : Int) (dst : Nat → Bool) (e : LoopEnv) : LoopNext × LoopEnv :=
  let c := e.consBuf (e.consR.toNat % inputBufSize)
  let e' := { e with consR := e.consR + 1 }
  if c = 4 then (.done (target - n), if n < target then e else e')
  else if dst (target - n).toNat = false then (.done (target - n), e')
  else if c = 10 then (.done (target - (n - 1)), e')
  else (.again (.consoleread target (n - 1) dst), e')

namespace LoopCall

def start (e : LoopEnv) : LoopCall → LoopCall
  | pipewrite c _ => pipewrite c 0
  | consoleread target _ dst => consoleread target target dst
  | sysSleep n _ => sysSleep n e.ticks
  | c => c

/-- What process `p` sleeps on: `p` itself, `&pi->nread`, `&pi->nwrite`, `&cons.r` or
`&ticks`. -/
def chan (p : ProcId) : LoopCall → SleepChan
  | wait _ => .proc p
  | piperead _ => .other 0
  | pipewrite _ _ => .other 1
  | consoleread _ _ _ => .other 2
  | sysSleep _ _ => .other 3

def head : LoopCall → LoopEnv → LoopNext × LoopEnv
  | wait copied, e =>
    match e.zombie with
    | some pid => if copied then (.done pid, { e with zombie := none }) else (.done (-1), e)
    | none => if e.havekids then (.killed, e) else (.done (-1), e)
  | piperead r, e =>
    if e.pi.empty ∧ e.pi.writeopen then (.killed, e)
    else
      let (pi, _, i) := PipeSys.copyLoop r.dst r.n.toNat 0 e.pi
      (.done i, { e with pi })
  | pipewrite c i, e =>
    if (i : Int) < c.n then
      if e.pi.readopen = false then (.done (-1), e) else (.killed, e)
    else (.done i, e)
  | consoleread target n dst, e =>
    if n > 0 then if e.consR = e.consW then (.killed, e) else consoleByte target n dst e
    else (.done (target - n), e)
  | sysSleep n ticks0, e => if e.ticks - ticks0 < n then (.killed, e) else (.done 0, e)

def tail : LoopCall → LoopEnv → LoopNext × LoopEnv
  | pipewrite c i, e =>
    if e.pi.full then (.sleep, e)
    else
      match c.src i with
      | none => (.done i, e)
      | some ch => (.again (.pipewrite c (i + 1)), { e with pi := e.pi.push ch })
  | _, e => (.sleep, e)

end LoopCall

/-- Where the process is; it holds the loop's lock at `head`, `test` and `tail`. -/
inductive LoopPoint where
  | outside (ret : Int)
  | head (c : LoopCall)
  | test (c : LoopCall)
  | tail (c : LoopCall)
  | asleep (c : LoopCall)

def LoopPoint.locked : LoopPoint → Bool
  | head _ | test _ | tail _ => true
  | outside _ | asleep _ => false

structure LoopSys where
  me : ProcId
  slot : ProcSlot
  env : LoopEnv
  point : LoopPoint

inductive LoopAct where
  | call (c : LoopCall)
  | advance
  | kill
  | wakeup
  | dispatch
  | yield
  | others (e : LoopEnv)

namespace LoopSys

def goto (s : LoopSys) (c : LoopCall) : LoopNext × LoopEnv → LoopSys
  | (.done ret, e) => { s with env := e, point := .outside ret }
  | (.again c', e) => { s with env := e, point := .head c' }
  | (.killed, e) => { s with env := e, point := .test c }
  | (.sleep, e) =>
    { s with
      env := e
      slot := { s.slot with state := .sleeping, chan := some (c.chan s.me) }
      point := .asleep c }

def advance (s : LoopSys) : LoopSys :=
  match s.point with
  | .outside _ => s
  | .head c => s.goto c (c.head s.env)
  | .test c => { s with point := if s.slot.killed then .outside (-1) else .tail c }
  | .tail c => s.goto c (c.tail s.env)
  | .asleep c => { s with point := .head c }

def step (s : LoopSys) : LoopAct → LoopSys
  | .call c =>
    match s.slot.state, s.point with
    | .running, .outside _ => { s with point := .head (c.start s.env) }
    | _, _ => s
  | .advance => if s.slot.state = .running then s.advance else s
  | .kill => { s with slot := s.slot.kill }
  | .wakeup => { s with slot := s.slot.wake s.slot.chan }
  | .dispatch =>
    if s.slot.state = .runnable then { s with slot := { s.slot with state := .running, chan := none } }
    else s
  | .yield =>
    if s.slot.state = .running ∧ s.point.locked = false then
      { s with slot := { s.slot with state := .runnable } }
    else s
  | .others e => if s.point.locked then s else { s with env := e }

def KilledAwake (s : LoopSys) : Prop :=
  ∀ c, s.point = .asleep c → s.slot.state = .sleeping → s.slot.killed = false

/-- No `kill` finds the process after its loop has called `killed` for the last time
before it sleeps. -/
def KillSeen (s : LoopSys) (a : LoopAct) : Prop :=
  a = .kill → ∀ c, s.point = .tail c → (c.tail s.env).1 ≠ .sleep

end LoopSys

def LoopSys.Start (s : LoopSys) : Prop :=
  (∃ ret, s.point = .outside ret) ∧ s.slot.state ≠ .sleeping

def loopStep (s : LoopSys) (a : LoopAct) : Except Empty LoopSys := .ok (s.step a)

namespace LoopSys

variable {s : LoopSys} {a : LoopAct}

structure Inv (s : LoopSys) : Prop where
  awake : s.KilledAwake
  tail : ∀ c, s.point = .tail c → (c.tail s.env).1 = .sleep → s.slot.killed = false
  runs : s.point.locked = true → s.slot.state = .running

theorem Inv.of_running (hrun : s.slot.state = .running) (hpt : ∀ c, s.point ≠ .tail c) : s.Inv :=
  ⟨fun _ _ h => by simp [hrun] at h, fun c h => absurd h (hpt c), fun _ => hrun⟩

theorem Inv.goto {c : LoopCall} {r : LoopNext × LoopEnv} (hrun : s.slot.state = .running)
    (hk : r.1 = .sleep → s.slot.killed = false) : (s.goto c r).Inv := by
  obtain ⟨next, e⟩ := r
  cases next with
  | done ret => exact .of_running hrun nofun
  | again c' => exact .of_running hrun nofun
  | killed => exact .of_running hrun nofun
  | sleep => exact ⟨fun _ _ _ => hk rfl, nofun, nofun⟩

theorem head_ne_sleep (c : LoopCall) (e : LoopEnv) : (c.head e).1 ≠ .sleep := by
  cases c with
  | wait copied =>
    simp only [LoopCall.head]
    split <;> split <;> exact nofun
  | piperead r =>
    simp only [LoopCall.head]
    split <;> exact nofun
  | pipewrite c i =>
    simp only [LoopCall.head]
    split_ifs <;> exact nofun
  | consoleread target n dst =>
    simp only [LoopCall.head, consoleByte]
    split_ifs <;> exact nofun
  | sysSleep n ticks0 =>
    simp only [LoopCall.head]
    split_ifs <;> exact nofun

theorem Inv.advance (h : s.Inv) (hrun : s.slot.state = .running) : s.advance.Inv := by
  cases hpt : s.point with
  | outside ret => simpa only [LoopSys.advance, hpt] using h
  | head c =>
    simp only [LoopSys.advance, hpt]
    exact .goto hrun fun hs => absurd hs (head_ne_sleep c s.env)
  | test c =>
    simp only [LoopSys.advance, hpt]
    cases hk : s.slot.killed with
    | true => exact .of_running hrun nofun
    | false => exact ⟨nofun, fun _ _ _ => hk, fun _ => hrun⟩
  | tail c =>
    simp only [LoopSys.advance, hpt]
    exact .goto hrun (h.tail c hpt)
  | asleep c =>
    simp only [LoopSys.advance, hpt]
    exact .of_running hrun nofun

theorem wake_state_ne (x : ProcSlot) : (x.wake x.chan).state ≠ .sleeping := by
  simp only [ProcSlot.wake, and_true]
  split_ifs with h
  · exact nofun
  · exact h

theorem Inv.step (h : s.Inv) (hk : s.KillSeen a) : (s.step a).Inv := by
  cases a with
  | call c =>
    simp only [LoopSys.step]
    split
    · rename_i hrun _
      exact .of_running hrun (by rintro _ ⟨⟩)
    · exact h
  | advance =>
    simp only [LoopSys.step]
    split_ifs with hrun
    · exact h.advance hrun
    · exact h
  | kill =>
    refine ⟨fun _ _ hs => absurd hs (ProcSlot.kill_state_ne _), ?_, ?_⟩
    · exact fun c hpt hs => absurd hs (hk rfl c hpt)
    · intro hl
      simp [LoopSys.step, ProcSlot.kill, h.runs hl]
  | wakeup =>
    have hkilled : (s.slot.wake s.slot.chan).killed = s.slot.killed := by
      simp only [ProcSlot.wake]
      split_ifs <;> rfl
    refine ⟨fun _ _ hs => absurd hs (wake_state_ne _), ?_, ?_⟩
    · intro c hpt hs
      exact hkilled.trans (h.tail c hpt hs)
    · intro hl
      simp [LoopSys.step, ProcSlot.wake, h.runs hl]
  | dispatch =>
    simp only [LoopSys.step]
    split_ifs
    · exact ⟨by rintro _ _ ⟨⟩, h.tail, fun _ => rfl⟩
    · exact h
  | yield =>
    simp only [LoopSys.step]
    split_ifs with hy
    · exact ⟨by rintro _ _ ⟨⟩, h.tail, fun hl => by simp [hy.2] at hl⟩
    · exact h
  | others e =>
    simp only [LoopSys.step]
    split_ifs with hl
    · exact h
    · refine ⟨h.awake, ?_, h.runs⟩
      intro c hpt
      simp [show s.point = .tail c from hpt, LoopPoint.locked] at hl

theorem Start.inv (h : s.Start) : s.Inv := by
  obtain ⟨⟨ret, hpt⟩, hst⟩ := h
  refine ⟨fun _ _ hs => absurd hs hst, ?_, ?_⟩
  · intro c hc
    simp [hpt] at hc
  · intro hl
    simp [hpt, LoopPoint.locked] at hl

theorem Inv.missed (h : s.Inv) (hk : ¬ s.KillSeen a) : ¬ ((s.step a).step .advance).KilledAwake := by
  simp only [KillSeen, not_forall, ne_eq, not_not] at hk
  obtain ⟨rfl, c, hpt, hs⟩ := hk
  have hrun := h.runs (by rw [hpt]; rfl)
  have hstep : (s.step .kill).step .advance =
      (s.step .kill).goto c (c.tail s.env) := by
    simp [LoopSys.step, ProcSlot.kill, hrun, LoopSys.advance, hpt]
  rw [hstep]
  generalize c.tail s.env = r at hs
  obtain ⟨next, e⟩ := r
  obtain rfl : next = .sleep := hs
  intro hawake
  have := hawake c rfl rfl
  simp [LoopSys.goto, LoopSys.step, ProcSlot.kill] at this

end LoopSys

/-- As long as no `kill` lands between a loop's last call of `killed` and its sleep, a
process asleep in one of the loops has not been killed; and a `kill` that does land there
leaves it killed and asleep. -/
theorem killed_awake_iff_kill_seen (s₀ s : LoopSys) (as : List LoopAct) (h₀ : s₀.Start)
    (hal : Along loopStep LoopSys.KillSeen s₀ as) (h : run loopStep s₀ as = .ok s) :
    s.KilledAwake ∧ ∀ a, ((s.step a).step .advance).KilledAwake ↔ s.KillSeen a := by
  have hstep : ∀ (t : LoopSys) a u, t.Inv → t.KillSeen a → loopStep t a = .ok u → u.Inv := by
    intro t a u ht ha hu
    cases hu
    exact ht.step ha
  have hinv : s.Inv := run_inv_along hstep h₀.inv hal h
  refine ⟨hinv.awake, fun a => ⟨?_, ?_⟩⟩
  · exact fun hawake => by_contra fun hk => hinv.missed hk hawake
  · exact fun hk => ((hinv.step hk).step (a := .advance) nofun).awake

/-- A process with a child that has not exited; `nwrite` bytes are in the pipe, and there
is no console input. -/
def LoopSys.idle (nwrite : UInt32) : LoopSys where
  me := 1
  slot := ⟨.running, 2, some 0, 0, false, none⟩
  env := ⟨none, true, ⟨fun _ => 0, 0, nwrite, true, true⟩, 0, 0, fun _ => 0, 0⟩
  point := .outside 0

theorem killed_awake_waiting :
    ∃ s, run loopStep (.idle 0) [.call (.wait true), .advance, .advance, .advance] = .ok s ∧
      s.slot.state = .sleeping ∧ s.KilledAwake ∧
      ∀ a, ((s.step a).step .advance).KilledAwake ↔ s.KillSeen a :=
  ⟨_, rfl, rfl, killed_awake_iff_kill_seen (.idle 0) _
    [.call (.wait true), .advance, .advance, .advance] ⟨⟨0, rfl⟩, nofun⟩
    (by simp [Along, LoopSys.KillSeen]) rfl⟩

def LoopSys.SleepsThrough (nwrite : UInt32) (c : LoopCall) : Prop :=
  ∃ s, run loopStep (.idle nwrite) [.call c, .advance, .advance, .kill, .advance] = .ok s ∧
    s.point = .asleep c ∧ s.slot.state = .sleeping ∧ s.slot.killed = true

theorem kill_missed_in_every_loop :
    LoopSys.SleepsThrough 0 (.wait true) ∧
      LoopSys.SleepsThrough 0 (.piperead ⟨1, fun _ => true⟩) ∧
      LoopSys.SleepsThrough 512 (.pipewrite ⟨1, fun _ => some 7⟩ 0) ∧
      LoopSys.SleepsThrough 0 (.consoleread 1 1 fun _ => true) ∧
      LoopSys.SleepsThrough 0 (.sysSleep 1 0) :=
  ⟨⟨_, rfl, rfl, rfl, rfl⟩, ⟨_, rfl, rfl, rfl, rfl⟩, ⟨_, rfl, rfl, rfl, rfl⟩,
    ⟨_, rfl, rfl, rfl, rfl⟩, ⟨_, rfl, rfl, rfl, rfl⟩⟩

end Xv6
