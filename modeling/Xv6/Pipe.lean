import Mathlib.Data.List.Basic
import Mathlib.Logic.Function.Basic
import Xv6.ActionRun

/-! `pipe.c`: one pipe shared by any number of readers and writers. A step is a
stretch of a call during which `pi->lock` does not change hands and the caller's
`killed` flag is read at most once, so a `kill` may land between any two steps. -/

namespace Xv6

open ActionRun Function

def pipeSize : Nat := 512

structure Pipe where
  data : Nat → UInt8
  nread : UInt32
  nwrite : UInt32
  readopen : Bool
  writeopen : Bool

def Pipe.empty (pi : Pipe) : Bool := pi.nread = pi.nwrite

def Pipe.full (pi : Pipe) : Bool := pi.nwrite = pi.nread + UInt32.ofNat pipeSize

def Pipe.push (pi : Pipe) (ch : UInt8) : Pipe :=
  { pi with
    data := update pi.data (pi.nwrite.toNat % pipeSize) ch
    nwrite := pi.nwrite + 1 }

def Pipe.head (pi : Pipe) : UInt8 := pi.data (pi.nread.toNat % pipeSize)

structure WriteCall where
  n : Int
  src : Nat → Option UInt8

/-- The arguments of a `piperead`: `dst i` tells whether `copyout` can write
`addr + i`. -/
structure ReadCall where
  n : Int
  dst : Nat → Bool

/-- A `pipewrite` that has stored `i` bytes, `told` of them before its last
`wakeup(&pi->nread)`. -/
structure Writer where
  call : WriteCall
  i : Nat
  told : Nat

inductive PipePc where
  | outside (ret : Int)
  | writing (w : Writer)
  | storing (w : Writer)
  | fullAsleep (w : Writer)
  | fullWoken (w : Writer)
  | reading (r : ReadCall)
  | emptying (r : ReadCall)
  | emptyAsleep (r : ReadCall)
  | emptyWoken (r : ReadCall)

namespace PipePc

def locked : PipePc → Bool
  | writing _ | storing _ | reading _ | emptying _ => true
  | _ => false

def onNread : PipePc → Bool
  | emptyAsleep _ => true
  | _ => false

def onNwrite : PipePc → Bool
  | fullAsleep _ => true
  | _ => false

def writer : PipePc → Option Writer
  | writing w | storing w | fullAsleep w | fullWoken w => some w
  | _ => none

def wakeNread : PipePc → PipePc
  | emptyAsleep r => emptyWoken r
  | pc => pc

def wakeNwrite : PipePc → PipePc
  | fullAsleep w => fullWoken w
  | pc => pc

end PipePc

variable {P : Type*} [DecidableEq P]

/-- A pipe and its processes. `put` and `got` record the bytes that have entered
and left `data`, each entered byte with the call it belongs to; `calls p` the
`pipewrite` calls `p` has made, oldest first. -/
structure PipeSys (P : Type*) where
  pi : Pipe
  lock : Option P
  killed : P → Bool
  pc : P → PipePc
  put : List ((P × Nat) × UInt8)
  got : List UInt8
  calls : P → List WriteCall

namespace PipeSys

def set (s : PipeSys P) (p : P) (pc : PipePc) : PipeSys P :=
  { s with pc := update s.pc p pc }

@[simp] theorem set_pc_self (s : PipeSys P) (p : P) (pc : PipePc) : (s.set p pc).pc p = pc :=
  update_self ..

theorem set_pc_of_ne (s : PipeSys P) {p q : P} (pc : PipePc) (h : q ≠ p) :
    (s.set p pc).pc q = s.pc q :=
  update_of_ne h ..

def acquire (s : PipeSys P) (p : P) (pc : PipePc) : PipeSys P :=
  { s.set p pc with lock := some p }

def release (s : PipeSys P) (p : P) (pc : PipePc) : PipeSys P :=
  { s.set p pc with lock := none }

def wakeupNread (s : PipeSys P) : PipeSys P := { s with pc := fun p => (s.pc p).wakeNread }

def wakeupNwrite (s : PipeSys P) : PipeSys P := { s with pc := fun p => (s.pc p).wakeNwrite }

/-- The loop of `piperead` that copies bytes out, from offset `i` and for at most
`k` bytes: the pipe it leaves, the bytes it took and the offset it stopped at. A
byte whose `copyout` fails has been taken. -/
def copyLoop (dst : Nat → Bool) : Nat → Nat → Pipe → Pipe × List UInt8 × Nat
  | 0, i, pi => (pi, [], i)
  | k + 1, i, pi =>
    if pi.empty then (pi, [], i)
    else if dst i then
      let (pi', bs, j) := copyLoop dst k (i + 1) { pi with nread := pi.nread + 1 }
      (pi', pi.head :: bs, j)
    else ({ pi with nread := pi.nread + 1 }, [pi.head], i)

def writeDone (s : PipeSys P) (p : P) (w : Writer) : PipeSys P :=
  s.wakeupNread.release p (.outside w.i)

def writeByte (s : PipeSys P) (p : P) (w : Writer) (ch : UInt8) : PipeSys P :=
  { s.set p (.writing { w with i := w.i + 1 }) with
    pi := s.pi.push ch
    put := s.put ++ [((p, (s.calls p).length - 1), ch)] }

/-- The rest of `piperead` once there is something to read or no writer left. -/
def readDone (s : PipeSys P) (p : P) (r : ReadCall) : PipeSys P :=
  let (pi, bs, i) := copyLoop r.dst r.n.toNat 0 s.pi
  { s.wakeupNwrite.release p (.outside i) with
    pi := pi
    got := s.got ++ bs }

def advance (s : PipeSys P) (p : P) : PipeSys P :=
  match s.pc p with
  | .writing w =>
    if (w.i : Int) < w.call.n then
      if s.pi.readopen = false ∨ s.killed p then s.release p (.outside (-1))
      else s.set p (.storing w)
    else s.writeDone p w
  | .storing w =>
    if s.pi.full then s.wakeupNread.release p (.fullAsleep { w with told := w.i })
    else
      match w.call.src w.i with
      | none => s.writeDone p w
      | some ch => s.writeByte p w ch
  | .reading r =>
    if s.pi.empty ∧ s.pi.writeopen then
      if s.killed p then s.release p (.outside (-1)) else s.set p (.emptying r)
    else s.readDone p r
  | .emptying r => s.release p (.emptyAsleep r)
  | .fullWoken w => if s.lock = none then s.acquire p (.writing w) else s
  | .emptyWoken r => if s.lock = none then s.acquire p (.reading r) else s
  | .outside _ | .fullAsleep _ | .emptyAsleep _ => s

def pipeclose (s : PipeSys P) (writable : Bool) : PipeSys P :=
  if writable then { s.wakeupNread with pi := { s.pi with writeopen := false } }
  else { s.wakeupNwrite with pi := { s.pi with readopen := false } }

def kill (s : PipeSys P) (p : P) : PipeSys P :=
  { s.set p (s.pc p).wakeNread.wakeNwrite with killed := update s.killed p true }

/-- A descriptor still refers to the pipe; after the second `pipeclose` its page
has been freed. -/
def live (s : PipeSys P) : Bool := s.pi.readopen || s.pi.writeopen

end PipeSys

inductive PipeAct (P : Type*) where
  | pipewrite (p : P) (c : WriteCall)
  | piperead (p : P) (r : ReadCall)
  | advance (p : P)
  | pipeclose (writable : Bool)
  | kill (p : P)

/-- One step. A call starts when its process is not in another one and can take
`pi->lock`; an action that cannot happen leaves the state as it is. -/
def PipeSys.step (s : PipeSys P) : PipeAct P → PipeSys P
  | .pipewrite p c =>
    match s.pc p, s.lock, s.live with
    | .outside _, none, true =>
      { s.acquire p (.writing ⟨c, 0, 0⟩) with
        calls := update s.calls p (s.calls p ++ [c]) }
    | _, _, _ => s
  | .piperead p r =>
    match s.pc p, s.lock, s.live with
    | .outside _, none, true => s.acquire p (.reading r)
    | _, _, _ => s
  | .advance p => s.advance p
  | .pipeclose writable =>
    match s.lock, s.live with
    | none, true => s.pipeclose writable
    | _, _ => s
  | .kill p => s.kill p

def pipeStep (s : PipeSys P) (a : PipeAct P) : Except Empty (PipeSys P) := .ok (s.step a)

def PipeSys.alloc (data : Nat → UInt8) : PipeSys P where
  pi := ⟨data, 0, 0, true, true⟩
  lock := none
  killed _ := false
  pc _ := .outside 0
  put := []
  got := []
  calls _ := []

end Xv6
