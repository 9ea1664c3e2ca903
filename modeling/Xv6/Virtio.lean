import Mathlib.Data.List.FinRange
import Mathlib.Logic.Function.Basic
import Xv6.ActionRun

/-! `virtio_disk.c` with the device it drives. A step of a thread is a stretch of
`virtio_disk_rw` or of one round of `virtio_disk_intr`; the device works between any two
steps. `virtio_disk_rw` is called by the holder of the buffer's sleep lock, as `bread` and
`bwrite` do. -/

namespace Xv6.Virtio

open Function

def num : Nat := 8

inductive Addr (B : Type*) where
  | null
  | op (i : Nat)
  | data (b : B)
  | status (i : Nat)

structure Desc (B : Type*) where
  addr : Addr B
  len : UInt32
  flags : UInt16
  next : UInt16

def Desc.zero {B : Type*} : Desc B := ⟨.null, 0, 0, 0⟩

def fNext : UInt16 := 1

def fWrite : UInt16 := 2

structure Info (B : Type*) where
  b : Option B
  status : UInt8

structure BlkReq where
  type : UInt32
  reserved : UInt32
  sector : UInt64

structure Call (B : Type*) where
  b : B
  blockno : UInt32
  write : Bool

structure Chain where
  i0 : Nat
  i1 : Nat
  i2 : Nat

def Chain.descs (c : Chain) : List Nat := [c.i0, c.i1, c.i2]

inductive Pc (B : Type*) where
  | outside
  | entering (r : Call B)
  | allocating (r : Call B)
  | noDesc (r : Call B)
  | retry (r : Call B)
  | filled (r : Call B) (c : Chain)
  | waiting (r : Call B) (c : Chain)
  | asleep (r : Call B) (c : Chain)
  | woken (r : Call B) (c : Chain)
  | intrEntering
  | intr

namespace Pc

variable {B : Type*}

def wakeFree : Pc B → Pc B
  | noDesc r => retry r
  | pc => pc

def wakeBuf [DecidableEq B] (b : B) : Pc B → Pc B
  | asleep r c => if r.b = b then woken r c else asleep r c
  | pc => pc

def wake : Pc B → Pc B
  | noDesc r => retry r
  | asleep r c => woken r c
  | pc => pc

end Pc

/-- `busy b` is `b->disk` and `owner b` the holder of `b->lock`. The last three fields
record events: the slots that one side has written and the other has not read, and the
heads of the chains that the device has completed since they were filled in. -/
structure Sys (P B : Type*) where
  desc : Nat → Desc B
  free : Nat → Bool
  info : Nat → Info B
  ops : Nat → BlkReq
  avail : Nat → UInt16
  availIdx : UInt16
  used : Nat → UInt32
  usedIdx : UInt16
  diskUsedIdx : UInt16
  busy : B → Bool
  owner : B → Option P
  lock : Option P
  pc : P → Pc B
  devIdx : UInt16
  taken : List Nat
  served : List Nat
  availFresh : Nat → Bool
  usedFresh : Nat → Bool
  completed : Nat → Bool

inductive Fault where
  | freeDesc1
  | freeDesc2
  | intrStatus
  | intrId
  | overrun
  | device
  | stuck
  deriving DecidableEq

namespace Sys

variable {P B : Type*}

def slot (i : UInt16) : Nat := i.toNat % num

def setPc [DecidableEq P] (s : Sys P B) (p : P) (pc : Pc B) : Sys P B :=
  { s with pc := update s.pc p pc }

def allocDesc (s : Sys P B) : Option (Nat × Sys P B) :=
  match (List.range num).find? s.free with
  | none => none
  | some i => some (i, { s with free := update s.free i false })

def freeDesc (s : Sys P B) (i : Nat) : Except Fault (Sys P B) :=
  if i ≥ num then .error .freeDesc1
  else if s.free i then .error .freeDesc2
  else .ok { s with
    desc := update s.desc i .zero
    free := update s.free i true
    pc := fun p => (s.pc p).wakeFree }

def freeChain : Nat → Sys P B → Nat → Except Fault (Sys P B)
  | 0, _, _ => .error .stuck
  | fuel + 1, s, i => do
    let flag := (s.desc i).flags
    let nxt := (s.desc i).next
    let s ← s.freeDesc i
    if flag &&& fNext ≠ 0 then freeChain fuel s nxt.toNat else .ok s

def allocLoop : Nat → List Nat → Sys P B → Except Fault (Sys P B × Option (List Nat))
  | 0, got, s => .ok (s, some got)
  | n + 1, got, s =>
    match s.allocDesc with
    | some (i, s) => allocLoop n (got ++ [i]) s
    | none => do
      let s ← got.foldlM freeDesc s
      .ok (s, none)

def alloc3Desc (s : Sys P B) : Except Fault (Sys P B × Option Chain) := do
  match ← allocLoop 3 [] s with
  | (s, some [i0, i1, i2]) => .ok (s, some ⟨i0, i1, i2⟩)
  | (s, _) => .ok (s, none)

section Threads

variable [DecidableEq P] [DecidableEq B]

def fill (s : Sys P B) (p : P) (r : Call B) (c : Chain) : Sys P B :=
  let desc := update s.desc c.i0 ⟨.op c.i0, 16, fNext, UInt16.ofNat c.i1⟩
  let desc := update desc c.i1
    ⟨.data r.b, 1024, (if r.write then 0 else fWrite) ||| fNext, UInt16.ofNat c.i2⟩
  let desc := update desc c.i2 ⟨.status c.i0, 1, fWrite, 0⟩
  { s with
    ops := update s.ops c.i0 ⟨if r.write then 1 else 0, 0, (r.blockno * 2).toUInt64⟩
    desc
    info := update s.info c.i0 ⟨some r.b, 0xff⟩
    busy := update s.busy r.b true
    completed := update s.completed c.i0 false }.setPc p (.filled r c)

def publish (s : Sys P B) (p : P) (r : Call B) (c : Chain) : Except Fault (Sys P B) :=
  if s.availFresh (slot s.availIdx) then .error .overrun
  else .ok ({ s with
    avail := update s.avail (slot s.availIdx) (UInt16.ofNat c.i0)
    availFresh := update s.availFresh (slot s.availIdx) true
    availIdx := s.availIdx + 1 }.setPc p (.waiting r c))

def finish (s : Sys P B) (p : P) (r : Call B) (c : Chain) : Except Fault (Sys P B) := do
  let s := { s with info := update s.info c.i0 { s.info c.i0 with b := none } }
  let s ← freeChain (num + 1) s c.i0
  .ok ({ s with lock := none, owner := update s.owner r.b none }.setPc p .outside)

def intrRound (s : Sys P B) (p : P) : Except Fault (Sys P B) :=
  if s.diskUsedIdx ≠ s.usedIdx then
    let id := (s.used (slot s.diskUsedIdx)).toNat
    if id ≥ num then .error .intrId
    else if (s.info id).status ≠ 0 then .error .intrStatus
    else
      match (s.info id).b with
      | none => .error .intrId
      | some b =>
        .ok { s with
          busy := update s.busy b false
          pc := fun p => (s.pc p).wakeBuf b
          usedFresh := update s.usedFresh (slot s.diskUsedIdx) false
          diskUsedIdx := s.diskUsedIdx + 1 }
  else .ok { s.setPc p .outside with lock := none }

def acquire (s : Sys P B) (p : P) (pc : Pc B) : Sys P B :=
  if s.lock = none then { s.setPc p pc with lock := some p } else s

def advance (s : Sys P B) (p : P) : Except Fault (Sys P B) :=
  match s.pc p with
  | .entering r | .retry r => .ok (s.acquire p (.allocating r))
  | .allocating r => do
    match ← s.alloc3Desc with
    | (s, some c) => .ok (s.fill p r c)
    | (s, none) => .ok { s.setPc p (.noDesc r) with lock := none }
  | .filled r c => s.publish p r c
  | .waiting r c =>
    if s.busy r.b then .ok { s.setPc p (.asleep r c) with lock := none } else s.finish p r c
  | .woken r c => .ok (s.acquire p (.waiting r c))
  | .intrEntering => .ok (s.acquire p .intr)
  | .intr => s.intrRound p
  | .outside | .noDesc _ | .asleep _ _ => .ok s

end Threads

section Device

def take (s : Sys P B) : Sys P B :=
  if s.devIdx ≠ s.availIdx then
    { s with
      taken := s.taken ++ [(s.avail (slot s.devIdx)).toNat]
      availFresh := update s.availFresh (slot s.devIdx) false
      devIdx := s.devIdx + 1 }
  else s

def statusOf (s : Sys P B) (h : Nat) : Option Nat :=
  let d0 := s.desc h
  let d1 := s.desc d0.next.toNat
  let d2 := s.desc d1.next.toNat
  if d0.flags &&& fNext = 0 ∨ d1.flags &&& fNext = 0 ∨ d2.flags &&& fWrite = 0 then none
  else
    match d2.addr with
    | .status j => some j
    | _ => none

def serve (s : Sys P B) (k : Nat) : Except Fault (Sys P B) :=
  match s.taken[k]? with
  | none => .ok s
  | some h =>
    match s.statusOf h with
    | none => .error .device
    | some j =>
      .ok { s with
        info := update s.info j { s.info j with status := 0 }
        taken := s.taken.eraseIdx k
        served := s.served ++ [h] }

def post (s : Sys P B) (k : Nat) : Except Fault (Sys P B) :=
  match s.served[k]? with
  | none => .ok s
  | some h =>
    if s.usedFresh (slot s.usedIdx) then .error .overrun
    else .ok { s with
      used := update s.used (slot s.usedIdx) (UInt32.ofNat h)
      usedFresh := update s.usedFresh (slot s.usedIdx) true
      usedIdx := s.usedIdx + 1
      completed := update s.completed h true
      served := s.served.eraseIdx k }

end Device

end Sys

inductive Act (P B : Type*) where
  | call (p : P) (r : Call B)
  | intr (p : P)
  | advance (p : P)
  | kill (p : P)
  | take
  | serve (k : Nat)
  | post (k : Nat)

namespace Sys

variable {P B : Type*} [DecidableEq P] [DecidableEq B]

def step (s : Sys P B) : Act P B → Except Fault (Sys P B)
  | .call p r =>
    match s.pc p, s.owner r.b with
    | .outside, none => .ok { s.setPc p (.entering r) with owner := update s.owner r.b (some p) }
    | _, _ => .ok s
  | .intr p =>
    match s.pc p with
    | .outside => .ok (s.setPc p .intrEntering)
    | _ => .ok s
  | .advance p => s.advance p
  | .kill p => .ok (s.setPc p (s.pc p).wake)
  | .take => .ok s.take
  | .serve k => s.serve k
  | .post k => s.post k

def init (ops : Nat → BlkReq) : Sys P B where
  desc _ := .zero
  free _ := true
  info _ := ⟨none, 0⟩
  ops
  avail _ := 0
  availIdx := 0
  used _ := 0
  usedIdx := 0
  diskUsedIdx := 0
  busy _ := false
  owner _ := none
  lock := none
  pc _ := .outside
  devIdx := 0
  taken := []
  served := []
  availFresh _ := false
  usedFresh _ := false
  completed _ := false

end Sys

end Xv6.Virtio
