import Mathlib.Algebra.Group.Int.Defs
import Mathlib.Algebra.GroupWithZero.Nat
import Xv6.NextList

/-! `umalloc.c`: the allocator of user programs. Memory is a map from addresses to headers;
a block is its header and the units of 16 bytes that follow it. -/

namespace Xv6.Umalloc

def headerSize : Nat := 16

structure Header where
  ptr : Nat
  size : UInt32
  deriving DecidableEq

structure Block where
  addr : Nat
  size : Nat
  deriving DecidableEq

def Block.stop (b : Block) : Nat := b.addr + headerSize * b.size

structure Heap where
  mem : Nat → Header
  freep : Nat
  regions : List Block
  top : Nat

namespace Heap

def ptr (h : Heap) (p : Nat) : Nat := (h.mem p).ptr

def size (h : Heap) (p : Nat) : UInt32 := (h.mem p).size

def stop (h : Heap) (p : Nat) : Nat := p + headerSize * (h.size p).toNat

def setPtr (h : Heap) (p q : Nat) : Heap :=
  { h with mem := Function.update h.mem p { h.mem p with ptr := q } }

def setSize (h : Heap) (p : Nat) (n : UInt32) : Heap :=
  { h with mem := Function.update h.mem p { h.mem p with size := n } }

end Heap

inductive Fault where
  | stuck
  | negative
  deriving DecidableEq

def atGap (h : Heap) (bp p : Nat) : Bool :=
  (decide (bp > p) && decide (bp < h.ptr p)) ||
    (decide (p ≥ h.ptr p) && (decide (bp > p) || decide (bp < h.ptr p)))

def search (h : Heap) (bp : Nat) : Nat → Nat → Except Fault Nat
  | 0, _ => .error .stuck
  | fuel + 1, p => if atGap h bp p then .ok p else search h bp fuel (h.ptr p)

def joinUp (h : Heap) (bp p : Nat) : Heap :=
  if h.stop bp = h.ptr p then
    (h.setSize bp (h.size bp + h.size (h.ptr p))).setPtr bp (h.ptr (h.ptr p))
  else h.setPtr bp (h.ptr p)

def joinDown (h : Heap) (bp p : Nat) : Heap :=
  if h.stop p = bp then (h.setSize p (h.size p + h.size bp)).setPtr p (h.ptr bp)
  else h.setPtr p bp

def free (fuel : Nat) (h : Heap) (ap : Nat) : Except Fault Heap := do
  let bp := ap - headerSize
  let p ← search h bp fuel h.freep
  .ok { joinDown (joinUp h bp p) bp p with freep := p }

/-- `sbrk(n)`: it fails, or gives `n` bytes some way above everything given before. -/
def sbrk (answer : Option Nat) (h : Heap) (n : Nat) : Except Fault (Heap × Option Nat) :=
  if n ≥ 2 ^ 31 then .error .negative
  else
    match answer with
    | none => .ok (h, none)
    | some gap =>
      let p := h.top + gap
      .ok ({ h with regions := ⟨p, n / headerSize⟩ :: h.regions, top := p + n }, some p)

def morecore (fuel : Nat) (answer : Option Nat) (h : Heap) (nu : UInt32) : Except Fault (Heap × Nat) := do
  let nu := if nu < 4096 then 4096 else nu
  match ← sbrk answer h (nu.toNat * headerSize) with
  | (h, none) => .ok (h, 0)
  | (h, some p) => do
    let h ← free fuel (h.setSize p nu) (p + headerSize)
    .ok (h, h.freep)

def take (h : Heap) (nunits : UInt32) (prevp p : Nat) : Heap × Nat :=
  if h.size p = nunits then ({ h.setPtr prevp (h.ptr p) with freep := prevp }, p + headerSize)
  else
    let h := h.setSize p (h.size p - nunits)
    let p := h.stop p
    ({ h.setSize p nunits with freep := prevp }, p + headerSize)

/-- The loop of `malloc`, with what it does when it comes back to where it began. -/
def mallocLoopWith (more : Heap → Except Fault (Heap × Nat)) (nunits : UInt32) :
    Nat → Heap → Nat → Nat → Except Fault (Heap × Nat)
  | 0, _, _, _ => .error .stuck
  | fuel + 1, h, prevp, p =>
    if h.size p ≥ nunits then .ok (take h nunits prevp p)
    else if p = h.freep then do
      let (h, p) ← more h
      if p = 0 then .ok (h, 0) else mallocLoopWith more nunits fuel h p (h.ptr p)
    else mallocLoopWith more nunits fuel h p (h.ptr p)

def mallocLoop (inner : Nat) (answer : Option Nat) (nunits : UInt32) :
    Nat → Heap → Nat → Nat → Except Fault (Heap × Nat) :=
  mallocLoopWith (fun h => morecore inner answer h nunits) nunits

def units (nbytes : UInt32) : UInt32 :=
  UInt32.ofNat ((nbytes.toNat + headerSize - 1) / headerSize + 1)

/-- The heap when the search begins: the first call of `malloc` makes a list of one empty block. -/
def opened (base : Nat) (h : Heap) : Heap :=
  if h.freep = 0 then { (h.setPtr base base).setSize base 0 with freep := base } else h

def malloc (base fuel : Nat) (answer : Option Nat) (h : Heap) (nbytes : UInt32) :
    Except Fault (Heap × Nat) :=
  let nunits := units nbytes
  let h := opened base h
  mallocLoop fuel answer nunits fuel h h.freep (h.ptr h.freep)

end Xv6.Umalloc
