import Xv6.Basic
import Xv6.Pte

/-! User memory as a process is meant to see it: a map of its own from page numbers to
bytes, with a permission to write, that nobody else can change. -/

namespace Xv6

abbrev UserMem := Nat → Option (Buffer × Bool)

namespace UserMem

def empty : UserMem := fun _ => none

def mayWrite (um : UserMem) (v : Nat) : Bool :=
  match um v with
  | some (_, w) => w
  | none => false

def load (um : UserMem) (va : Nat) : Option UInt8 :=
  (um (va / PGSIZE)).map (fun page => page.1 (va % PGSIZE))

def putPage (um : UserMem) (v off : Nat) (bytes : List UInt8) : UserMem :=
  Function.update um v ((um v).map (fun page => (Buffer.write page.1 off bytes, page.2)))

def writePage (um : UserMem) (v off : Nat) (bytes : List UInt8) : UserMem :=
  if um.mayWrite v then um.putPage v off bytes else um

def store (um : UserMem) (va : Nat) (b : UInt8) : Option UserMem :=
  if um.mayWrite (va / PGSIZE) then some (um.writePage (va / PGSIZE) (va % PGSIZE) [b]) else none

/-- Copy bytes into user memory page by page, up to the first page that may not be written. -/
def copyout : Nat → UserMem → Nat → List UInt8 → UserMem × Int
  | 0, um, _, _ => (um, 0)
  | fuel + 1, um, dstva, src =>
    if src = [] then (um, 0)
    else if um.mayWrite (dstva / PGSIZE) then
      let n := min (PGSIZE - dstva % PGSIZE) src.length
      copyout fuel (um.writePage (dstva / PGSIZE) (dstva % PGSIZE) (src.take n))
        ((dstva / PGSIZE + 1) * PGSIZE) (src.drop n)
    else (um, -1)

def copyin : Nat → UserMem → Nat → Nat → Option (List UInt8)
  | 0, _, _, _ => some []
  | fuel + 1, um, srcva, len =>
    if len = 0 then some []
    else
      match um (srcva / PGSIZE) with
      | none => none
      | some (page, _) =>
        let n := min (PGSIZE - srcva % PGSIZE) len
        (copyin fuel um ((srcva / PGSIZE + 1) * PGSIZE) (len - n)).map
          (fun rest => Buffer.read page (srcva % PGSIZE) n ++ rest)

/-- The string at `va`, if it ends within `max` bytes that can be read. -/
def readString (um : UserMem) : Nat → Nat → Option (List UInt8)
  | _, 0 => none
  | va, max + 1 =>
    match um.load va with
    | none => none
    | some b => if b = 0 then some [] else (um.readString (va + 1) max).map (b :: ·)

def grow (um : UserMem) (lo hi : Nat) (w : Bool) : UserMem :=
  fun v => if lo ≤ v ∧ v < hi then some (fun _ => 0, w) else um v

def shrink (um : UserMem) (lo hi : Nat) : UserMem := fun v => if lo ≤ v ∧ v < hi then none else um v

end UserMem

end Xv6
