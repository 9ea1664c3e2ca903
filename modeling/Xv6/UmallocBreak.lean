import Xv6.UmallocHeap

/-! `malloc` with the `int` that `sbrk` takes: the number of bytes that `morecore` asks for is
converted silently. `top` is the break of the process. -/

namespace Xv6.Umalloc

variable {base fuel n ap : Nat} {h h' : Heap} {F A pre post : List Block} {y : Block} {k : UInt32}
  {more : Heap → Except Fault (Heap × Nat)}

def toInt (n : Nat) : Int :=
  let m : Nat := n % 2 ^ 32
  if m < 2 ^ 31 then m else (m : Int) - 2 ^ 32

abbrev Kernel := Heap → Int → Bool

def moved (h : Heap) (k : UInt32) : Heap :=
  let n := toInt ((HeapInv.ask k).toNat * headerSize)
  Heap.setSize { h with regions := ⟨h.top, n.toNat / headerSize⟩ :: h.regions, top := (h.top + n).toNat } h.top
    (HeapInv.ask k)

section Request

variable {kernel : Kernel} {nbytes : UInt32}

end Request

end Xv6.Umalloc
