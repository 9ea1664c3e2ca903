import Xv6.Kalloc

/-! Page tables and user memory of `kernel/vm.c`, and the page-fault handler of
`kernel/trap.c`. A C function that returns 0 or -1 returns an `Int`; a pointer that may
be null is an `Option`. A `pte_t *` is a page and an index into it. -/

namespace Xv6

open Function StateProg

variable (L : Layout)

@[irreducible] def pteAt (b : Buffer) (i : Nat) : Pte := BitVec.ofNat 64 (b.getLE (8 * i) 8)

@[irreducible] def setPteAt (b : Buffer) (i : Nat) (pte : Pte) : Buffer := b.setLE (8 * i) pte.toNat 8

structure PtePtr where
  page : Nat
  index : Nat
  deriving DecidableEq

def readPte (p : PtePtr) : Kernel Pte := do
  let m ← get
  pure (pteAt (m.page p.page) p.index)

def PhysMem.setPte (m : PhysMem) (p : PtePtr) (pte : Pte) : PhysMem :=
  { m with page := update m.page p.page (setPteAt (m.page p.page) p.index pte) }

def writePte (p : PtePtr) (pte : Pte) : Kernel Unit := modify (fun m => m.setPte p pte)

def walkLoop (va : Nat) (alloc : Bool) : Nat → Nat → Kernel (Option PtePtr)
  | 0, pagetable => pure (some ⟨pagetable, px 0 va⟩)
  | level + 1, pagetable => do
    let pte ← readPte ⟨pagetable, px (level + 1) va⟩
    if pte.has PTE_V then walkLoop va alloc level (pte2pa pte)
    else if alloc then
      match ← kalloc with
      | none => pure none
      | some page => do
        memset page 0
        writePte ⟨pagetable, px (level + 1) va⟩ (pa2pte page ||| PTE_V)
        walkLoop va alloc level page
    else pure none

def walk (pagetable va : Nat) (alloc : Bool) : Kernel (Option PtePtr) :=
  if va ≥ MAXVA then throw .walk else walkLoop va alloc 2 pagetable

def walkaddr (pagetable va : Nat) : Kernel (Option Nat) :=
  if va ≥ MAXVA then pure none
  else do
    match ← walk pagetable va false with
    | none => pure none
    | some p => do
      let pte ← readPte p
      if !pte.has PTE_V then pure none
      else if !pte.has PTE_U then pure none
      else pure (some (pte2pa pte))

/-- Arithmetic on `uint64` wraps around, so the loop reaches `last` after as many pages as
there are from `a` to it modulo 2^64. -/
def mappages (pagetable va size pa : Nat) (perm : Pte) : Kernel Int :=
  if size = 0 then throw .mappagesSize
  else do
    let a := pgRoundDown va
    let last := pgRoundDown ((va + size - 1) % 2 ^ 64)
    let r ← loop ((last + 2 ^ 64 - a) % 2 ^ 64 / PGSIZE + 1) (fun i => do
      match ← walk pagetable (a + i * PGSIZE) true with
      | none => pure (some (-1))
      | some p => do
        let pte ← readPte p
        if pte.has PTE_V then throw .remap
        else
          writePte p (pa2pte (pa + i * PGSIZE) ||| perm ||| PTE_V)
          pure none)
    pure (r.getD 0)

def uvmunmap (pagetable va npages : Nat) (doFree : Bool) : Kernel Unit :=
  if va % PGSIZE ≠ 0 then throw .unmapAlign
  else do
    let _ ← loop (((va + npages * PGSIZE) % 2 ^ 64 - va) / PGSIZE) (fun i => do
      match ← walk pagetable (va + i * PGSIZE) false with
      | none => throw .unmapWalk
      | some p => do
        let pte ← readPte p
        if !pte.has PTE_V then throw .unmapNotMapped
        else if pteFlags pte = PTE_V then throw .unmapNotLeaf
        else
          if doFree then kfree L (pte2pa pte)
          writePte p 0
          pure (none : Option Unit))

def uvmcreate : Kernel (Option Nat) := do
  match ← kalloc with
  | none => pure none
  | some page => do
    memset page 0
    pure (some page)

def uvmdealloc (pagetable oldsz newsz : Nat) : Kernel Nat :=
  if newsz ≥ oldsz then pure oldsz
  else do
    if pgRoundUp newsz < pgRoundUp oldsz then
      uvmunmap L pagetable (pgRoundUp newsz) ((pgRoundUp oldsz - pgRoundUp newsz) / PGSIZE) true
    pure newsz

/-- `none` is the error return 0. The addresses `uvmalloc` goes through are below
`newsz`, from the page boundary at or above `oldsz`. -/
def uvmalloc (pagetable oldsz newsz : Nat) (xperm : Pte) : Kernel (Option Nat) :=
  if newsz < oldsz then pure (some oldsz)
  else do
    let base := pgRoundUp oldsz
    let r ← loop ((newsz - base + PGSIZE - 1) / PGSIZE) (fun i => do
      let a := base + i * PGSIZE
      match ← kalloc with
      | none => do
        let _ ← uvmdealloc L pagetable a base
        pure (some ())
      | some mem => do
        memset mem 0
        if (← mappages pagetable a PGSIZE mem (PTE_R ||| PTE_U ||| xperm)) ≠ 0 then
          kfree L mem
          let _ ← uvmdealloc L pagetable a base
          pure (some ())
        else pure none)
    match r with
    | none => pure (if newsz = 0 then none else some newsz)
    | some _ => pure none

/-- `freewalk` goes down as long as it finds entries that point to a lower table; `fuel`
is the number of levels. -/
def freewalk : Nat → Nat → Kernel Unit
  | 0, _ => throw .freewalkDepth
  | fuel + 1, pagetable => do
    let _ ← loop 512 (fun i => do
      let pte ← readPte ⟨pagetable, i⟩
      if pte.has PTE_V && !pte.has (PTE_R ||| PTE_W ||| PTE_X) then
        freewalk fuel (pte2pa pte)
        writePte ⟨pagetable, i⟩ 0
        pure (none : Option Unit)
      else if pte.has PTE_V then throw .freewalkLeaf
      else pure none)
    kfree L pagetable

def uvmfree (pagetable sz : Nat) : Kernel Unit := do
  if sz > 0 then uvmunmap L pagetable 0 (pgRoundUp sz / PGSIZE) true
  freewalk L 3 pagetable

def uvmfirst (pagetable : Nat) (src : List UInt8) : Kernel Unit :=
  if src.length ≥ PGSIZE then throw .uvmfirst
  else do
    match ← kalloc with
    | none => throw .kerneltrap
    | some mem => do
      memset mem 0
      let _ ← mappages pagetable 0 PGSIZE mem (PTE_W ||| PTE_R ||| PTE_X ||| PTE_U)
      modify (fun m => { m with page := update m.page mem (Buffer.write (m.page mem) 0 src) })

def uvmcopy (old new sz : Nat) : Kernel Int := do
  let r ← loop (pgRoundUp sz / PGSIZE) (fun i => do
    match ← walk old (i * PGSIZE) false with
    | none => throw .uvmcopyPte
    | some p => do
      let pte ← readPte p
      if !pte.has PTE_V then throw .uvmcopyPresent
      else
        let pa := pte2pa pte
        if pte.has PTE_W then writePte p ((pte &&& ~~~PTE_W) ||| PTE_COW)
        let flags := pteFlags (← readPte p)
        if (← mappages new (i * PGSIZE) PGSIZE pa flags) ≠ 0 then pure (some i)
        else
          increaseCount pa
          pure none)
  match r with
  | none => pure 0
  | some i => do
    uvmunmap L new 0 i true
    pure (-1)

def uvmclear (pagetable va : Nat) : Kernel Unit := do
  match ← walk pagetable va false with
  | none => throw .uvmclear
  | some p => do
    let pte ← readPte p
    writePte p (pte &&& ~~~PTE_U)

def cowPageFaultHandler (pagetable va : Nat) : Kernel Int :=
  if va = 0 ∨ va ≥ MAXVA then pure (-1)
  else do
    match ← walk pagetable va false with
    | none => pure (-1)
    | some p => do
      let pte ← readPte p
      if !pte.has PTE_V then pure (-1)
      else if !pte.has PTE_U then pure (-1)
      else if pte.has PTE_W then pure 0
      else if !pte.has PTE_COW then pure (-1)
      else
        let pa := pte2pa pte
        match ← kalloc with
        | none => pure (-1)
        | some mem => do
          writePte p ((pteFlags pte &&& ~~~PTE_COW) ||| PTE_W ||| pa2pte mem)
          let m ← get
          setPage mem (m.page pa)
          kfree L pa
          pure 0

/-- One round per page; a round moves at least one byte, so `src.length` rounds are
enough. -/
def copyoutLoop (pagetable : Nat) : Nat → Nat → List UInt8 → Kernel Int
  | 0, _, _ => pure 0
  | fuel + 1, dstva, src =>
    if src = [] then pure 0
    else do
      let va0 := pgRoundDown dstva
      if (← cowPageFaultHandler L pagetable dstva) = -1 then pure (-1)
      else
        match ← walkaddr pagetable va0 with
        | none => pure (-1)
        | some pa0 => do
          let n := min (PGSIZE - (dstva - va0)) src.length
          modify (fun m => { m with
            page := update m.page pa0
              (Buffer.write (m.page pa0) (dstva - va0) (src.take n)) })
          copyoutLoop pagetable fuel (va0 + PGSIZE) (src.drop n)

def copyout (pagetable dstva : Nat) (src : List UInt8) : Kernel Int :=
  copyoutLoop L pagetable src.length dstva src

def copyinLoop (pagetable : Nat) : Nat → Nat → Nat → Kernel (Option (List UInt8))
  | 0, _, _ => pure (some [])
  | fuel + 1, srcva, len =>
    if len = 0 then pure (some [])
    else do
      let va0 := pgRoundDown srcva
      match ← walkaddr pagetable va0 with
      | none => pure none
      | some pa0 => do
        let n := min (PGSIZE - (srcva - va0)) len
        let m ← get
        let bytes := Buffer.read (m.page pa0) (srcva - va0) n
        match ← copyinLoop pagetable fuel (va0 + PGSIZE) (len - n) with
        | none => pure none
        | some rest => pure (some (bytes ++ rest))

def copyin (pagetable srcva len : Nat) : Kernel (Option (List UInt8)) :=
  copyinLoop pagetable len srcva len

/-- The inner loop of `copyinstr` over `n` bytes from `p` on; `out` is what has been written at
`dst` so far. -/
def copyBytes (page : Buffer) : Nat → Nat → List UInt8 → List UInt8 × Bool
  | 0, _, out => (out, false)
  | n + 1, p, out =>
    if page p = 0 then (out ++ [0], true) else copyBytes page n (p + 1) (out ++ [page p])

/-- What `copyinstr` returns, the bytes it has written at `dst` and the pages it has looked up. -/
structure StrCopy where
  ret : Int
  out : List UInt8
  pages : List Nat

/-- The outer loop. A round that does not end the loop uses up a part of `max`. -/
def copyinstrLoop (pagetable : Nat) : Nat → Nat → Nat → List UInt8 → Kernel StrCopy
  | 0, _, _, out => pure ⟨-1, out, []⟩
  | fuel + 1, srcva, max, out =>
    if max = 0 then pure ⟨-1, out, []⟩
    else do
      let va0 := pgRoundDown srcva
      match ← walkaddr pagetable va0 with
      | none => pure ⟨-1, out, [va0]⟩
      | some pa0 => do
        let n := min (PGSIZE - (srcva - va0)) max
        let m ← get
        let (out, gotNull) := copyBytes (m.page pa0) n (srcva - va0) out
        if gotNull then pure ⟨0, out, [va0]⟩
        else do
          let r ← copyinstrLoop pagetable fuel ((va0 + PGSIZE) % 2 ^ 64) (max - n) out
          pure { r with pages := va0 :: r.pages }

def copyinstr (pagetable srcva max : Nat) : Kernel StrCopy :=
  copyinstrLoop pagetable max srcva max []

end Xv6
