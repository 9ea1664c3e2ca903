import Xv6.Vm

/-! Building a new user image: `proc_pagetable` and `proc_freepagetable` of `kernel/proc.c`
and `kernel/exec.c`. Fields of the program file are read from its bytes; `uint` and `int`
arithmetic is modulo `2 ^ 32`, `uint64` arithmetic modulo `2 ^ 64`. -/

namespace Xv6

open StateProg

section Pagetable

variable (L : Layout)

/-- The page table of a process with the given trapframe and no user memory. -/
def procPagetable (trapframe : Nat) : Kernel (Option Nat) := do
  match ← uvmcreate with
  | none => pure none
  | some pagetable => do
    if (← mappages pagetable TRAMPOLINE PGSIZE L.trampoline (PTE_R ||| PTE_X)) < 0 then
      uvmfree L pagetable 0
      pure none
    else if (← mappages pagetable TRAPFRAME PGSIZE trapframe (PTE_R ||| PTE_W)) < 0 then
      uvmunmap L pagetable TRAMPOLINE 1 false
      uvmfree L pagetable 0
      pure none
    else pure (some pagetable)

def procFreepagetable (pagetable sz : Nat) : Kernel Unit := do
  uvmunmap L pagetable TRAMPOLINE 1 false
  uvmunmap L pagetable TRAPFRAME 1 false
  uvmfree L pagetable sz

end Pagetable

structure File where
  size : Nat
  data : Buffer

def readi (f : File) (off n : Nat) : List UInt8 :=
  if off > f.size ∨ (off + n) % 2 ^ 32 < off then []
  else Buffer.read f.data off (min n (f.size - off))

abbrev ELF_MAGIC : Nat := 0x464C457F

abbrev ELF_PROG_LOAD : Nat := 1

structure Elfhdr where
  magic : Nat
  entry : Nat
  phoff : Nat
  phnum : Nat

abbrev Elfhdr.bytes : Nat := 64

def elfhdr (b : Buffer) : Elfhdr where
  magic := b.getLE 0 4
  entry := b.getLE 24 8
  phoff := b.getLE 32 8
  phnum := b.getLE 56 2

structure Proghdr where
  type : Nat
  flags : Nat
  off : Nat
  vaddr : Nat
  filesz : Nat
  memsz : Nat

abbrev Proghdr.bytes : Nat := 56

def proghdr (b : Buffer) (off : Nat) : Proghdr where
  type := b.getLE off 4
  flags := b.getLE (off + 4) 4
  off := b.getLE (off + 8) 8
  vaddr := b.getLE (off + 16) 8
  filesz := b.getLE (off + 32) 8
  memsz := b.getLE (off + 40) 8

def flags2perm (flags : Nat) : Pte :=
  (if flags % 2 = 1 then PTE_X else 0) ||| (if flags / 2 % 2 = 1 then PTE_W else 0)

def Proghdr.ok (ph : Proghdr) : Bool :=
  !(ph.memsz < ph.filesz) && !((ph.vaddr + ph.memsz) % 2 ^ 64 < ph.vaddr) && ph.vaddr % PGSIZE == 0

/-- The places where `exec` and `loadseg` call `readi`: for the ELF header, for program header `i`,
and for page `j` of its segment. -/
inductive ReadSite where
  | elf
  | phdr (i : Nat)
  | page (i j : Nat)

/-- What the calls of `readi` deliver, given the offset and the number of bytes asked for. -/
structure Reads where
  read : ReadSite → Nat → Nat → List UInt8
  length_le : ∀ site off n, (read site off n).length ≤ n

def fileReads (f : File) : Reads where
  read _ := readi f
  length_le _ off n := by
    rw [readi]
    split
    · exact Nat.zero_le _
    · rw [Buffer.length_read]
      exact Nat.min_le_left _ _

def readBuffer (bytes : List UInt8) : Buffer := fun i => bytes.getD i 0

def Reads.elf (rd : Reads) : Elfhdr := elfhdr (readBuffer (rd.read .elf 0 Elfhdr.bytes))

section Image

variable (L : Layout) (rd : Reads)

def loadseg (i pagetable va offset sz : Nat) : Kernel Int := do
  let r ← loop ((sz + PGSIZE - 1) / PGSIZE) (fun j => do
    let k := j * PGSIZE
    match ← walkaddr pagetable (va + k) with
    | none => throw .loadseg
    | some pa => do
      let n := if sz - k < PGSIZE then sz - k else PGSIZE
      let bytes := rd.read (.page i j) ((offset + k) % 2 ^ 32) n
      modify fun m => { m with page := Function.update m.page pa (Buffer.write (m.page pa) 0 bytes) }
      if bytes.length ≠ n then pure (some (-1)) else pure none)
  pure (r.getD 0)

/-- The loop over the program headers, with the size reached when it ends or fails. -/
def loadSegments (pagetable : Nat) : Nat → Nat → Nat → Nat → Kernel (Except Nat Nat)
  | 0, _, _, sz => pure (.ok sz)
  | n + 1, i, off, sz =>
    let bytes := rd.read (.phdr i) off Proghdr.bytes
    if bytes.length ≠ Proghdr.bytes then pure (.error sz)
    else
      let ph := proghdr (readBuffer bytes) 0
      if ph.type ≠ ELF_PROG_LOAD then
        loadSegments pagetable n (i + 1) ((off + Proghdr.bytes) % 2 ^ 32) sz
      else if ph.ok = false then pure (.error sz)
      else do
        match ← uvmalloc L pagetable sz ((ph.vaddr + ph.memsz) % 2 ^ 64) (flags2perm ph.flags) with
        | none => pure (.error sz)
        | some sz1 => do
          if (← loadseg rd i pagetable ph.vaddr (ph.off % 2 ^ 32) (ph.filesz % 2 ^ 32)) < 0 then
            pure (.error sz1)
          else loadSegments pagetable n (i + 1) ((off + Proghdr.bytes) % 2 ^ 32) sz1

/-- The part of `exec` that holds the inode: page table, size and entry point of the program. -/
def loadProgram (trapframe : Nat) : Kernel (Option (Nat × Nat × Nat)) := do
  if (rd.read .elf 0 Elfhdr.bytes).length ≠ Elfhdr.bytes then pure none
  else if rd.elf.magic ≠ ELF_MAGIC then pure none
  else
    match ← procPagetable L trapframe with
    | none => pure none
    | some pagetable => do
      match ← loadSegments L rd pagetable rd.elf.phnum 0 (rd.elf.phoff % 2 ^ 32) 0 with
      | .error sz => do
        procFreepagetable L pagetable sz
        pure none
      | .ok sz => pure (some (pagetable, sz, rd.elf.entry))

/-- The guard page and the stack page above the program; the result is the new size. -/
def allocStack (pagetable sz : Nat) : Kernel (Option Nat) := do
  match ← uvmalloc L pagetable (pgRoundUp sz) (pgRoundUp sz + 2 * PGSIZE) PTE_W with
  | none => do
    procFreepagetable L pagetable (pgRoundUp sz)
    pure none
  | some sz1 => pure (some sz1)

/-- `exec` up to the arguments: page table, size and entry point. -/
def loadImage (trapframe : Nat) : Kernel (Option (Nat × Nat × Nat)) := do
  match ← loadProgram L rd trapframe with
  | none => pure none
  | some (pagetable, sz, entry) => do
    match ← allocStack L pagetable sz with
    | none => pure none
    | some sz1 => pure (some (pagetable, sz1, entry))

/-- Push the argument strings; the result is the stack pointer and the addresses of the
strings. -/
def pushArgs (pagetable stackbase : Nat) : List (List UInt8) → Nat → Nat →
    Kernel (Option (Nat × List Nat))
  | [], _, sp => pure (some (sp, []))
  | arg :: rest, argc, sp =>
    if argc ≥ MAXARG then pure none
    else
      let sp := sp - (arg.length + 1)
      let sp := sp - sp % 16
      if sp < stackbase then pure none
      else do
        if (← copyout L pagetable sp (arg ++ [0])) < 0 then pure none
        else
          match ← pushArgs pagetable stackbase rest (argc + 1) sp with
          | none => pure none
          | some (top, ustack) => pure (some (top, sp :: ustack))

def wordBytes (ustack : List Nat) : List UInt8 :=
  ustack.flatMap (fun w => Buffer.read (Buffer.setLE (fun _ => 0) 0 w 8) 0 8)

structure Image where
  pagetable : Nat
  sz : Nat
  entry : Nat
  sp : Nat
  argc : Nat

def pushStack (pagetable sz entry : Nat) (argv : List (List UInt8)) : Kernel (Option Image) := do
  uvmclear pagetable (sz - 2 * PGSIZE)
  let stackbase := sz - PGSIZE
  match ← pushArgs L pagetable stackbase argv 0 sz with
  | none => pure none
  | some (sp, ustack) => do
    let sp := sp - (argv.length + 1) * 8
    let sp := sp - sp % 16
    if sp < stackbase then pure none
    else if (← copyout L pagetable sp (wordBytes (ustack ++ [0]))) < 0 then pure none
    else pure (some ⟨pagetable, sz, entry, sp, argv.length⟩)

def finishImage (pagetable sz entry : Nat) (argv : List (List UInt8)) : Kernel (Option Image) := do
  match ← pushStack L pagetable sz entry argv with
  | none => do
    procFreepagetable L pagetable sz
    pure none
  | some image => pure (some image)

def execImage (trapframe : Nat) (f : File) (argv : List (List UInt8)) : Kernel (Option Image) := do
  match ← loadImage L (fileReads f) trapframe with
  | none => pure none
  | some (pagetable, sz, entry) => finishImage L pagetable sz entry argv

end Image

end Xv6
