import Xv6.Exec
import Xv6.UserAccess

/-! Processes and their user memory: `kernel/proc.c`, `sys_sbrk` and `sys_exec`. The names,
open files and locks of processes, and which of them runs, play no part here: a process is
`runnable` from the end of its `fork` to its `exit`. -/

namespace Xv6

open StateProg

inductive ProcState where
  | unused
  | used
  | runnable
  | zombie
  deriving DecidableEq, Repr

structure Proc where
  state : ProcState
  pid : Nat
  parent : Option (Fin NPROC)
  xstate : Nat
  pagetable : Option Nat
  trapframe : Option Nat
  sz : Nat

/-- `kpages` are the pages of the kernel other than trapframes: its page table and stacks,
pipes, the virtio queue, `exec` arguments. -/
structure KState where
  mem : PhysMem
  proc : Fin NPROC → Proc
  initproc : Option (Fin NPROC)
  nextpid : Nat
  kpages : List Nat

abbrev Sys := Prog KState Panic

def onMem {α : Type} (x : Kernel α) : Sys α := fun s =>
  match x s.mem with
  | .ok (a, m) => .ok (a, { s with mem := m })
  | .error e => .error e

def ifSome (o : Option Nat) (f : Nat → Kernel Unit) : Sys Unit :=
  match o with
  | some a => onMem (f a)
  | none => pure ()

def setProc (p : Fin NPROC) (f : Proc → Proc) : Sys Unit :=
  modify fun s => { s with proc := Function.update s.proc p (f (s.proc p)) }

def setTrapframe (tf off v : Nat) : Kernel Unit :=
  modify fun m => { m with page := Function.update m.page tf ((m.page tf).setLE off v 8) }

abbrev Trapframe.epc : Nat := 24
abbrev Trapframe.sp : Nat := 48
abbrev Trapframe.a0 : Nat := 112
abbrev Trapframe.a1 : Nat := 120

def allocpid : Sys Nat := do
  let pid := (← get).nextpid
  modify fun s => { s with nextpid := s.nextpid + 1 }
  pure pid

def findUnused (s : KState) : Option (Fin NPROC) :=
  (List.finRange NPROC).find? fun p => (s.proc p).state = .unused

def findZombie (s : KState) (p : Fin NPROC) : Option (Fin NPROC) :=
  (List.finRange NPROC).find? fun q => (s.proc q).parent = some p && (s.proc q).state = .zombie

def intBytes (n : Nat) : List UInt8 := Buffer.read (Buffer.setLE (fun _ => 0) 0 n 4) 0 4

def initcode : List UInt8 :=
  [0x17, 0x05, 0x00, 0x00, 0x13, 0x05, 0x45, 0x02,
   0x97, 0x05, 0x00, 0x00, 0x93, 0x85, 0x35, 0x02,
   0x93, 0x08, 0x70, 0x00, 0x73, 0x00, 0x00, 0x00,
   0x93, 0x08, 0x20, 0x00, 0x73, 0x00, 0x00, 0x00,
   0xef, 0xf0, 0x9f, 0xff, 0x2f, 0x69, 0x6e, 0x69,
   0x74, 0x00, 0x00, 0x24, 0x00, 0x00, 0x00, 0x00,
   0x00, 0x00, 0x00, 0x00]

section Model

variable (L : Layout)

def freeproc (p : Fin NPROC) : Sys Unit := do
  let pr := (← get).proc p
  ifSome pr.trapframe (kfree L)
  ifSome pr.pagetable fun pagetable => procFreepagetable L pagetable pr.sz
  setProc p fun _ => ⟨.unused, 0, none, 0, none, none, 0⟩

def allocproc : Sys (Option (Fin NPROC)) := do
  match findUnused (← get) with
  | none => pure none
  | some p => do
    let pid ← allocpid
    setProc p fun pr => { pr with pid := pid, state := .used }
    match ← onMem kalloc with
    | none => do
      freeproc L p
      pure none
    | some tf => do
      setProc p fun pr => { pr with trapframe := some tf }
      match ← onMem (procPagetable L tf) with
      | none => do
        freeproc L p
        pure none
      | some pagetable => do
        setProc p fun pr => { pr with pagetable := some pagetable }
        pure (some p)

def deref {α : Type} : Option α → Sys α
  | some a => pure a
  | none => throw .kerneltrap

def userinit : Sys Unit := do
  let p ← deref (← allocproc L)
  modify fun s => { s with initproc := some p }
  let pagetable ← deref ((← get).proc p).pagetable
  let tf ← deref ((← get).proc p).trapframe
  onMem (uvmfirst pagetable initcode)
  setProc p fun pr => { pr with sz := PGSIZE }
  onMem (setTrapframe tf Trapframe.epc 0)
  onMem (setTrapframe tf Trapframe.sp PGSIZE)
  setProc p fun pr => { pr with state := .runnable }

def growproc (p : Fin NPROC) (n : Int) : Sys Int := do
  let sz := ((← get).proc p).sz
  let pagetable ← deref ((← get).proc p).pagetable
  if n > 0 then
    match ← onMem (uvmalloc L pagetable sz (sz + n.toNat) PTE_W) with
    | none => pure (-1)
    | some sz' => do
      setProc p fun pr => { pr with sz := sz' }
      pure 0
  else if n < 0 then
    let sz' ← onMem (uvmdealloc L pagetable sz ((sz + n) % 2 ^ 64).toNat)
    setProc p fun pr => { pr with sz := sz' }
    pure 0
  else pure 0

def fork (p : Fin NPROC) : Sys Int := do
  match ← allocproc L with
  | none => pure (-1)
  | some np => do
    let old ← deref ((← get).proc p).pagetable
    let new ← deref ((← get).proc np).pagetable
    let sz := ((← get).proc p).sz
    if (← onMem (uvmcopy L old new sz)) < 0 then
      freeproc L np
      pure (-1)
    else
      setProc np fun pr => { pr with sz := sz }
      let tf ← deref ((← get).proc p).trapframe
      let ntf ← deref ((← get).proc np).trapframe
      let m := (← get).mem
      onMem (setPage ntf (m.page tf))
      onMem (setTrapframe ntf Trapframe.a0 0)
      setProc np fun pr => { pr with parent := some p, state := .runnable }
      pure (((← get).proc np).pid : Int)

def reparent (p : Fin NPROC) : Sys Unit :=
  modify (fun s => { s with proc := fun q =>
    if (s.proc q).parent = some p then { s.proc q with parent := s.initproc } else s.proc q })

def exit (p : Fin NPROC) (status : Nat) : Sys Unit := do
  if (← get).initproc = some p then throw .initExiting
  else
    reparent p
    setProc p fun pr => { pr with xstate := status, state := .zombie }

def wait (p : Fin NPROC) (addr : Nat) : Sys (Option Int) := do
  let s ← get
  match findZombie s p with
  | some q => do
    let pagetable ← deref (s.proc p).pagetable
    if addr ≠ 0 then
      if (← onMem (copyout L pagetable addr (intBytes (s.proc q).xstate))) < 0 then pure (some (-1))
      else do
        freeproc L q
        pure (some (s.proc q).pid)
    else do
      freeproc L q
      pure (some (s.proc q).pid)
  | none =>
    if (List.finRange NPROC).any (fun q => (s.proc q).parent = some p) then pure none
    else pure (some (-1))

def fetchaddr (p : Fin NPROC) (addr : Nat) : Sys (Option Nat) := do
  let sz := ((← get).proc p).sz
  -- both tests needed, in case of overflow
  if addr ≥ sz ∨ (addr + 8) % 2 ^ 64 > sz then pure none
  else
    let pagetable ← deref ((← get).proc p).pagetable
    match ← onMem (copyin pagetable addr 8) with
    | none => pure none
    | some bytes => pure (some (Buffer.getLE (fun i => bytes.getD i 0) 0 8))

def fetchstr (p : Fin NPROC) (addr max : Nat) : Sys (Option (List UInt8)) := do
  let pagetable ← deref ((← get).proc p).pagetable
  let r ← onMem (copyinstr pagetable addr max)
  pure (if r.ret < 0 then none else some (cstring r.out))

/-- The loop of `sys_exec` that fetches the arguments, with `n` rounds to go, and the pages
it has allocated for them. -/
def fetchArgs (p : Fin NPROC) (uargv : Nat) : Nat → Sys (List Nat × Option (List (List UInt8)))
  | 0 => pure ([], none)
  | n + 1 => do
    match ← fetchaddr p ((uargv + 8 * (MAXARG - (n + 1))) % 2 ^ 64) with
    | none => pure ([], none)
    | some uarg =>
      if uarg = 0 then pure ([], some [])
      else do
        match ← onMem kalloc with
        | none => pure ([], none)
        | some page => do
          modify fun s => { s with kpages := page :: s.kpages }
          match ← fetchstr p uarg PGSIZE with
          | none => pure ([page], none)
          | some str => do
            let m := (← get).mem
            onMem (setPage page (Buffer.write (m.page page) 0 (str ++ [0])))
            let (pages, argv) ← fetchArgs p uargv n
            pure (page :: pages, argv.map (fun argv => str :: argv))

def kfreePage (pa : Nat) : Sys Unit := do
  onMem (kfree L pa)
  modify fun s => { s with kpages := s.kpages.erase pa }

/-- The last part of `exec`: process `p` goes over to the new image. -/
def commitImage (p : Fin NPROC) (tf : Nat) (image : Image) : Sys Int := do
  let oldsz := ((← get).proc p).sz
  let oldpagetable ← deref ((← get).proc p).pagetable
  onMem (setTrapframe tf Trapframe.a1 image.sp)
  setProc p fun pr => { pr with pagetable := some image.pagetable, sz := image.sz }
  onMem (setTrapframe tf Trapframe.epc image.entry)
  onMem (setTrapframe tf Trapframe.sp image.sp)
  onMem (procFreepagetable L oldpagetable oldsz)
  pure image.argc

def exec (p : Fin NPROC) (f : File) (argv : List (List UInt8)) : Sys Int := do
  let tf ← deref ((← get).proc p).trapframe
  match ← onMem (execImage L tf f argv) with
  | none => pure (-1)
  | some image => commitImage L p tf image

def sysExec (p : Fin NPROC) (f : File) (uargv : Nat) : Sys Int := do
  let (pages, argv) ← fetchArgs p uargv MAXARG
  let ret ← match argv with
    | none => pure (-1)
    | some argv => exec L p f argv
  pages.forM (kfreePage L)
  pure ret

inductive Op where
  | userinit
  | kalloc
  | kfree (pa : Nat)
  | fork (p : Fin NPROC)
  | exec (p : Fin NPROC) (f : File) (uargv : Nat)
  | sbrk (p : Fin NPROC) (n : Int)
  | load (p : Fin NPROC) (va : Nat)
  | store (p : Fin NPROC) (va : Nat) (b : UInt8)
  | copyin (p : Fin NPROC) (va len : Nat)
  | copyout (p : Fin NPROC) (va : Nat) (bytes : List UInt8)
  | exit (p : Fin NPROC) (status : Nat)
  | wait (p : Fin NPROC) (addr : Nat)

/-- What comes of an operation; `idle` when there is nothing to do for it. -/
inductive Result where
  | idle
  | done
  | failed
  | started (p : Option (Fin NPROC))
  | killed
  | loaded (b : UInt8)
  | copied (bytes : Option (List UInt8))
  | returned (r : Int)
  | reaped (q : Fin NPROC) (status : Nat)
  | notCopied (status : Nat)

def ofReturn (r : Int) : Result := if r < 0 then .failed else .done

def running (p : Fin NPROC) (x : Nat → Sys Result) : Sys Result := do
  let s ← get
  if (s.proc p).state = .runnable then
    let pagetable ← deref (s.proc p).pagetable
    x pagetable
  else pure .idle

/-- What the kernel does for an operation. The pages `kalloc` and `kfree` of their own stand
for all uses of the allocator outside user memory. -/
def perform : Op → Sys Result
  | .userinit => do
    if (← get).initproc = none then
      userinit L
      pure (.started (← get).initproc)
    else pure .idle
  | .kalloc => do
    match ← onMem Xv6.kalloc with
    | none => pure .failed
    | some pa => do
      modify fun s => { s with kpages := pa :: s.kpages }
      pure .done
  | .kfree pa => do
    if pa ∈ (← get).kpages then
      kfreePage L pa
      pure .done
    else pure .idle
  | .fork p => running p (fun _ => do
      let np := findUnused (← get)
      let r ← fork L p
      pure (if r < 0 then .failed else .started np))
  | .exec p f uargv => running p fun _ => do pure (ofReturn (← sysExec L p f uargv))
  | .sbrk p n => running p fun _ => do pure (ofReturn (← growproc L p n))
  | .load p va => running p (fun pagetable => do
      match ← onMem (userLoad L pagetable va 2) with
      | .loaded b => pure (.loaded b)
      | .faulting => pure .idle
      | .killed => do
        exit p (2 ^ 32 - 1)
        pure .killed)
  | .store p va b => running p (fun pagetable => do
      match ← onMem (userStore L pagetable va b 2) with
      | .stored => pure .done
      | .faulting => pure .idle
      | .killed => do
        exit p (2 ^ 32 - 1)
        pure .killed)
  | .copyin p va len => running p (fun pagetable => do
      pure (.copied (← onMem (Xv6.copyin pagetable va len))))
  | .copyout p va bytes => running p (fun pagetable => do
      pure (.returned (← onMem (Xv6.copyout L pagetable va bytes))))
  | .exit p status => running p (fun _ => do
      Xv6.exit p status
      pure .done)
  | .wait p addr => running p (fun _ => do
      let s ← get
      match findZombie s p, ← wait L p addr with
      | _, none => pure .idle
      | none, some _ => pure .failed
      | some q, some r =>
        if r < 0 then pure (.notCopied (s.proc q).xstate) else pure (.reaped q (s.proc q).xstate))

def kstep (s : KState) (op : Op) : Except Panic KState :=
  match perform L op s with
  | .ok (_, s') => .ok s'
  | .error e => .error e

end Model

def KState.start (m : PhysMem) : KState where
  mem := m
  proc _ := ⟨.unused, 0, none, 0, none, none, 0⟩
  initproc := none
  nextpid := 1
  kpages := []

end Xv6
