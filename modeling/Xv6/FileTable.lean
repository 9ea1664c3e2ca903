import Mathlib.Data.List.FinRange
import Xv6.Pipe

/-! `file.c` and the calls of `sysfile.c` and `proc.c` that make and drop references to open
files. A step is a stretch of a call during which `ftable.lock` or `pi->lock` does not
change hands, so calls of other processes may land between any two steps. What the calls
do to inodes, user memory and the free list of pages comes from outside. -/

namespace Xv6.Ftable

open Function

def nfile : Nat := 100

def nofile : Nat := 16

def ndev : Int16 := 10

abbrev FileId := Fin nfile

abbrev Fd := Fin nofile

inductive FdType where
  | none
  | pipe
  | inode
  | device
  deriving DecidableEq

structure File where
  ref : Int
  type : FdType
  readable : Bool
  writable : Bool
  pipe : Nat
  ip : Nat
  off : UInt32
  major : Int16

abbrev Ofile := Fd → Option FileId

inductive AfterClose where
  | ret (r : Int)
  | exit (fd : Fd)

inductive InodeType where
  | dir
  | file
  | device
  deriving DecidableEq

structure FoundInode where
  type : InodeType
  major : Int16
  ip : Nat

inductive FilePc (P : Type*) where
  | unused
  | embryo (parent : P)
  | zombie
  | user (ret : Int)
  | dup (f : FileId) (old fd : Fd)
  | opening (ip : FoundInode) (omode : UInt32)
  | pipe0
  | pipe1 (rf : FileId)
  | pipe2 (rf wf : FileId)
  | closing (fs : List FileId) (k : AfterClose)
  | pipeclose (pi : Nat) (writable : Bool) (fs : List FileId) (k : AfterClose)
  | kfree (pi : Nat) (fs : List FileId) (k : AfterClose)
  | fork (child : P) (i : Nat)
  | exit (fd : Nat)

structure ProcFiles (P : Type*) where
  ofile : Ofile
  pc : FilePc P

/-- `made` and `freed` count, for every page, how often it became a pipe and how often it
was freed after that. -/
structure FileTable (P : Type*) where
  file : FileId → File
  pipe : Nat → Option Pipe
  proc : P → ProcFiles P
  made : Nat → Nat
  freed : Nat → Nat

inductive FilePanic where
  | filedup
  | fileclose
  | page
  deriving DecidableEq

inductive FileCall (P : Type*) where
  | dup (fd : Int)
  | close (fd : Int)
  | open (found : Option FoundInode) (omode : UInt32)
  | pipe
  | fork (slot : Option P)
  | exit

inductive FileAct (P : Type*) where
  | call (p : P) (c : FileCall P)
  /-- `page` answers a `kalloc` and `copied` the two `copyout`s of `sys_pipe`. -/
  | advance (p : P) (page : Option Nat) (copied : Bool)
  | reap (p : P)

namespace FileTable

variable {P : Type*} [DecidableEq P]

def argfd (o : Ofile) (fd : Int) : Option (Fd × FileId) :=
  if h : 0 ≤ fd ∧ fd.toNat < nofile then (o ⟨fd.toNat, h.2⟩).map (fun f => (⟨fd.toNat, h.2⟩, f)) else none

def fdalloc (o : Ofile) : Option Fd := (List.finRange nofile).find? (fun fd => (o fd).isNone)

def setFile (s : FileTable P) (f : FileId) (x : File) : FileTable P :=
  { s with file := update s.file f x }

def setProc (s : FileTable P) (p : P) (x : ProcFiles P) : FileTable P :=
  { s with proc := update s.proc p x }

def setPc (s : FileTable P) (p : P) (pc : FilePc P) : FileTable P :=
  s.setProc p { s.proc p with pc }

def freeFile (s : FileTable P) : Option FileId :=
  (List.finRange nfile).find? (fun f => (s.file f).ref = 0)

def filealloc (s : FileTable P) (f : FileId) : FileTable P := s.setFile f { s.file f with ref := 1 }

def filedup (s : FileTable P) (f : FileId) : Except FilePanic (FileTable P) :=
  if (s.file f).ref < 1 then .error .filedup
  else .ok (s.setFile f { s.file f with ref := (s.file f).ref + 1 })

/-- `fileclose` up to the release of `ftable.lock`, with what is left to do. -/
def fileclose (s : FileTable P) (p : P) (f : FileId) (fs : List FileId) (k : AfterClose) :
    Except FilePanic (FileTable P) :=
  let ff := s.file f
  if ff.ref < 1 then .error .fileclose
  else if ff.ref - 1 > 0 then .ok ((s.setFile f { ff with ref := ff.ref - 1 }).setPc p (.closing fs k))
  else
    let s := s.setFile f { ff with ref := 0, type := .none }
    if ff.type = .pipe then .ok (s.setPc p (.pipeclose ff.pipe ff.writable fs k))
    else .ok (s.setPc p (.closing fs k))

def pipeclose (s : FileTable P) (p : P) (pi : Nat) (writable : Bool) (fs : List FileId) (k : AfterClose) :
    Except FilePanic (FileTable P) :=
  match s.pipe pi with
  | none => .error .page
  | some x =>
    let x := if writable then { x with writeopen := false } else { x with readopen := false }
    let s := { s with pipe := update s.pipe pi (some x) }
    if x.readopen = false ∧ x.writeopen = false then .ok (s.setPc p (.kfree pi fs k))
    else .ok (s.setPc p (.closing fs k))

def kfree (s : FileTable P) (p : P) (pi : Nat) (fs : List FileId) (k : AfterClose) :
    Except FilePanic (FileTable P) :=
  match s.pipe pi with
  | none => .error .page
  | some _ =>
    .ok ({ s with
      pipe := update s.pipe pi none
      freed := update s.freed pi (s.freed pi + 1) }.setPc p (.closing fs k))

def kalloc (s : FileTable P) (page : Option Nat) : Option Nat := page.filter (fun pi => (s.pipe pi).isNone)

def oWronly : UInt32 := 1

def oRdwr : UInt32 := 2

def oCreate : UInt32 := 0x200

def openChecks (omode : UInt32) (ip : FoundInode) : Bool :=
  !(omode &&& oCreate = 0 ∧ ip.type = .dir ∧ omode ≠ 0) &&
    !(ip.type = .device ∧ (ip.major < 0 ∨ ip.major ≥ ndev))

def openFile (x : File) (ip : FoundInode) (omode : UInt32) : File :=
  let x := if ip.type = .device then { x with type := .device, major := ip.major }
    else { x with type := .inode, off := 0 }
  { x with
    ip := ip.ip
    readable := omode &&& oWronly = 0
    writable := omode &&& oWronly ≠ 0 ∨ omode &&& oRdwr ≠ 0 }

def open' (s : FileTable P) (p : P) (ip : FoundInode) (omode : UInt32) : FileTable P :=
  match s.freeFile with
  | none => s.setPc p (.user (-1))
  | some f =>
    let s := s.filealloc f
    match fdalloc (s.proc p).ofile with
    | none => s.setPc p (.closing [f] (.ret (-1)))
    | some fd =>
      (s.setFile f (openFile (s.file f) ip omode)).setProc p
        { ofile := update (s.proc p).ofile fd (some f), pc := .user fd.val }

def pipeFile (x : File) (pi : Nat) (writable : Bool) : File :=
  { x with type := .pipe, readable := !writable, writable, pipe := pi }

def pipealloc (s : FileTable P) (rf wf : FileId) (pi : Nat) : FileTable P :=
  let s := { s with
    pipe := update s.pipe pi (some ⟨fun _ => 5, 0, 0, true, true⟩)
    made := update s.made pi (s.made pi + 1) }
  let s := s.setFile rf (pipeFile (s.file rf) pi false)
  s.setFile wf (pipeFile (s.file wf) pi true)

def pipeFds (s : FileTable P) (p : P) (rf wf : FileId) (copied : Bool) : FileTable P :=
  let o := (s.proc p).ofile
  match fdalloc o with
  | none => s.setPc p (.closing [rf, wf] (.ret (-1)))
  | some fd0 =>
    match fdalloc (update o fd0 (some rf)) with
    | none => s.setPc p (.closing [rf, wf] (.ret (-1)))
    | some fd1 =>
      if copied then
        s.setProc p
          { ofile := update (update o fd0 (some rf)) fd1 (some wf), pc := .user 0 }
      else s.setPc p (.closing [rf, wf] (.ret (-1)))

def pipe2 (s : FileTable P) (p : P) (rf wf : FileId) (page : Option Nat) (copied : Bool) : FileTable P :=
  match s.kalloc page with
  | none => s.setPc p (.closing [rf, wf] (.ret (-1)))
  | some pi => (s.pipealloc rf wf pi).pipeFds p rf wf copied

/-- One round of the loop of `fork`; after the last one the child can run. The pid that
`fork` returns is not kept here, 1 stands for it. -/
def forkRound (s : FileTable P) (p child : P) (i : Nat) : Except FilePanic (FileTable P) :=
  if h : i < nofile then
    match (s.proc p).ofile ⟨i, h⟩ with
    | none => .ok (s.setPc p (.fork child (i + 1)))
    | some f => do
      let s ← s.filedup f
      let np := s.proc child
      let s := s.setProc child { np with ofile := update np.ofile ⟨i, h⟩ (some f) }
      .ok (s.setPc p (.fork child (i + 1)))
  else .ok ((s.setPc child (.user 0)).setPc p (.user 1))

def exitRound (s : FileTable P) (p : P) (fd : Nat) : FileTable P :=
  if h : fd < nofile then
    match (s.proc p).ofile ⟨fd, h⟩ with
    | none => s.setPc p (.exit (fd + 1))
    | some f => s.setPc p (.closing [f] (.exit ⟨fd, h⟩))
  else s.setPc p .zombie

def closed (s : FileTable P) (p : P) : AfterClose → FileTable P
  | .ret r => s.setPc p (.user r)
  | .exit fd =>
    s.setProc p { ofile := update (s.proc p).ofile fd none, pc := .exit (fd + 1) }

def advance (s : FileTable P) (p : P) (page : Option Nat) (copied : Bool) :
    Except FilePanic (FileTable P) :=
  match (s.proc p).pc with
  | .dup f _ fd => do
    let s ← s.filedup f
    .ok (s.setPc p (.user fd.val))
  | .opening ip omode => .ok (s.open' p ip omode)
  | .pipe0 =>
    match s.freeFile with
    | none => .ok (s.setPc p (.user (-1)))
    | some f => .ok ((s.filealloc f).setPc p (.pipe1 f))
  | .pipe1 rf =>
    match s.freeFile with
    | none => .ok (s.setPc p (.closing [rf] (.ret (-1))))
    | some f => .ok ((s.filealloc f).setPc p (.pipe2 rf f))
  | .pipe2 rf wf => .ok (s.pipe2 p rf wf page copied)
  | .closing [] k => .ok (s.closed p k)
  | .closing (f :: fs) k => s.fileclose p f fs k
  | .pipeclose pi writable fs k => s.pipeclose p pi writable fs k
  | .kfree pi fs k => s.kfree p pi fs k
  | .fork child i => s.forkRound p child i
  | .exit fd => .ok (s.exitRound p fd)
  | .unused | .embryo _ | .zombie | .user _ => .ok s

def call (s : FileTable P) (p : P) : FileCall P → FileTable P
  | .dup fd =>
    match argfd (s.proc p).ofile fd with
    | none => s.setPc p (.user (-1))
    | some (old, f) =>
      match fdalloc (s.proc p).ofile with
      | none => s.setPc p (.user (-1))
      | some new =>
        s.setProc p { ofile := update (s.proc p).ofile new (some f), pc := .dup f old new }
  | .close fd =>
    match argfd (s.proc p).ofile fd with
    | none => s.setPc p (.user (-1))
    | some (i, f) =>
      s.setProc p { ofile := update (s.proc p).ofile i none, pc := .closing [f] (.ret 0) }
  | .open found omode =>
    match found.filter (openChecks omode) with
    | none => s.setPc p (.user (-1))
    | some ip => s.setPc p (.opening ip omode)
  | .pipe => s.setPc p .pipe0
  | .fork slot =>
    match slot with
    | none => s.setPc p (.user (-1))
    | some child =>
      match (s.proc child).pc with
      | .unused => (s.setPc child (.embryo p)).setPc p (.fork child 0)
      | _ => s
  | .exit => s.setPc p (.exit 0)

def step (s : FileTable P) : FileAct P → Except FilePanic (FileTable P)
  | .call p c =>
    match (s.proc p).pc with
    | .user _ => .ok (s.call p c)
    | _ => .ok s
  | .advance p page copied => s.advance p page copied
  | .reap p =>
    match (s.proc p).pc with
    | .zombie => .ok (s.setPc p .unused)
    | _ => .ok s

def boot (init : P) : FileTable P where
  file _ := ⟨0, .none, false, false, 0, 0, 0, 0⟩
  pipe _ := none
  proc p := { ofile := fun _ => none, pc := if p = init then .user 0 else .unused }
  made _ := 0
  freed _ := 0

end FileTable

end Xv6.Ftable
