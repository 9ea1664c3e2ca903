import Xv6.FsDir

/-! The file system calls of `kernel/sysfile.c` with what `kernel/file.c` does to inodes. Pipes
and the contents of devices are left out. -/

namespace Xv6

open Function StateProg

namespace Fs

variable (sb : Superblock)

def addLink (ip : Nat) (d : Int) : FsM Unit := do
  modify fun s => s.setDin ip { s.din ip with nlink := short ((s.din ip).nlink + d) }
  iupdate ip

def sysLinkBad (ip : Nat) : FsM Int := do
  ilock ip
  addLink ip (-1)
  iunlockput ip
  pure (-1)

def linkEntry (cwd ip : Nat) (new : Path) : FsM Int := do
  match ← nameiparent sb cwd new with
  | none => sysLinkBad ip
  | some (dp, name) =>
    ilock dp
    if ← dirlink sb dp name ip then
      iunlockput dp
      iput ip
      pure 0
    else
      iunlockput dp
      sysLinkBad ip

def sysLink (cwd : Nat) (old new : Path) : FsM Int := do
  match ← namei sb cwd old with
  | none => pure (-1)
  | some ip =>
    ilock ip
    let s ← get
    if (s.din ip).type = .dir then
      iunlockput ip
      pure (-1)
    else
      addLink ip 1
      iunlock ip
      linkEntry sb cwd ip new

def nonemptyAt (dp k : Nat) : FsM (Option Unit) := do
  let de ← readDirent sb dp (DESIZE * k) .isdiremptyReadi
  if de.inum = 0 then pure none else pure (some ())

def isdirempty (dp : Nat) : FsM Bool := do
  let s ← get
  let r ← loopFrom (nonemptyAt sb dp) 2 (entries (s.din dp).size - 2)
  pure r.isNone

def unlinkEntry (dp ip off : Nat) : FsM Int := do
  let r ← writei sb dp Dirent.empty.bytes off DESIZE
  if r ≠ DESIZE then throw .unlinkWritei
  else
    let s ← get
    if (s.din ip).type = .dir then addLink dp (-1) else pure ()
    iunlockput dp
    addLink ip (-1)
    iunlockput ip
    pure 0

def unlinkInode (dp ip off : Nat) : FsM Int := do
  ilock ip
  let s ← get
  if (s.din ip).nlink < 1 then throw .unlinkNlink
  else if (s.din ip).type = .dir then
    if ← isdirempty sb ip then unlinkEntry sb dp ip off
    else
      iunlockput ip
      iunlockput dp
      pure (-1)
  else unlinkEntry sb dp ip off

def sysUnlink (cwd : Nat) (path : Path) : FsM Int := do
  match ← nameiparent sb cwd path with
  | none => pure (-1)
  | some (dp, name) =>
    ilock dp
    if name = dot ∨ name = dotdot then
      iunlockput dp
      pure (-1)
    else
      match ← dirlookup sb dp name with
      | none =>
        iunlockput dp
        pure (-1)
      | some (ip, off) => unlinkInode sb dp ip off

def createFail (dp ip : Nat) : FsM (Option Nat) := do
  modify fun s => s.setDin ip { s.din ip with nlink := 0 }
  iupdate ip
  iunlockput ip
  iunlockput dp
  pure none

def createEnter (dp : Nat) (name : Name) (ip : Nat) (type : FileType) : FsM (Option Nat) := do
  if ← dirlink sb dp name ip then
    if type = .dir then addLink dp 1 else pure ()
    iunlockput dp
    pure (some ip)
  else createFail dp ip

def initInode (ip : Nat) (major minor : Int) : FsM Unit := do
  ilock ip
  modify fun s => s.setDin ip
    { s.din ip with major := short major, minor := short minor, nlink := 1 }
  iupdate ip

def createNew (dp : Nat) (name : Name) (type : FileType) (major minor : Int) :
    FsM (Option Nat) := do
  match ← ialloc sb type with
  | none =>
    iunlockput dp
    pure none
  | some ip =>
    initInode ip major minor
    if type = .dir then
      if ← dirlink sb ip dot ip then
        if ← dirlink sb ip dotdot dp then createEnter sb dp name ip type
        else createFail dp ip
      else createFail dp ip
    else createEnter sb dp name ip type

def create (cwd : Nat) (path : Path) (type : FileType) (major minor : Int) :
    FsM (Option Nat) := do
  match ← nameiparent sb cwd path with
  | none => pure none
  | some (dp, name) =>
    ilock dp
    match ← dirlookup sb dp name with
    | some (ip, _) =>
      iunlockput dp
      ilock ip
      let s ← get
      if type = .file ∧ ((s.din ip).type = .file ∨ (s.din ip).type = .device) then
        pure (some ip)
      else
        iunlockput ip
        pure none
    | none => createNew sb dp name type major minor

def sysMkdir (cwd : Nat) (path : Path) : FsM Int := do
  match ← create sb cwd path .dir 0 0 with
  | none => pure (-1)
  | some ip =>
    iunlockput ip
    pure 0

def sysMknod (cwd : Nat) (path : Path) (major minor : Int) : FsM Int := do
  match ← create sb cwd path .device major minor with
  | none => pure (-1)
  | some ip =>
    iunlockput ip
    pure 0

def sysChdir (cwd : Nat) (path : Path) : FsM (Option Nat) := do
  match ← namei sb cwd path with
  | none => pure none
  | some ip =>
    ilock ip
    let s ← get
    if (s.din ip).type ≠ .dir then
      iunlockput ip
      pure none
    else
      iunlock ip
      iput cwd
      pure (some ip)

/-- The part of `sys_open` that finds or makes the inode, which is returned locked. -/
def openInode (cwd : Nat) (path : Path) (omode : Nat) : FsM (Option Nat) := do
  if omode &&& 0x200 ≠ 0 then create sb cwd path .file 0 0
  else
    match ← namei sb cwd path with
    | none => pure none
    | some ip =>
      ilock ip
      let s ← get
      if (s.din ip).type = .dir ∧ omode ≠ 0 then
        iunlockput ip
        pure none
      else pure (some ip)

/-- `sys_open`, with `room` if there is a free slot in the file table and in the process. The
reference to the inode goes into the open file. -/
def sysOpen (cwd : Nat) (path : Path) (omode : Nat) (room : Bool) : FsM (Option Nat) := do
  match ← openInode sb cwd path omode with
  | none => pure none
  | some ip =>
    let s ← get
    let d := s.din ip
    if d.type = .device ∧ (d.major < 0 ∨ (NDEV : Int) ≤ d.major) ∨ room = false then
      iunlockput ip
      pure none
    else
      if omode &&& 0x400 ≠ 0 ∧ d.type = .file then itrunc ip else pure ()
      iunlock ip
      pure (some ip)

/-- One transaction of `filewrite` for an inode. -/
def writeFile (ip : Nat) (src : List UInt8) (off n : Nat) : FsM Int := do
  ilock ip
  let r ← writei sb ip src off n
  iunlock ip
  pure r

end Fs

/-- The calls with what they take from the calling process: the current directory of those
with a path, the inode of the file or directory of the others. `dup` is the `fork` of a current
directory; `put` is the last `close` of a file or the `exit` of a process. -/
inductive FsCall where
  | «open» (cwd : Nat) (path : Path) (omode : Nat) (room : Bool)
  | mkdir (cwd : Nat) (path : Path)
  | mknod (cwd : Nat) (path : Path) (major minor : Int)
  | link (cwd : Nat) (old new : Path)
  | unlink (cwd : Nat) (path : Path)
  | chdir (cwd : Nat) (path : Path)
  | dup (ip : Nat)
  | put (ip : Nat)
  | write (ip : Nat) (src : List UInt8) (off n : Nat)

namespace FsCall

def uses : FsCall → Nat
  | .open cwd _ _ _ | .mkdir cwd _ | .mknod cwd _ _ _ | .link cwd _ _ | .unlink cwd _ | .chdir cwd _ => cwd
  | .dup ip | .put ip | .write ip _ _ _ => ip

/-- The call, and the references processes hold after it. A process writes to files only:
`sys_open` opens a directory for reading, and a device has no blocks. -/
def exec (sb : Superblock) (held : List Nat) : FsCall → FsM (List Nat)
  | .open cwd path omode room => do
    match ← Fs.sysOpen sb cwd path omode room with
    | none => pure held
    | some ip => pure (ip :: held)
  | .mkdir cwd path => do
    let _ ← Fs.sysMkdir sb cwd path
    pure held
  | .mknod cwd path major minor => do
    let _ ← Fs.sysMknod sb cwd path major minor
    pure held
  | .link cwd old new => do
    let _ ← Fs.sysLink sb cwd old new
    pure held
  | .unlink cwd path => do
    let _ ← Fs.sysUnlink sb cwd path
    pure held
  | .chdir cwd path => do
    match ← Fs.sysChdir sb cwd path with
    | none => pure held
    | some ip => pure (ip :: held.erase cwd)
  | .dup ip => do
    let _ ← Fs.idup ip
    pure (ip :: held)
  | .put ip => do
    Fs.iput ip
    pure (held.erase ip)
  | .write ip src off n => do
    let s ← get
    if (s.dinode ip).type = .file then
      let _ ← Fs.writeFile sb ip src off n
      pure held
    else pure held

end FsCall

/-- The file system with the inodes that open files and current directories refer to. -/
structure FsSys where
  fs : Fs
  held : List Nat

def FsSys.step (sb : Superblock) (w : FsSys) (a : FsCall) : Except FsPanic FsSys :=
  if a.uses ∈ w.held then (a.exec sb w.held w.fs).map fun r => ⟨r.2, r.1⟩ else .ok w

end Xv6
