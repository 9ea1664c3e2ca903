import Xv6.Fs

/-! Directories and paths of `kernel/fs.c`. A name is the bytes of a `char[DIRSIZ]` up to
the first zero, which is all that `strncmp` and `strncpy` look at. -/

namespace Xv6

open StateProg

abbrev Name := List UInt8

def dot : Name := [46]

def dotdot : Name := [46, 46]

def slash : UInt8 := 47

structure Path where
  bytes : List UInt8
  short : bytes.length < MAXPATH
  nonzero : ∀ b ∈ bytes, b ≠ 0

structure Dirent where
  inum : Nat
  name : Name
  deriving DecidableEq

namespace Dirent

/-- The 16 bytes of an entry: `inum` as a `ushort`, the name filled up with zeros. -/
def bytes (de : Dirent) : List UInt8 :=
  [UInt8.ofNat de.inum, UInt8.ofNat (de.inum / 256)] ++
    (de.name.take DIRSIZ ++ List.replicate (DIRSIZ - de.name.length) 0)

def ofBytes (bytes : List UInt8) : Dirent where
  inum := (bytes.getD 0 0).toNat + 256 * (bytes.getD 1 0).toNat
  name := ((bytes.drop 2).take DIRSIZ).takeWhile (· ≠ 0)

def empty : Dirent := ⟨0, []⟩

end Dirent

namespace Fs

variable (sb : Superblock)

def readDirent (dp off : Nat) (p : FsPanic) : FsM Dirent := do
  let (r, bytes) ← readi sb dp DESIZE off DESIZE
  if r = DESIZE then pure (Dirent.ofBytes bytes) else throw p

def entries (size : Nat) : Nat := (size + (DESIZE - 1)) / DESIZE

def dirlookupAt (dp : Nat) (name : Name) (k : Nat) : FsM (Option (Nat × Nat)) := do
  let de ← readDirent sb dp (DESIZE * k) .dirlookupRead
  if de.inum = 0 then pure none
  else if name = de.name then
    let ip ← iget sb de.inum
    pure (some (ip, DESIZE * k))
  else pure none

def dirlookup (dp : Nat) (name : Name) : FsM (Option (Nat × Nat)) := do
  let s ← get
  if (s.din dp).type ≠ .dir then throw .dirlookupNotDir
  else loop (entries (s.din dp).size) (dirlookupAt sb dp name)

def emptyAt (dp k : Nat) : FsM (Option Nat) := do
  let de ← readDirent sb dp (DESIZE * k) .dirlinkRead
  if de.inum = 0 then pure (some (DESIZE * k)) else pure none

def dirlink (dp : Nat) (name : Name) (inum : Nat) : FsM Bool := do
  match ← dirlookup sb dp name with
  | some (ip, _) =>
    iput ip
    pure false
  | none =>
    let s ← get
    let n := entries (s.din dp).size
    let off ← loop n (emptyAt sb dp)
    let r ← writei sb dp (Dirent.mk inum name).bytes (off.getD (DESIZE * n)) DESIZE
    pure (r = DESIZE)

def skipelem (path : List UInt8) : Option (Name × List UInt8) :=
  let path := path.dropWhile (· = slash)
  if path = [] then none
  else some ((path.takeWhile (· ≠ slash)).take DIRSIZ,
    (path.dropWhile (· ≠ slash)).dropWhile (· = slash))

/-- The loop of `namex`, which shortens the path in each round. The result is the inode
and the last element read. -/
def namexLoop (parent : Bool) : Nat → Nat → List UInt8 → Name → FsM (Option (Nat × Name))
  | 0, _, _, _ => pure none
  | fuel + 1, ip, path, name =>
    match skipelem path with
    | none => do
      if parent then
        iput ip
        pure none
      else pure (some (ip, name))
    | some (name, rest) => do
      ilock ip
      let s ← get
      if (s.din ip).type ≠ .dir then
        iunlockput ip
        pure none
      else if parent ∧ rest = [] then
        iunlock ip
        pure (some (ip, name))
      else
        match ← dirlookup sb ip name with
        | none =>
          iunlockput ip
          pure none
        | some (next, _) =>
          iunlockput ip
          namexLoop parent fuel next rest name

def namexStart (cwd : Nat) (path : List UInt8) : FsM Nat :=
  if path.head? = some slash then iget sb ROOTINO else idup cwd

def namex (cwd : Nat) (path : List UInt8) (parent : Bool) : FsM (Option (Nat × Name)) := do
  let ip ← namexStart sb cwd path
  namexLoop sb parent (path.length + 1) ip path []

def namei (cwd : Nat) (path : Path) : FsM (Option Nat) := do
  let r ← namex sb cwd path.bytes false
  pure (r.map Prod.fst)

def nameiparent (cwd : Nat) (path : Path) : FsM (Option (Nat × Name)) :=
  namex sb cwd path.bytes true

end Fs

end Xv6
