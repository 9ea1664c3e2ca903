import Mathlib.Data.Int.ModEq
import Mathlib.Data.List.Basic
import Xv6.Basic
import Xv6.StateProg

/-! Blocks, inodes and inode contents of `kernel/fs.c`. A system call sees the disk
through the buffer cache and the log, so it works here on the current contents of the
blocks: the inode blocks as records, the free map as bits, the data blocks as bytes.
The inode table is indexed by inode number; an entry with no references is a free slot. -/

namespace Xv6

open Function StateProg

def short (x : Int) : Int := Int.bmod x 65536

/-- `T_DIR`, `T_FILE` and `T_DEVICE`; `none` is the 0 of a free inode. -/
inductive FileType where
  | none
  | dir
  | file
  | device
  deriving DecidableEq, Repr

/-- The parts of the super block the kernel reads, and where the data area starts. Block
numbers are of type `uint`, inode numbers in a directory of type `ushort`. -/
structure Superblock where
  size : Nat
  ninodes : Nat
  datastart : Nat
  datastart_pos : 0 < datastart
  size_le : size ≤ 2 ^ 32
  root_lt : ROOTINO < ninodes
  ninodes_le : ninodes ≤ 2 ^ 16

structure Dinode where
  type : FileType
  major : Int
  minor : Int
  nlink : Int
  size : Nat
  addrs : Nat → Nat

def Dinode.zero : Dinode := ⟨.none, 0, 0, 0, 0, fun _ => 0⟩

def Dinode.setAddr (d : Dinode) (k addr : Nat) : Dinode :=
  { d with addrs := update d.addrs k addr }

structure MemInode where
  ref : Nat
  valid : Bool
  locked : Bool
  din : Dinode

structure Fs where
  bitmap : Nat → Bool
  data : Nat → Buffer
  dinode : Nat → Dinode
  itable : Nat → MemInode

inductive FsPanic where
  | freeingFreeBlock
  | igetNoInodes
  | ilock
  | ilockNoType
  | iunlock
  | deadlock
  | bmapRange
  | dirlookupNotDir
  | dirlookupRead
  | dirlinkRead
  | isdiremptyReadi
  | unlinkNlink
  | unlinkWritei
  | filedup
  | fileclose
  | fileread
  | filewrite
  | initExiting
  deriving DecidableEq, Repr

abbrev FsM := Prog Fs FsPanic

namespace Fs

def din (s : Fs) (ip : Nat) : Dinode := (s.itable ip).din

def setBit (s : Fs) (b : Nat) (v : Bool) : Fs :=
  { s with bitmap := update s.bitmap b v }

def setData (s : Fs) (b : Nat) (buf : Buffer) : Fs :=
  { s with data := update s.data b buf }

def setDinode (s : Fs) (i : Nat) (d : Dinode) : Fs :=
  { s with dinode := update s.dinode i d }

def setEntry (s : Fs) (i : Nat) (m : MemInode) : Fs :=
  { s with itable := update s.itable i m }

def setDin (s : Fs) (ip : Nat) (d : Dinode) : Fs :=
  s.setEntry ip { s.itable ip with din := d }

def setAddr (s : Fs) (ip k addr : Nat) : Fs :=
  s.setDin ip ((s.din ip).setAddr k addr)

def word (buf : Buffer) (j : Nat) : Nat := buf.getLE (4 * j) 4

def setWord (buf : Buffer) (j v : Nat) : Buffer := buf.setLE (4 * j) v 4

variable (sb : Superblock)

def balloc : FsM Nat := do
  let s ← get
  match (List.range sb.size).find? (fun b => !s.bitmap b) with
  | some b =>
    modify fun s => (s.setBit b true).setData b (fun _ => 0)
    pure b
  | none => pure 0

def bfree (b : Nat) : FsM Unit := do
  let s ← get
  if s.bitmap b then modify fun s => s.setBit b false
  else throw .freeingFreeBlock

def inUse (s : Fs) : Nat := (List.range sb.ninodes).countP (fun i => 0 < (s.itable i).ref)

def iget (inum : Nat) : FsM Nat := do
  let s ← get
  let m := s.itable inum
  if 0 < m.ref then
    modify fun s => s.setEntry inum { m with ref := m.ref + 1 }
    pure inum
  else if NINODE ≤ s.inUse sb then throw .igetNoInodes
  else
    modify fun s => s.setEntry inum { m with ref := 1, valid := false }
    pure inum

def ialloc (type : FileType) : FsM (Option Nat) := do
  let s ← get
  match (List.range' 1 (sb.ninodes - 1)).find? (fun i => (s.dinode i).type = .none) with
  | some inum =>
    modify fun s => s.setDinode inum { Dinode.zero with type := type }
    let ip ← iget sb inum
    pure (some ip)
  | none => pure none

def iupdate (ip : Nat) : FsM Unit := modify fun s => s.setDinode ip (s.din ip)

def idup (ip : Nat) : FsM Nat := do
  modify fun s => s.setEntry ip { s.itable ip with ref := (s.itable ip).ref + 1 }
  pure ip

def acquiresleep (ip : Nat) : FsM Unit := do
  let s ← get
  if (s.itable ip).locked then throw .deadlock
  else modify fun s => s.setEntry ip { s.itable ip with locked := true }

def releasesleep (ip : Nat) : FsM Unit :=
  modify fun s => s.setEntry ip { s.itable ip with locked := false }

def ilock (ip : Nat) : FsM Unit := do
  let s ← get
  if (s.itable ip).ref < 1 then throw .ilock
  else
    acquiresleep ip
    if (s.itable ip).valid then pure ()
    else
      modify fun s => s.setEntry ip { s.itable ip with din := s.dinode ip, valid := true }
      if (s.dinode ip).type = .none then throw .ilockNoType else pure ()

def iunlock (ip : Nat) : FsM Unit := do
  let s ← get
  if !(s.itable ip).locked ∨ (s.itable ip).ref < 1 then throw .iunlock
  else releasesleep ip

def bmapIndirect (ip : Nat) : FsM Nat := do
  let s ← get
  if (s.din ip).addrs NDIRECT = 0 then
    let addr ← balloc sb
    if addr = 0 then pure 0
    else
      modify fun s => s.setAddr ip NDIRECT addr
      pure addr
  else pure ((s.din ip).addrs NDIRECT)

def bmap (ip bn : Nat) : FsM Nat := do
  let s ← get
  if bn < NDIRECT then
    if (s.din ip).addrs bn = 0 then
      let addr ← balloc sb
      if addr = 0 then pure 0
      else
        modify fun s => s.setAddr ip bn addr
        pure addr
    else pure ((s.din ip).addrs bn)
  else if bn - NDIRECT < NINDIRECT then
    let ind ← bmapIndirect sb ip
    if ind = 0 then pure 0
    else
      let s ← get
      if word (s.data ind) (bn - NDIRECT) = 0 then
        let addr ← balloc sb
        if addr = 0 then pure 0
        else
          modify fun s => s.setData ind (setWord (s.data ind) (bn - NDIRECT) addr)
          pure addr
      else pure (word (s.data ind) (bn - NDIRECT))
  else throw .bmapRange

def itruncDirect (ip i : Nat) : FsM (Option Unit) := do
  let s ← get
  if (s.din ip).addrs i = 0 then pure none
  else
    bfree ((s.din ip).addrs i)
    modify fun s => s.setAddr ip i 0
    pure none

def itruncIndirect (ind j : Nat) : FsM (Option Unit) := do
  let s ← get
  if word (s.data ind) j = 0 then pure none
  else
    bfree (word (s.data ind) j)
    pure none

def itruncList (ip : Nat) : FsM Unit := do
  let s ← get
  let ind := (s.din ip).addrs NDIRECT
  if ind = 0 then pure ()
  else
    let _ ← loop NINDIRECT (itruncIndirect ind)
    bfree ind
    modify fun s => s.setAddr ip NDIRECT 0

def itrunc (ip : Nat) : FsM Unit := do
  let _ ← loop NDIRECT (itruncDirect ip)
  itruncList ip
  modify fun s => s.setDin ip { s.din ip with size := 0 }
  iupdate ip

/-- Give up the last reference to an inode without links: the part of `iput` under the
inode's lock. -/
def ifree (ip : Nat) : FsM Unit := do
  acquiresleep ip
  itrunc ip
  modify fun s => s.setDin ip { s.din ip with type := .none }
  iupdate ip
  modify fun s => s.setEntry ip { s.itable ip with valid := false }
  releasesleep ip

def iput (ip : Nat) : FsM Unit := do
  let s ← get
  let m := s.itable ip
  if m.ref = 1 ∧ m.valid ∧ m.din.nlink = 0 then ifree ip else pure ()
  modify fun s => s.setEntry ip { s.itable ip with ref := (s.itable ip).ref - 1 }

def iunlockput (ip : Nat) : FsM Unit := do
  iunlock ip
  iput ip

/-- The loop of `readi`. Bytes can be stored from `dst` on until `room` is used up; the
result is what `readi` returns and the bytes that were stored. Every round but the last
stores a byte, so `n + 1` rounds are enough. -/
def readLoop (ip room n : Nat) : Nat → Nat → Nat → List UInt8 → FsM (Int × List UInt8)
  | 0, tot, _, out => pure (tot, out)
  | fuel + 1, tot, off, out => do
    if tot < n then
      let addr ← bmap sb ip (off / BSIZE)
      if addr = 0 then pure (tot, out)
      else
        let s ← get
        let m := min (n - tot) (BSIZE - off % BSIZE)
        let bytes := (s.data addr).read (off % BSIZE) m
        if room < tot + m then pure (-1, out ++ bytes.take (room - tot))
        else readLoop ip room n fuel (tot + m) (off + m) (out ++ bytes)
    else pure (tot, out)

def readi (ip room off n : Nat) : FsM (Int × List UInt8) := do
  let s ← get
  let size := (s.din ip).size
  if size < off ∨ (off + n) % 2 ^ 32 < off then pure (0, [])
  else
    let n := if size < off + n then size - off else n
    readLoop sb ip room n (n + 1) 0 off []

/-- The loop of `writei`: `src` are the bytes that can be read before the first fault.
`either_copyin` copies into the block itself, so the bytes before a fault are there. The
result is how much was written. -/
def writeLoop (ip : Nat) (src : List UInt8) (n : Nat) : Nat → Nat → Nat → FsM Nat
  | 0, tot, _ => pure tot
  | fuel + 1, tot, off => do
    if tot < n then
      let addr ← bmap sb ip (off / BSIZE)
      if addr = 0 then pure tot
      else
        let m := min (n - tot) (BSIZE - off % BSIZE)
        let bytes := (src.drop tot).take m
        modify fun s => s.setData addr ((s.data addr).write (off % BSIZE) bytes)
        if bytes.length < m then pure tot
        else writeLoop ip src n fuel (tot + m) (off + m)
    else pure tot

def writei (ip : Nat) (src : List UInt8) (off n : Nat) : FsM Int := do
  let s ← get
  if (s.din ip).size < off ∨ (off + n) % 2 ^ 32 < off then pure (-1)
  else if MAXFILE * BSIZE < off + n then pure (-1)
  else
    let tot ← writeLoop sb ip src n (n + 1) 0 off
    let s ← get
    if (s.din ip).size < off + tot then
      modify fun s => s.setDin ip { s.din ip with size := off + tot }
    else pure ()
    iupdate ip
    pure tot

end Fs

end Xv6
