import Xv6.Basic
import Xv6.RingList

/-! The buffer cache of `kernel/bio.c`. `none` is `bcache.head`. A call is cut into
its critical sections: what `bget` and the end of `brelse` do under `bcache.lock`,
taking and giving back the sleep lock, and the transfer from disk; `io` is where a
process stands between them.

The last fields are history. `latest` holds what was last stored in each block of
`ROOTDEV`, `left` what its last holder left there; `moved` and `released` tell when a
buffer was last put at the head of the list and last released. -/

namespace Xv6

open Function RingList

abbrev BufId := Fin NBUF

structure Buf (P : Type) where
  valid : Bool
  dev : Nat
  blockno : Nat
  lock : Option P
  refcnt : Nat
  data : Buffer

inductive Io where
  | idle
  | acquiring (b : BufId)
  | filling (b : BufId)
  | dropping (b : BufId)
  deriving DecidableEq

structure Bcache (P : Type) where
  buf : BufId → Buf P
  links : Links (Option BufId)
  disk : Nat → Buffer
  io : P → Io
  latest : Nat → Buffer
  left : Nat → Buffer
  moved : BufId → Nat
  released : BufId → Nat
  clock : Nat

inductive BioPanic where
  | bgetNoBuffers
  | bwrite
  | brelse
  deriving DecidableEq, Repr

namespace Bcache

variable {P : Type}

def binitLinks : Links (Option BufId) :=
  (List.finRange NBUF).foldl (fun k b => k.insertFront none (some b))
    ⟨fun _ => none, fun _ => none⟩

def binit (disk : Nat → Buffer) : Bcache P where
  buf := fun _ => ⟨false, 0, 0, none, 0, fun _ => 0⟩
  links := binitLinks
  disk := disk
  io := fun _ => .idle
  latest := disk
  left := disk
  moved := fun _ => 0
  released := fun _ => 0
  clock := 0

def caches (c : Bcache P) (dev blockno : Nat) (b : BufId) : Bool :=
  (c.buf b).dev == dev && (c.buf b).blockno == blockno

def findCached (c : Bcache P) (dev blockno : Nat) : Option BufId :=
  (scan c.links.next none (fun n => n.elim false (c.caches dev blockno)) (NBUF + 1)
    (c.links.next none)).join

def findUnused (c : Bcache P) : Option BufId :=
  (scan c.links.prev none (fun n => n.elim false (fun b => (c.buf b).refcnt == 0)) (NBUF + 1)
    (c.links.prev none)).join

section Update

variable [DecidableEq P]

def setBuf (c : Bcache P) (b : BufId) (x : Buf P) : Bcache P :=
  { c with buf := update c.buf b x }

def setIo (c : Bcache P) (p : P) (x : Io) : Bcache P :=
  { c with io := update c.io p x }

def bget (c : Bcache P) (p : P) (dev blockno : Nat) : Except BioPanic (Bcache P × BufId) :=
  match c.findCached dev blockno with
  | some b =>
    .ok ((c.setBuf b { c.buf b with refcnt := (c.buf b).refcnt + 1 }).setIo p (.acquiring b), b)
  | none =>
    match c.findUnused with
    | some b =>
      .ok ((c.setBuf b { c.buf b with dev := dev, blockno := blockno, valid := false,
                                      refcnt := 1 }).setIo p (.acquiring b), b)
    | none => .error .bgetNoBuffers

/-- `acquiresleep` at the end of `bget`; a process that finds the lock taken sleeps on. -/
def acquiresleep (c : Bcache P) (p : P) : Bcache P :=
  match c.io p with
  | .acquiring b =>
    if (c.buf b).lock = none then
      (c.setBuf b { c.buf b with lock := some p }).setIo p (.filling b)
    else c
  | _ => c

def fill (c : Bcache P) (p : P) : Bcache P :=
  match c.io p with
  | .filling b =>
    if (c.buf b).valid then c.setIo p .idle
    else (c.setBuf b { c.buf b with data := c.disk (c.buf b).blockno, valid := true }).setIo p .idle
  | _ => c

def store (c : Bcache P) (b : BufId) (data : Buffer) : Bcache P :=
  { c.setBuf b { c.buf b with data := data } with
    latest := update c.latest (c.buf b).blockno data }

def bwrite (c : Bcache P) (p : P) (b : BufId) : Except BioPanic (Bcache P) :=
  if (c.buf b).lock = some p then
    .ok { c with disk := update c.disk (c.buf b).blockno (c.buf b).data }
  else .error .bwrite

def releasesleep (c : Bcache P) (p : P) (b : BufId) : Except BioPanic (Bcache P) :=
  if (c.buf b).lock = some p then
    .ok { (c.setBuf b { c.buf b with lock := none }).setIo p (.dropping b) with
      left := update c.left (c.buf b).blockno (c.buf b).data }
  else .error .brelse

def drop (c : Bcache P) (p : P) : Bcache P :=
  match c.io p with
  | .dropping b =>
    let x : Buf P := { c.buf b with refcnt := (c.buf b).refcnt - 1 }
    let c' : Bcache P :=
      { (c.setBuf b x).setIo p .idle with
        released := update c.released b (c.clock + 1), clock := c.clock + 1 }
    if x.refcnt = 0 then
      { c' with
        links := (c.links.unlink (some b)).insertFront none (some b)
        moved := update c.moved b (c.clock + 1) }
    else c'
  | _ => c

def bpin (c : Bcache P) (b : BufId) : Bcache P :=
  c.setBuf b { c.buf b with refcnt := (c.buf b).refcnt + 1 }

def bunpin (c : Bcache P) (b : BufId) : Bcache P :=
  c.setBuf b { c.buf b with refcnt := (c.buf b).refcnt - 1 }

end Update

end Bcache

end Xv6
