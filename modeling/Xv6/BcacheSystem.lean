import Xv6.Bcache
import Xv6.LogMachine

/-! Processes that share the buffer cache and the log. Outside `commit` a process
reads blocks, changes a home block it holds inside an operation, logs the change
before it releases the buffer, and releases buffers. `commit` is a program over the
same calls, cut at every critical section and every block transfer. `log_write` is one
step together with the `bpin` it makes under `log.lock`. -/

namespace Xv6

open Function

inductive CommitPc where
  | commit
  | logTo (t : Nat)
  | logFrom (t : Nat) (dst : BufId)
  | logCopy (t : Nat) (dst src : BufId)
  | logWrite (t : Nat) (dst src : BufId)
  | logDropFrom (t : Nat) (dst src : BufId)
  | logDropTo (t : Nat) (dst : BufId)
  | headRead (clear : Bool)
  | headEdit (clear : Bool) (hb : BufId)
  | headWrite (clear : Bool) (hb : BufId)
  | headDrop (clear : Bool) (hb : BufId)
  | instLog (t : Nat)
  | instDst (t : Nat) (lbuf : BufId)
  | instCopy (t : Nat) (lbuf dbuf : BufId)
  | instWrite (t : Nat) (lbuf dbuf : BufId)
  | instUnpin (t : Nat) (lbuf dbuf : BufId)
  | instDropLog (t : Nat) (lbuf dbuf : BufId)
  | instDropDst (t : Nat) (dbuf : BufId)
  | finish
  deriving DecidableEq

/-- `dirty` lists the buffers changed since they were last logged. -/
inductive FsPc where
  | outside
  | asleep
  | woken
  | inOp (dirty : List BufId)
  | inCommit (pc : CommitPc)
  deriving DecidableEq

def FsPc.dirty : FsPc → List BufId
  | .inOp bs => bs
  | _ => []

def FsPc.isInCommit : FsPc → Bool
  | .inCommit _ => true
  | _ => false

structure BioSystem (P : Type) where
  cache : Bcache P
  log : Log
  pc : P → FsPc

inductive SysPanic where
  | bio (e : BioPanic)
  | log (e : LogPanic)
  deriving DecidableEq, Repr

inductive BioAct (P : Type) where
  | bget (p : P) (blockno : Nat)
  | acquiresleep (p : P)
  | fill (p : P)
  | store (p : P) (b : BufId) (data : Buffer)
  | logWrite (p : P) (b : BufId)
  | brelse (p : P) (b : BufId)
  | drop (p : P)
  | beginOp (p : P)
  | endOp (p : P)
  | commit (p : P)

def FsPc.wake : FsPc → FsPc
  | .asleep => .woken
  | x => x

namespace BioSystem

variable {P : Type} [DecidableEq P]

def setPc (s : BioSystem P) (p : P) (x : FsPc) : BioSystem P :=
  { s with pc := update s.pc p x }

def goto (s : BioSystem P) (p : P) (x : CommitPc) : BioSystem P := s.setPc p (.inCommit x)

/-- A call that may panic in `bio.c`, and where the committing process goes on. -/
def andGoto (s : BioSystem P) (p : P) (r : Except BioPanic (Bcache P)) (x : CommitPc) :
    Except SysPanic (BioSystem P) :=
  match r with
  | .ok c => .ok ({ s with cache := c }.goto p x)
  | .error e => .error (.bio e)

def getAndGoto (s : BioSystem P) (p : P) (blockno : Nat) (x : BufId → CommitPc) :
    Except SysPanic (BioSystem P) :=
  match s.cache.bget p ROOTDEV blockno with
  | .ok (c, b) => .ok ({ s with cache := c }.goto p (x b))
  | .error e => .error (.bio e)

def commitStep (s : BioSystem P) (p : P) : CommitPc → Except SysPanic (BioSystem P)
  | .commit => .ok (s.goto p (if 0 < s.log.lh.n then .logTo 0 else .finish))
  | .logTo t =>
    if t < s.log.lh.n then s.getAndGoto p (s.log.start + t + 1) (.logFrom t)
    else .ok (s.goto p (.headRead false))
  | .logFrom t dst => s.getAndGoto p (s.log.lh.block t) (.logCopy t dst)
  | .logCopy t dst src =>
    .ok ({ s with cache := s.cache.store dst (s.cache.buf src).data }.goto p (.logWrite t dst src))
  | .logWrite t dst src => s.andGoto p (s.cache.bwrite p dst) (.logDropFrom t dst src)
  | .logDropFrom t dst src => s.andGoto p (s.cache.releasesleep p src) (.logDropTo t dst)
  | .logDropTo t dst => s.andGoto p (s.cache.releasesleep p dst) (.logTo (t + 1))
  | .headRead clear => s.getAndGoto p s.log.start (.headEdit clear)
  | .headEdit clear hb =>
    .ok ({ s with cache := s.cache.store hb (headBlock s.log.lh (s.cache.buf hb).data) }.goto p
      (.headWrite clear hb))
  | .headWrite clear hb => s.andGoto p (s.cache.bwrite p hb) (.headDrop clear hb)
  | .headDrop clear hb =>
    s.andGoto p (s.cache.releasesleep p hb) (if clear then .finish else .instLog 0)
  | .instLog t =>
    if t < s.log.lh.n then s.getAndGoto p (s.log.start + t + 1) (.instDst t)
    else .ok ({ s with log := { s.log with lh := { s.log.lh with n := 0 } } }.goto p
      (.headRead true))
  | .instDst t lbuf => s.getAndGoto p (s.log.lh.block t) (.instCopy t lbuf)
  | .instCopy t lbuf dbuf =>
    .ok ({ s with cache := s.cache.store dbuf (s.cache.buf lbuf).data }.goto p
      (.instWrite t lbuf dbuf))
  | .instWrite t lbuf dbuf => s.andGoto p (s.cache.bwrite p dbuf) (.instUnpin t lbuf dbuf)
  | .instUnpin t lbuf dbuf =>
    .ok ({ s with cache := s.cache.bunpin dbuf }.goto p (.instDropLog t lbuf dbuf))
  | .instDropLog t lbuf dbuf => s.andGoto p (s.cache.releasesleep p lbuf) (.instDropDst t dbuf)
  | .instDropDst t dbuf => s.andGoto p (s.cache.releasesleep p dbuf) (.instLog (t + 1))
  | .finish =>
    .ok { s with
      log := { s.log with committing := false }
      pc := fun q => (update s.pc p .outside q).wake }

def Holds (s : BioSystem P) (p : P) (b : BufId) : Prop :=
  s.cache.io p = .idle ∧ (s.cache.buf b).lock = some p

instance (s : BioSystem P) (p : P) (b : BufId) : Decidable (s.Holds p b) :=
  inferInstanceAs (Decidable (_ ∧ _))

def step (s : BioSystem P) : BioAct P → Except SysPanic (BioSystem P)
  | .bget p blockno =>
    if s.cache.io p = .idle ∧ (s.pc p).isInCommit = false then
      match s.cache.bget p ROOTDEV blockno with
      | .ok (c, _) => .ok { s with cache := c }
      | .error e => .error (.bio e)
    else .ok s
  | .acquiresleep p => .ok { s with cache := s.cache.acquiresleep p }
  | .fill p => .ok { s with cache := s.cache.fill p }
  | .store p b data =>
    match s.pc p with
    | .inOp dirty =>
      if s.Holds p b ∧ Home s.log.start s.log.size (s.cache.buf b).blockno then
        .ok ({ s with cache := s.cache.store b data }.setPc p (.inOp (b :: dirty)))
      else .ok s
    | _ => .ok s
  | .logWrite p b =>
    match s.pc p with
    | .inOp dirty =>
      if s.Holds p b ∧ Home s.log.start s.log.size (s.cache.buf b).blockno then
        match Xv6.logWrite s.log (s.cache.buf b).blockno with
        | .ok (l, new) =>
          .ok ({ s with cache := if new then s.cache.bpin b else s.cache, log := l }.setPc p
            (.inOp (dirty.filter (· ≠ b))))
        | .error e => .error (.log e)
      else .ok s
    | _ => .ok s
  | .brelse p b =>
    if s.cache.io p = .idle ∧ (s.pc p).isInCommit = false ∧ b ∉ (s.pc p).dirty then
      match s.cache.releasesleep p b with
      | .ok c => .ok { s with cache := c }
      | .error e => .error (.bio e)
    else .ok s
  | .drop p => .ok { s with cache := s.cache.drop p }
  | .beginOp p =>
    if s.pc p = .outside ∨ s.pc p = .woken then
      match Xv6.beginOp s.log with
      | none => .ok (s.setPc p .asleep)
      | some l => .ok ({ s with log := l }.setPc p (.inOp []))
    else .ok s
  | .endOp p =>
    if s.pc p = .inOp [] ∧ s.cache.io p = .idle then
      match Xv6.endOp s.log with
      | .ok (l, true) => .ok ({ s with log := l }.setPc p (.inCommit .commit))
      | .ok (l, false) =>
        .ok { s with log := l, pc := fun q => (update s.pc p .outside q).wake }
      | .error e => .error (.log e)
    else .ok s
  | .commit p =>
    match s.pc p with
    | .inCommit x => if s.cache.io p = .idle then s.commitStep p x else .ok s
    | _ => .ok s

/-- After `binit` and `initlog`, with an empty header that may hold stale entries. -/
def init (start size : Nat) (disk : Nat → Buffer) (stale : Nat → Nat) : BioSystem P where
  cache := Bcache.binit disk
  log := ⟨start, size, 0, false, ⟨0, stale⟩⟩
  pc := fun _ => .outside

end BioSystem

end Xv6
