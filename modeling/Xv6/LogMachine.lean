import Mathlib.Logic.Relation
import Xv6.Log

/-! A machine that runs the log over a disk and may lose power between any two
block writes. `bufs` is what `bread` returns; it and the in-memory log are lost
in a crash, after which `initlog` recovers from the disk alone. -/

namespace Xv6

open Function

/-- Where the thread that owns the log is. `run` is the time outside `commit`
and `recover_from_log`; the other points stand before one block write each, or
before the end of a loop. -/
inductive LogPc where
  | run
  | commit
  | writeLog (tail : Nat)
  | commitHead
  | install (tail : Nat)
  | clearHead
  | finish
  | readHead
  | reinstall (tail : Nat)
  | recoverHead
  deriving DecidableEq, Repr

structure LogMachine where
  disk : Nat → Buffer
  bufs : Nat → Buffer
  log : Log
  pc : LogPc

abbrev Txn := List (Nat × Buffer)

def LogMachine.bwrite (m : LogMachine) (b : Nat) (data : Buffer) : LogMachine :=
  { m with disk := update m.disk b data, bufs := update m.bufs b data }

def LogMachine.setN (m : LogMachine) (n : Nat) : LogMachine :=
  { m with log := { m.log with lh := { m.log.lh with n := n } } }

def LogMachine.writeLog (m : LogMachine) (tail : Nat) : LogMachine :=
  m.bwrite (m.log.start + tail + 1) (m.bufs (m.log.lh.block tail))

def LogMachine.install (m : LogMachine) (tail : Nat) : LogMachine :=
  m.bwrite (m.log.lh.block tail) (m.bufs (m.log.start + tail + 1))

def LogMachine.writeHead (m : LogMachine) : LogMachine :=
  m.bwrite m.log.start (headBlock m.log.lh (m.bufs m.log.start))

def LogMachine.pending (m : LogMachine) : Txn :=
  m.log.lh.blocks.map (fun b => (b, m.bufs b))

/-- The next step of `commit` (with the end of `end_op`) or of `recover_from_log`. -/
def LogMachine.advance (m : LogMachine) : LogMachine :=
  match m.pc with
  | .run => m
  | .commit => if m.log.lh.n > 0 then { m with pc := .writeLog 0 } else { m with pc := .finish }
  | .writeLog tail =>
    if tail < m.log.lh.n then { m.writeLog tail with pc := .writeLog (tail + 1) }
    else { m with pc := .commitHead }
  | .commitHead => { m.writeHead with pc := .install 0 }
  | .install tail =>
    if tail < m.log.lh.n then { m.install tail with pc := .install (tail + 1) }
    else { m.setN 0 with pc := .clearHead }
  | .clearHead => { m.writeHead with pc := .finish }
  | .finish => { m with log := { m.log with committing := false }, pc := .run }
  | .readHead =>
    { m with log := { m.log with lh := readHead m.log.lh (m.bufs m.log.start) },
             pc := .reinstall 0 }
  | .reinstall tail =>
    if tail < m.log.lh.n then { m.install tail with pc := .reinstall (tail + 1) }
    else { m.setN 0 with pc := .recoverHead }
  | .recoverHead => { m.writeHead with pc := .run }

def LogMachine.boot (start size : Nat) (disk : Nat → Buffer) : LogMachine where
  disk := disk
  bufs := disk
  log := ⟨start, size, 0, false, ⟨0, fun _ => 0⟩⟩
  pc := .readHead

def LogPc.recovering : LogPc → Bool
  | .readHead | .reinstall _ | .recoverHead => true
  | _ => false

def Home (start size b : Nat) : Prop := b < start ∨ (start < b ∧ start + size ≤ b)

instance (start size b : Nat) : Decidable (Home start size b) :=
  inferInstanceAs (Decidable (_ ∨ _))

/-- A step, labelled with the transactions whose header reaches the disk in it. -/
inductive LogStep : LogMachine → List Txn → LogMachine → Prop where
  | beginOp {m : LogMachine} {l : Log} (hpc : m.pc.recovering = false)
      (h : Xv6.beginOp m.log = some l) : LogStep m [] { m with log := l }
  | logWrite {m : LogMachine} {b : Nat} {data : Buffer} {l : Log} {new : Bool}
      (hpc : m.pc.recovering = false) (hb : b < 256 ^ 4) (hhome : Home m.log.start m.log.size b)
      (h : Xv6.logWrite m.log b = .ok (l, new)) :
      LogStep m [] { m with bufs := update m.bufs b data, log := l }
  | endOp {m : LogMachine} {l : Log} {doCommit : Bool} (hpc : m.pc.recovering = false)
      (hop : 1 ≤ m.log.outstanding) (h : Xv6.endOp m.log = .ok (l, doCommit)) :
      LogStep m [] { m with log := l, pc := if doCommit then .commit else m.pc }
  | advance (m : LogMachine) :
      LogStep m (if m.pc = .commitHead then [m.pending] else []) m.advance
  | crash (m : LogMachine) :
      LogStep m [] (LogMachine.boot m.log.start m.log.size m.disk)

inductive LogRun (start size : Nat) (disk : Nat → Buffer) : List Txn → LogMachine → Prop where
  | boot : LogRun start size disk [] (LogMachine.boot start size disk)
  | step {ts us : List Txn} {m m' : LogMachine} (h : LogRun start size disk ts m)
      (hs : LogStep m us m') : LogRun start size disk (ts ++ us) m'

def installTxn (d : Nat → Buffer) (t : Txn) : Nat → Buffer :=
  t.foldl (fun d w => update d w.1 w.2) d

def replay (d : Nat → Buffer) (ts : List Txn) : Nat → Buffer := ts.foldl installTxn d

end Xv6
