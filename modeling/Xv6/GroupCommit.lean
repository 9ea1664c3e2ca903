import Xv6.LogSystem
import Xv6.OpCount

/-! Isolation of group commit. The invariant couples `outstanding`, `committing`,
the header, the sleepers and the point `commit` has reached. -/

namespace Xv6

open Function

namespace LogSystem

variable {P : Type} [DecidableEq P] {a : LogAct P} {s : LogSystem P}

inductive Trans (s : LogSystem P) : LogAct P → LogSystem P → Prop where
  | stutter (a : LogAct P) : Trans s a s
  | sleep (p : P) (hp : s.proc p = .outside ∨ s.proc p = .woken)
      (h : Xv6.beginOp s.machine.log = none) :
      Trans s (.beginOp p) { s with proc := update s.proc p .asleep }
  | enter (p : P) (l : Log) (hp : s.proc p = .outside ∨ s.proc p = .woken)
      (h : Xv6.beginOp s.machine.log = some l) :
      Trans s (.beginOp p) { s with
        machine := { s.machine with log := l }
        proc := update s.proc p (.inOp []) }
  | log (p : P) (b : Nat) (data : Buffer) (logged : List Nat) (l : Log) (new : Bool)
      (hp : s.proc p = .inOp logged) (h : Xv6.logWrite s.machine.log b = .ok (l, new)) :
      Trans s (.logWrite p b data) { s with
        machine := { s.machine with bufs := update s.machine.bufs b data, log := l }
        proc := update s.proc p (.inOp (b :: logged))
        group := b :: s.group }
  | commitStart (p : P) (logged : List Nat) (l : Log) (hp : s.proc p = .inOp logged)
      (h : Xv6.endOp s.machine.log = .ok (l, true)) :
      Trans s (.endOp p) { s with
        machine := { s.machine with log := l, pc := .commit }
        proc := update s.proc p (.inCommit logged)
        last := [] }
  | leave (p : P) (logged : List Nat) (l : Log) (hp : s.proc p = .inOp logged)
      (h : Xv6.endOp s.machine.log = .ok (l, false)) :
      Trans s (.endOp p) { s with
        machine := { s.machine with log := l }
        proc := wakeupLog (update s.proc p .outside) }
  | finish (p : P) (logged : List Nat) (hp : s.proc p = .inCommit logged)
      (hpc : s.machine.pc = .finish) :
      Trans s (.commit p) { s with
        machine := s.machine.advance
        proc := wakeupLog (update s.proc p .outside)
        group := [] }
  | head (p : P) (logged : List Nat) (hp : s.proc p = .inCommit logged)
      (hpc : s.machine.pc = .commitHead) :
      Trans s (.commit p) { s with machine := s.machine.advance, last := s.machine.log.lh.blocks }
  | progress (p : P) (logged : List Nat) (hp : s.proc p = .inCommit logged)
      (hpc : s.machine.pc ≠ .finish ∧ s.machine.pc ≠ .commitHead) :
      Trans s (.commit p) { s with machine := s.machine.advance }

theorem step_trans {t : LogSystem P} (h : s.step a = .ok t) : Trans s a t := by
  cases a with
  | beginOp p =>
    simp only [step] at h
    split at h
    · rename_i hp
      cases hb : Xv6.beginOp s.machine.log with
      | none => simp only [hb, Except.ok.injEq] at h; exact h ▸ .sleep p hp hb
      | some l => simp only [hb, Except.ok.injEq] at h; exact h ▸ .enter p l hp hb
    · cases h; exact .stutter _
  | logWrite p b data =>
    simp only [step] at h
    cases hp : s.proc p with
    | inOp logged =>
      simp only [hp] at h
      cases hw : Xv6.logWrite s.machine.log b with
      | error e => simp [hw] at h
      | ok r =>
        obtain ⟨l, new⟩ := r
        simp only [hw, Except.ok.injEq] at h
        exact h ▸ .log p b data logged l new hp hw
    | _ => simp only [hp, Except.ok.injEq] at h; exact h ▸ .stutter _
  | endOp p =>
    simp only [step] at h
    cases hp : s.proc p with
    | inOp logged =>
      simp only [hp] at h
      cases he : Xv6.endOp s.machine.log with
      | error e => simp [he] at h
      | ok r =>
        obtain ⟨l, c⟩ := r
        cases c with
        | true => simp only [he, Except.ok.injEq] at h; exact h ▸ .commitStart p logged l hp he
        | false => simp only [he, Except.ok.injEq] at h; exact h ▸ .leave p logged l hp he
    | _ => simp only [hp, Except.ok.injEq] at h; exact h ▸ .stutter _
  | commit p =>
    simp only [step] at h
    cases hp : s.proc p with
    | inCommit logged =>
      simp only [hp] at h
      split at h
      · rename_i hpc; cases h; exact .finish p logged hp hpc
      · rename_i hpc; cases h; exact .head p logged hp hpc
      · rename_i hf hc; cases h; exact .progress p logged hp ⟨hf, hc⟩
    | _ => simp only [hp, Except.ok.injEq] at h; exact h ▸ .stutter _

theorem step_error {e : LogPanic} (h : s.step a = .error e) :
    (∃ p b data logged, a = .logWrite p b data ∧ s.proc p = .inOp logged ∧
      Xv6.logWrite s.machine.log b = .error e) ∨
    ∃ p logged, a = .endOp p ∧ s.proc p = .inOp logged ∧
      Xv6.endOp s.machine.log = .error e := by
  cases a with
  | beginOp p =>
    simp only [step] at h
    split at h
    · split at h <;> cases h
    · cases h
  | logWrite p b data =>
    cases hp : s.proc p with
    | inOp logged =>
      simp only [step, hp] at h
      cases hw : Xv6.logWrite s.machine.log b with
      | error f =>
        simp only [hw, Except.error.injEq] at h
        exact Or.inl ⟨p, b, data, logged, rfl, hp, h ▸ hw⟩
      | ok r => simp [hw] at h
    | _ => simp [step, hp] at h
  | endOp p =>
    cases hp : s.proc p with
    | inOp logged =>
      simp only [step, hp] at h
      cases he : Xv6.endOp s.machine.log with
      | error f =>
        simp only [he, Except.error.injEq] at h
        exact Or.inr ⟨p, logged, rfl, hp, congrArg Except.error h⟩
      | ok r =>
        obtain ⟨l, c⟩ := r
        cases c <;> simp [he] at h
    | _ => simp [step, hp] at h
  | commit p =>
    simp only [step] at h
    split at h
    · split at h <;> cases h
    · cases h

end LogSystem

def OpPc.isInOp : OpPc → Bool
  | .inOp _ => true
  | _ => false

def OpPc.logged : OpPc → List Nat
  | .inOp bs | .inCommit bs => bs
  | _ => []

def OpPc.isInCommit : OpPc → Bool
  | .inCommit _ => true
  | _ => false

def OpPc.kind : OpPc → OpKind
  | .outside => .outside
  | .asleep => .asleep
  | .woken => .woken
  | .inOp _ => .inOp
  | .inCommit _ => .inCommit

theorem OpPc.kind_eq_inCommit (x : OpPc) : x.kind = .inCommit ↔ x.isInCommit = true := by
  cases x <;> simp [OpPc.kind, OpPc.isInCommit]

theorem OpPc.kind_eq_inOp (x : OpPc) : x.kind = .inOp ↔ x.isInOp = true := by
  cases x <;> simp [OpPc.kind, OpPc.isInOp]

theorem OpPc.kind_update {P : Type} [DecidableEq P] (proc : P → OpPc) (p : P) (x : OpPc) :
    (fun q => (update proc p x q).kind) =
      update (fun q => (proc q).kind) p x.kind :=
  Function.comp_update OpPc.kind proc p x

/-- The group's blocks are in the header until the header write, and in the
transaction just committed after it. -/
def GroupInv (lh : LogHeader) (group last : List Nat) : LogPc → Prop
  | .run | .commit | .writeLog _ | .commitHead => ∀ b, b ∈ group ↔ b ∈ lh.blocks
  | .install _ => ∀ b ∈ group, b ∈ last
  | .clearHead | .finish => lh.n = 0 ∧ ∀ b ∈ group, b ∈ last
  | .readHead | .reinstall _ | .recoverHead => False

structure SysInv {P : Type} [Fintype P] (s : LogSystem P) : Prop where
  op : OpInv s.machine.log (fun p => (s.proc p).kind)
  idle : (∀ p, (s.proc p).isInCommit = false) → s.machine.pc = .run
  busy : ∀ p, (s.proc p).isInCommit = true → s.machine.pc ≠ .run
  logged : ∀ p, ∀ b ∈ (s.proc p).logged, b ∈ s.group
  group : GroupInv s.machine.log.lh s.group s.last s.machine.pc
  nodup : s.machine.log.lh.blocks.Nodup

namespace LogSystem

variable {P : Type}

/-- `wakeup` is invisible to whatever does not tell a sleeper from a process that
is about to test the condition again. -/
theorem wakeupLog_congr {α : Type} (f : OpPc → α) (hf : f .woken = f .asleep)
    (proc : P → OpPc) (q : P) : f (wakeupLog proc q) = f (proc q) := by
  by_cases hq : proc q = .asleep
  · simp [wakeupLog, hq, hf]
  · simp [wakeupLog, hq]

theorem wakeupLog_kind [DecidableEq P] (proc : P → OpPc) (p : P) (x : OpPc) :
    (fun q => (wakeupLog (update proc p x) q).kind) =
      fun q => (update (fun q => (proc q).kind) p x.kind q).wake := by
  rw [← OpPc.kind_update]
  funext q
  cases hq : update proc p x q <;> simp [wakeupLog, hq, OpPc.kind, OpKind.wake]

theorem init_inv [Fintype P] (start size : Nat) (disk : Nat → Buffer) (stale : Nat → Nat) :
    SysInv (init start size disk stale : LogSystem P) := by
  constructor
  · exact OpInv.init start size stale
  · intro _; rfl
  · intro p hp; simp [init, OpPc.isInCommit] at hp
  · intro p b hb; simp [init, OpPc.logged] at hb
  · simp [init, GroupInv, LogHeader.blocks]
  · simp [init, LogHeader.blocks]

end LogSystem

namespace SysInv

variable {P : Type} [Fintype P] {s : LogSystem P} {p : P}

theorem committing (h : SysInv s) (hp : (s.proc p).isInCommit = true) :
    s.machine.log.committing = true ∧ s.machine.log.outstanding = 0 ∧
      ∀ q, (s.proc q).isInCommit = true → q = p := by
  obtain ⟨hc, hzero, honly⟩ := h.op.busy p ((OpPc.kind_eq_inCommit _).mpr hp)
  exact ⟨hc, hzero, fun q hq => honly q ((OpPc.kind_eq_inCommit _).mpr hq)⟩

theorem no_op_of_commit (h : SysInv s) (hp : (s.proc p).isInCommit = true) (q : P) (bs : List Nat) :
    s.proc q ≠ .inOp bs := by
  intro hq
  exact h.op.no_op_of_commit ((OpPc.kind_eq_inCommit _).mpr hp) q (by simp [hq, OpPc.kind])

theorem of_free (h : SysInv s) (hc : s.machine.log.committing = false) :
    s.machine.pc = .run ∧ ∀ q, (s.proc q).isInCommit = false := by
  have hno : ∀ q, (s.proc q).isInCommit = false := by
    intro q
    by_contra hq
    exact h.op.of_free hc q ((OpPc.kind_eq_inCommit _).mpr (by simpa using hq))
  exact ⟨h.idle hno, hno⟩

theorem of_inOp (h : SysInv s) {bs : List Nat} (hp : s.proc p = .inOp bs) :
    s.machine.log.committing = false ∧ s.machine.pc = .run ∧
      ∀ q, (s.proc q).isInCommit = false := by
  have hc := (h.op.of_inOp (p := p) (by simp [hp, OpPc.kind])).1
  exact ⟨hc, h.of_free hc⟩

end SysInv

end Xv6
