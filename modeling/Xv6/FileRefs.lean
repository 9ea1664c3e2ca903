import Mathlib.Algebra.Order.BigOperators.Group.Finset
import Mathlib.Tactic.Linarith
import Xv6.Claims
import Xv6.FileTable

/-! References to open files and to the ends of pipes, in every state of every run. -/

namespace Xv6.Ftable

open ActionRun Claims Function

variable {P : Type*}

def FilePc.held : FilePc P → List FileId
  | .pipe1 rf => [rf]
  | .pipe2 rf wf => [rf, wf]
  | .closing fs _ | .pipeclose _ _ fs _ | .kfree _ fs _ => fs
  | _ => []

def FilePc.fresh : FilePc P → List FileId
  | .pipe1 rf => [rf]
  | .pipe2 rf wf => [rf, wf]
  | _ => []

def AfterClose.void (o : Ofile) : AfterClose → Option FileId
  | .ret _ => none
  | .exit fd => o fd

/-- The descriptor that has no reference of its own: one that `sys_dup` has just filled or
one that `exit` is about to clear. -/
def ProcFiles.void (x : ProcFiles P) : Option FileId :=
  match x.pc with
  | .dup f _ _ => some f
  | .closing _ k | .pipeclose _ _ _ k | .kfree _ _ k => k.void x.ofile
  | _ => none

def one (a : Option FileId) (f : FileId) : Nat := if a = some f then 1 else 0

@[simp] theorem one_none (f : FileId) : one none f = 0 := rfl

@[simp] theorem one_some (f : FileId) : one (some f) f = 1 := if_pos rfl

theorem one_le (a : Option FileId) (f : FileId) : one a f ≤ 1 := by
  unfold one
  split <;> omega

def fds (o : Ofile) (f : FileId) : Nat := ∑ fd, one (o fd) f

def share (x : ProcFiles P) (f : FileId) : Int :=
  (fds x.ofile f : Int) + (x.pc.held.count f : Int) - (one x.void f : Int)

theorem fds_update (o : Ofile) (fd : Fd) (v : Option FileId) (f : FileId) :
    fds (update o fd v) f + one (o fd) f = fds o f + one v f :=
  sum_update_add (fun a => one a f) o fd v

theorem one_le_fds (o : Ofile) (fd : Fd) (f : FileId) : one (o fd) f ≤ fds o f :=
  Finset.single_le_sum (f := fun i => one (o i) f) (fun _ _ => Nat.zero_le _) (Finset.mem_univ fd)

theorem two_le_fds {o : Ofile} {a b : Fd} {f : FileId} (hab : a ≠ b) (ha : o a = some f) (hb : o b = some f) :
    2 ≤ fds o f := by
  have h := fds_update o a none f
  have hb' := one_le_fds (update o a none) b f
  rw [update_of_ne hab.symm, hb, one_some] at hb'
  rw [ha, one_some, one_none] at h
  omega

def AfterClose.Ok (o : Ofile) : AfterClose → Prop
  | .ret _ => True
  | .exit fd => ∀ i < fd, o i = none

def ProcFiles.Ok (x : ProcFiles P) : Prop :=
  match x.pc with
  | .dup f old fd => old ≠ fd ∧ x.ofile old = some f ∧ x.ofile fd = some f
  | .pipe2 rf wf => rf ≠ wf
  | .closing _ k | .pipeclose _ _ _ k | .kfree _ _ k => k.Ok x.ofile
  | .exit i => ∀ fd : Fd, fd.val < i → x.ofile fd = none
  | .unused | .zombie => ∀ fd, x.ofile fd = none
  | _ => True

inductive Duty where
  | side (writable : Bool)
  | page
  deriving DecidableEq

def File.claim (x : File) : Option (Nat × Duty) :=
  if x.type = .pipe then some (x.pipe, .side x.writable) else none

def FilePc.claim : FilePc P → Option (Nat × Duty)
  | .pipeclose pi writable _ _ => some (pi, .side writable)
  | .kfree pi _ _ => some (pi, .page)
  | _ => none

def FileTable.claim (s : FileTable P) : FileId ⊕ P → Option (Nat × Duty)
  | .inl f => (s.file f).claim
  | .inr p => (s.proc p).pc.claim

def Duty.Of (x : Pipe) : Duty → Prop
  | .side true => x.writeopen = true
  | .side false => x.readopen = true
  | .page => x.readopen = false ∧ x.writeopen = false

def FileTable.live (s : FileTable P) (r : Nat × Duty) : Prop :=
  ∃ x, s.pipe r.1 = some x ∧ r.2.Of x

section

variable [DecidableEq P]

theorem setProc_self (s : FileTable P) (p : P) (x : ProcFiles P) : (s.setProc p x).proc p = x :=
  update_self ..

theorem setProc_of_ne (s : FileTable P) {p q : P} (hq : q ≠ p) (x : ProcFiles P) :
    (s.setProc p x).proc q = s.proc q :=
  update_of_ne hq ..

theorem claim_setFile (s : FileTable P) (f : FileId) (y : File) :
    (s.setFile f y).claim = update s.claim (.inl f) y.claim := by
  funext o
  cases o with
  | inl g =>
    by_cases hg : g = f
    · subst hg
      simp [FileTable.claim, FileTable.setFile]
    · rw [update_of_ne (by simpa using hg)]
      simp [FileTable.claim, FileTable.setFile, hg]
  | inr q => rfl

theorem claim_setProc (s : FileTable P) (p : P) (x : ProcFiles P) :
    (s.setProc p x).claim = update s.claim (.inr p) x.pc.claim := by
  funext o
  cases o with
  | inl g => rfl
  | inr q =>
    by_cases hq : q = p
    · subst hq
      simp [FileTable.claim, FileTable.setProc]
    · rw [update_of_ne (by simpa using hq)]
      simp [FileTable.claim, FileTable.setProc, hq]

end

structure Inv [Fintype P] (s : FileTable P) : Prop where
  refs : ∀ f, (s.file f).ref = ∑ p, share (s.proc p) f
  idle : ∀ f, (s.file f).ref = 0 → (s.file f).type = .none
  ends : ∀ f, (s.file f).type = .pipe → (s.file f).readable = !(s.file f).writable
  ok : ∀ p, (s.proc p).Ok
  fresh : ∀ p, ∀ f ∈ (s.proc p).pc.fresh, (s.file f).ref = 1 ∧ (s.file f).type = .none
  child : ∀ p c i, (s.proc p).pc = .fork c i →
    (s.proc c).pc = .embryo p ∧ ∀ fd : Fd, i ≤ fd.val → (s.proc c).ofile fd = none
  duties : Exact s.claim s.live
  pages : ∀ pi, s.made pi = s.freed pi + if (s.pipe pi).isSome then 1 else 0

section Share

variable {x : ProcFiles P} {f : FileId} {fd : Fd}

theorem void_le_fds (hok : x.Ok) (f : FileId) : one x.void f ≤ fds x.ofile f := by
  obtain ⟨o, pc⟩ := x
  have hk (k : AfterClose) : one (k.void o) f ≤ fds o f := by
    cases k with
    | ret r => exact Nat.zero_le _
    | exit fd => exact one_le_fds o fd f
  cases pc with
  | dup g old fd =>
    have hg : o fd = some g := hok.2.2
    have hle := one_le_fds o fd f
    rwa [hg] at hle
  | closing fs k => exact hk k
  | pipeclose pi w fs k => exact hk k
  | kfree pi fs k => exact hk k
  | _ => exact Nat.zero_le _

theorem share_nonneg (hok : x.Ok) (f : FileId) : 0 ≤ share x f := by
  have hle := void_le_fds hok f
  unfold share
  omega

theorem share_pos_of_held (hok : x.Ok) (hf : f ∈ x.pc.held) : 1 ≤ share x f := by
  have hle := void_le_fds hok f
  have hc := List.count_pos_iff.mpr hf
  unfold share
  omega

theorem share_pos_of_dup {old : Fd} (hok : x.Ok) (hpc : x.pc = .dup f old fd) : 1 ≤ share x f := by
  rw [ProcFiles.Ok, hpc] at hok
  obtain ⟨hne, ho, hn⟩ := hok
  have h2 := two_le_fds hne ho hn
  have h1 := one_le x.void f
  unfold share
  omega

theorem share_pos_of_fd (hv : x.void = none) (hf : x.ofile fd = some f) : 1 ≤ share x f := by
  have hle := one_le_fds x.ofile fd f
  rw [hf, one_some] at hle
  unfold share
  rw [hv, one_none]
  omega

end Share

namespace Inv

variable [Fintype P] {s s' : FileTable P} {p q : P} {x : ProcFiles P} {f : FileId}

theorem ok_at {pc : FilePc P} (h : Inv s) (hp : (s.proc p).pc = pc) : ProcFiles.Ok ⟨(s.proc p).ofile, pc⟩ :=
  hp ▸ h.ok p

theorem share_le (h : Inv s) (p : P) (f : FileId) : share (s.proc p) f ≤ (s.file f).ref := by
  rw [h.refs f]
  exact Finset.single_le_sum (f := fun q => share (s.proc q) f) (fun q _ => share_nonneg (h.ok q) f)
    (Finset.mem_univ p)

theorem fresh_other (h : Inv s) (hpq : q ≠ p) (hf : 1 ≤ share (s.proc p) f) :
    f ∉ (s.proc q).pc.fresh := by
  intro hm
  have href := (h.fresh q f hm).1
  have hheld : f ∈ (s.proc q).pc.held := by
    generalize (s.proc q).pc = pc at hm ⊢
    cases pc with
    | pipe1 rf => exact hm
    | pipe2 rf wf => exact hm
    | _ => cases hm
  have hq := share_pos_of_held (h.ok q) hheld
  have hsum : share (s.proc p) f + share (s.proc q) f ≤ ∑ r, share (s.proc r) f :=
    Finset.add_le_sum (f := fun r => share (s.proc r) f) (fun r _ => share_nonneg (h.ok r) f)
      (Finset.mem_univ p) (Finset.mem_univ q) hpq.symm
  rw [← h.refs f] at hsum
  omega

theorem not_fresh_of_free (h : Inv s) (hf : (s.file f).ref = 0) (q : P) : f ∉ (s.proc q).pc.fresh := by
  intro hm
  have href := (h.fresh q f hm).1
  omega

variable [DecidableEq P]

theorem move (h : Inv s) (hproc : s'.proc = update s.proc p x)
    (hcount : ∀ g, (s'.file g).ref + share (s.proc p) g = (s.file g).ref + share x g)
    (hidle : ∀ g, (s'.file g).ref = 0 → (s'.file g).type = .none)
    (hends : ∀ g, (s'.file g).type = .pipe → (s'.file g).readable = !(s'.file g).writable)
    (hok : x.Ok) (hfresh : ∀ g ∈ x.pc.fresh, (s'.file g).ref = 1 ∧ (s'.file g).type = .none)
    (hframe : ∀ q ≠ p, ∀ g ∈ (s.proc q).pc.fresh, s'.file g = s.file g)
    (hchild : ∀ q c i, (s'.proc q).pc = .fork c i →
      (s'.proc c).pc = .embryo q ∧ ∀ fd : Fd, i ≤ fd.val → (s'.proc c).ofile fd = none)
    (hduties : Exact s'.claim s'.live)
    (hpages : ∀ pi, s'.made pi = s'.freed pi + if (s'.pipe pi).isSome then 1 else 0) : Inv s' := by
  refine ⟨fun g => ?_, hidle, hends, fun q => ?_, fun q g hg => ?_, hchild, hduties, hpages⟩
  · have hsum := sum_update_add (fun y => share y g) s.proc p x
    have hg := hcount g
    rw [h.refs g] at hg
    rw [hproc]
    omega
  · rw [hproc]
    by_cases hq : q = p
    · rw [hq, update_self]
      exact hok
    · rw [update_of_ne hq]
      exact h.ok q
  · rw [hproc] at hg
    by_cases hq : q = p
    · rw [hq, update_self] at hg
      exact hfresh g hg
    · rw [update_of_ne hq] at hg
      rw [hframe q hq g hg]
      exact h.fresh q g hg

theorem child_of_move (h : Inv s) (hproc : s'.proc = update s.proc p x)
    (hold : ∀ q, (s.proc p).pc ≠ .embryo q)
    (hnew : ∀ c i, x.pc = .fork c i →
      (s.proc c).pc = .embryo p ∧ ∀ fd : Fd, i ≤ fd.val → (s.proc c).ofile fd = none)
    (q c : P) (i : Nat) (hq : (s'.proc q).pc = .fork c i) :
    (s'.proc c).pc = .embryo q ∧ ∀ fd : Fd, i ≤ fd.val → (s'.proc c).ofile fd = none := by
  have hc : (s.proc c).pc = .embryo q ∧ ∀ fd : Fd, i ≤ fd.val → (s.proc c).ofile fd = none := by
    rw [hproc] at hq
    by_cases hqp : q = p
    · rw [hqp, update_self] at hq
      exact hqp ▸ hnew c i hq
    · rw [update_of_ne hqp] at hq
      exact h.child q c i hq
  rw [hproc, update_of_ne]
  · exact hc
  · rintro rfl
    exact hold q hc.1

theorem setProc (h : Inv s) (hcount : ∀ g, share x g = share (s.proc p) g) (hok : x.Ok)
    (hfresh : ∀ g ∈ x.pc.fresh, g ∈ (s.proc p).pc.fresh)
    (hold : ∀ q, (s.proc p).pc ≠ .embryo q)
    (hnew : ∀ c i, x.pc = .fork c i →
      (s.proc c).pc = .embryo p ∧ ∀ fd : Fd, i ≤ fd.val → (s.proc c).ofile fd = none)
    (hpc : x.pc.claim = (s.proc p).pc.claim) : Inv (s.setProc p x) :=
  h.move rfl (fun g => by rw [hcount]; rfl) h.idle h.ends hok (fun g hg => h.fresh p g (hfresh g hg))
    (fun _ _ _ _ => rfl) (h.child_of_move rfl hold hnew)
    (by rw [claim_setProc, hpc]; exact (update_eq_self (Sum.inr p) s.claim).symm ▸ h.duties) h.pages

end Inv

end Xv6.Ftable
