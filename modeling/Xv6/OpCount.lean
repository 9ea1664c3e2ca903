import Mathlib.Algebra.BigOperators.Ring.Finset
import Mathlib.Algebra.Order.BigOperators.Group.Finset
import Xv6.ActionRun
import Xv6.Log

/-! How the counters of the log follow the processes that use it, whatever else
those processes do. `OpKind` is all of a process that `begin_op`, `end_op` and the
end of `commit` see or change. -/

namespace Xv6

open Function

inductive OpKind where
  | outside
  | asleep
  | woken
  | inOp
  | inCommit
  deriving DecidableEq, Repr

def OpKind.weight : OpKind → Int
  | .inOp => 1
  | _ => 0

def OpKind.wake : OpKind → OpKind
  | .asleep => .woken
  | k => k

structure OpInv {P : Type} [Fintype P] (l : Log) (kind : P → OpKind) : Prop where
  ops : l.outstanding = ∑ p, (kind p).weight
  idle : (∀ p, kind p ≠ .inCommit) → l.committing = false
  busy : ∀ p, kind p = .inCommit → l.committing = true ∧ l.outstanding = 0 ∧
    ∀ q, kind q = .inCommit → q = p
  asleep : ∀ p, kind p = .asleep → l.committing = true ∨
    l.lh.n + (l.outstanding + 1) * MAXOPBLOCKS > LOGSIZE

theorem OpKind.weight_nonneg (k : OpKind) : 0 ≤ k.weight := by
  cases k <;> simp [OpKind.weight]

theorem OpKind.wake_weight (k : OpKind) : k.wake.weight = k.weight := by
  cases k <;> rfl

theorem OpKind.wake_eq_inCommit {k : OpKind} : k.wake = .inCommit ↔ k = .inCommit := by
  cases k <;> simp [OpKind.wake]

theorem OpKind.wake_ne_asleep (k : OpKind) : k.wake ≠ .asleep := by
  cases k <;> simp [OpKind.wake]

namespace OpInv

variable {P : Type} [Fintype P] {l l' : Log} {kind : P → OpKind} {p : P}

theorem init (start size : Nat) (stale : Nat → Nat) :
    OpInv ⟨start, size, 0, false, ⟨0, stale⟩⟩ (fun _ : P => .outside) := by
  constructor
  · simp [OpKind.weight]
  · intro _; rfl
  · intro p hp; cases hp
  · intro p hp; cases hp

theorem outstanding_nonneg (h : OpInv l kind) : 0 ≤ l.outstanding := by
  rw [h.ops]
  exact Finset.sum_nonneg fun q _ => (kind q).weight_nonneg

theorem one_le_of_inOp (h : OpInv l kind) (hp : kind p = .inOp) : 1 ≤ l.outstanding := by
  have hle : (kind p).weight ≤ ∑ q, (kind q).weight :=
    Finset.single_le_sum (fun q _ => (kind q).weight_nonneg) (Finset.mem_univ p)
  rw [← h.ops, hp] at hle
  simpa [OpKind.weight] using hle

theorem no_op_of_commit (h : OpInv l kind) (hp : kind p = .inCommit) (q : P) :
    kind q ≠ .inOp := by
  intro hq
  have hone := h.one_le_of_inOp hq
  have hzero := (h.busy p hp).2.1
  omega

theorem of_free (h : OpInv l kind) (hc : l.committing = false) (q : P) :
    kind q ≠ .inCommit := by
  intro hq
  have hb := (h.busy q hq).1
  simp [hc] at hb

theorem of_inOp (h : OpInv l kind) (hp : kind p = .inOp) :
    l.committing = false ∧ ∀ q, kind q ≠ .inCommit := by
  have hno : ∀ q, kind q ≠ .inCommit := fun q hq => h.no_op_of_commit hq p hp
  exact ⟨h.idle hno, hno⟩

theorem outstanding_eq_card (h : OpInv l kind) :
    l.outstanding = (Finset.univ.filter (fun q => kind q = .inOp)).card := by
  rw [h.ops, Finset.card_filter, Nat.cast_sum]
  apply Finset.sum_congr rfl
  intro q _
  cases kind q <;> simp [OpKind.weight]

theorem header (h : OpInv l kind) (ho : l'.outstanding = l.outstanding)
    (hc : l'.committing = l.committing)
    (hn : l.committing = true ∨ l.lh.n ≤ l'.lh.n) : OpInv l' kind := by
  constructor
  · exact ho.trans h.ops
  · intro hno; exact hc.trans (h.idle hno)
  · intro q hq
    obtain ⟨h1, h2, h3⟩ := h.busy q hq
    exact ⟨hc.trans h1, ho.trans h2, h3⟩
  · intro q hq
    rw [hc, ho]
    rcases h.asleep q hq with hcom | hgt
    · exact .inl hcom
    · rcases hn with hcom | hle
      · exact .inl hcom
      · exact .inr (by omega)

variable [DecidableEq P]

theorem sum_weight (kind : P → OpKind) (p : P) (x : OpKind) :
    ∑ q, (update kind p x q).weight = ∑ q, (kind q).weight + x.weight - (kind p).weight := by
  have hh := ActionRun.sum_update_add OpKind.weight kind p x
  omega

theorem move (h : OpInv l kind) (l' : Log) (p : P) (x : OpKind) (hno : ∀ q, kind q ≠ .inCommit)
    (hx : x ≠ .inCommit) (hc : l'.committing = false)
    (ho : l'.outstanding = l.outstanding + x.weight - (kind p).weight)
    (kind' : P → OpKind)
    (hk : ∀ q, (kind' q).weight = (update kind p x q).weight ∧
      (kind' q = .inCommit ↔ update kind p x q = .inCommit))
    (ha : ∀ q, kind' q = .asleep → l'.lh.n + (l'.outstanding + 1) * MAXOPBLOCKS > LOGSIZE) :
    OpInv l' kind' := by
  have hupd : ∀ q, kind' q ≠ .inCommit := by
    intro q hq
    have hh := (hk q).2.mp hq
    by_cases he : q = p
    · subst he; exact hx (by simpa using hh)
    · rw [update_of_ne he] at hh
      exact hno q hh
  constructor
  · simp only [fun q => (hk q).1]
    rw [sum_weight, ho, h.ops]
  · intro _; exact hc
  · intro q hq; exact absurd hq (hupd q)
  · intro q hq; exact .inr (ha q hq)

theorem sleep (h : OpInv l kind) (hp : kind p = .outside ∨ kind p = .woken)
    (hb : beginOp l = none) : OpInv l (update kind p .asleep) := by
  have hw : (kind p).weight = 0 := by rcases hp with hp | hp <;> simp [hp, OpKind.weight]
  have hne : kind p ≠ .inCommit := by rcases hp with hp | hp <;> simp [hp]
  have hupd : ∀ q, update kind p .asleep q = .inCommit ↔ kind q = .inCommit := by
    intro q
    by_cases he : q = p
    · subst he; simp [hne]
    · rw [update_of_ne he]
  constructor
  · rw [sum_weight, hw, h.ops]
    simp [OpKind.weight]
  · intro hno
    exact h.idle fun q hq => hno q ((hupd q).mpr hq)
  · intro q hq
    obtain ⟨h1, h2, h3⟩ := h.busy q ((hupd q).mp hq)
    exact ⟨h1, h2, fun r hr => h3 r ((hupd r).mp hr)⟩
  · intro q _
    exact beginOp_none hb

theorem enter (h : OpInv l kind) (hp : kind p = .outside ∨ kind p = .woken)
    (hb : beginOp l = some l') : OpInv l' (update kind p .inOp) := by
  obtain ⟨hc, hn, rfl⟩ := beginOp_some hb
  have hw : (kind p).weight = 0 := by rcases hp with hp | hp <;> simp [hp, OpKind.weight]
  refine h.move { l with outstanding := l.outstanding + 1 } p .inOp (h.of_free hc) (by simp) hc ?_ _
    (fun q => ⟨rfl, Iff.rfl⟩) ?_
  · rw [hw]
    simp [OpKind.weight]
  · intro q hq
    have hne : q ≠ p := by rintro rfl; simp at hq
    rw [update_of_ne hne] at hq
    rcases h.asleep q hq with hcc | hgt
    · simp [hc] at hcc
    · simp only [MAXOPBLOCKS] at hgt ⊢
      omega

theorem leave (h : OpInv l kind) (hp : kind p = .inOp) (he : endOp l = .ok (l', false)) :
    OpInv l' (fun q => (update kind p .outside q).wake) := by
  obtain ⟨hc, ⟨hh, _⟩ | ⟨_, _, rfl⟩⟩ := endOp_ok he
  · cases hh
  · refine h.move { l with outstanding := l.outstanding - 1 } p .outside (h.of_inOp hp).2 (by simp) hc ?_ _
      (fun q => ⟨OpKind.wake_weight _, OpKind.wake_eq_inCommit⟩) ?_
    · simp [hp, OpKind.weight]
    · intro q hq
      exact absurd hq (OpKind.wake_ne_asleep _)

theorem commitStart (h : OpInv l kind) (hp : kind p = .inOp) (he : endOp l = .ok (l', true)) :
    OpInv l' (update kind p .inCommit) := by
  obtain ⟨_, ⟨_, hone, rfl⟩ | ⟨hh, _⟩⟩ := endOp_ok he
  · have hno := (h.of_inOp hp).2
    have honly : ∀ r, update kind p .inCommit r = .inCommit → r = p := by
      intro r hr
      by_contra hne
      rw [update_of_ne hne] at hr
      exact hno r hr
    constructor
    · change (0 : Int) = _
      rw [sum_weight, hp, ← h.ops, hone]
      simp [OpKind.weight]
    · intro hall
      exact absurd (update_self p _ kind) (hall p)
    · intro q hq
      exact ⟨rfl, rfl, fun r hr => (honly r hr).trans (honly q hq).symm⟩
    · intro q _; exact .inl rfl
  · cases hh

theorem finish (h : OpInv l kind) (hp : kind p = .inCommit) :
    OpInv { l with committing := false }
      (fun q => (update kind p .outside q).wake) := by
  obtain ⟨_, hzero, honly⟩ := h.busy p hp
  have hnone : ∀ q, update kind p .outside q ≠ .inCommit := by
    intro q hq
    by_cases he : q = p
    · subst he; simp at hq
    · rw [update_of_ne he] at hq
      exact he (honly q hq)
  constructor
  · simp only [OpKind.wake_weight]
    rw [sum_weight, hp, h.ops]
    simp [OpKind.weight]
  · intro _; rfl
  · intro q hq; exact absurd (OpKind.wake_eq_inCommit.mp hq) (hnone q)
  · intro q hq; exact absurd hq (OpKind.wake_ne_asleep _)

end OpInv

end Xv6
