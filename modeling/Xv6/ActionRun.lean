import Mathlib.Algebra.BigOperators.Group.Finset.Basic
import Mathlib.Data.Fintype.Basic

/-! Runs of a machine whose actions may fail, and the invariant rule for them.
A failed action ends the run with its error. -/

namespace ActionRun

open Function

variable {S A E : Type*} {step : S → A → Except E S} {ok : S → A → Prop} {Inv : S → Prop} {as : List A}
  {Bad : E → Prop}

def run (step : S → A → Except E S) (s : S) : List A → Except E S
  | [] => .ok s
  | a :: as =>
    match step s a with
    | .ok t => run step t as
    | .error e => .error e

theorem run_inv (hstep : ∀ s a t, Inv s → step s a = .ok t → Inv t) {s t : S} (h0 : Inv s)
    (h : run step s as = .ok t) : Inv t := by
  induction as generalizing s with
  | nil =>
    simp only [run, Except.ok.injEq] at h
    exact h ▸ h0
  | cons a as ih =>
    simp only [run] at h
    cases hs : step s a with
    | ok u => simp only [hs] at h; exact ih (hstep s a u h0 hs) h
    | error e => simp [hs] at h

def Along (step : S → A → Except E S) (ok : S → A → Prop) (s : S) : List A → Prop
  | [] => True
  | a :: as => ok s a ∧ ∀ t, step s a = .ok t → Along step ok t as

instance decidableAlong (step : S → A → Except E S) (ok : S → A → Prop)
    [∀ s a, Decidable (ok s a)] : ∀ (s : S) (as : List A), Decidable (Along step ok s as)
  | _, [] => isTrue trivial
  | s, a :: as =>
    match h : step s a with
    | .ok t =>
      have := decidableAlong step ok t as
      decidable_of_iff (ok s a ∧ Along step ok t as) (by simp [Along, h])
    | .error e => decidable_of_iff (ok s a) (by simp [Along, h])

theorem run_inv_along (hstep : ∀ s a t, Inv s → ok s a → step s a = .ok t → Inv t) {s t : S}
    (h0 : Inv s) (hal : Along step ok s as) (h : run step s as = .ok t) : Inv t := by
  induction as generalizing s with
  | nil =>
    simp only [run, Except.ok.injEq] at h
    exact h ▸ h0
  | cons a as ih =>
    simp only [run] at h
    cases hs : step s a with
    | ok u =>
      simp only [hs] at h
      exact ih (hstep s a u h0 hal.1 hs) (hal.2 u hs) h
    | error e => simp [hs] at h

theorem run_error_along (hstep : ∀ s a t, Inv s → ok s a → step s a = .ok t → Inv t) {s : S} {e : E}
    (h0 : Inv s) (hal : Along step ok s as) (h : run step s as = .error e) :
    ∃ t a, Inv t ∧ ok t a ∧ step t a = .error e := by
  induction as generalizing s with
  | nil => simp [run] at h
  | cons a as ih =>
    simp only [run] at h
    cases hs : step s a with
    | ok u =>
      simp only [hs] at h
      exact ih (hstep s a u h0 hal.1 hs) (hal.2 u hs) h
    | error f =>
      simp only [hs, Except.error.injEq] at h
      exact ⟨s, a, h0, hal.1, h ▸ hs⟩

/-- The outcome of a step or a run satisfies `P`, or it is an error that satisfies `Bad`. -/
def Ends (P : S → Prop) (Bad : E → Prop) : Except E S → Prop
  | .ok s => P s
  | .error e => Bad e

theorem Ends.mono {P Q : S → Prop} {r : Except E S} (h : Ends P Bad r) (hPQ : ∀ s, P s → Q s) :
    Ends Q Bad r := by
  cases r with
  | ok s => exact hPQ s h
  | error e => exact h

theorem Ends.of_ok {P : S → Prop} {r : Except E S} {s : S} (h : Ends P Bad r) (hr : r = .ok s) : P s := by
  rwa [hr] at h

instance decidableEnds (P : S → Prop) (Bad : E → Prop) [DecidablePred P] [DecidablePred Bad] :
    ∀ r, Decidable (Ends P Bad r)
  | .ok s => inferInstanceAs (Decidable (P s))
  | .error e => inferInstanceAs (Decidable (Bad e))

def Ends.get {P : S → Prop} : {r : Except E S} → Ends P (fun _ => False) r → { s // r = .ok s ∧ P s }
  | .ok s, h => ⟨s, rfl, h⟩
  | .error _, h => h.elim

theorem Ends.exists_ok {P : S → Prop} {r : Except E S} (h : Ends P (fun _ => False) r) :
    ∃ s, r = .ok s ∧ P s :=
  ⟨h.get.1, h.get.2⟩

theorem run_ends (hstep : ∀ s a, Inv s → ok s a → Ends Inv Bad (step s a)) {s : S} (h0 : Inv s)
    (hal : Along step ok s as) : Ends Inv Bad (run step s as) := by
  induction as generalizing s with
  | nil => exact h0
  | cons a as ih =>
    have hs := hstep s a h0 hal.1
    rw [run]
    cases he : step s a with
    | ok t =>
      rw [he] at hs
      exact ih hs (hal.2 t he)
    | error e =>
      rw [he] at hs
      exact hs

theorem along_of_mem (h : ∀ a ∈ as, ∀ s, ok s a) (s : S) : Along step ok s as := by
  induction as generalizing s with
  | nil => trivial
  | cons a as ih =>
    exact ⟨h a List.mem_cons_self s, fun t _ => ih (fun b hb => h b (List.mem_cons_of_mem a hb)) t⟩

section Processes

variable {P Q M : Type*} [Fintype P] [DecidableEq P] [AddCommMonoid M]

/-- Replacing one process's state changes a total over all processes by that
process's share alone. -/
theorem sum_update_add (f : Q → M) (g : P → Q) (p : P) (x : Q) :
    ∑ q, f (update g p x q) + f (g p) = ∑ q, f (g q) + f x := by
  rw [← Finset.add_sum_erase _ (fun q => f (update g p x q)) (Finset.mem_univ p),
    ← Finset.add_sum_erase _ (fun q => f (g q)) (Finset.mem_univ p), update_self]
  have hrest : ∑ q ∈ Finset.univ.erase p, f (update g p x q) =
      ∑ q ∈ Finset.univ.erase p, f (g q) := by
    apply Finset.sum_congr rfl
    intro q hq
    rw [update_of_ne (Finset.ne_of_mem_erase hq)]
  rw [hrest]
  ac_rfl

end Processes

end ActionRun
