import Mathlib.Data.Set.Basic
import Mathlib.Logic.Function.Basic

/-! Resources with exactly one holder. `Exact claim live` says that every live resource is
claimed by one holder, and no other resource by any. -/

namespace Claims

open Function

variable {O R : Type*} [DecidableEq O] {claim : O → Option R} {live : R → Prop} {o o' : O} {r : R}

structure Exact (claim : O → Option R) (live : R → Prop) : Prop where
  unique : ∀ {o o' r}, claim o = some r → claim o' = some r → o = o'
  live_iff : ∀ r, live r ↔ ∃ o, claim o = some r

namespace Exact

omit [DecidableEq O] in
theorem congr {claim' : O → Option R} {live' : R → Prop} (h : Exact claim live)
    (hc : ∀ o, claim' o = claim o) (hl : ∀ r, live' r ↔ live r) : Exact claim' live' := by
  have hc' : claim' = claim := funext hc
  subst hc'
  exact ⟨h.unique, fun r => (hl r).trans (h.live_iff r)⟩

theorem drop (h : Exact claim live) (ho : claim o = some r) :
    Exact (update claim o none) (fun x => live x ∧ x ≠ r) := by
  have hold : ∀ {q x}, update claim o none q = some x → q ≠ o ∧ claim q = some x := by
    intro q x hq
    by_cases hqo : q = o
    · rw [hqo, update_self] at hq
      cases hq
    · rw [update_of_ne hqo] at hq
      exact ⟨hqo, hq⟩
  refine ⟨fun hq hq' => h.unique (hold hq).2 (hold hq').2, fun x => ⟨fun ⟨hx, hne⟩ => ?_, fun ⟨q, hq⟩ => ?_⟩⟩
  · obtain ⟨q, hq⟩ := (h.live_iff x).mp hx
    refine ⟨q, ?_⟩
    rw [update_of_ne, hq]
    rintro rfl
    exact hne (Option.some.inj (hq.symm.trans ho))
  · obtain ⟨hne, hq⟩ := hold hq
    refine ⟨(h.live_iff x).mpr ⟨q, hq⟩, ?_⟩
    rintro rfl
    exact hne (h.unique hq ho)

theorem add (h : Exact claim live) (ho : claim o = none) (hr : ¬ live r) :
    Exact (update claim o (some r)) (fun x => live x ∨ x = r) := by
  have hnew : ∀ {q x}, update claim o (some r) q = some x →
      q = o ∧ x = r ∨ q ≠ o ∧ claim q = some x := by
    intro q x hq
    by_cases hqo : q = o
    · rw [hqo, update_self, Option.some.injEq] at hq
      exact .inl ⟨hqo, hq.symm⟩
    · rw [update_of_ne hqo] at hq
      exact .inr ⟨hqo, hq⟩
  have hfree : ∀ {q}, claim q ≠ some r := fun {q} hq => hr ((h.live_iff r).mpr ⟨q, hq⟩)
  refine ⟨fun {q q' x} hq hq' => ?_, fun x => ⟨fun hx => ?_, fun ⟨q, hq⟩ => ?_⟩⟩
  · rcases hnew hq with ⟨he, rfl⟩ | ⟨_, hold⟩
    · rcases hnew hq' with ⟨he', _⟩ | ⟨_, hold'⟩
      · exact he.trans he'.symm
      · exact absurd hold' hfree
    · rcases hnew hq' with ⟨_, rfl⟩ | ⟨_, hold'⟩
      · exact absurd hold hfree
      · exact h.unique hold hold'
  · rcases hx with hx | rfl
    · obtain ⟨q, hq⟩ := (h.live_iff x).mp hx
      refine ⟨q, ?_⟩
      rw [update_of_ne, hq]
      rintro rfl
      rw [ho] at hq
      cases hq
    · exact ⟨o, update_self ..⟩
  · rcases hnew hq with ⟨_, rfl⟩ | ⟨_, hq⟩
    · exact .inr rfl
    · exact .inl ((h.live_iff x).mpr ⟨q, hq⟩)

theorem pass (h : Exact claim live) (ho : claim o = some r) (ho' : claim o' = none) :
    Exact (update (update claim o none) o' (some r)) live := by
  have hne : o' ≠ o := by
    rintro rfl
    rw [ho] at ho'
    cases ho'
  have hdrop := h.drop ho
  have hadd := hdrop.add (o := o') (r := r) (by rw [update_of_ne hne, ho']) fun hx => hx.2 rfl
  refine hadd.congr (fun _ => rfl) fun x => ⟨fun hx => ?_, fun hx => ?_⟩
  · by_cases hxr : x = r
    · exact .inr hxr
    · exact .inl ⟨hx, hxr⟩
  · rcases hx with ⟨hx, _⟩ | rfl
    · exact hx
    · exact (h.live_iff x).mpr ⟨o, ho⟩

end Exact

end Claims
