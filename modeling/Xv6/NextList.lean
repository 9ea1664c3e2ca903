import Mathlib.Data.List.Nodup
import Mathlib.Data.List.Perm.Basic

/-! Circular lists kept in one link field. `Chain next a l` says that following `next` from
`a` visits `l`; `Ring next a l` is the circle through `a` and `l`. -/

namespace NextList

variable {N : Type*} {next next' : N → N} {a b f x : N} {l r : List N}

def Chain (next : N → N) : N → List N → Prop
  | _, [] => True
  | a, x :: l => next a = x ∧ Chain next x l

def last : N → List N → N
  | a, [] => a
  | _, x :: l => last x l

theorem chain_append : Chain next a (l ++ r) ↔ Chain next a l ∧ Chain next (last a l) r := by
  induction l generalizing a with
  | nil => simp [Chain, last]
  | cons x l ih => simp [Chain, last, ih, and_assoc]

theorem dropLast_append_last (a : N) (l : List N) : (a :: l).dropLast ++ [last a l] = a :: l := by
  induction l generalizing a with
  | nil => rfl
  | cons x l ih =>
    rw [List.dropLast_cons_cons, last, List.cons_append, ih]

theorem last_mem (a : N) (l : List N) : last a l ∈ a :: l := by
  rw [← dropLast_append_last a l]
  simp

theorem last_append_cons : last a (l ++ x :: r) = last x r := by
  induction l generalizing a with
  | nil => rfl
  | cons y l ih => exact ih

theorem Chain.congr (h : Chain next a l) (hn : ∀ x ∈ (a :: l).dropLast, next' x = next x) :
    Chain next' a l := by
  induction l generalizing a with
  | nil => trivial
  | cons y l ih =>
    rw [List.dropLast_cons_cons] at hn
    refine ⟨(hn a List.mem_cons_self).trans h.1, ih h.2 (fun x hx => hn x (List.mem_cons_of_mem _ hx))⟩

theorem Chain.next_eq {pre post : List N} {y : N} (h : Chain next a l)
    (hl : a :: l = pre ++ x :: y :: post) : next x = y := by
  induction pre generalizing a l with
  | nil =>
    cases hl
    exact h.1
  | cons z pre ih =>
    rw [List.cons_append, List.cons.injEq] at hl
    obtain ⟨rfl, rfl⟩ := hl
    cases pre with
    | nil => exact ih h.2 rfl
    | cons w pre => exact ih h.2 rfl

theorem Chain.rel_next {R : N → N → Prop} (h : Chain next a l) (hs : (a :: l).Pairwise R)
    (hx : x ∈ (a :: l).dropLast) : R x (next x) ∧ next x ∈ l := by
  induction l generalizing a with
  | nil => simp at hx
  | cons y l ih =>
    rw [List.dropLast_cons_cons] at hx
    obtain ⟨hy, hl⟩ := List.pairwise_cons.mp hs
    rcases List.mem_cons.mp hx with rfl | hx
    · rw [h.1]
      exact ⟨hy y List.mem_cons_self, List.mem_cons_self⟩
    · obtain ⟨h1, h2⟩ := ih h.2 hl hx
      exact ⟨h1, List.mem_cons_of_mem _ h2⟩

def Ring (next : N → N) (a : N) (l : List N) : Prop := (a :: l).Nodup ∧ Chain next a (l ++ [a])

namespace Ring

theorem congr (h : Ring next a l) (hn : ∀ x ∈ a :: l, next' x = next x) : Ring next' a l := by
  refine ⟨h.1, h.2.congr (fun x hx => hn x ?_)⟩
  rwa [← List.cons_append, List.dropLast_concat] at hx

theorem rotate (h : Ring next a (l ++ x :: r)) : Ring next x (r ++ a :: l) := by
  obtain ⟨hnd, hc⟩ := h
  have hc' : Chain next a ((l ++ [x]) ++ (r ++ [a])) := by simpa using hc
  rw [chain_append, last_append_cons] at hc'
  have hperm : (a :: l ++ x :: r).Perm (x :: r ++ a :: l) := List.perm_append_comm
  refine ⟨hperm.nodup_iff.mp hnd, ?_⟩
  have hgoal : Chain next x ((r ++ [a]) ++ (l ++ [x])) := by
    rw [chain_append, last_append_cons]
    exact ⟨hc'.2, hc'.1⟩
  simpa using hgoal

theorem exists_rotate (h : Ring next a l) (hf : f ∈ a :: l) :
    ∃ l', Ring next f l' ∧ (f :: l').Perm (a :: l) := by
  rcases List.mem_cons.mp hf with rfl | hf
  · exact ⟨l, h, .refl _⟩
  · obtain ⟨pre, post, rfl⟩ := List.append_of_mem hf
    have hperm : (f :: post ++ a :: pre).Perm (a :: pre ++ f :: post) := List.perm_append_comm
    exact ⟨post ++ a :: pre, h.rotate, hperm⟩

theorem last_next (h : Ring next a l) : next (last a l) = a := by
  have hc := h.2
  rw [chain_append] at hc
  exact hc.2.1

theorem exists_prev (h : Ring next a l) (hx : x ∈ a :: l) : ∃ y ∈ a :: l, next y = x := by
  rcases List.mem_cons.mp hx with rfl | hx
  · exact ⟨last x l, last_mem x l, h.last_next⟩
  · obtain ⟨pre, post, rfl⟩ := List.append_of_mem hx
    have hc := (chain_append.mp h.2).1
    rw [chain_append] at hc
    refine ⟨last a pre, ?_, hc.2.1⟩
    rw [← List.cons_append]
    exact List.mem_append_left _ (last_mem a pre)

theorem next_ne (h : Ring next a l) (hx : x ∈ (a :: l).dropLast) : next x ≠ a := by
  obtain ⟨pre, post, hpre⟩ := List.append_of_mem hx
  have hl : a :: l = pre ++ x :: (post ++ [last a l]) := by
    rw [← dropLast_append_last a l, hpre]
    simp
  have hc : Chain next a l := (chain_append.mp h.2).1
  obtain ⟨y, ys, hy⟩ : ∃ y ys, post ++ [last a l] = y :: ys := by
    cases post with
    | nil => exact ⟨_, _, rfl⟩
    | cons y ys => exact ⟨_, _, rfl⟩
  rw [hy] at hl
  rw [hc.next_eq hl]
  intro he
  have hnd := h.1
  cases pre with
  | nil =>
    rw [List.nil_append, List.cons.injEq] at hl
    rw [hl.2, he] at hnd
    simp at hnd
  | cons z pre =>
    rw [List.cons_append, List.cons.injEq] at hl
    rw [hl.2, he] at hnd
    simp at hnd

theorem insert (h : Ring next a (l ++ r)) (hb : b ∉ a :: (l ++ r)) (hp : next' (last a l) = b)
    (hn : next' b = next (last a l)) (ho : ∀ x, x ≠ last a l → x ≠ b → next' x = next x) :
    Ring next' a (l ++ b :: r) := by
  obtain ⟨hnd, hc⟩ := h
  have hnd' : (a :: l ++ r).Nodup := hnd
  have hnb : (b :: (a :: l ++ r)).Nodup := List.nodup_cons.mpr ⟨hb, hnd⟩
  have hperm : (a :: l ++ b :: r).Perm (b :: (a :: l ++ r)) := List.perm_middle
  refine ⟨hperm.nodup_iff.mpr hnb, ?_⟩
  rw [List.append_assoc, chain_append] at hc
  rw [List.append_assoc, chain_append]
  have hlast : last a l ∉ (a :: l).dropLast ∧ last a l ∉ r := by
    rw [← dropLast_append_last a l, List.append_assoc] at hnd'
    have hm := List.nodup_middle.mp hnd'
    exact not_or.mp (fun hh => (List.nodup_cons.mp hm).1 (List.mem_append.mpr hh))
  refine ⟨hc.1.congr (fun x hx => ho x ?_ ?_), hp, ?_⟩
  · rintro rfl
    exact hlast.1 hx
  · rintro rfl
    exact hb (List.mem_append_left r (List.dropLast_subset _ hx))
  · -- What followed the last node of `l` now follows `b`.
    cases r with
    | nil => exact ⟨hn.trans hc.2.1, trivial⟩
    | cons y r =>
      obtain ⟨hy, hrest⟩ := hc.2
      refine ⟨hn.trans hy, hrest.congr (fun x hx => ho x ?_ ?_)⟩
      · rintro rfl
        change last a l ∈ (y :: r ++ [a]).dropLast at hx
        rw [List.dropLast_concat] at hx
        exact hlast.2 hx
      · rintro rfl
        change x ∈ (y :: r ++ [a]).dropLast at hx
        rw [List.dropLast_concat] at hx
        exact hb (List.mem_append_right (a :: l) hx)

theorem remove (h : Ring next a (l ++ x :: r)) (hp : next' (last a l) = next x)
    (ho : ∀ y, y ≠ last a l → next' y = next y) : Ring next' a (l ++ r) := by
  obtain ⟨hnd, hc⟩ := h
  have hsub : (a :: (l ++ r)).Sublist (a :: (l ++ x :: r)) :=
    ((List.Sublist.refl l).append (List.sublist_cons_self x r)).cons_cons a
  refine ⟨hnd.sublist hsub, ?_⟩
  have hnd' : (a :: l ++ x :: r).Nodup := hnd
  rw [List.append_assoc, chain_append] at hc
  rw [List.append_assoc, chain_append]
  have hlast : last a l ∉ (a :: l).dropLast ∧ last a l ∉ x :: r := by
    rw [← dropLast_append_last a l, List.append_assoc] at hnd'
    have hm := List.nodup_middle.mp hnd'
    exact not_or.mp (fun hh => (List.nodup_cons.mp hm).1 (List.mem_append.mpr hh))
  obtain ⟨hpre, hx, hrest⟩ := hc
  refine ⟨hpre.congr (fun y hy => ho y ?_), ?_⟩
  · rintro rfl
    exact hlast.1 hy
  · cases r with
    | nil => exact ⟨hp.trans hrest.1, trivial⟩
    | cons y r =>
      obtain ⟨hy, hrest⟩ := hrest
      refine ⟨hp.trans hy, hrest.congr (fun z hz => ho z ?_)⟩
      rintro rfl
      change last a l ∈ (y :: r ++ [a]).dropLast at hz
      rw [List.dropLast_concat] at hz
      exact hlast.2 (List.mem_cons_of_mem _ hz)

end Ring

end NextList
