import Mathlib.Data.List.Induction
import Mathlib.Data.List.Nodup
import Mathlib.Logic.Function.Basic

/-! Circular doubly linked lists kept in two link fields, with a sentinel node.
`Seg k a l z` says that following `next` from `a` visits `l` and arrives at `z`,
and that `prev` undoes each of these steps. -/

namespace RingList

open Function

structure Links (N : Type*) where
  next : N → N
  prev : N → N

variable {N : Type*} {a z : N}

def Seg (k : Links N) : N → List N → N → Prop
  | a, [], z => k.next a = z ∧ k.prev z = a
  | a, x :: l, z => k.next a = x ∧ k.prev x = a ∧ Seg k x l z

/-- One circular list through the sentinel `h` that visits each node of `l` once. -/
def Ring (k : Links N) (h : N) (l : List N) : Prop := (h :: l).Nodup ∧ Seg k h l h

/-- Follow the links in `f` from `b` to the first node that satisfies `p`, or to
the sentinel. -/
def scan [DecidableEq N] (f : N → N) (h : N) (p : N → Bool) : Nat → N → Option N
  | 0, _ => none
  | fuel + 1, b => if b = h then none else if p b then some b else scan f h p fuel (f b)

theorem seg_append {k : Links N} {x : N} {l r : List N} :
    Seg k a (l ++ x :: r) z ↔ Seg k a l x ∧ Seg k x r z := by
  induction l generalizing a with
  | nil => simp [Seg, and_assoc]
  | cons y l ih => simp [Seg, ih, and_assoc]

theorem Seg.congr {k k' : Links N} {l : List N} (h : Seg k a l z)
    (hn : ∀ y ∈ a :: l, k'.next y = k.next y) (hp : ∀ y ∈ l ++ [z], k'.prev y = k.prev y) :
    Seg k' a l z := by
  induction l generalizing a with
  | nil =>
    obtain ⟨h1, h2⟩ := h
    exact ⟨(hn a (by simp)).trans h1, (hp z (by simp)).trans h2⟩
  | cons x l ih =>
    obtain ⟨h1, h2, h3⟩ := h
    refine ⟨(hn a (by simp)).trans h1, (hp x (by simp)).trans h2, ih h3 ?_ ?_⟩
    · intro y hy; exact hn y (List.mem_cons_of_mem _ hy)
    · intro y hy; exact hp y (by simp only [List.cons_append]; exact List.mem_cons_of_mem _ hy)

theorem Seg.next_mem {k : Links N} {l : List N} (h : Seg k a l z) : k.next a ∈ l ++ [z] := by
  cases l with
  | nil => simp [h.1]
  | cons x l => simp [h.1]

theorem Seg.prev_mem {k : Links N} {l : List N} (h : Seg k a l z) : k.prev z ∈ a :: l := by
  induction l generalizing a with
  | nil => simp [h.2]
  | cons x l ih => exact List.mem_cons_of_mem _ (ih h.2.2)

section Update

variable [DecidableEq N] {k : Links N} {l r : List N} {h b : N}

def Links.insertFront (k : Links N) (h b : N) : Links N :=
  let k : Links N := ⟨update k.next b (k.next h), update k.prev b h⟩
  let k : Links N := ⟨k.next, update k.prev (k.next h) b⟩
  ⟨update k.next h b, k.prev⟩

def Links.unlink (k : Links N) (b : N) : Links N :=
  let k : Links N := ⟨k.next, update k.prev (k.next b) (k.prev b)⟩
  ⟨update k.next (k.prev b) (k.next b), k.prev⟩

theorem Ring.insertFront (hr : Ring k h l) (hb : b ∉ h :: l) : Ring (k.insertFront h b) h (b :: l) := by
  obtain ⟨hnd, hs⟩ := hr
  have hbh : b ≠ h := fun he => hb (by simp [he])
  have hbl : b ∉ l := fun hm => hb (List.mem_cons_of_mem _ hm)
  have hhl : h ∉ l := (List.nodup_cons.mp hnd).1
  have hne : b ≠ k.next h := by
    intro he
    have hm := hs.next_mem
    rw [← he] at hm
    simp [hbl, hbh] at hm
  have hnext : (k.insertFront h b).next =
      update (update k.next b (k.next h)) h b := rfl
  have hprev : (k.insertFront h b).prev =
      update (update k.prev b h) (k.next h) b := by
    simp [Links.insertFront, update_of_ne hbh.symm]
  refine ⟨?_, by simp [hnext], by simp [hprev, update_of_ne hne], ?_⟩
  · refine List.nodup_cons.mpr ⟨by simp [hhl, hbh.symm], ?_⟩
    exact List.nodup_cons.mpr ⟨hbl, (List.nodup_cons.mp hnd).2⟩
  · cases l with
    | nil =>
      obtain ⟨h1, _⟩ := hs
      refine ⟨by simp [hnext, update_of_ne hbh, h1], by simp [hprev, h1]⟩
    | cons c l =>
      obtain ⟨h1, _, h3⟩ := hs
      have hcl : c ∉ l := (List.nodup_cons.mp (List.nodup_cons.mp hnd).2).1
      refine ⟨by simp [hnext, update_of_ne hbh, h1], by simp [hprev, h1], h3.congr ?_ ?_⟩
      · intro y hy
        have hyh : y ≠ h := fun he => hhl (he ▸ hy)
        have hyb : y ≠ b := fun he => hbl (he ▸ hy)
        simp [hnext, update_of_ne hyh, update_of_ne hyb]
      · intro y hy
        have hyc : y ≠ c := by
          rintro rfl
          simp only [List.mem_append, List.mem_singleton] at hy
          rcases hy with hy | rfl
          · exact hcl hy
          · exact hhl (by simp)
        have hyb : y ≠ b := by
          rintro rfl
          simp only [List.mem_append, List.mem_singleton] at hy
          rcases hy with hy | hy
          · exact hbl (List.mem_cons_of_mem _ hy)
          · exact hbh hy
        simp [hprev, h1, update_of_ne hyc, update_of_ne hyb]

theorem Ring.foldl_insertFront (hr : Ring k h r) (hnd : (h :: (l ++ r)).Nodup) :
    Ring (l.foldl (fun k b => k.insertFront h b) k) h (l.reverse ++ r) := by
  induction l generalizing k r with
  | nil => simpa using hr
  | cons b l ih =>
    have hperm : (h :: (b :: l ++ r)).Perm (h :: (l ++ b :: r)) :=
      (List.perm_middle.symm).cons h
    have hnd' := hperm.nodup_iff.mp hnd
    have hb : b ∉ h :: r := by
      intro hm
      have hsub : List.Sublist (b :: h :: r) (b :: h :: (l ++ r)) :=
        ((List.sublist_append_right l r).cons_cons h).cons_cons b
      have hswap : (b :: h :: (l ++ r)).Nodup := (List.Perm.swap b h (l ++ r)).nodup_iff.mp hnd
      exact (List.nodup_cons.mp (hswap.sublist hsub)).1 hm
    simpa using ih (hr.insertFront hb) hnd'

theorem Seg.join {k' : Links N} {x : N} (hl : Seg k x l b) (hr : Seg k b r z)
    (hn : k'.next = update k.next (k.prev b) (k.next b))
    (hp : k'.prev = update k.prev (k.next b) (k.prev b)) (hx : (x :: l ++ r).Nodup)
    (hz : (l ++ r ++ [z]).Nodup) : Seg k' x (l ++ r) z := by
  induction l generalizing x with
  | nil =>
    rw [hl.2] at hn hp
    cases r with
    | nil =>
      obtain ⟨h1, h2⟩ := hr
      rw [h1] at hn hp
      exact ⟨by simp [hn], by simp [hp]⟩
    | cons c r =>
      obtain ⟨h1, _, h3⟩ := hr
      rw [h1] at hn hp
      refine ⟨by simp [hn], by simp [hp], h3.congr ?_ ?_⟩
      · intro y hy
        have hyx : y ≠ x := by
          rintro rfl
          exact (List.nodup_cons.mp hx).1 (by simpa using hy)
        rw [hn, update_of_ne hyx]
      · intro y hy
        have hyc : y ≠ c := by
          rintro rfl
          simp only [List.nil_append, List.cons_append] at hz
          exact (List.nodup_cons.mp hz).1 hy
        rw [hp, update_of_ne hyc]
  | cons y l ih =>
    obtain ⟨h1, h2, h3⟩ := hl
    have hlast := h3.prev_mem
    have hfirst := hr.next_mem
    simp only [List.cons_append] at hx hz
    have hxa : x ≠ k.prev b := by
      intro he
      apply (List.nodup_cons.mp hx).1
      rw [he, ← List.cons_append]
      exact List.mem_append_left _ hlast
    have hyc : y ≠ k.next b := by
      intro he
      apply (List.nodup_cons.mp hz).1
      rw [he, List.append_assoc]
      exact List.mem_append_right _ hfirst
    refine ⟨?_, ?_, ih h3 (List.nodup_cons.mp hx).2 (List.nodup_cons.mp hz).2⟩
    · rw [hn, update_of_ne hxa, h1]
    · rw [hp, update_of_ne hyc, h2]

theorem Ring.unlink (hr : Ring k h (l ++ b :: r)) : Ring (k.unlink b) h (l ++ r) := by
  obtain ⟨hnd, hs⟩ := hr
  obtain ⟨hl, hr⟩ := seg_append.mp hs
  have hsub : List.Sublist (h :: (l ++ r)) (h :: (l ++ b :: r)) :=
    ((List.Sublist.refl l).append (List.sublist_cons_self b r)).cons_cons h
  have hx : (h :: (l ++ r)).Nodup := hnd.sublist hsub
  have hz : (l ++ r ++ [h]).Nodup := (List.perm_append_singleton h (l ++ r)).nodup_iff.mpr hx
  have hb : b ≠ k.next b := by
    intro he
    have hm := hr.next_mem
    rw [← he] at hm
    have hnd' := List.nodup_middle.mp (List.nodup_cons.mp hnd).2
    rcases List.mem_append.mp hm with hm | hm
    · exact (List.nodup_cons.mp hnd').1 (List.mem_append_right _ hm)
    · exact (List.nodup_cons.mp hnd).1 (by simp [List.mem_singleton.mp hm])
  refine ⟨hx, hl.join hr ?_ rfl hx hz⟩
  simp [Links.unlink, update_of_ne hb]

end Update

section Scan

variable [DecidableEq N] {k : Links N} {h : N} {l : List N} {fuel : Nat}

theorem scan_next (p : N → Bool) (hr : Ring k h l) (hf : l.length < fuel) :
    scan k.next h p fuel (k.next h) = l.find? p := by
  suffices hgen : ∀ (l : List N) (a : N) (fuel : Nat), Seg k a l h → h ∉ l → l.length < fuel →
      scan k.next h p fuel (k.next a) = l.find? p from
    hgen l h fuel hr.2 (List.nodup_cons.mp hr.1).1 hf
  intro l
  induction l with
  | nil =>
    intro a fuel hs _ hf
    cases fuel with
    | zero => simp at hf
    | succ fuel => simp [scan, hs.1]
  | cons x l ih =>
    intro a fuel hs hh hf
    cases fuel with
    | zero => simp at hf
    | succ fuel =>
      have hx : x ≠ h := fun he => hh (by simp [he])
      have hrest := ih x fuel hs.2.2 (fun hm => hh (List.mem_cons_of_mem _ hm))
        (by simpa using hf)
      by_cases hp : p x
      · simp [scan, hs.1, hx, hp]
      · simp [scan, hs.1, hx, hp, hrest]

theorem scan_prev (p : N → Bool) (hr : Ring k h l) (hf : l.length < fuel) :
    scan k.prev h p fuel (k.prev h) = l.reverse.find? p := by
  suffices hgen : ∀ (l : List N) (z : N) (fuel : Nat), Seg k h l z → h ∉ l → l.length < fuel →
      scan k.prev h p fuel (k.prev z) = l.reverse.find? p from
    hgen l h fuel hr.2 (List.nodup_cons.mp hr.1).1 hf
  intro l
  induction l using List.reverseRecOn with
  | nil =>
    intro z fuel hs _ hf
    cases fuel with
    | zero => simp at hf
    | succ fuel => simp [scan, hs.2]
  | append_singleton l x ih =>
    intro z fuel hs hh hf
    obtain ⟨hl, hz⟩ := seg_append.mp hs
    cases fuel with
    | zero => simp at hf
    | succ fuel =>
      have hx : x ≠ h := fun he => hh (by simp [he])
      have hrest := ih x fuel hl (fun hm => hh (List.mem_append_left _ hm)) (by simpa using hf)
      by_cases hp : p x
      · simp [scan, hz.2, hx, hp]
      · simp [scan, hz.2, hx, hp, hrest]

end Scan

end RingList
