import Xv6.Walk

/-! Who owns which page. One page table is looked at together with an `Env`, which says
how often everything else in the kernel refers to a page. -/

namespace Xv6

open Function StateProg

abbrev userTop : Nat := TRAPFRAME / PGSIZE

structure Env where
  count : Nat → Nat
  sole : Nat → Prop
  sole_pos : ∀ q, sole q → 0 < count q

structure Pte.WellFormed (v : Nat) (pte : Pte) : Prop where
  zero : pte.has PTE_V = false → pte = 0
  top : MAXVA / PGSIZE ≤ v → pte.has PTE_V = false
  readable : pte.has PTE_V = true → pte.has PTE_R = true
  cow : pte.has PTE_W = true → pte.has PTE_COW = false
  user : userTop ≤ v → pte.has PTE_U = false

theorem Pte.wellFormed_zero (v : Nat) : Pte.WellFormed v 0 where
  zero _ := rfl
  top _ := by decide
  readable h := absurd h (by decide)
  cow h := absurd h (by decide)
  user _ := by decide

namespace Table

def MapsAt (t : Table) (v q : Nat) : Prop :=
  v < userTop ∧ (t.leaf v).has PTE_V = true ∧ pte2pa (t.leaf v) = q

def Maps (t : Table) (q : Nat) : Prop := ∃ v, t.MapsAt v q

def Uses (t : Table) (q : Nat) : Prop := t.Has q ∨ t.Maps q

structure Fits (env : Env) (t : Table) : Prop where
  leaf : ∀ v, (t.leaf v).WellFormed v
  inj : ∀ v w q, t.MapsAt v q → t.MapsAt w q → v = w
  apart : ∀ q, t.Has q → ¬ t.Maps q
  sole : ∀ q, env.sole q → ¬ t.Uses q
  has : ∀ q, t.Has q → env.count q = 0
  writable : ∀ v q, t.MapsAt v q → (t.leaf v).has PTE_W = true → env.count q = 0

end Table

open Classical in
noncomputable def owners (env : Env) (t : Table) (q : Nat) : Nat :=
  env.count q + if t.Uses q then 1 else 0

/-- Memory holds a page table, and the allocator counts its pages and those of `env`. -/
structure TableInv (L : Layout) (m : PhysMem) (env : Env) (t : Table) : Prop where
  alloc : AllocInv L m (owners env t)
  rep : t.Rep m.page
  fits : t.Fits env

variable {env : Env} {t : Table} {v q : Nat} {pte : Pte}

theorem owners_uses (h : t.Uses q) : owners env t q = env.count q + 1 := by
  simp only [owners, if_pos h]

theorem owners_not_uses (h : ¬ t.Uses q) : owners env t q = env.count q := by
  simp only [owners, if_neg h, Nat.add_zero]

theorem not_uses_of_zero (h : owners env t q = 0) : env.count q = 0 ∧ ¬ t.Uses q := by
  by_cases hu : t.Uses q
  · rw [owners_uses hu] at h
    omega
  · rw [owners_not_uses hu] at h
    exact ⟨h, hu⟩

namespace Table

@[simp] theorem leaf_setLeaf_self : (t.setLeaf v pte).leaf v = pte := update_self ..

theorem leaf_setLeaf_ne {u : Nat} (hu : u ≠ v) : (t.setLeaf v pte).leaf u = t.leaf u :=
  update_of_ne hu ..

@[simp] theorem has_setLeaf : (t.setLeaf v pte).Has q ↔ t.Has q := Iff.rfl

theorem mapsAt_setLeaf_self :
    (t.setLeaf v pte).MapsAt v q ↔ v < userTop ∧ pte.has PTE_V = true ∧ pte2pa pte = q := by
  rw [MapsAt, leaf_setLeaf_self]

theorem mapsAt_setLeaf_ne {u : Nat} (hu : u ≠ v) :
    (t.setLeaf v pte).MapsAt u q ↔ t.MapsAt u q := by
  rw [MapsAt, leaf_setLeaf_ne hu, MapsAt]

theorem setLeaf_setLeaf (a b : Pte) : (t.setLeaf v a).setLeaf v b = t.setLeaf v b := by
  simp only [setLeaf, update_idem]

namespace Fits

theorem maps_setLeaf_zero (h : t.Fits env) (hv : t.MapsAt v q) {p : Nat} :
    (t.setLeaf v 0).Maps p ↔ t.Maps p ∧ p ≠ q := by
  constructor
  · rintro ⟨u, hu⟩
    by_cases he : u = v
    · subst u
      have hf := (mapsAt_setLeaf_self.mp hu).2.1
      exact absurd hf (by decide)
    · rw [mapsAt_setLeaf_ne he] at hu
      refine ⟨⟨u, hu⟩, ?_⟩
      rintro rfl
      exact he (h.inj u v p hu hv)
  · rintro ⟨⟨u, hu⟩, hne⟩
    have he : u ≠ v := by
      rintro rfl
      exact hne (hu.2.2.symm.trans hv.2.2)
    exact ⟨u, (mapsAt_setLeaf_ne he).mpr hu⟩

end Fits

theorem maps_setLeaf_new (hold : (t.leaf v).has PTE_V = false) (hv : v < userTop)
    (hp : pte.has PTE_V = true) {p : Nat} :
    (t.setLeaf v pte).Maps p ↔ t.Maps p ∨ p = pte2pa pte := by
  constructor
  · rintro ⟨u, hu⟩
    by_cases he : u = v
    · subst u
      exact .inr (mapsAt_setLeaf_self.mp hu).2.2.symm
    · exact .inl ⟨u, (mapsAt_setLeaf_ne he).mp hu⟩
  · rintro (⟨u, hu⟩ | rfl)
    · have he : u ≠ v := by
        rintro rfl
        rw [hu.2.1] at hold
        cases hold
      exact ⟨u, (mapsAt_setLeaf_ne he).mpr hu⟩
    · exact ⟨v, mapsAt_setLeaf_self.mpr ⟨hv, hp, rfl⟩⟩

theorem maps_setLeaf_same (hp : v < userTop → pte.has PTE_V = (t.leaf v).has PTE_V ∧
    pte2pa pte = pte2pa (t.leaf v)) {p : Nat} : (t.setLeaf v pte).Maps p ↔ t.Maps p := by
  have hat : ∀ u, (t.setLeaf v pte).MapsAt u p ↔ t.MapsAt u p := by
    intro u
    by_cases he : u = v
    · subst u
      rw [mapsAt_setLeaf_self, MapsAt]
      constructor
      · rintro ⟨h1, h2, h3⟩
        rw [(hp h1).1] at h2
        rw [(hp h1).2] at h3
        exact ⟨h1, h2, h3⟩
      · rintro ⟨h1, h2, h3⟩
        rw [← (hp h1).1] at h2
        rw [← (hp h1).2] at h3
        exact ⟨h1, h2, h3⟩
    · exact mapsAt_setLeaf_ne he
  exact exists_congr hat

theorem Fits.setLeaf (h : t.Fits env) (hw : pte.WellFormed v)
    (hu : v < userTop → pte.has PTE_V = true → ¬ env.sole (pte2pa pte) ∧ ¬ t.Has (pte2pa pte) ∧
      (pte.has PTE_W = true → env.count (pte2pa pte) = 0) ∧
      ∀ u, u ≠ v → ¬ t.MapsAt u (pte2pa pte)) : (t.setLeaf v pte).Fits env := by
  have hcases : ∀ u q, (t.setLeaf v pte).MapsAt u q →
      (u = v ∧ v < userTop ∧ pte.has PTE_V = true ∧ q = pte2pa pte) ∨ (u ≠ v ∧ t.MapsAt u q) := by
    intro u q hq
    by_cases he : u = v
    · subst u
      obtain ⟨h1, h2, h3⟩ := mapsAt_setLeaf_self.mp hq
      exact .inl ⟨rfl, h1, h2, h3.symm⟩
    · exact .inr ⟨he, (mapsAt_setLeaf_ne he).mp hq⟩
  refine ⟨?_, ?_, ?_, ?_, h.has, ?_⟩
  · intro u
    by_cases he : u = v
    · subst u
      simpa only [leaf_setLeaf_self] using hw
    · simpa only [leaf_setLeaf_ne he] using h.leaf u
  · intro a b q ha hb
    rcases hcases a q ha with ⟨rfl, h1, h2, rfl⟩ | ⟨hne, ha'⟩
    · rcases hcases b _ hb with ⟨rfl, _⟩ | ⟨hne, hb'⟩
      · rfl
      · exact absurd hb' ((hu h1 h2).2.2.2 b hne)
    · rcases hcases b q hb with ⟨rfl, h1, h2, rfl⟩ | ⟨_, hb'⟩
      · exact absurd ha' ((hu h1 h2).2.2.2 a hne)
      · exact h.inj a b q ha' hb'
  · rintro q hq ⟨u, hm⟩
    rcases hcases u q hm with ⟨rfl, h1, h2, rfl⟩ | ⟨_, hm⟩
    · exact (hu h1 h2).2.1 hq
    · exact h.apart q hq ⟨u, hm⟩
  · rintro q hs (hq | ⟨u, hm⟩)
    · exact h.sole q hs (.inl hq)
    · rcases hcases u q hm with ⟨rfl, h1, h2, rfl⟩ | ⟨_, hm⟩
      · exact (hu h1 h2).1 hs
      · exact h.sole q hs (.inr ⟨u, hm⟩)
  · intro u q hm hwr
    rcases hcases u q hm with ⟨rfl, h1, h2, rfl⟩ | ⟨hne, hm'⟩
    · rw [leaf_setLeaf_self] at hwr
      exact (hu h1 h2).2.2.1 hwr
    · rw [leaf_setLeaf_ne hne] at hwr
      exact h.writable u q hm' hwr

end Table

theorem owners_eq {t' : Table} (h : t'.Uses q ↔ t.Uses q) : owners env t' q = owners env t q := by
  by_cases hu : t.Uses q
  · rw [owners_uses hu, owners_uses (h.mpr hu)]
  · rw [owners_not_uses hu, owners_not_uses (fun hh => hu (h.mp hh))]

theorem Table.Fits.owners_unmap (h : t.Fits env) (hv : t.MapsAt v q) :
    owners env (t.setLeaf v 0) = update (owners env t) q (owners env t q - 1) := by
  have hnot : ¬ (t.setLeaf v 0).Uses q := by
    rintro (hq | hq)
    · exact h.apart q hq ⟨v, hv⟩
    · exact ((h.maps_setLeaf_zero hv).mp hq).2 rfl
  funext p
  by_cases he : p = q
  · subst p
    rw [update_self, owners_not_uses hnot, owners_uses (.inr ⟨v, hv⟩)]
    rfl
  · have hu : (t.setLeaf v 0).Uses p ↔ t.Uses p := by
      simp only [Table.Uses, Table.has_setLeaf, h.maps_setLeaf_zero hv, ne_eq, he, not_false_eq_true,
        and_true]
    rw [update_of_ne he, owners_eq hu]

theorem owners_map (hold : (t.leaf v).has PTE_V = false) (hv : v < userTop)
    (hp : pte.has PTE_V = true) (hn : ¬ t.Uses (pte2pa pte)) :
    owners env (t.setLeaf v pte) =
      update (owners env t) (pte2pa pte) (owners env t (pte2pa pte) + 1) := by
  have hmaps : ∀ p, (t.setLeaf v pte).Uses p ↔ t.Uses p ∨ p = pte2pa pte := by
    intro p
    rw [Table.Uses, Table.maps_setLeaf_new hold hv hp, Table.has_setLeaf, Table.Uses, or_assoc]
  funext p
  by_cases he : p = pte2pa pte
  · subst p
    rw [update_self, owners_uses ((hmaps _).mpr (.inr rfl)), owners_not_uses hn]
  · have hu := hmaps p
    simp only [he, or_false] at hu
    rw [update_of_ne he, owners_eq hu]

theorem owners_same (hp : v < userTop → pte.has PTE_V = (t.leaf v).has PTE_V ∧
    pte2pa pte = pte2pa (t.leaf v)) : owners env (t.setLeaf v pte) = owners env t := by
  funext p
  apply owners_eq
  rw [Table.Uses, Table.maps_setLeaf_same hp, Table.has_setLeaf, Table.Uses]

end Xv6
