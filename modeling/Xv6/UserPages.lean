import Mathlib.Data.Set.Function
import Xv6.Owners

/-! What the page-table operations do to one page of one table, beside any other
owners. -/

namespace Xv6

open Function StateProg

variable {L : Layout} {m : PhysMem} {env : Env} {t : Table} {v q : Nat} {p : PtePtr} {pte : Pte}

def Env.add (env : Env) (q : Nat) : Env where
  count := update env.count q (env.count q + 1)
  sole x := env.sole x ∨ x = q
  sole_pos x hx := by
    by_cases he : x = q
    · subst x
      simp
    · rw [update_of_ne he]
      rcases hx with hx | hx
      · exact env.sole_pos x hx
      · exact absurd hx he

/-- The pages whose contents matter to somebody: user pages and those of other owners. -/
def Env.live (env : Env) (t : Table) : Set Nat := {x | 0 < env.count x ∨ t.Maps x}

theorem owners_add : owners (env.add q) t =
    update (owners env t) q (owners env t q + 1) := by
  funext x
  by_cases he : x = q
  · subst x
    simp only [owners, Env.add, update_self]
    omega
  · simp only [owners, Env.add, update_of_ne he]

namespace Table.Fits

theorem add (h : t.Fits env) (hn : ¬ t.Uses q) : t.Fits (env.add q) where
  leaf := h.leaf
  inj := h.inj
  apart := h.apart
  sole x hx := by
    rcases hx with hx | rfl
    · exact h.sole x hx
    · exact hn
  has x hx := by
    have hne : x ≠ q := fun he => hn (he ▸ .inl hx)
    simpa only [Env.add, update_of_ne hne] using h.has x hx
  writable v x hx hw := by
    have hne : x ≠ q := fun he => hn (he ▸ .inr ⟨v, hx⟩)
    simpa only [Env.add, update_of_ne hne] using h.writable v x hx hw

theorem not_uses_added (h : t.Fits (env.add q)) : ¬ t.Uses q := h.sole q (.inr rfl)

theorem drop (h : t.Fits (env.add q)) : t.Fits env where
  leaf := h.leaf
  inj := h.inj
  apart := h.apart
  sole x hx := h.sole x (.inl hx)
  has x hx := by
    have hne : x ≠ q := fun he => h.not_uses_added (he ▸ .inl hx)
    simpa only [Env.add, update_of_ne hne] using h.has x hx
  writable v x hx hw := by
    have hne : x ≠ q := fun he => h.not_uses_added (he ▸ .inr ⟨v, hx⟩)
    simpa only [Env.add, update_of_ne hne] using h.writable v x hx hw

theorem not_has_live (h : t.Fits env) {x : Nat} (hx : x ∈ env.live t) : ¬ t.Has x := by
  intro hh
  rcases hx with hx | hx
  · have hz := h.has x hh
    omega
  · exact h.apart x hh hx

end Table.Fits

namespace TableInv

theorem has_pos (_ : TableInv L m env t) (x : Nat) (hx : t.Has x) : 0 < owners env t x := by
  rw [owners_uses (.inl hx)]
  omega

theorem inRange (h : TableInv L m env t) {x : Nat} (hx : t.Uses x) : L.InRange x := by
  apply h.alloc.inRange
  rw [owners_uses hx]
  omega

theorem congr {m' : PhysMem} (h : TableInv L m env t) (hc : m'.counter = m.counter)
    (hf : m'.freelist = m.freelist) (hp : ∀ x, t.Has x → m'.page x = m.page x) :
    TableInv L m' env t :=
  ⟨h.alloc.congr hc hf, h.rep.congr hp, h.fits⟩

theorem kalloc (h : TableInv L m env t) :
    Wp kalloc (fun r m' =>
      match r with
      | none => m.freelist = [] ∧ m' = m
      | some x => TableInv L m' (env.add x) t ∧ L.InRange x ∧ env.count x = 0 ∧
          m.freelist = x :: m'.freelist ∧ ∀ y, y ≠ x → m'.page y = m.page y) m := by
  refine h.alloc.kalloc.mono fun r m' hr => ?_
  cases r with
  | none => exact hr
  | some x =>
    obtain ⟨hrange, hz, ha, hf, hpage⟩ := hr
    obtain ⟨hcount, hnot⟩ := not_uses_of_zero hz
    have hne : ∀ y, t.Has y → y ≠ x := fun y hy he => hnot (he ▸ .inl hy)
    refine ⟨⟨?_, h.rep.congr (fun y hy => hpage y (hne y hy)), h.fits.add hnot⟩, hrange, hcount, hf,
      hpage⟩
    rw [owners_add, hz]
    exact ha

theorem kfree_added (h : TableInv L m (env.add q) t) :
    Wp (kfree L q) (fun _ m' => TableInv L m' env t ∧ ∀ x, x ≠ q → m'.page x = m.page x) m := by
  have hpos : 0 < owners (env.add q) t q := by
    rw [owners_add, update_self]
    omega
  refine (h.alloc.kfree hpos).mono fun _ m' hr => ?_
  obtain ⟨ha, hpage⟩ := hr
  have hkeep : ∀ x, x ≠ q → m'.page x = m.page x := fun x hx => hpage x (.inl hx)
  have hne : ∀ x, t.Has x → x ≠ q := fun x hx he => h.fits.not_uses_added (he ▸ .inl hx)
  refine ⟨⟨?_, h.rep.congr (fun x hx => hkeep x (hne x hx)), h.fits.drop⟩, hkeep⟩
  rw [owners_add, update_self, update_idem, Nat.add_sub_cancel,
    update_eq_self] at ha
  exact ha

theorem grown {t' : Table} {m' : PhysMem} {refs' : Nat → Nat} (h : TableInv L m env t)
    (hg : Table.Grown L m m' (owners env t) refs' t t') (hl : t'.leaf = t.leaf) :
    TableInv L m' env t' ∧ Set.EqOn m'.page m.page (env.live t) := by
  have hat : ∀ u x, t'.MapsAt u x ↔ t.MapsAt u x := by
    intro u x
    rw [Table.MapsAt, hl, Table.MapsAt]
  have hmaps : ∀ x, t'.Maps x ↔ t.Maps x := fun x => exists_congr fun u => hat u x
  have hfresh : ∀ x, t'.Has x → ¬ t.Has x → env.count x = 0 ∧ ¬ t.Uses x := by
    intro x hx hn
    exact not_uses_of_zero (hg.fresh x hx hn).2.1
  have hrefs : refs' = owners env t' := by
    funext x
    by_cases ht : t.Has x
    · rw [hg.same x (.inl ht), owners_uses (.inl ht), owners_uses (.inl (hg.has x ht))]
    · by_cases ht' : t'.Has x
      · rw [(hg.fresh x ht' ht).2.2, owners_uses (.inl ht'), (hfresh x ht' ht).1]
      · rw [hg.same x (.inr ht')]
        apply owners_eq
        simp only [Table.Uses, ht, ht', hmaps]
  have hfits : t'.Fits env := by
    refine ⟨by rw [hl]; exact h.fits.leaf, ?_, ?_, ?_, ?_, ?_⟩
    · intro u w x hu hw
      exact h.fits.inj u w x ((hat u x).mp hu) ((hat w x).mp hw)
    · intro x hx hm
      rw [hmaps] at hm
      by_cases ht : t.Has x
      · exact h.fits.apart x ht hm
      · exact (hfresh x hx ht).2 (.inr hm)
    · rintro x hs (hx | hm)
      · by_cases ht : t.Has x
        · exact h.fits.sole x hs (.inl ht)
        · have hz := (hfresh x hx ht).1
          have hp := env.sole_pos x hs
          omega
      · exact h.fits.sole x hs (.inr ((hmaps x).mp hm))
    · intro x hx
      by_cases ht : t.Has x
      · exact h.fits.has x ht
      · exact (hfresh x hx ht).1
    · intro u x hx hw
      rw [hl] at hw
      exact h.fits.writable u x ((hat u x).mp hx) hw
  refine ⟨⟨hrefs ▸ hg.alloc, hg.rep, hfits⟩, ?_⟩
  intro x hx
  apply hg.page
  intro hx'
  rcases hx with hx | hx
  · have hz := hfits.has x hx'
    omega
  · exact hfits.apart x hx' ((hmaps x).mpr hx)

theorem mappages_page (h : TableInv L m env t) (hv : v < MAXVA / PGSIZE)
    (hleaf : (t.leaf v).has PTE_V = false) (pa : Nat) (perm : Pte) :
    Wp (mappages t.root (v * PGSIZE) PGSIZE pa perm) (fun r m' => ∃ t' m₁,
      TableInv L m₁ env t' ∧ t'.root = t.root ∧ t'.leaf = t.leaf ∧
      Set.EqOn m₁.page m.page (env.live t) ∧ (m.freelist.length ≤ m₁.freelist.length + 2 ∧
        m₁.freelist.length ≤ m.freelist.length) ∧
      (r = -1 ∧ m' = m₁ ∧ m₁.freelist = [] ∨
       r = 0 ∧ ∃ p, t'.ptr v = some p ∧ m' = m₁.setPte p (pa2pte pa ||| perm ||| PTE_V))) m := by
  refine (h.rep.mappages_page h.alloc h.has_pos hv hleaf pa perm).mono fun r m' hr => ?_
  obtain ⟨t', refs', m₁, hg, hl, hlen, hres⟩ := hr
  obtain ⟨hinv, hpage⟩ := h.grown hg hl
  exact ⟨t', m₁, hinv, hg.root, hl, hpage, ⟨hlen, hg.free⟩, hres⟩

theorem setPte {env' : Env} (h : TableInv L m env t) (hp : t.ptr v = some p)
    (hf : (t.setLeaf v pte).Fits env') (ho : owners env' (t.setLeaf v pte) = owners env t) :
    TableInv L (m.setPte p pte) env' (t.setLeaf v pte) :=
  ⟨ho ▸ h.alloc.congr rfl rfl, h.rep.setPte hp pte, hf⟩

theorem page_setPte (h : TableInv L m env t) (hp : t.ptr v = some p) (pte : Pte) :
    Set.EqOn (m.setPte p pte).page m.page (env.live t) := by
  intro x hx
  exact h.rep.page_setPte hp pte (h.fits.not_has_live hx)

end TableInv

end Xv6
