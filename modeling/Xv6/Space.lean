import Mathlib.Data.Finset.Card
import Mathlib.Data.Fintype.Card
import Xv6.UserVm

/-! All page tables together with the pages the kernel holds for itself. Each table, with
the rest as its `Env`, satisfies `TableInv`; an operation on one table is lifted to all. -/

namespace Xv6

open Function StateProg

structure Space (K : Type) where
  table : K → Option Table
  kernel : Set Nat

variable {K : Type} {σ : Space K} {L : Layout} {m m' : PhysMem} {k : K} {t : Table} {q : Nat}

theorem Env.ext_iff_fields {a b : Env} (hc : a.count = b.count) (hs : a.sole = b.sole) : a = b := by
  cases a
  cases b
  subst hc hs
  rfl

namespace Space

def UsedBy (σ : Space K) (q : Nat) (k : K) : Prop := ∃ t, σ.table k = some t ∧ t.Uses q

def SoleBy (σ : Space K) (q : Nat) (k : K) : Prop :=
  ∃ t, σ.table k = some t ∧ (t.Has q ∨ ∃ v, t.MapsAt v q ∧ (t.leaf v).has PTE_W = true)

theorem SoleBy.usedBy (h : σ.SoleBy q k) : σ.UsedBy q k := by
  obtain ⟨t, ht, hq | ⟨v, hv, _⟩⟩ := h
  · exact ⟨t, ht, .inl hq⟩
  · exact ⟨t, ht, .inr ⟨v, hv⟩⟩

variable [Fintype K] [DecidableEq K] {o : Option Table} {k' : K}

open Classical in
noncomputable def users (σ : Space K) (q : Nat) : Finset K := Finset.univ.filter (σ.UsedBy q)

open Classical in
noncomputable def held (σ : Space K) (q : Nat) : Nat := if q ∈ σ.kernel then 1 else 0

noncomputable def refs (σ : Space K) (q : Nat) : Nat := (σ.users q).card + σ.held q

omit [DecidableEq K] in
theorem mem_users : k ∈ σ.users q ↔ σ.UsedBy q k := by
  simp [users]

omit [Fintype K] [DecidableEq K] in
theorem held_pos : 0 < σ.held q ↔ q ∈ σ.kernel := by
  by_cases h : q ∈ σ.kernel <;> simp [held, h]

noncomputable def env (σ : Space K) (k : K) : Env where
  count q := ((σ.users q).erase k).card + σ.held q
  sole q := q ∈ σ.kernel ∨ ∃ k', k' ≠ k ∧ σ.SoleBy q k'
  sole_pos q h := by
    rcases h with h | ⟨k', hk, h⟩
    · have hp := held_pos.mpr h
      omega
    · have hmem : k' ∈ (σ.users q).erase k := Finset.mem_erase.mpr ⟨hk, mem_users.mpr h.usedBy⟩
      have hp := Finset.card_pos.mpr ⟨k', hmem⟩
      omega

theorem env_count_pos : 0 < (σ.env k).count q ↔ q ∈ σ.kernel ∨ ∃ k', k' ≠ k ∧ σ.UsedBy q k' := by
  change 0 < _ + _ ↔ _
  rw [Nat.add_pos_iff_pos_or_pos, held_pos, Finset.card_pos, or_comm]
  simp only [Finset.Nonempty, Finset.mem_erase, mem_users]

theorem owners_env (h : σ.table k = some t) : owners (σ.env k) t = σ.refs := by
  funext q
  by_cases hu : t.Uses q
  · have hmem : k ∈ σ.users q := mem_users.mpr ⟨t, h, hu⟩
    rw [owners_uses hu, refs, ← Finset.card_erase_add_one hmem]
    change _ + _ + 1 = _
    omega
  · have hmem : k ∉ σ.users q := by
      intro hm
      obtain ⟨t', ht', hu'⟩ := mem_users.mp hm
      rw [h, Option.some.injEq] at ht'
      exact hu (ht' ▸ hu')
    rw [owners_not_uses hu, refs]
    change ((σ.users q).erase k).card + _ = _
    rw [Finset.erase_eq_of_notMem hmem]

theorem env_eq_refs (h : σ.table k = none) : (σ.env k).count = σ.refs := by
  funext q
  have hmem : k ∉ σ.users q := by
    intro hm
    obtain ⟨t', ht', _⟩ := mem_users.mp hm
    rw [h] at ht'
    cases ht'
  change ((σ.users q).erase k).card + _ = _
  rw [Finset.erase_eq_of_notMem hmem, refs]

def set (σ : Space K) (k : K) (o : Option Table) : Space K :=
  { σ with table := update σ.table k o }

omit [Fintype K] in
@[simp] theorem table_set_self : (σ.set k o).table k = o := update_self ..

omit [Fintype K] in
theorem table_set_ne (h : k' ≠ k) : (σ.set k o).table k' = σ.table k' :=
  update_of_ne h ..

omit [Fintype K] in
theorem usedBy_set_ne (h : k' ≠ k) : (σ.set k o).UsedBy q k' ↔ σ.UsedBy q k' := by
  rw [UsedBy, table_set_ne h, UsedBy]

omit [Fintype K] in
theorem soleBy_set_ne (h : k' ≠ k) : (σ.set k o).SoleBy q k' ↔ σ.SoleBy q k' := by
  rw [SoleBy, table_set_ne h, SoleBy]

theorem env_set (σ : Space K) (k : K) (o : Option Table) : (σ.set k o).env k = σ.env k := by
  apply Env.ext_iff_fields
  · funext q
    have he : ((σ.set k o).users q).erase k = (σ.users q).erase k := by
      ext k'
      simp only [Finset.mem_erase, mem_users]
      exact and_congr_right fun hne => usedBy_set_ne hne
    change (((σ.set k o).users q).erase k).card + σ.held q = _
    rw [he]
    rfl
  · funext q
    apply propext
    exact or_congr Iff.rfl (exists_congr (fun k' => and_congr_right (fun hne => soleBy_set_ne hne)))

end Space

variable [Fintype K] [DecidableEq K]

structure SpaceInv (L : Layout) (m : PhysMem) (σ : Space K) : Prop where
  alloc : AllocInv L m σ.refs
  rep : ∀ k t, σ.table k = some t → t.Rep m.page
  fits : ∀ k t, σ.table k = some t → t.Fits (σ.env k)

namespace SpaceInv

theorem tableInv (h : SpaceInv L m σ) (hk : σ.table k = some t) : TableInv L m (σ.env k) t :=
  ⟨by rw [Space.owners_env hk]; exact h.alloc, h.rep k t hk, h.fits k t hk⟩

variable {k' : K} {t' : Table}

theorem rep_of_ne (h : SpaceInv L m σ) (hp : Set.EqOn m'.page m.page {x | 0 < (σ.env k).count x})
    (hne : k' ≠ k) (hk : σ.table k' = some t') : t'.Rep m'.page := by
  apply (h.rep k' t' hk).congr
  intro x hx
  exact hp (Space.env_count_pos.mpr (.inr ⟨k', hne, t', hk, .inl hx⟩))

theorem fits_of {τ : Space K} (h : SpaceInv L m σ) (hk : σ.table k' = some t')
    (hs : ∀ x, (τ.env k').sole x → ¬ t'.Uses x)
    (hc : ∀ x, σ.SoleBy x k' → ¬ (x ∈ τ.kernel ∨ ∃ k'', k'' ≠ k' ∧ τ.UsedBy x k'')) :
    t'.Fits (τ.env k') := by
  have hold := h.fits k' t' hk
  have hzero : ∀ x, σ.SoleBy x k' → (τ.env k').count x = 0 := by
    intro x hx
    have hnot := hc x hx
    rw [← Space.env_count_pos] at hnot
    omega
  exact ⟨hold.leaf, hold.inj, hold.apart, hs, fun x hx => hzero x ⟨t', hk, .inl hx⟩,
    fun v x hx hw => hzero x ⟨t', hk, .inr ⟨v, hx, hw⟩⟩⟩

theorem not_shared (h : SpaceInv L m σ) (hs : σ.SoleBy q k') :
    ¬ (q ∈ σ.kernel ∨ ∃ k'', k'' ≠ k' ∧ σ.UsedBy q k'') := by
  rw [← Space.env_count_pos]
  obtain ⟨t', hk, hq | ⟨v, hv, hw⟩⟩ := hs
  · have hz := (h.fits k' t' hk).has q hq
    omega
  · have hz := (h.fits k' t' hk).writable v q hv hw
    omega

theorem set (h : SpaceInv L m σ) (ht : TableInv L m' (σ.env k) t)
    (hp : Set.EqOn m'.page m.page {x | 0 < (σ.env k).count x}) : SpaceInv L m' (σ.set k (some t)) := by
  have hself : (σ.set k (some t)).table k = some t := Space.table_set_self
  refine ⟨?_, ?_, ?_⟩
  · rw [← Space.owners_env hself, Space.env_set]
    exact ht.alloc
  · intro k' t' hk
    by_cases he : k' = k
    · subst k'
      rw [hself, Option.some.injEq] at hk
      exact hk ▸ ht.rep
    · rw [Space.table_set_ne he] at hk
      exact h.rep_of_ne hp he hk
  · intro k' t' hk
    by_cases he : k' = k
    · subst k'
      rw [hself, Option.some.injEq] at hk
      rw [Space.env_set]
      exact hk ▸ ht.fits
    · rw [Space.table_set_ne he] at hk
      -- a page that `t` has for itself is free of other owners, and one that `t'` has for
      -- itself is closed to `t`
      have hsole : ∀ x, (σ.set k (some t)).SoleBy x k → ¬ t'.Uses x := by
        rintro x ⟨t'', ht'', hx⟩ hu
        rw [hself, Option.some.injEq] at ht''
        subst ht''
        have hz : (σ.env k).count x = 0 := by
          rcases hx with hx | ⟨v, hv, hw⟩
          · exact ht.fits.has x hx
          · exact ht.fits.writable v x hv hw
        have hpos := Space.env_count_pos.mpr (.inr ⟨k', he, t', hk, hu⟩)
        omega
      apply h.fits_of hk
      · rintro x (hx | ⟨k'', hne, hx⟩)
        · exact (h.fits k' t' hk).sole x (.inl hx)
        · by_cases hkk : k'' = k
          · exact hsole x (hkk ▸ hx)
          · rw [Space.soleBy_set_ne hkk] at hx
            exact (h.fits k' t' hk).sole x (.inr ⟨k'', hne, hx⟩)
      · rintro x hx (hker | ⟨k'', hne, hu⟩)
        · exact h.not_shared hx (.inl hker)
        · by_cases hkk : k'' = k
          · subst k''
            obtain ⟨t'', ht'', hu⟩ := hu
            rw [hself, Option.some.injEq] at ht''
            subst ht''
            exact ht.fits.sole x (.inr ⟨k', he, hx⟩) hu
          · rw [Space.usedBy_set_ne hkk] at hu
            exact h.not_shared hx (.inr ⟨k'', hne, hu⟩)

theorem drop (h : SpaceInv L m σ) (ha : AllocInv L m' (σ.env k).count)
    (hp : Set.EqOn m'.page m.page {x | 0 < (σ.env k).count x}) : SpaceInv L m' (σ.set k none) := by
  have hself : (σ.set k none).table k = none := Space.table_set_self
  have hne : ∀ k' t', (σ.set k none).table k' = some t' → k' ≠ k ∧ σ.table k' = some t' := by
    intro k' t' hk
    have hkk : k' ≠ k := by
      rintro rfl
      rw [hself] at hk
      cases hk
    rw [Space.table_set_ne hkk] at hk
    exact ⟨hkk, hk⟩
  have hused : ∀ x k'', (σ.set k none).UsedBy x k'' → σ.UsedBy x k'' := by
    rintro x k'' ⟨t'', ht'', hu⟩
    exact ⟨t'', (hne k'' t'' ht'').2, hu⟩
  have hsole : ∀ x k'', (σ.set k none).SoleBy x k'' → σ.SoleBy x k'' := by
    rintro x k'' ⟨t'', ht'', hu⟩
    exact ⟨t'', (hne k'' t'' ht'').2, hu⟩
  refine ⟨?_, ?_, ?_⟩
  · rw [← Space.env_eq_refs hself, Space.env_set]
    exact ha
  · intro k' t' hk
    exact h.rep_of_ne hp (hne k' t' hk).1 (hne k' t' hk).2
  · intro k' t' hk
    apply h.fits_of (hne k' t' hk).2
    · rintro x (hx | ⟨k'', hk'', hx⟩)
      · exact (h.fits k' t' (hne k' t' hk).2).sole x (.inl hx)
      · exact (h.fits k' t' (hne k' t' hk).2).sole x (.inr ⟨k'', hk'', hsole x k'' hx⟩)
    · rintro x hx (hker | ⟨k'', hk'', hu⟩)
      · exact h.not_shared hx (.inl hker)
      · exact h.not_shared hx (.inr ⟨k'', hk'', hused x k'' hu⟩)

end SpaceInv

namespace Space

def hold (σ : Space K) (q : Nat) : Space K := { σ with kernel := insert q σ.kernel }

def release (σ : Space K) (q : Nat) : Space K := { σ with kernel := σ.kernel \ {q} }

def reindex (σ : Space K) (e : Equiv.Perm K) : Space K := { σ with table := fun k => σ.table (e k) }

omit [Fintype K] [DecidableEq K] in
theorem held_ne {τ : Space K} (h : q ∈ τ.kernel ↔ q ∈ σ.kernel) : τ.held q = σ.held q := by
  by_cases hq : q ∈ σ.kernel
  · simp [held, hq, h.mpr hq]
  · have hq' : q ∉ τ.kernel := fun hh => hq (h.mp hh)
    simp [held, hq, hq']

omit [DecidableEq K] in
theorem refs_hold (h : σ.refs q = 0) : (σ.hold q).refs = update σ.refs q 1 := by
  funext x
  by_cases he : x = q
  · subst x
    have hc : (σ.users q).card = 0 := by
      rw [refs] at h
      omega
    have hh : (σ.hold q).held q = 1 := if_pos (Set.mem_insert ..)
    rw [update_self, refs, hh]
    change (σ.users q).card + 1 = 1
    rw [hc]
  · have hiff : x ∈ (σ.hold q).kernel ↔ x ∈ σ.kernel := by
      simp [hold, he]
    rw [update_of_ne he, refs, held_ne hiff]
    rfl

theorem env_reindex (σ : Space K) (e : Equiv.Perm K) (k : K) : (σ.reindex e).env k = σ.env (e k) := by
  apply Env.ext_iff_fields
  · funext q
    have hcard : (((σ.reindex e).users q).erase k).card = ((σ.users q).erase (e k)).card := by
      apply Finset.card_bij fun k' _ => e k'
      · intro k' hk'
        rw [Finset.mem_erase, mem_users] at hk' ⊢
        exact ⟨fun he => hk'.1 (e.injective he), hk'.2⟩
      · intro a _ b _ hab
        exact e.injective hab
      · intro b hb
        rw [Finset.mem_erase, mem_users] at hb
        refine ⟨e.symm b, ?_, e.apply_symm_apply b⟩
        rw [Finset.mem_erase, mem_users]
        refine ⟨fun he => hb.1 (by rw [← he, e.apply_symm_apply]), ?_⟩
        have hu := hb.2
        rwa [← e.apply_symm_apply b] at hu
    change (((σ.reindex e).users q).erase k).card + σ.held q = _
    rw [hcard]
    rfl
  · funext q
    apply propext
    refine or_congr Iff.rfl ⟨?_, ?_⟩
    · rintro ⟨k', hne, hs⟩
      exact ⟨e k', fun he => hne (e.injective he), hs⟩
    · rintro ⟨k', hne, hs⟩
      refine ⟨e.symm k', fun he => hne (by rw [← he, e.apply_symm_apply]), ?_⟩
      rwa [← e.apply_symm_apply k'] at hs

omit [DecidableEq K] in
theorem refs_reindex (σ : Space K) (e : Equiv.Perm K) : (σ.reindex e).refs = σ.refs := by
  funext q
  have hcard : ((σ.reindex e).users q).card = (σ.users q).card := by
    apply Finset.card_bij fun k' _ => e k'
    · intro k' hk'
      rw [mem_users] at hk' ⊢
      exact hk'
    · intro a _ b _ hab
      exact e.injective hab
    · intro b hb
      rw [mem_users] at hb
      refine ⟨e.symm b, ?_, e.apply_symm_apply b⟩
      rw [mem_users]
      rwa [← e.apply_symm_apply b] at hb
  rw [refs, hcard]
  rfl

omit [DecidableEq K] in
theorem refs_congr {τ : Space K} (hu : ∀ k q, τ.UsedBy q k ↔ σ.UsedBy q k) (hk : τ.kernel = σ.kernel) :
    τ.refs = σ.refs := by
  funext q
  have husers : τ.users q = σ.users q := by
    ext k
    rw [mem_users, mem_users]
    exact hu k q
  have hheld : τ.held q = σ.held q := held_ne (by rw [hk])
  rw [refs, refs, husers, hheld]

omit [DecidableEq K] in
theorem not_used_of_zero (h0 : σ.refs q = 0) : q ∉ σ.kernel ∧ ∀ k, ¬ σ.UsedBy q k := by
  rw [refs, Nat.add_eq_zero_iff, Finset.card_eq_zero] at h0
  constructor
  · intro hq
    have hp := held_pos.mpr hq
    omega
  · intro k hk
    have hmem := mem_users.mpr hk
    rw [h0.1] at hmem
    cases hmem

end Space

namespace SpaceInv

theorem reindex (h : SpaceInv L m σ) (e : Equiv.Perm K) : SpaceInv L m (σ.reindex e) where
  alloc := by
    rw [Space.refs_reindex]
    exact h.alloc
  rep k t hk := h.rep (e k) t hk
  fits k t hk := by
    rw [Space.env_reindex]
    exact h.fits (e k) t hk

theorem congr (h : SpaceInv L m σ) (hc : m'.counter = m.counter) (hf : m'.freelist = m.freelist)
    (hp : ∀ k t x, σ.table k = some t → t.Has x → m'.page x = m.page x) : SpaceInv L m' σ where
  alloc := h.alloc.congr hc hf
  rep k t hk := (h.rep k t hk).congr fun x hx => hp k t x hk hx
  fits := h.fits

theorem not_used_of_kernel (h : SpaceInv L m σ) (hq : q ∈ σ.kernel) (k : K) : ¬ σ.UsedBy q k := by
  rintro ⟨t, ht, hu⟩
  exact (h.fits k t ht).sole q (.inl hq) hu

theorem refs_kernel (h : SpaceInv L m σ) (hq : q ∈ σ.kernel) : σ.refs q = 1 := by
  have hempty : σ.users q = ∅ := by
    rw [Finset.eq_empty_iff_forall_notMem]
    intro k hk
    exact h.not_used_of_kernel hq k (Space.mem_users.mp hk)
  have hh : σ.held q = 1 := if_pos hq
  rw [Space.refs, hempty, hh, Finset.card_empty]

theorem setPage_kernel (h : SpaceInv L m σ) (hq : q ∈ σ.kernel) (b : Buffer) :
    SpaceInv L { m with page := update m.page q b } σ := by
  refine h.congr rfl rfl fun k t x hk hx => update_of_ne ?_ _ _
  rintro rfl
  exact h.not_used_of_kernel hq k ⟨t, hk, .inl hx⟩

theorem kalloc (h : SpaceInv L m σ) :
    Wp kalloc (fun r m' =>
      match r with
      | none => m.freelist = [] ∧ m' = m
      | some x => SpaceInv L m' (σ.hold x) ∧ σ.refs x = 0 ∧ m.freelist = x :: m'.freelist ∧
          ∀ y, y ≠ x → m'.page y = m.page y) m := by
  refine h.alloc.kalloc.mono fun r m' hr => ?_
  cases r with
  | none => exact hr
  | some x =>
    obtain ⟨hrange, hz, ha, hf, hpage⟩ := hr
    obtain ⟨hker, hused⟩ := Space.not_used_of_zero hz
    refine ⟨⟨?_, ?_, ?_⟩, hz, hf, hpage⟩
    · rw [Space.refs_hold hz]
      exact ha
    · intro k t hk
      apply (h.rep k t hk).congr
      intro y hy
      apply hpage
      rintro rfl
      exact hused k ⟨t, hk, .inl hy⟩
    · intro k t hk
      apply h.fits_of hk
      · rintro y (hy | hy)
        · rcases Set.mem_insert_iff.mp hy with rfl | hy
          · exact fun hu => hused k ⟨t, hk, hu⟩
          · exact (h.fits k t hk).sole y (.inl hy)
        · exact (h.fits k t hk).sole y (.inr hy)
      · rintro y hy (hker' | hu)
        · rcases Set.mem_insert_iff.mp hker' with rfl | hker'
          · exact hused k hy.usedBy
          · exact h.not_shared hy (.inl hker')
        · exact h.not_shared hy (.inr hu)

theorem kfree (h : SpaceInv L m σ) (hq : q ∈ σ.kernel) :
    Wp (kfree L q) (fun _ m' => SpaceInv L m' (σ.release q) ∧ ∀ x, x ≠ q → m'.page x = m.page x) m := by
  have hone := h.refs_kernel hq
  refine (h.alloc.kfree (by omega)).mono fun _ m' hr => ?_
  obtain ⟨ha, hpage⟩ := hr
  have hkeep : ∀ x, x ≠ q → m'.page x = m.page x := fun x hx => hpage x (.inl hx)
  refine ⟨⟨?_, ?_, ?_⟩, hkeep⟩
  · have hrefs : (σ.release q).refs = update σ.refs q (σ.refs q - 1) := by
      funext x
      by_cases he : x = q
      · subst x
        have hh : (σ.release q).held q = 0 := if_neg fun hm => hm.2 rfl
        rw [update_self, hone, Space.refs, hh]
        rw [Space.refs, show σ.held q = 1 from if_pos hq] at hone
        change (σ.users q).card + 0 = 1 - 1
        omega
      · have hiff : x ∈ (σ.release q).kernel ↔ x ∈ σ.kernel := by
          simp [Space.release, he]
        rw [update_of_ne he, Space.refs, Space.held_ne hiff]
        rfl
    rw [hrefs]
    exact ha
  · intro k t hk
    apply (h.rep k t hk).congr
    intro y hy
    apply hkeep
    rintro rfl
    exact h.not_used_of_kernel hq k ⟨t, hk, .inl hy⟩
  · intro k t hk
    apply h.fits_of hk
    · rintro y (hy | hy)
      · exact (h.fits k t hk).sole y (.inl hy.1)
      · exact (h.fits k t hk).sole y (.inr hy)
    · rintro y hy (hker | hu)
      · exact h.not_shared hy (.inl hker.1)
      · exact h.not_shared hy (.inr hu)

end SpaceInv

end Xv6
