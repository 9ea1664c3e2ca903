import Xv6.AddressSpaces
import Xv6.CowSharers

/-! The copy-on-write fault handler in a system of page tables: what it changes, and what two
processes that share a page get when they call it at the same time. -/

namespace Xv6

open CowShare Function StateProg

variable {K : Type} [Fintype K] [DecidableEq K] {L : Layout} {m m' : PhysMem} {σ : Space K}
  {k k₁ k₂ : K} {t t₁ t₂ : Table} {va va₁ va₂ q r : Nat} {p p₁ p₂ : PtePtr} {rest : List Nat}

namespace SpaceInv

theorem free_unused (h : SpaceInv L m σ) (hr : r ∈ m.freelist) (ht : σ.table k = some t) :
    ¬ t.Uses r := by
  intro hu
  exact (Space.not_used_of_zero ((h.alloc.free r).mp hr).2).2 k ⟨t, ht, hu⟩

theorem shares (h : SpaceInv L m σ) (ht : σ.table k = some t) (h0 : va ≠ 0) (hlt : va < MAXVA)
    (hv : (t.leaf (va / PGSIZE)).has PTE_V = true) (hu : (t.leaf (va / PGSIZE)).has PTE_U = true)
    (hc : (t.leaf (va / PGSIZE)).has PTE_COW = true) : ∃ p, Shares t va p := by
  obtain ⟨p, hp⟩ := (h.rep k t ht).ptr_of_valid hv
  refine ⟨p, h0, hlt, hp, hv, hu, ?_, hc⟩
  cases hw : (t.leaf (va / PGSIZE)).has PTE_W with
  | false => rfl
  | true =>
    rw [((h.fits k t ht).leaf _).cow hw] at hc
    contradiction

end SpaceInv

theorem Shares.maps (hs : Shares t va p) (h : SpaceInv L m σ) (ht : σ.table k = some t) :
    t.MapsAt (va / PGSIZE) (pte2pa (t.leaf (va / PGSIZE))) :=
  ⟨(h.tableInv ht).user_lt hs.user, hs.valid, rfl⟩

theorem exists_apart (a b c d : Nat) : ∃ y, y ≠ a ∧ y ≠ b ∧ y ≠ c ∧ y ≠ d ∧
    pa2cowIndex a ≠ pa2cowIndex y ∧ pa2cowIndex b ≠ pa2cowIndex y := by
  refine ⟨KERNBASE + (a + b + c + d + 1) * PGSIZE, ?_⟩
  unfold pa2cowIndex
  simp only [KERNBASE, PGSIZE]
  omega

namespace SpaceInv

omit [DecidableEq K] in
theorem two_le_refs (hk : k₁ ≠ k₂) (h₁ : σ.UsedBy q k₁) (h₂ : σ.UsedBy q k₂) : 2 ≤ σ.refs q := by
  have hsub : 1 < (σ.users q).card :=
    Finset.one_lt_card.mpr ⟨k₁, Space.mem_users.mpr h₁, k₂, Space.mem_users.mpr h₂, hk⟩
  unfold Space.refs
  omega

theorem racers (h : SpaceInv L m σ) (hk : k₁ ≠ k₂) (ht₁ : σ.table k₁ = some t₁)
    (ht₂ : σ.table k₂ = some t₂) (hs₁ : Shares t₁ va₁ p₁) (hs₂ : Shares t₂ va₂ p₂)
    (hq₁ : pte2pa (t₁.leaf (va₁ / PGSIZE)) = q) (hq₂ : pte2pa (t₂.leaf (va₂ / PGSIZE)) = q)
    (hlist : m.freelist = r :: rest) :
    ∃ y, Racers L m q t₁ t₂ va₁ va₂ ⟨p₁, t₁.leaf (va₁ / PGSIZE), r⟩ y rest := by
  have hm₁ := hs₁.maps h ht₁
  have hm₂ := hs₂.maps h ht₂
  rw [hq₁] at hm₁
  rw [hq₂] at hm₂
  have hp₁ := Table.ptr_has hs₁.ptr
  have hp₂ := Table.ptr_has hs₂.ptr
  have hsole := h.not_shared (q := p₁.page) ⟨t₁, ht₁, .inl hp₁⟩
  have hother : ∀ {a}, t₂.Uses a → a ≠ p₁.page := by
    rintro a ha rfl
    exact hsole (.inr ⟨k₂, hk.symm, t₂, ht₂, ha⟩)
  have hqp₁ : q ≠ p₁.page := hother (.inr ⟨_, hm₂⟩)
  have hqp₂ : q ≠ p₂.page := by
    rintro rfl
    exact (h.fits k₂ t₂ ht₂).apart _ hp₂ ⟨_, hm₂⟩
  have hrefs : 2 ≤ σ.refs q := two_le_refs hk ⟨t₁, ht₁, .inr ⟨_, hm₁⟩⟩ ⟨t₂, ht₂, .inr ⟨_, hm₂⟩⟩
  have hrange := h.alloc.inRange (show 0 < σ.refs q by omega)
  have hcount := h.alloc.count q hrange
  have hfree : ∀ {a}, a ∈ m.freelist → a ≠ p₁.page ∧ a ≠ p₂.page ∧ a ≠ q ∧
      pa2cowIndex q ≠ pa2cowIndex a := by
    intro a ha
    have hu₁ := h.free_unused ha ht₁
    have hu₂ := h.free_unused ha ht₂
    have hne : a ≠ q := by
      rintro rfl
      exact hu₁ (.inr ⟨_, hm₁⟩)
    refine ⟨?_, ?_, hne, fun he => hne ?_⟩
    · rintro rfl
      exact hu₁ (.inl hp₁)
    · rintro rfl
      exact hu₂ (.inl hp₂)
    · exact (hrange.cowIndex_inj ((h.alloc.free a).mp ha).1 he).symm
  obtain ⟨hr1, hr2, hr3, hr4⟩ := hfree (hlist ▸ List.mem_cons_self)
  -- The second call's page: the next one, or one that it never gets.
  have hy : ∃ y, y ≠ r ∧ y ≠ p₁.page ∧ y ≠ p₂.page ∧ y ≠ q ∧ pa2cowIndex r ≠ pa2cowIndex y ∧
      pa2cowIndex q ≠ pa2cowIndex y ∧ (rest = [] ∨ ∃ l, rest = y :: l) := by
    cases hrest : rest with
    | nil =>
      obtain ⟨y, h1, h2, h3, h4, h5, h6⟩ := exists_apart r q p₁.page p₂.page
      exact ⟨y, h1, h3, h4, h2, h5, h6, .inl rfl⟩
    | cons y l =>
      have hmem : y ∈ m.freelist := by rw [hlist, hrest]; simp
      obtain ⟨h1, h2, h3, h4⟩ := hfree hmem
      have hyr : y ≠ r := by
        have hnd := h.alloc.nodup
        rw [hlist, hrest, List.nodup_cons] at hnd
        rintro rfl
        exact hnd.1 List.mem_cons_self
      refine ⟨y, hyr, h1, h2, h3, fun he => hyr ?_, h4, .inr ⟨l, rfl⟩⟩
      exact (((h.alloc.free r).mp (hlist ▸ List.mem_cons_self)).1.cowIndex_inj
        ((h.alloc.free y).mp hmem).1 he).symm
  obtain ⟨y, hy1, hy2, hy3, hy4, hy5, hy6, htail⟩ := hy
  refine ⟨⟨p₂, t₂.leaf (va₂ / PGSIZE), y⟩, ?_⟩
  exact {
    apart := {
      px := hq₁
      py := hq₂
      range := hrange
      shared := by omega
      page := (hother (.inl hp₂)).symm
      mem := hy1.symm
      page_mem := hy2.symm
      mem_page := hr2
      page_x := hr1.symm
      page_y := hy3.symm
      q_x := ⟨hr3.symm, hqp₁⟩
      q_y := ⟨hy4.symm, hqp₂⟩
      index := hy5
      index_x := hr4
      index_y := hy6 }
    left := hs₁
    right := hs₂
    pte₁ := rfl
    pte₂ := rfl
    rep₁ := h.rep k₁ t₁ ht₁
    rep₂ := fun page hpage => (h.rep k₂ t₂ ht₂).congr (fun a ha => hpage a
      (by
        rintro rfl
        exact h.free_unused (hlist ▸ List.mem_cons_self) ht₂ (.inl ha))
      (hother (.inl ha)))
    list := hlist
    tail := htail }

theorem race_serial (h : SpaceInv L m σ) (hk : k₁ ≠ k₂) (ht₁ : σ.table k₁ = some t₁)
    (ht₂ : σ.table k₂ = some t₂) (hs₁ : Shares t₁ va₁ p₁) (hs₂ : Shares t₂ va₂ p₂)
    (hq₁ : pte2pa (t₁.leaf (va₁ / PGSIZE)) = q) (hq₂ : pte2pa (t₂.leaf (va₂ / PGSIZE)) = q)
    (l : List Bool) :
    Wp (cowRace L t₁.root va₁ t₂.root va₂ l .start .start) (fun c m' =>
      ∀ r₁ r₂, c = (.done r₁, .done r₂) → Serial L t₁.root va₁ t₂.root va₂ m r₁ r₂ m' ∨
        Serial L t₂.root va₂ t₁.root va₁ m r₂ r₁ m') m := by
  cases hf : m.freelist with
  | nil =>
    have hr₁ := h.rep k₁ t₁ ht₁
    have hr₂ := h.rep k₂ t₂ ht₂
    have hrace := fun l => cowRace_exhausted (L := L) hs₁ hs₂ hr₁ hr₂ hf l (.inl rfl) (.inl rfl)
    refine (hrace l).mono ?_
    rintro c m' ⟨rfl, h1, h2⟩ r₁ r₂ rfl
    obtain ⟨c', m'', hs, rfl, h1', h2'⟩ :=
      hrace (List.replicate 6 true ++ List.replicate 6 false)
    obtain ⟨s₁, s₂, rfl, hser⟩ := Serial.of_race hs
    simp only [reduceCtorEq, false_or, CowPoint.done.injEq] at h1 h2 h1' h2'
    rw [h1, h2]
    rw [h1', h2'] at hser
    exact .inl hser
  | cons r rest =>
    cases l with
    | nil => exact wp_pure fun r₁ r₂ hc => by simp at hc
    | cons s l =>
      cases s with
      | true =>
        obtain ⟨y, hr⟩ := h.racers hk ht₁ ht₂ hs₁ hs₂ hq₁ hq₂ hf
        exact (hr.serial l).mono fun c m' hc r₁ r₂ he => .inl (hc r₁ r₂ he)
      | false =>
        obtain ⟨y, hr⟩ := h.racers hk.symm ht₂ ht₁ hs₂ hs₁ hq₂ hq₁ hf
        obtain ⟨c, m', hrun, hc⟩ := hr.serial (l.map not)
        exact ⟨c.swap, m', cowRace_swapped hrun,
          fun r₁ r₂ he => .inr (hc r₂ r₁ (Prod.swap_inj.mp he))⟩

theorem race_refused (h : SpaceInv L m σ) (ht₂ : σ.table k₂ = some t₂) (r₁ va₂ : Nat)
    (l : List Bool) :
    Wp (cowRace L r₁ 0 t₂.root va₂ l .start .start) (fun c m' =>
      ∀ s₁ s₂, c = (.done s₁, .done s₂) → Serial L r₁ 0 t₂.root va₂ m s₁ s₂ m') m := by
  obtain ⟨r, m₂, hrun, _⟩ := (h.tableInv ht₂).cowPageFaultHandler_exact va₂
  have hmore : cowSections L t₂.root va₂ (l.count false + 6) .start m = .ok (.done r, m₂) := by
    rw [Nat.add_comm, cowSections_more, map_eq_pure_bind, bind_eq hrun]
    rfl
  rw [cowSections_add] at hmore
  obtain ⟨c, m', hc, -⟩ := ok_of_bind hmore
  rw [cowRace_refused r₁ t₂.root va₂ l _ _ (.inl rfl)]
  refine wp_bind ⟨c, m', hc, wp_pure (fun s₁ s₂ he => ?_)⟩
  simp only [Prod.mk.injEq] at he
  obtain ⟨hdone, rfl⟩ := he
  have hs₁ : s₁ = -1 := by
    split at hdone
    · exact (CowPoint.done.inj hdone).symm
    · cases hdone
  exact ⟨-1, m, rfl, hs₁.symm, s₂, m', cowSections_result hc, rfl, rfl⟩

theorem race_any (h : SpaceInv L m σ) (hk : k₁ ≠ k₂) (ht₁ : σ.table k₁ = some t₁)
    (ht₂ : σ.table k₂ = some t₂) (hp₁ : va₁ ≠ 0 → Shares t₁ va₁ p₁) (hp₂ : va₂ ≠ 0 → Shares t₂ va₂ p₂)
    (hq₁ : pte2pa (t₁.leaf (va₁ / PGSIZE)) = q) (hq₂ : pte2pa (t₂.leaf (va₂ / PGSIZE)) = q)
    (l : List Bool) :
    Wp (cowRace L t₁.root va₁ t₂.root va₂ l .start .start) (fun c m' =>
      ∀ r₁ r₂, c = (.done r₁, .done r₂) → Serial L t₁.root va₁ t₂.root va₂ m r₁ r₂ m' ∨
        Serial L t₂.root va₂ t₁.root va₁ m r₂ r₁ m') m := by
  by_cases h1 : va₁ = 0
  · subst h1
    exact (h.race_refused ht₂ t₁.root va₂ l).mono fun c m' hc r₁ r₂ he => .inl (hc r₁ r₂ he)
  by_cases h2 : va₂ = 0
  · subst h2
    obtain ⟨c, m', hrun, hc⟩ := h.race_refused ht₁ t₂.root va₁ (l.map not)
    exact ⟨c.swap, m', cowRace_swapped hrun, fun r₁ r₂ he => .inr (hc r₂ r₁ (Prod.swap_inj.mp he))⟩
  · exact h.race_serial hk ht₁ ht₂ (hp₁ h1) (hp₂ h2) hq₁ hq₂ l

end SpaceInv

/-- The entries above the user part map pages that the kernel holds, or pages that the
allocator does not manage. -/
def Space.KernelTop (L : Layout) (σ : Space K) : Prop :=
  ∀ k t u, σ.table k = some t → userTop ≤ u → (t.leaf u).has PTE_V = true →
    pte2pa (t.leaf u) ∈ σ.kernel ∨ ¬ L.InRange (pte2pa (t.leaf u))

def Space.Only (σ : Space K) (k : K) (v x : Nat) : Prop :=
  ∀ k' t u, σ.table k' = some t → (t.leaf u).has PTE_V = true → pte2pa (t.leaf u) = x → k' = k ∧ u = v

omit [Fintype K] in
theorem Space.KernelTop.set {t' : Table} (h : σ.KernelTop L) (ht : σ.table k = some t)
    (hl : ∀ u, userTop ≤ u → t'.leaf u = t.leaf u) : (σ.set k (some t')).KernelTop L := by
  intro k' t'' u ht'' hu hV
  by_cases hk : k' = k
  · subst hk
    rw [Space.table_set_self, Option.some.injEq] at ht''
    subst ht''
    rw [hl u hu] at hV ⊢
    exact h k' t u ht hu hV
  · rw [Space.table_set_ne hk] at ht''
    exact h k' t'' u ht'' hu hV

structure Pte.Private (pte : Pte) : Prop where
  valid : pte.has PTE_V = true
  user : pte.has PTE_U = true
  write : pte.has PTE_W = true
  cow : pte.has PTE_COW = false

structure Handled (L : Layout) (m : PhysMem) (σ : Space K) (k : K) (t : Table) (v : Nat) (m' : PhysMem)
    (t' : Table) : Prop where
  inv : SpaceInv L m' (σ.set k (some t'))
  root : t'.root = t.root
  mid : t'.mid = t.mid
  bot : t'.bot = t.bot
  others : ∀ u, u ≠ v → t'.leaf u = t.leaf u
  entry : (t'.leaf v).Private
  bytes : m'.page (pte2pa (t'.leaf v)) = m.page (pte2pa (t.leaf v))
  rest : ∀ x, x ∉ m.freelist → t.bot (v / 512) ≠ some x → x ∉ m'.freelist → m'.page x = m.page x
  spare : m.freelist.length ≤ m'.freelist.length + 1
  copied : (t.leaf v).has PTE_COW = true →
    (σ.set k (some t')).Only k v (pte2pa (t'.leaf v)) ∧
    (m'.counter (pa2cowIndex (pte2pa (t.leaf v)))).toNat + 1 =
      (m.counter (pa2cowIndex (pte2pa (t.leaf v)))).toNat ∧
    (pte2pa (t.leaf v) ∈ m'.freelist ↔ m'.counter (pa2cowIndex (pte2pa (t.leaf v))) = 0)
  same : (t.leaf v).has PTE_COW = false → m' = m ∧ t' = t

namespace SpaceInv

variable {t' : Table} {v : Nat}

theorem only_of_write (h : SpaceInv L m σ) (htop : σ.KernelTop L) (ht : σ.table k = some t)
    (hv : t.MapsAt v q) (hw : (t.leaf v).has PTE_W = true) : σ.Only k v q := by
  intro k' t'' u ht'' hV hpa
  have hnot := h.not_shared ⟨t, ht, .inr ⟨v, hv, hw⟩⟩
  by_cases hu : u < userTop
  · by_cases hk : k' = k
    · subst hk
      rw [ht, Option.some.injEq] at ht''
      subst ht''
      exact ⟨rfl, (h.fits k' t ht).inj u v q ⟨hu, hV, hpa⟩ hv⟩
    · exact absurd (.inr ⟨k', hk, t'', ht'', .inr ⟨u, hu, hV, hpa⟩⟩) hnot
  · rcases htop k' t'' u ht'' (by omega) hV with hin | hout
    · exact absurd (.inl (hpa ▸ hin)) hnot
    · exact absurd ((h.tableInv ht).inRange (.inr ⟨v, hv⟩)) (hpa ▸ hout)

theorem handled_of_copied {mem : Nat} (h : SpaceInv L m σ) (htop : σ.KernelTop L)
    (ht : σ.table k = some t) (hp : t.ptr v = some p) (hv : (t.leaf v).has PTE_V = true)
    (hu : (t.leaf v).has PTE_U = true) (hcow : (t.leaf v).has PTE_COW = true)
    (hc : TableInv.Copied L m (σ.env k) t v p mem m') :
    Handled L m σ k t v m' (t.setLeaf v (cowEntry (t.leaf v) mem)) := by
  have hinv := h.tableInv ht
  have hlt := hinv.user_lt hu
  have hold : t.MapsAt v (pte2pa (t.leaf v)) := ⟨hlt, hv, rfl⟩
  have hset : SpaceInv L m' (σ.set k (some (t.setLeaf v (cowEntry (t.leaf v) mem)))) :=
    h.set hc.inv (hc.eqOn hinv hp)
  obtain ⟨hz, hnot⟩ := hc.unused hinv
  obtain ⟨⟨hV, _, hU⟩, hw, hnc, hpa⟩ := hc.entry
  have hentry : (cowEntry (t.leaf v) mem).Private := ⟨hV.trans hv, hU.trans hu, hw, hnc⟩
  have hmaps : (t.setLeaf v (cowEntry (t.leaf v) mem)).MapsAt v mem :=
    Table.mapsAt_setLeaf_self.mpr ⟨hlt, hentry.valid, hpa⟩
  have hrange := hinv.inRange (.inr ⟨v, hold⟩)
  have hne : pte2pa (t.leaf v) ≠ mem := fun he => hnot (.inr ⟨v, he ▸ hold⟩)
  -- The old page has lost one owner.
  have howners : owners (σ.env k) (t.setLeaf v (cowEntry (t.leaf v) mem)) (pte2pa (t.leaf v)) =
      (σ.env k).count (pte2pa (t.leaf v)) := by
    rw [(hinv.cow_fits hold hz hnot hc.addr).2, update_self, owners_uses (.inr ⟨v, hold⟩)]
    simp only [Env.add, update_of_ne hne]
    omega
  have hcount := hc.inv.alloc.count _ hrange
  have hcount₀ := hinv.alloc.count _ hrange
  rw [howners] at hcount
  rw [owners_uses (.inr ⟨v, hold⟩)] at hcount₀
  refine ⟨hset, rfl, rfl, rfl, fun u hne => Table.leaf_setLeaf_ne hne, ?_, ?_, ?_, ?_,
    fun _ => ⟨?_, ?_, ?_⟩, ?_⟩
  · rw [Table.leaf_setLeaf_self]
    exact hentry
  · rw [Table.leaf_setLeaf_self, hpa]
    exact hc.bytes
  · intro x hx hbot hx'
    apply hc.rest x
    · rintro rfl
      exact hx hc.free
    · rintro rfl
      obtain ⟨b, hb, rfl⟩ := Option.map_eq_some_iff.mp hp
      exact hbot hb
    · rintro rfl
      rw [hc.inv.alloc.free, howners] at hx'
      exact Nat.pos_of_ne_zero fun h0 => hx' ⟨hrange, h0⟩
  · rw [← hc.freelist_length hinv hold]
    split <;> omega
  · rw [Table.leaf_setLeaf_self, hpa]
    have htop' : (σ.set k (some (t.setLeaf v (cowEntry (t.leaf v) mem)))).KernelTop L :=
      htop.set ht fun u hu => Table.leaf_setLeaf_ne (by omega)
    exact hset.only_of_write htop' Space.table_set_self hmaps (by rw [Table.leaf_setLeaf_self]; exact hw)
  · omega
  · rw [hc.inv.alloc.free, howners, ← hcount]
    rw [← UInt8.toNat_inj]
    simp [hrange]
  · intro hf
    rw [hcow] at hf
    cases hf

theorem cowPageFaultHandler (h : SpaceInv L m σ) (htop : σ.KernelTop L) (ht : σ.table k = some t)
    (va : Nat) :
    Wp (Xv6.cowPageFaultHandler L t.root va) (fun r m' =>
      r = -1 ∧ m' = m ∧ (va = 0 ∨ MAXVA ≤ va ∨ (t.leaf (va / PGSIZE)).mayWrite = false ∨
        m.freelist = []) ∨
      r = 0 ∧ ∃ t', Handled L m σ k t (va / PGSIZE) m' t') m := by
  refine ((h.tableInv ht).cowPageFaultHandler_exact va).mono fun r m' hr => ?_
  obtain ⟨rfl, rfl, hwhy⟩ | ⟨rfl, _, _, hv, hu, ⟨hw, rfl⟩ | ⟨hcow, p, mem, hp, hc⟩⟩ := hr
  · exact .inl ⟨rfl, rfl, hwhy.imp id (Or.imp id (Or.imp id And.left))⟩
  · have hnc := ((h.fits k t ht).leaf _).cow hw
    refine .inr ⟨rfl, t, h.set (h.tableInv ht) (fun _ _ => rfl), rfl, rfl, rfl, fun _ _ => rfl,
      ⟨hv, hu, hw, hnc⟩, rfl, fun _ _ _ _ => rfl, Nat.le_succ _, fun hf => ?_, fun _ => ⟨rfl, rfl⟩⟩
    rw [hnc] at hf
    cases hf
  · exact .inr ⟨rfl, _, h.handled_of_copied htop ht hp hv hu hcow hc⟩

end SpaceInv

structure Table.CowAt (t : Table) (v q : Nat) : Prop where
  valid : (t.leaf v).has PTE_V = true
  user : (t.leaf v).has PTE_U = true
  cow : (t.leaf v).has PTE_COW = true
  frame : pte2pa (t.leaf v) = q

/-- What a call for a copy-on-write entry of page `q` leaves, whether it succeeds or not. -/
structure Called (L : Layout) (m : PhysMem) (σ : Space K) (k : K) (t : Table) (va q : Nat) (r : Int)
    (m' : PhysMem) (t' : Table) : Prop where
  inv : SpaceInv L m' (σ.set k (some t'))
  top : (σ.set k (some t')).KernelTop L
  root : t'.root = t.root
  others : ∀ u, u ≠ va / PGSIZE → t'.leaf u = t.leaf u
  result :
    r = 0 ∧ (t'.leaf (va / PGSIZE)).Private ∧ m'.page (pte2pa (t'.leaf (va / PGSIZE))) = m.page q ∨
    r = -1 ∧ t' = t ∧ m' = m ∧ (va = 0 ∨ m.freelist = [])
  count : (m'.counter (pa2cowIndex q)).toNat + (if r = 0 then 1 else 0) =
    (m.counter (pa2cowIndex q)).toNat
  rest : ∀ x, x ∉ m.freelist → t.bot (va / PGSIZE / 512) ≠ some x → x ∉ m'.freelist →
    m'.page x = m.page x
  spare : m.freelist.length ≤ m'.freelist.length + 1

namespace SpaceInv

variable {t' : Table}

theorem called (h : SpaceInv L m σ) (htop : σ.KernelTop L) (ht : σ.table k = some t)
    (hc : t.CowAt (va / PGSIZE) q) :
    Wp (Xv6.cowPageFaultHandler L t.root va) (fun r m' => ∃ t', Called L m σ k t va q r m' t') m := by
  obtain ⟨hv, hu, hcow, rfl⟩ := hc
  have hlt := (h.tableInv ht).user_lt hu
  refine (h.cowPageFaultHandler htop ht va).mono fun r m' hr => ?_
  obtain ⟨rfl, rfl, hwhy⟩ | ⟨rfl, t', ht'⟩ := hr
  · refine ⟨t, h.set (h.tableInv ht) (fun _ _ => rfl), htop.set ht (fun _ _ => rfl), rfl, fun _ _ => rfl,
      .inr ⟨rfl, rfl, rfl, ?_⟩, rfl, fun _ _ _ _ => rfl, Nat.le_succ _⟩
    have hmay : (t.leaf (va / PGSIZE)).mayWrite = true := by
      simp only [Pte.mayWrite, hv, hu, hcow, Bool.and_true, Bool.or_true]
    rcases hwhy with h0 | hmax | hno | hnil
    · exact .inl h0
    · simp only [userTop, TRAPFRAME, TRAMPOLINE, MAXVA, PGSIZE] at hlt hmax
      omega
    · rw [hmay] at hno
      cases hno
    · exact .inr hnil
  · exact ⟨t', ht'.inv, htop.set ht (fun u hu => ht'.others u (by omega)), ht'.root, ht'.others,
      .inl ⟨rfl, ht'.entry, ht'.bytes⟩, (ht'.copied hcow).2.1, ht'.rest,
      ht'.spare⟩

theorem mapped_kept {m₁ : PhysMem} {r : Int} {x w : Nat} (h : SpaceInv L m σ)
    (ht : σ.table k = some t) (hne : k₁ ≠ k) (ht₁ : σ.table k₁ = some t₁) (hx : t₁.MapsAt w x)
    (hc : Called L m σ k t va q r m₁ t') : m₁.page x = m.page x := by
  apply hc.rest x
  · intro hf
    exact h.free_unused hf ht₁ (.inr ⟨w, hx⟩)
  · intro hb
    exact h.not_shared ⟨t, ht, .inl (.inr (.inr ⟨_, hb⟩))⟩ (.inr ⟨k₁, hne, t₁, ht₁, .inr ⟨w, hx⟩⟩)
  · intro hf
    exact hc.inv.free_unused hf ((Space.table_set_ne hne).trans ht₁) (.inr ⟨w, hx⟩)

end SpaceInv

/-- What one of two sharers of the page `q` has in the end: a copy of its own or, if it called for
address 0 or there were not two free pages, still the original. -/
structure Ended (σ : Space K) (m : PhysMem) (q : Nat) (k : K) (t : Table) (va : Nat) (r : Int)
    (m' : PhysMem) (t' : Table) : Prop where
  root : t'.root = t.root
  others : ∀ u, u ≠ va / PGSIZE → t'.leaf u = t.leaf u
  result :
    r = 0 ∧ (t'.leaf (va / PGSIZE)).Private ∧ m'.page (pte2pa (t'.leaf (va / PGSIZE))) = m.page q ∧
      σ.Only k (va / PGSIZE) (pte2pa (t'.leaf (va / PGSIZE))) ∨
    r = -1 ∧ t' = t ∧ m'.page q = m.page q ∧ (va = 0 ∨ m.freelist.length < 2)

structure Raced (L : Layout) (m : PhysMem) (σ : Space K) (q : Nat) (k₁ : K) (t₁ : Table) (va₁ : Nat)
    (r₁ : Int) (k₂ : K) (t₂ : Table) (va₂ : Nat) (r₂ : Int) (m' : PhysMem) (t₁' t₂' : Table) :
    Prop where
  inv : SpaceInv L m' ((σ.set k₁ (some t₁')).set k₂ (some t₂'))
  left : Ended ((σ.set k₁ (some t₁')).set k₂ (some t₂')) m q k₁ t₁ va₁ r₁ m' t₁'
  right : Ended ((σ.set k₁ (some t₁')).set k₂ (some t₂')) m q k₂ t₂ va₂ r₂ m' t₂'
  freed : m'.freelist.count q = if r₁ = 0 ∧ r₂ = 0 ∧ σ.refs q = 2 then 1 else 0

theorem Raced.symm {r₁ r₂ : Int} {t₁' t₂' : Table} (hk : k₁ ≠ k₂)
    (h : Raced L m σ q k₁ t₁ va₁ r₁ k₂ t₂ va₂ r₂ m' t₁' t₂') :
    Raced L m σ q k₂ t₂ va₂ r₂ k₁ t₁ va₁ r₁ m' t₂' t₁' := by
  have hset : (σ.set k₂ (some t₂')).set k₁ (some t₁') = (σ.set k₁ (some t₁')).set k₂ (some t₂') := by
    unfold Space.set
    rw [update_comm hk]
  constructor
  · rw [hset]
    exact h.inv
  · rw [hset]
    exact h.right
  · rw [hset]
    exact h.left
  · rw [h.freed]
    congr 1
    rw [← and_assoc, and_comm (a := r₁ = 0), and_assoc]

namespace SpaceInv

theorem raced {r₁ r₂ : Int} (h : SpaceInv L m σ) (htop : σ.KernelTop L) (hk : k₁ ≠ k₂)
    (ht₁ : σ.table k₁ = some t₁) (ht₂ : σ.table k₂ = some t₂) (hc₁ : t₁.CowAt (va₁ / PGSIZE) q)
    (hc₂ : t₂.CowAt (va₂ / PGSIZE) q) (hs : Serial L t₁.root va₁ t₂.root va₂ m r₁ r₂ m') :
    ∃ t₁' t₂', Raced L m σ q k₁ t₁ va₁ r₁ k₂ t₂ va₂ r₂ m' t₁' t₂' := by
  have hm₁ : t₁.MapsAt (va₁ / PGSIZE) q := ⟨(h.tableInv ht₁).user_lt hc₁.user, hc₁.valid, hc₁.frame⟩
  have hm₂ : t₂.MapsAt (va₂ / PGSIZE) q := ⟨(h.tableInv ht₂).user_lt hc₂.user, hc₂.valid, hc₂.frame⟩
  obtain ⟨s₁, m₁, hrun₁, hs₁, s₂, m₂, hrun₂, hs₂, hm'⟩ := hs
  subst s₁ s₂ m₂
  obtain ⟨t₁', hd₁⟩ := (h.called htop ht₁ hc₁).ok hrun₁
  have ht₂' : (σ.set k₁ (some t₁')).table k₂ = some t₂ := (Space.table_set_ne hk.symm).trans ht₂
  obtain ⟨t₂', hd₂⟩ := (hd₁.inv.called hd₁.top ht₂' hc₂).ok hrun₂
  have hq : m₁.page q = m.page q := h.mapped_kept ht₁ hk.symm ht₂ hm₂ hd₁
  have hself : ((σ.set k₁ (some t₁')).set k₂ (some t₂')).table k₁ = some t₁' :=
    (Space.table_set_ne hk).trans Space.table_set_self
  have hkept : ∀ {x w}, t₁'.MapsAt w x → m'.page x = m₁.page x :=
    fun hx => hd₁.inv.mapped_kept ht₂' hk Space.table_set_self hx hd₂
  have hrefs := two_le_refs hk ⟨t₁, ht₁, .inr ⟨_, hm₁⟩⟩ ⟨t₂, ht₂, .inr ⟨_, hm₂⟩⟩
  have hrange := h.alloc.inRange (show 0 < σ.refs q by omega)
  refine ⟨t₁', t₂', hd₂.inv, ⟨hd₁.root, hd₁.others, ?_⟩, ⟨hd₂.root, hd₂.others, ?_⟩, ?_⟩
  · obtain ⟨rfl, hp, hb⟩ | ⟨rfl, rfl, -, hwhy⟩ := hd₁.result
    · have hmap : t₁'.MapsAt (va₁ / PGSIZE) (pte2pa (t₁'.leaf (va₁ / PGSIZE))) := ⟨hm₁.1, hp.valid, rfl⟩
      exact .inl ⟨rfl, hp, (hkept hmap).trans hb, hd₂.inv.only_of_write hd₂.top hself hmap hp.write⟩
    · exact .inr ⟨rfl, rfl, (hkept hm₁).trans hq, hwhy.imp id fun hnil => by rw [hnil]; decide⟩
  · obtain ⟨rfl, hp, hb⟩ | ⟨rfl, rfl, rfl, hwhy⟩ := hd₂.result
    · refine .inl ⟨rfl, hp, hb.trans hq, ?_⟩
      exact hd₂.inv.only_of_write hd₂.top Space.table_set_self ⟨hm₂.1, hp.valid, rfl⟩ hp.write
    · refine .inr ⟨rfl, rfl, hq, hwhy.imp id fun hnil => ?_⟩
      have hspare := hd₁.spare
      rw [hnil] at hspare
      exact Nat.lt_succ_of_le hspare
  · -- The count of the old page tells whether it is free.
    have hcount := h.alloc.count q hrange
    have hcount' := hd₂.inv.alloc.count q hrange
    have hd := hd₁.count
    have hd' := hd₂.count
    have hfree := hd₂.inv.alloc.free q
    by_cases hall : r₁ = 0 ∧ r₂ = 0 ∧ σ.refs q = 2
    · rw [if_pos hall]
      rw [if_pos hall.1] at hd
      rw [if_pos hall.2.1] at hd'
      exact List.count_eq_one_of_mem hd₂.inv.alloc.nodup (hfree.mpr ⟨hrange, by omega⟩)
    · rw [if_neg hall, List.count_eq_zero, hfree]
      rintro ⟨_, h0⟩
      split at hd <;> split at hd' <;> omega

end SpaceInv

theorem Table.CowAt.shares (hc : t.CowAt (va / PGSIZE) q) (h : SpaceInv L m σ)
    (ht : σ.table k = some t) : ∃ p, va ≠ 0 → Shares t va p := by
  have hlt := (h.tableInv ht).user_lt hc.user
  have hmax : va < MAXVA := by
    simp only [userTop, TRAPFRAME, TRAMPOLINE, MAXVA, PGSIZE] at hlt ⊢
    omega
  by_cases h0 : va = 0
  · exact ⟨⟨0, 0⟩, fun hne => absurd h0 hne⟩
  · obtain ⟨p, hp⟩ := h.shares ht h0 hmax hc.valid hc.user hc.cow
    exact ⟨p, fun _ => hp⟩

/-- A call of the handler changes just what it should, or fails and changes nothing. Cut at the locks
it is still the handler; and two calls for a page that two processes share, interleaved in any way,
give each of them its own copy when there are two free pages, and free the original exactly once if
they were its last two users. -/
theorem cow_fault_exact (h : SpaceInv L m σ) (htop : σ.KernelTop L) :
    (∀ k t va, σ.table k = some t →
      Wp (cowPageFaultHandler L t.root va) (fun r m' =>
        r = -1 ∧ m' = m ∧ (va = 0 ∨ MAXVA ≤ va ∨ (t.leaf (va / PGSIZE)).mayWrite = false ∨
          m.freelist = []) ∨
        r = 0 ∧ ∃ t', Handled L m σ k t (va / PGSIZE) m' t') m) ∧
    (∀ pagetable va, cowSections L pagetable va 6 .start =
      CowPoint.done <$> cowPageFaultHandler L pagetable va) ∧
    ∀ k₁ t₁ va₁ k₂ t₂ va₂ q, k₁ ≠ k₂ → σ.table k₁ = some t₁ → σ.table k₂ = some t₂ →
      t₁.CowAt (va₁ / PGSIZE) q → t₂.CowAt (va₂ / PGSIZE) q → ∀ l : List Bool,
      Wp (cowRace L t₁.root va₁ t₂.root va₂ l .start .start) (fun c m' =>
        (6 ≤ l.count true → 6 ≤ l.count false → ∃ r₁ r₂, c = (.done r₁, .done r₂)) ∧
        ∀ r₁ r₂, c = (.done r₁, .done r₂) → ∃ t₁' t₂',
          Raced L m σ q k₁ t₁ va₁ r₁ k₂ t₂ va₂ r₂ m' t₁' t₂') m := by
  refine ⟨fun k t va ht => h.cowPageFaultHandler htop ht va, cowSections_eq, ?_⟩
  intro k₁ t₁ va₁ k₂ t₂ va₂ q hk ht₁ ht₂ hc₁ hc₂ l
  obtain ⟨p₁, hp₁⟩ := hc₁.shares h ht₁
  obtain ⟨p₂, hp₂⟩ := hc₂.shares h ht₂
  obtain ⟨c, m', hrun, hc⟩ := h.race_any hk ht₁ ht₂ hp₁ hp₂ hc₁.frame hc₂.frame l
  refine ⟨c, m', hrun, fun h1 h2 => cowRace_ends hrun h1 h2, fun r₁ r₂ he => ?_⟩
  rcases hc r₁ r₂ he with hs | hs
  · exact h.raced htop hk ht₁ ht₂ hc₁ hc₂ hs
  · obtain ⟨t₂', t₁', hr⟩ := h.raced htop hk.symm ht₂ ht₁ hc₂ hc₁ hs
    exact ⟨t₁', t₂', hr.symm hk.symm⟩

/-- The first process and its child, right after `fork`. -/
theorem exists_sharers : ∃ (s : KState) (σ : Space Key) (t₁ t₂ : Table) (q : Nat),
    SpaceInv smallKernel s.mem σ ∧ σ.KernelTop smallKernel ∧ σ.table (some 0) = some t₁ ∧
    σ.table (some 1) = some t₂ ∧ t₁.CowAt 0 q ∧ t₂.CowAt 0 q ∧ σ.refs q = 2 ∧
    2 ≤ s.mem.freelist.length := by
  obtain ⟨s, ⟨⟨σ, hp⟩, hs⟩, h₀, h₁, hrange, hcount, hfree, hcow, hsame, htop⟩ := Good.exists_small
    (P := fun s => (s.proc 0).state = .runnable ∧
      (s.proc 1).state = .runnable ∧ smallKernel.InRange (pte2pa (s.pte 0 0)) ∧
      s.mem.counter (pa2cowIndex (pte2pa (s.pte 0 0))) = 2 ∧ 2 ≤ s.mem.freelist.length ∧
      ((s.pte 0 0).has PTE_V = true ∧ (s.pte 0 0).has PTE_U = true ∧ (s.pte 0 0).has PTE_COW = true) ∧
      s.pte 1 0 = s.pte 0 0 ∧
      ∀ p, (s.proc p).pagetable = none ∨ (s.proc p).trapframe = some (pte2pa (s.pte p userTop)) ∧
        pte2pa (s.pte p trampolinePage) = KERNBASE) [.fork 0] (by simp) (by decide +kernel)
  obtain ⟨t₁, ht₁⟩ := hp.running_table hs h₀
  obtain ⟨t₂, ht₂⟩ := hp.running_table hs h₁
  rw [hp.pte_some ht₁] at hrange hcount hcow hsame
  rw [hp.pte_some ht₂] at hsame
  refine ⟨s, σ, t₁, t₂, _, hp.space, fun k t u ht hu hv => ?_, ht₁, ht₂, ⟨hcow.1, hcow.2.1, hcow.2.2, rfl⟩,
    ?_, ?_, hfree⟩
  · cases k with
    | none =>
      rw [hp.spare] at ht
      cases ht
    | some p =>
      obtain ⟨hroot, hc⟩ := hp.holds ht
      obtain hnone | ⟨htf, htramp⟩ := htop p
      · rw [hroot] at hnone
        cases hnone
      rw [hp.pte_some ht] at htf htramp
      rcases (hc.valid u).mp hv with hlt | rfl | rfl
      · exact absurd (Nat.lt_of_lt_of_le hlt hc.le) (Nat.not_lt.mpr hu)
      · exact .inl ((hp.kernel _).mpr (.inr ⟨p, htf⟩))
      · rw [htramp]
        exact .inr (by decide)
  · rw [← hsame] at hcow
    exact ⟨hcow.1, hcow.2.1, hcow.2.2, by rw [hsame]⟩
  · rw [← hp.space.alloc.count _ hrange, hcount]
    rfl

theorem cow_fault_exact_shared : ∃ (s : KState) (σ : Space Key) (t₁ t₂ : Table) (q : Nat),
    SpaceInv smallKernel s.mem σ ∧ σ.KernelTop smallKernel ∧ t₁.CowAt 0 q ∧ t₂.CowAt 0 q ∧
    ∀ l : List Bool, 6 ≤ l.count true → 6 ≤ l.count false →
      Wp (cowRace smallKernel t₁.root 8 t₂.root 16 l .start .start) (fun c m' =>
        c = (.done 0, .done 0) ∧ m'.freelist.count q = 1 ∧ ∃ t₁' t₂' : Table,
          (t₁'.leaf 0).Private ∧ m'.page (pte2pa (t₁'.leaf 0)) = s.mem.page q ∧
          (t₂'.leaf 0).Private ∧ m'.page (pte2pa (t₂'.leaf 0)) = s.mem.page q ∧
          Raced smallKernel s.mem σ q (some 0) t₁ 8 0 (some 1) t₂ 16 0 m' t₁' t₂') s.mem := by
  obtain ⟨s, σ, t₁, t₂, q, hs, htop, ht₁, ht₂, hc₁, hc₂, hrefs, hfree⟩ := exists_sharers
  refine ⟨s, σ, t₁, t₂, q, hs, htop, hc₁, hc₂, fun l h1 h2 => ?_⟩
  refine ((cow_fault_exact hs htop).2.2 (some 0) t₁ 8 (some 1) t₂ 16 q (by decide) ht₁ ht₂ hc₁ hc₂ l).mono ?_
  rintro c m' ⟨hdone, hraced⟩
  obtain ⟨r₁, r₂, hc⟩ := hdone h1 h2
  obtain ⟨t₁', t₂', hr⟩ := hraced r₁ r₂ hc
  obtain ⟨rfl, hp₁, hb₁, -⟩ | ⟨-, -, -, h0 | hfew⟩ := hr.left.result
  · obtain ⟨rfl, hp₂, hb₂, -⟩ | ⟨-, -, -, h0 | hfew⟩ := hr.right.result
    · exact ⟨hc, hr.freed.trans (if_pos ⟨rfl, rfl, hrefs⟩), t₁', t₂', hp₁, hb₁, hp₂, hb₂, hr⟩
    · cases h0
    · omega
  · cases h0
  · omega

end Xv6
