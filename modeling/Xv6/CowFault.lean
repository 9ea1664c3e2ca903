import Xv6.UserVm

/-! The copy-on-write fault handler, and the functions that read and write user memory
through it. -/

namespace Xv6

open Function StateProg

variable {L : Layout} {m m' : PhysMem} {env : Env} {t t' : Table} {v va q : Nat} {p : PtePtr} {pte : Pte}

def Pte.mayWrite (pte : Pte) : Bool :=
  pte.has PTE_V && pte.has PTE_U && (pte.has PTE_W || pte.has PTE_COW)

/-- The same pages with the same access; which of `PTE_W` and `PTE_COW` is set may differ. -/
structure Table.Agrees (t t' : Table) : Prop where
  root : t'.root = t.root
  leaf : ∀ u, (t'.leaf u).SameAccess (t.leaf u)
  mayWrite : ∀ u, (t'.leaf u).mayWrite = (t.leaf u).mayWrite

theorem Table.Agrees.refl (t : Table) : t.Agrees t := ⟨rfl, fun _ => ⟨rfl, rfl, rfl⟩, fun _ => rfl⟩

theorem Table.Agrees.trans {t'' : Table} (h : t.Agrees t') (h' : t'.Agrees t'') : t.Agrees t'' where
  root := h'.root.trans h.root
  leaf u := ⟨(h'.leaf u).valid.trans (h.leaf u).valid, (h'.leaf u).readable.trans (h.leaf u).readable,
    (h'.leaf u).user.trans (h.leaf u).user⟩
  mayWrite u := (h'.mayWrite u).trans (h.mayWrite u)

def cowEntry (pte : Pte) (mem : Nat) : Pte := (pteFlags pte &&& ~~~PTE_COW) ||| PTE_W ||| pa2pte mem

theorem Table.ptr_has (hp : t.ptr v = some p) : t.Has p.page := by
  obtain ⟨x, hx, rfl⟩ := Option.map_eq_some_iff.mp hp
  exact .inr (.inr ⟨_, hx⟩)

namespace TableInv

theorem user_lt (h : TableInv L m env t) (hu : (t.leaf v).has PTE_U = true) : v < userTop := by
  by_contra hge
  rw [(h.fits.leaf v).user (by omega)] at hu
  cases hu

theorem cow_fits {mem : Nat} (h : TableInv L m env t) (hm : t.MapsAt v q)
    (hz : env.count mem = 0) (hnot : ¬ t.Uses mem) (ha : PageAddr mem) :
    (t.setLeaf v (cowEntry (t.leaf v) mem)).Fits env ∧
    owners env (t.setLeaf v (cowEntry (t.leaf v) mem)) =
      update (owners (env.add mem) t) q (owners (env.add mem) t q - 1) := by
  obtain ⟨hsame, hW, hC, hpa⟩ := cowCopy (t.leaf v) ha
  change (cowEntry (t.leaf v) mem).SameAccess _ at hsame
  change (cowEntry (t.leaf v) mem).has _ = _ at hW hC
  change pte2pa (cowEntry (t.leaf v) mem) = _ at hpa
  have hV : (cowEntry (t.leaf v) mem).has PTE_V = true := hsame.valid.trans hm.2.1
  have hne : q ≠ mem := fun he => hnot (he ▸ .inr ⟨v, hm⟩)
  constructor
  · apply h.fits.setLeaf
    · refine ⟨fun hf => ?_, fun hge => ?_, fun _ => ?_, fun _ => hC, fun hge => ?_⟩
      · rw [hV] at hf
        cases hf
      · rw [← (h.fits.leaf v).top hge]
        exact hsame.valid
      · rw [hsame.readable]
        exact (h.fits.leaf v).readable hm.2.1
      · rw [hsame.user]
        exact (h.fits.leaf v).user hge
    · intro _ _
      rw [hpa]
      refine ⟨fun hs => ?_, fun hh => hnot (.inl hh), fun _ => hz, fun u _ hx => hnot (.inr ⟨u, hx⟩)⟩
      have hpos := env.sole_pos mem hs
      omega
  · have hnot' : ¬ (t.setLeaf v 0).Uses mem := by
      rintro (hh | hh)
      · exact hnot (.inl hh)
      · exact hnot (.inr ((h.fits.maps_setLeaf_zero hm).mp hh).1)
    rw [← Table.setLeaf_setLeaf (t := t) (v := v) 0, owners_map (by simp; decide) hm.1 hV
      (by rw [hpa]; exact hnot'), hpa, h.fits.owners_unmap hm, owners_add,
      update_of_ne hne, update_of_ne hne.symm, update_comm hne]

/-- The memory once the entry `p` of page `v` maps the page `mem`, which was free and holds
the bytes of the old page. -/
structure Copied (L : Layout) (m : PhysMem) (env : Env) (t : Table) (v : Nat) (p : PtePtr) (mem : Nat)
    (m' : PhysMem) : Prop where
  inv : TableInv L m' env (t.setLeaf v (cowEntry (t.leaf v) mem))
  free : mem ∈ m.freelist
  addr : PageAddr mem
  bytes : m'.page mem = m.page (pte2pa (t.leaf v))
  rest : ∀ x, x ≠ mem → x ≠ p.page → (x = pte2pa (t.leaf v) → 0 < env.count x) → m'.page x = m.page x

theorem cow_copy {mem : Nat} {m₁ : PhysMem} (h : TableInv L m env t) (hp : t.ptr v = some p)
    (hv : (t.leaf v).has PTE_V = true) (hu : (t.leaf v).has PTE_U = true)
    (hk : TableInv L m₁ (env.add mem) t ∧ L.InRange mem ∧ env.count mem = 0 ∧
      m.freelist = mem :: m₁.freelist ∧ ∀ y, y ≠ mem → m₁.page y = m.page y) :
    Wp (do
      writePte p (cowEntry (t.leaf v) mem)
      let m ← get
      setPage mem (m.page (pte2pa (t.leaf v)))
      kfree L (pte2pa (t.leaf v))
      pure (0 : Int)) (fun r m' => r = 0 ∧ Copied L m env t v p mem m') m₁ := by
  obtain ⟨hinv, hrange, hz, hlist, hpage⟩ := hk
  have hnot : ¬ t.Uses mem := hinv.fits.not_uses_added
  have hm : t.MapsAt v (pte2pa (t.leaf v)) := ⟨h.user_lt hu, hv, rfl⟩
  obtain ⟨hfits, howners⟩ := h.cow_fits hm hz hnot hrange.pageAddr
  have hne : pte2pa (t.leaf v) ≠ mem := fun he => hnot (he ▸ .inr ⟨v, hm⟩)
  apply wp_bind_modify
  apply wp_bind_get
  apply wp_bind_modify
  have hpos : 0 < owners (env.add mem) t (pte2pa (t.leaf v)) := by
    rw [owners_uses (.inr ⟨v, hm⟩)]
    omega
  have halloc : AllocInv L { m₁.setPte p (cowEntry (t.leaf v) mem) with
      page := update (m₁.setPte p (cowEntry (t.leaf v) mem)).page mem
        ((m₁.setPte p (cowEntry (t.leaf v) mem)).page (pte2pa (t.leaf v))) }
      (owners (env.add mem) t) := hinv.alloc.congr rfl rfl
  refine (halloc.kfree hpos).bind fun _ m' hr => ?_
  obtain ⟨ha, hfree⟩ := hr
  rw [← howners] at ha
  refine wp_pure ⟨rfl, ⟨ha, ?_, hfits⟩, ?_, hrange.pageAddr, ?_, ?_⟩
  · refine (hinv.rep.setPte hp _).congr fun x hx => ?_
    have hxm : x ≠ mem := fun he => hnot (he ▸ .inl hx)
    have hxq : x ≠ pte2pa (t.leaf v) := fun he => h.fits.apart x hx ⟨v, he ▸ hm⟩
    rw [hfree x (.inl hxq)]
    exact update_of_ne hxm ..
  · rw [hlist]
    exact List.mem_cons_self
  · rw [hfree mem (.inl hne.symm)]
    change update _ mem _ mem = _
    rw [update_self, hinv.rep.page_setPte hp _ (fun hh => h.fits.apart _ hh ⟨v, hm⟩),
      hpage _ hne]
  · intro x hxm hxp hxq
    have hor : x ≠ pte2pa (t.leaf v) ∨ 1 < owners (env.add mem) t (pte2pa (t.leaf v)) := by
      by_cases he : x = pte2pa (t.leaf v)
      · right
        have hpos' := hxq he
        rw [he] at hpos'
        rw [owners_uses (.inr ⟨v, hm⟩)]
        simp only [Env.add, update_of_ne hne]
        omega
      · exact .inl he
    rw [hfree x hor]
    change update _ mem _ x = _
    rw [update_of_ne hxm]
    change update _ p.page _ x = _
    rw [update_of_ne hxp, hpage x hxm]

namespace Copied

variable {mem : Nat}

theorem entry (h : Copied L m env t v p mem m') : (cowEntry (t.leaf v) mem).SameAccess (t.leaf v) ∧
    (cowEntry (t.leaf v) mem).has PTE_W = true ∧ (cowEntry (t.leaf v) mem).has PTE_COW = false ∧
    pte2pa (cowEntry (t.leaf v) mem) = mem := cowCopy (t.leaf v) h.addr

theorem agrees (h : Copied L m env t v p mem m') (hcow : (t.leaf v).has PTE_COW = true) :
    t.Agrees (t.setLeaf v (cowEntry (t.leaf v) mem)) := by
  obtain ⟨hsame, hW, hC, -⟩ := h.entry
  refine ⟨rfl, fun u => ?_, fun u => ?_⟩
  · by_cases he : u = v
    · subst u
      rw [Table.leaf_setLeaf_self]
      exact hsame
    · rw [Table.leaf_setLeaf_ne he]
      exact ⟨rfl, rfl, rfl⟩
  · by_cases he : u = v
    · subst u
      simp only [Table.leaf_setLeaf_self, Pte.mayWrite, hsame.valid, hsame.user, hW, hC, hcow,
        Bool.or_true, Bool.or_false]
    · rw [Table.leaf_setLeaf_ne he]

theorem unused (h : Copied L m env t v p mem m') (hm : TableInv L m env t) :
    env.count mem = 0 ∧ ¬ t.Uses mem := not_uses_of_zero ((hm.alloc.free mem).mp h.free).2

theorem eqOn (h : Copied L m env t v p mem m') (hm : TableInv L m env t) (hp : t.ptr v = some p) :
    Set.EqOn m'.page m.page {x | 0 < env.count x} := by
  intro x hx
  have hpos : 0 < env.count x := hx
  refine h.rest x ?_ ?_ fun _ => hpos
  · rintro rfl
    have := (h.unused hm).1
    omega
  · rintro rfl
    have := hm.fits.has _ (Table.ptr_has hp)
    omega

theorem view (h : Copied L m env t v p mem m') (hm : TableInv L m env t) (hp : t.ptr v = some p)
    (hv : (t.leaf v).has PTE_V = true) (hu : (t.leaf v).has PTE_U = true)
    (hcow : (t.leaf v).has PTE_COW = true) :
    (t.setLeaf v (cowEntry (t.leaf v) mem)).view m'.page = t.view m.page := by
  obtain ⟨hsame, hW, hC, hpa⟩ := h.entry
  have hmaps : t.MapsAt v (pte2pa (t.leaf v)) := ⟨hm.user_lt hu, hv, rfl⟩
  funext u
  by_cases he : u = v
  · subst u
    simp only [Table.view, Table.leaf_setLeaf_self, hsame.valid, hsame.user, hv, hu, hpa, h.bytes, hW,
      hC, hcow, Bool.or_true, Bool.or_false]
  · apply hm.fits.view_congr (Table.leaf_setLeaf_ne he)
    intro x hx
    refine h.rest x ?_ ?_ ?_
    · rintro rfl
      exact (h.unused hm).2 (.inr ⟨u, hx⟩)
    · rintro rfl
      exact hm.fits.apart _ (Table.ptr_has hp) ⟨u, hx⟩
    · rintro rfl
      exact absurd (hm.fits.inj u v _ hx hmaps) he

end Copied

theorem cowPageFaultHandler_exact (h : TableInv L m env t) (va : Nat) :
    Wp (cowPageFaultHandler L t.root va) (fun r m' =>
      r = -1 ∧ m' = m ∧ (va = 0 ∨ MAXVA ≤ va ∨ (t.leaf (va / PGSIZE)).mayWrite = false ∨
        m.freelist = [] ∧ (t.leaf (va / PGSIZE)).has PTE_W = false) ∨
      r = 0 ∧ va ≠ 0 ∧ va < MAXVA ∧ (t.leaf (va / PGSIZE)).has PTE_V = true ∧
        (t.leaf (va / PGSIZE)).has PTE_U = true ∧
        ((t.leaf (va / PGSIZE)).has PTE_W = true ∧ m' = m ∨
          (t.leaf (va / PGSIZE)).has PTE_COW = true ∧
            ∃ p mem, t.ptr (va / PGSIZE) = some p ∧ Copied L m env t (va / PGSIZE) p mem m')) m := by
  unfold Xv6.cowPageFaultHandler
  by_cases hbad : va = 0 ∨ va ≥ MAXVA
  · rw [if_pos hbad]
    exact wp_pure (.inl ⟨rfl, rfl, by tauto⟩)
  rw [if_neg hbad]
  have hva : va < MAXVA := by omega
  have hzero : va ≠ 0 := by omega
  apply h.rep.wp_walk hva
  generalize va / PGSIZE = v
  cases hp : t.ptr v with
  | none =>
    refine wp_pure (.inl ⟨rfl, rfl, .inr (.inr (.inl ?_))⟩)
    rw [h.rep.ptr_eq_none hp]
    decide
  | some p =>
    apply h.rep.wp_readPte hp
    cases hv : (t.leaf v).has PTE_V with
    | false =>
      exact wp_pure (.inl ⟨rfl, rfl, .inr (.inr (.inl (by simp only [Pte.mayWrite, hv, Bool.false_and])))⟩)
    | true =>
    cases hu : (t.leaf v).has PTE_U with
    | false =>
      have hno : (t.leaf v).mayWrite = false := by
        simp only [Pte.mayWrite, hv, hu, Bool.and_false, Bool.false_and]
      exact wp_pure (.inl ⟨rfl, rfl, .inr (.inr (.inl hno))⟩)
    | true =>
    cases hw : (t.leaf v).has PTE_W with
    | true => exact wp_pure (.inr ⟨rfl, hzero, hva, rfl, rfl, .inl ⟨rfl, rfl⟩⟩)
    | false =>
    cases hcow : (t.leaf v).has PTE_COW with
    | false =>
      have hno : (t.leaf v).mayWrite = false := by
        simp only [Pte.mayWrite, hw, hcow, Bool.and_false, Bool.or_false]
      exact wp_pure (.inl ⟨rfl, rfl, .inr (.inr (.inl hno))⟩)
    | true =>
      simp only [Bool.not_true, Bool.false_eq_true, if_false]
      refine h.kalloc.bind fun r m₁ hk => ?_
      cases r with
      | none =>
        obtain ⟨hempty, rfl⟩ := hk
        exact wp_pure (.inl ⟨rfl, rfl, .inr (.inr (.inr ⟨hempty, trivial⟩))⟩)
      | some mem =>
        refine (h.cow_copy hp hv hu hk).mono fun r m' hr => .inr ?_
        exact ⟨hr.1, hzero, hva, trivial, trivial, .inr ⟨trivial, p, mem, rfl, hr.2⟩⟩

/-- The handler refuses, and changes nothing, or makes the page writable without changing
what any process sees. -/
theorem cowPageFaultHandler (h : TableInv L m env t) (va : Nat) :
    Wp (cowPageFaultHandler L t.root va) (fun r m' =>
      r = -1 ∧ m' = m ∧ (va = 0 ∨ MAXVA ≤ va ∨ (t.leaf (va / PGSIZE)).mayWrite = false ∨
        m.freelist = []) ∨
      r = 0 ∧ va ≠ 0 ∧ va < MAXVA ∧ (t.leaf (va / PGSIZE)).mayWrite = true ∧
        ∃ t', TableInv L m' env t' ∧ t.Agrees t' ∧ t'.view m'.page = t.view m.page ∧
          (t'.leaf (va / PGSIZE)).has PTE_W = true ∧
          Set.EqOn m'.page m.page {x | 0 < env.count x}) m := by
  refine (h.cowPageFaultHandler_exact va).mono fun r m' hr => hr.imp (by tauto) ?_
  rintro ⟨rfl, hzero, hva, hv, hu, ⟨hw, rfl⟩ | ⟨hcow, p, mem, hp, hc⟩⟩
  · exact ⟨rfl, hzero, hva, by simp only [Pte.mayWrite, hv, hu, hw, Bool.and_true, Bool.true_or],
      t, h, .refl t, rfl, hw, fun _ _ => rfl⟩
  · refine ⟨rfl, hzero, hva, by simp only [Pte.mayWrite, hv, hu, hcow, Bool.and_true, Bool.or_true],
      _, hc.inv, hc.agrees hcow, hc.view h hp hv hu hcow, ?_, hc.eqOn h hp⟩
    rw [Table.leaf_setLeaf_self]
    exact hc.entry.2.1

theorem not_free_of_mapsAt (h : TableInv L m env t) (hm : t.MapsAt v q) : q ∉ m.freelist := by
  intro hf
  have hz := ((h.alloc.free q).mp hf).2
  rw [owners_uses (.inr ⟨v, hm⟩)] at hz
  omega

/-- A copy takes a page off the free list and puts the old one back if nobody else uses it. -/
theorem Copied.freelist_length {p : PtePtr} {mem : Nat} (hc : Copied L m env t v p mem m')
    (h : TableInv L m env t) (hm : t.MapsAt v q) :
    m'.freelist.length + (if 0 < env.count q then 1 else 0) = m.freelist.length := by
  obtain ⟨hz, hnot⟩ := hc.unused h
  have howners := (h.cow_fits hm hz hnot hc.addr).2
  have hne : q ≠ mem := fun he => hnot (he ▸ .inr ⟨v, hm⟩)
  have hrange := h.inRange (.inr ⟨v, hm⟩)
  have hown : ∀ pa, owners env (t.setLeaf v (cowEntry (t.leaf v) mem)) pa =
      if pa = q then env.count q else if pa = mem then 1 else owners env t pa := by
    intro pa
    rw [howners, owners_add]
    by_cases hpq : pa = q
    · subst pa
      rw [update_self, update_of_ne hne, owners_uses (.inr ⟨v, hm⟩), if_pos rfl]
      rfl
    · rw [update_of_ne hpq, if_neg hpq]
      by_cases hpm : pa = mem
      · subst pa
        rw [update_self, owners_not_uses hnot, hz, if_pos rfl]
      · rw [update_of_ne hpm, if_neg hpm]
  have hmem : ∀ pa, pa ∈ m'.freelist ↔
      pa ∈ (if 0 < env.count q then [] else [q]) ++ m.freelist.erase mem := by
    intro pa
    have hqfree := h.not_free_of_mapsAt hm
    rw [hc.inv.alloc.free, hown, List.mem_append, h.alloc.nodup.mem_erase_iff, h.alloc.free]
    by_cases hpq : pa = q
    · subst pa
      rw [h.alloc.free] at hqfree
      split <;> simp [hrange] <;> grind
    · split <;> grind
  have hnodup : ((if 0 < env.count q then [] else [q]) ++ m.freelist.erase mem).Nodup := by
    have hqfree := fun hf => h.not_free_of_mapsAt hm (List.mem_of_mem_erase (b := mem) hf)
    split
    · exact h.alloc.nodup.erase mem
    · exact List.nodup_cons.mpr ⟨hqfree, h.alloc.nodup.erase mem⟩
  have hperm := (List.perm_ext_iff_of_nodup hc.inv.alloc.nodup hnodup).mpr hmem
  have hlen := hperm.length_eq
  have herase := List.length_erase_of_mem hc.free
  have hpos := List.length_pos_of_mem hc.free
  rw [hlen, List.length_append, herase]
  split <;> simp <;> omega

end TableInv

end Xv6
