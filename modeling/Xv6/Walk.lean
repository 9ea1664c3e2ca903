import Xv6.PageTable

/-! What `walk` does on a page table in memory: it finds leaf entries, and creates the
lower tables it lacks. -/

namespace Xv6

open Function StateProg

variable {L : Layout} {t : Table} {m : PhysMem} {va level pt : Nat}

theorem px_two (hva : va < MAXVA) : px 2 va = va / PGSIZE / 512 / 512 := by
  simp only [MAXVA, px, PGSIZE] at *
  omega

theorem px_two_lt (va : Nat) : px 2 va < 512 := Nat.mod_lt _ (by decide)

theorem px_one (va : Nat) : px 1 va = va / PGSIZE / 512 % 512 := by
  simp only [px, PGSIZE]
  omega

theorem px_zero (va : Nat) : px 0 va = va / PGSIZE % 512 := rfl

theorem walkLoop_valid {alloc : Bool} (hv : (pteAt (m.page pt) (px (level + 1) va)).has PTE_V = true) :
    walkLoop va alloc (level + 1) pt m =
      walkLoop va alloc level (pte2pa (pteAt (m.page pt) (px (level + 1) va))) m := by
  change (if (pteAt (m.page pt) (px (level + 1) va)).has PTE_V then _ else _ : Kernel _) m = _
  rw [if_pos hv]

theorem walkLoop_invalid (hv : (pteAt (m.page pt) (px (level + 1) va)).has PTE_V = false) :
    walkLoop va false (level + 1) pt m = .ok (none, m) := by
  change (if (pteAt (m.page pt) (px (level + 1) va)).has PTE_V then _ else _ : Kernel _) m = _
  rw [hv]
  rfl

namespace Table.Rep

theorem bot_of_mid (h : t.Rep m.page) {w q : Nat} (hq : t.mid (w / 512) = some q) :
    pteAt (m.page q) (w % 512) = tableEntry (t.bot w) := by
  have hb := h.mid _ q hq (w % 512) (Nat.mod_lt _ (by decide))
  rwa [show w / 512 * 512 + w % 512 = w by omega] at hb

variable {v : Nat}

theorem leaf_of_bot (h : t.Rep m.page) {q : Nat} (hq : t.bot (v / 512) = some q) :
    pteAt (m.page q) (v % 512) = t.leaf v := by
  have hb := h.bot _ q hq (v % 512) (Nat.mod_lt _ (by decide))
  rwa [show v / 512 * 512 + v % 512 = v by omega] at hb

theorem walk_lookup (h : t.Rep m.page) (hva : va < MAXVA) :
    walk t.root va false m = .ok (t.ptr (va / PGSIZE), m) := by
  unfold walk
  rw [if_neg (by omega)]
  have htop := h.top (px 2 va) (px_two_lt va)
  cases hm : t.mid (px 2 va) with
  | none =>
    rw [hm] at htop
    have hbot : t.bot (va / PGSIZE / 512) = none := by
      cases hb : t.bot (va / PGSIZE / 512) with
      | none => rfl
      | some q =>
        obtain ⟨p, hp⟩ := h.bot_mid _ q hb
        rw [← px_two hva, hm] at hp
        cases hp
    rw [walkLoop_invalid (by rw [htop]; exact tableEntry_none), Table.ptr, hbot]
    rfl
  | some q =>
    rw [hm] at htop
    have hq := tableEntry_some (h.addr q (.inr (.inl ⟨_, hm⟩)))
    rw [walkLoop_valid (by rw [htop]; exact hq.1), htop, hq.2.1]
    rw [px_two hva] at hm
    have hmid := h.bot_of_mid hm
    rw [← px_one] at hmid
    cases hb : t.bot (va / PGSIZE / 512) with
    | none =>
      rw [hb] at hmid
      rw [walkLoop_invalid (by rw [hmid]; exact tableEntry_none), Table.ptr, hb]
      rfl
    | some r =>
      rw [hb] at hmid
      have hr := tableEntry_some (h.addr r (.inr (.inr ⟨_, hb⟩)))
      rw [walkLoop_valid (by rw [hmid]; exact hr.1), hmid, hr.2.1, Table.ptr, hb]
      rfl

theorem ptr_eq_none (h : t.Rep m.page) (hp : t.ptr v = none) : t.leaf v = 0 := by
  apply h.leaf_bot
  cases hb : t.bot (v / 512) with
  | none => rfl
  | some q => simp [Table.ptr, hb] at hp

theorem ptr_eq_some (h : t.Rep m.page) {p : PtePtr} (hp : t.ptr v = some p) :
    t.bot (v / 512) = some p.page ∧ p.index = v % 512 ∧ pteAt (m.page p.page) p.index = t.leaf v := by
  cases hb : t.bot (v / 512) with
  | none => simp [Table.ptr, hb] at hp
  | some q =>
    simp only [Table.ptr, hb, Option.map_some, Option.some.injEq] at hp
    subst hp
    exact ⟨rfl, rfl, h.leaf_of_bot hb⟩

end Table.Rep

structure Table.Grown (L : Layout) (m m' : PhysMem) (refs refs' : Nat → Nat) (t t' : Table) :
    Prop where
  root : t'.root = t.root
  has : ∀ q, t.Has q → t'.Has q
  fresh : ∀ q, t'.Has q → ¬ t.Has q → L.InRange q ∧ refs q = 0 ∧ refs' q = 1
  same : ∀ q, t.Has q ∨ ¬ t'.Has q → refs' q = refs q
  page : ∀ q, ¬ t'.Has q → m'.page q = m.page q
  free : m'.freelist.length ≤ m.freelist.length
  rep : t'.Rep m'.page
  alloc : AllocInv L m' refs'

namespace Table.Grown

variable {t' t'' : Table} {m' m'' : PhysMem} {refs refs' refs'' : Nat → Nat}

theorem refl (h : t.Rep m.page) (ha : AllocInv L m refs) : Grown L m m refs refs t t where
  root := rfl
  has _ hq := hq
  fresh _ hq hn := absurd hq hn
  same _ _ := rfl
  page _ _ := rfl
  free := Nat.le_refl _
  rep := h
  alloc := ha

theorem trans (h : Grown L m m' refs refs' t t') (h' : Grown L m' m'' refs' refs'' t' t'') :
    Grown L m m'' refs refs'' t t'' where
  root := h'.root.trans h.root
  has q hq := h'.has q (h.has q hq)
  fresh q hq hn := by
    by_cases hq' : t'.Has q
    · obtain ⟨h1, h2, h3⟩ := h.fresh q hq' hn
      exact ⟨h1, h2, (h'.same q (.inl hq')).trans h3⟩
    · obtain ⟨h1, h2, h3⟩ := h'.fresh q hq hq'
      exact ⟨h1, (h.same q (.inr hq')).symm.trans h2, h3⟩
  same q hq := by
    rcases hq with hq | hq
    · rw [h'.same q (.inl (h.has q hq)), h.same q (.inl hq)]
    · have hq' : ¬ t'.Has q := fun hh => hq (h'.has q hh)
      rw [h'.same q (.inr hq), h.same q (.inr hq')]
  page q hq := by
    have hq' : ¬ t'.Has q := fun hh => hq (h'.has q hh)
    rw [h'.page q hq, h.page q hq']
  free := Nat.le_trans h'.free h.free
  rep := h'.rep
  alloc := h'.alloc

end Table.Grown

theorem walkLoop_alloc {Q : Option PtePtr → PhysMem → Prop}
    (hv : (pteAt (m.page pt) (px (level + 1) va)).has PTE_V = false) (hk : Wp kalloc (fun r m' =>
      match r with
      | none => Q none m'
      | some q => Wp (walkLoop va true level q) Q { m' with
          page := update (update m'.page q (fun _ => 0)) pt
            (setPteAt (update m'.page q (fun _ => 0) pt) (px (level + 1) va)
              (pa2pte q ||| PTE_V)) }) m) : Wp (walkLoop va true (level + 1) pt) Q m := by
  apply wp_bind
  refine ⟨_, m, rfl, ?_⟩
  beta_reduce
  rw [hv]
  refine hk.bind fun r m' hr => ?_
  cases r with
  | none => exact wp_pure hr
  | some q =>
    apply wp_bind_modify
    apply wp_bind_modify
    exact hr

namespace Table.Rep

variable {refs : Nat → Nat} {m' : PhysMem}

theorem grow_mid (h : t.Rep m.page) (hused : ∀ q, t.Has q → 0 < refs q) {i q : Nat} (hi : i < 512)
    (hnone : t.mid i = none) (hr : L.InRange q) (hz : refs q = 0) (ha : AllocInv L m' (update refs q 1))
    (hf : m.freelist = q :: m'.freelist) (hpage : ∀ x, x ≠ q → m'.page x = m.page x) :
    Grown L m { m' with
        page := update (update m'.page q (fun _ => 0)) t.root
          (setPteAt (update m'.page q (fun _ => 0) t.root) i (pa2pte q ||| PTE_V)) }
      refs (update refs q 1) t (t.setMid i q) := by
  have hnot : ¬ t.Has q := by
    intro hh
    have hp := hused q hh
    omega
  have hroot : t.root ≠ q := fun he => hnot (.inl he.symm)
  have hrep : t.Rep m'.page := h.congr fun x hx => hpage x (fun he => hnot (he ▸ hx))
  have hhas : ∀ x, (t.setMid i q).Has x ↔ t.Has x ∨ x = q := fun x => Table.has_setMid hnone
  refine ⟨rfl, fun x hx => (hhas x).mpr (.inl hx), ?_, ?_, ?_, ?_, ?_, ?_⟩
  · intro x hx hn
    rcases (hhas x).mp hx with hx | rfl
    · exact absurd hx hn
    · exact ⟨hr, hz, by simp⟩
  · intro x hx
    have hne : x ≠ q := by
      rintro rfl
      rcases hx with hx | hx
      · exact hnot hx
      · exact hx ((hhas x).mpr (.inr rfl))
    rw [update_of_ne hne]
  · intro x hx
    have hne : x ≠ q := fun he => hx ((hhas x).mpr (.inr he))
    have hxr : x ≠ t.root := fun he => hx ((hhas x).mpr (.inl (.inl he)))
    simp only [update_of_ne hxr, update_of_ne hne]
    exact hpage x hne
  · rw [hf]
    simp
  · rw [update_of_ne hroot]
    exact hrep.setMid hi hnone hnot hr.pageAddr
  · exact ⟨ha.count, ha.nodup, ha.free, ha.outside⟩

theorem grow_bot (h : t.Rep m.page) (hused : ∀ q, t.Has q → 0 < refs q) {w p q : Nat}
    (hp : t.mid (w / 512) = some p) (hnone : t.bot w = none) (hr : L.InRange q) (hz : refs q = 0)
    (ha : AllocInv L m' (update refs q 1)) (hf : m.freelist = q :: m'.freelist)
    (hpage : ∀ x, x ≠ q → m'.page x = m.page x) :
    Grown L m { m' with
        page := update (update m'.page q (fun _ => 0)) p
          (setPteAt (update m'.page q (fun _ => 0) p) (w % 512) (pa2pte q ||| PTE_V)) }
      refs (update refs q 1) t (t.setBot w q) := by
  have hnot : ¬ t.Has q := by
    intro hh
    have hp := hused q hh
    omega
  have hpq : p ≠ q := fun he => hnot (.inr (.inl ⟨_, he ▸ hp⟩))
  have hrep : t.Rep m'.page := h.congr fun x hx => hpage x (fun he => hnot (he ▸ hx))
  have hhas : ∀ x, (t.setBot w q).Has x ↔ t.Has x ∨ x = q := fun x => Table.has_setBot hnone
  refine ⟨rfl, fun x hx => (hhas x).mpr (.inl hx), ?_, ?_, ?_, ?_, ?_, ?_⟩
  · intro x hx hn
    rcases (hhas x).mp hx with hx | rfl
    · exact absurd hx hn
    · exact ⟨hr, hz, by simp⟩
  · intro x hx
    have hne : x ≠ q := by
      rintro rfl
      rcases hx with hx | hx
      · exact hnot hx
      · exact hx ((hhas x).mpr (.inr rfl))
    rw [update_of_ne hne]
  · intro x hx
    have hne : x ≠ q := fun he => hx ((hhas x).mpr (.inr he))
    have hxp : x ≠ p := by
      rintro rfl
      exact hx ((hhas x).mpr (.inl (.inr (.inl ⟨_, hp⟩))))
    simp only [update_of_ne hxp, update_of_ne hne]
    exact hpage x hne
  · rw [hf]
    simp
  · rw [update_of_ne hpq]
    exact hrep.setBot hp hnone hnot hr.pageAddr
  · exact ⟨ha.count, ha.nodup, ha.free, ha.outside⟩

end Table.Rep

theorem Table.Grown.used {t' : Table} {m' : PhysMem} {refs refs' : Nat → Nat}
    (h : Grown L m m' refs refs' t t') (hused : ∀ q, t.Has q → 0 < refs q) (q : Nat)
    (hq : t'.Has q) : 0 < refs' q := by
  by_cases hh : t.Has q
  · rw [h.same q (.inl hh)]
    exact hused q hh
  · have hone := (h.fresh q hq hh).2.2
    omega

theorem Table.Rep.walk_bot {refs : Nat → Nat} (h : t.Rep m.page) (ha : AllocInv L m refs)
    (hused : ∀ q, t.Has q → 0 < refs q) {p : Nat} (hva : va < MAXVA)
    (hp : t.mid (px 2 va) = some p) :
    Wp (walkLoop va true 1 p) (fun r m' => ∃ t' refs', Grown L m m' refs refs' t t' ∧
      t'.leaf = t.leaf ∧ m.freelist.length ≤ m'.freelist.length + 1 ∧
      (r = none ∧ m'.freelist = [] ∨ r = t'.ptr (va / PGSIZE) ∧ r ≠ none)) m := by
  rw [px_two hva] at hp
  have hmid := h.bot_of_mid hp
  rw [← px_one] at hmid
  cases hb : t.bot (va / PGSIZE / 512) with
  | some q =>
    rw [hb] at hmid
    have hq := tableEntry_some (h.addr q (.inr (.inr ⟨_, hb⟩)))
    refine ⟨some ⟨q, px 0 va⟩, m, ?_, t, refs, Grown.refl h ha, rfl, by omega, .inr ⟨?_, by simp⟩⟩
    · rw [walkLoop_valid (by rw [hmid]; exact hq.1), hmid, hq.2.1]
      rfl
    · rw [Table.ptr, hb, px_zero]
      rfl
  | none =>
    rw [hb] at hmid
    apply walkLoop_alloc (by rw [hmid]; exact tableEntry_none)
    refine ha.kalloc.mono fun r m' hr => ?_
    cases r with
    | none =>
      obtain ⟨hf, rfl⟩ := hr
      exact ⟨t, refs, Grown.refl h ha, rfl, by omega, .inl ⟨rfl, hf⟩⟩
    | some q =>
      obtain ⟨hrange, hz, halloc, hf, hpage⟩ := hr
      have hgrow := h.grow_bot hused hp hb hrange hz halloc hf hpage
      rw [← px_one] at hgrow
      refine ⟨some ⟨q, px 0 va⟩, _, rfl, _, _, hgrow, rfl, ?_, .inr ⟨?_, by simp⟩⟩
      · rw [hf]
        simp
      · rw [Table.ptr, px_zero]
        simp [Table.setBot]

theorem Table.Rep.walk_alloc {refs : Nat → Nat} (h : t.Rep m.page) (ha : AllocInv L m refs)
    (hused : ∀ q, t.Has q → 0 < refs q) (hva : va < MAXVA) :
    Wp (walk t.root va true) (fun r m' => ∃ t' refs', Grown L m m' refs refs' t t' ∧
      t'.leaf = t.leaf ∧ m.freelist.length ≤ m'.freelist.length + 2 ∧
      (r = none ∧ m'.freelist = [] ∨ r = t'.ptr (va / PGSIZE) ∧ r ≠ none)) m := by
  unfold walk
  rw [if_neg (by omega)]
  have htop := h.top (px 2 va) (px_two_lt va)
  cases hm : t.mid (px 2 va) with
  | some p =>
    rw [hm] at htop
    have hp := tableEntry_some (h.addr p (.inr (.inl ⟨_, hm⟩)))
    obtain ⟨r, m', hrun, t', refs', hg, hleaf, hlen, hres⟩ := h.walk_bot ha hused hva hm
    refine ⟨r, m', ?_, t', refs', hg, hleaf, by omega, hres⟩
    rw [walkLoop_valid (by rw [htop]; exact hp.1), htop, hp.2.1]
    exact hrun
  | none =>
    rw [hm] at htop
    apply walkLoop_alloc (by rw [htop]; exact tableEntry_none)
    refine ha.kalloc.mono fun r m' hr => ?_
    cases r with
    | none =>
      obtain ⟨hf, rfl⟩ := hr
      exact ⟨t, refs, Grown.refl h ha, rfl, by omega, .inl ⟨rfl, hf⟩⟩
    | some q =>
      obtain ⟨hrange, hz, halloc, hf, hpage⟩ := hr
      have hgrow := h.grow_mid hused (px_two_lt va) hm hrange hz halloc hf hpage
      have hmid : (t.setMid (px 2 va) q).mid (px 2 va) = some q := by simp [Table.setMid]
      refine (hgrow.rep.walk_bot hgrow.alloc (hgrow.used hused) hva hmid).mono fun r m'' hr => ?_
      obtain ⟨t', refs', hg, hleaf, hlen, hres⟩ := hr
      refine ⟨t', refs', hgrow.trans hg, hleaf, ?_, hres⟩
      have hcons : m.freelist.length = m'.freelist.length + 1 := by rw [hf]; rfl
      change m'.freelist.length ≤ _ at hlen
      omega

namespace Table.Rep

variable {v : Nat} {p : PtePtr} {α : Type} {Q : α → PhysMem → Prop}

theorem setPte (h : t.Rep m.page) (hp : t.ptr v = some p) (pte : Pte) :
    (t.setLeaf v pte).Rep (m.setPte p pte).page := by
  obtain ⟨hbot, hidx, _⟩ := h.ptr_eq_some hp
  rw [PhysMem.setPte, hidx]
  exact h.setLeaf hbot pte

theorem page_setPte (h : t.Rep m.page) {q : Nat} (hp : t.ptr v = some p) (pte : Pte) (hq : ¬ t.Has q) :
    (m.setPte p pte).page q = m.page q := by
  obtain ⟨hbot, _, _⟩ := h.ptr_eq_some hp
  have hne : q ≠ p.page := by
    rintro rfl
    exact hq (.inr (.inr ⟨_, hbot⟩))
  exact update_of_ne hne _ _

theorem wp_walk (h : t.Rep m.page) (hva : va < MAXVA) {f : Option PtePtr → Kernel α}
    (hf : Wp (f (t.ptr (va / PGSIZE))) Q m) : Wp (walk t.root va false >>= f) Q m :=
  wp_bind ⟨_, m, h.walk_lookup hva, hf⟩

theorem wp_readPte (h : t.Rep m.page) (hp : t.ptr v = some p) {f : Pte → Kernel α}
    (hf : Wp (f (t.leaf v)) Q m) : Wp (readPte p >>= f) Q m := by
  obtain ⟨_, _, hread⟩ := h.ptr_eq_some hp
  exact wp_bind ⟨_, m, rfl, by rw [hread]; exact hf⟩

theorem ptr_of_valid (h : t.Rep m.page) (hv : (t.leaf v).has PTE_V = true) : ∃ p, t.ptr v = some p := by
  cases hp : t.ptr v with
  | some p => exact ⟨p, rfl⟩
  | none =>
    rw [h.ptr_eq_none hp] at hv
    exact absurd hv (by decide)

/-- `mappages` of one page that is not mapped yet: lower tables are added, and if memory
lasts for them the entry is stored. -/
theorem mappages_page {refs : Nat → Nat} (h : t.Rep m.page) (ha : AllocInv L m refs)
    (hused : ∀ q, t.Has q → 0 < refs q) (hv : v < MAXVA / PGSIZE) (hleaf : (t.leaf v).has PTE_V = false)
    (pa : Nat) (perm : Pte) :
    Wp (mappages t.root (v * PGSIZE) PGSIZE pa perm) (fun r m' => ∃ t' refs' m₁,
      Grown L m m₁ refs refs' t t' ∧ t'.leaf = t.leaf ∧
      m.freelist.length ≤ m₁.freelist.length + 2 ∧
      (r = -1 ∧ m' = m₁ ∧ m₁.freelist = [] ∨
       r = 0 ∧ ∃ p, t'.ptr v = some p ∧ m' = m₁.setPte p (pa2pte pa ||| perm ||| PTE_V))) m := by
  have hva : v * PGSIZE < MAXVA := by
    simp only [MAXVA, PGSIZE] at hv ⊢
    omega
  have hdown : pgRoundDown (v * PGSIZE) = v * PGSIZE := by
    simp only [pgRoundDown, PGSIZE]
    omega
  have hlast : pgRoundDown ((v * PGSIZE + PGSIZE - 1) % 2 ^ 64) = v * PGSIZE := by
    simp only [pgRoundDown, PGSIZE, MAXVA] at hva ⊢
    omega
  have hdiv : v * PGSIZE / PGSIZE = v := by
    simp only [PGSIZE]
    omega
  unfold mappages
  rw [if_neg (by decide), hdown, hlast]
  dsimp only
  rw [Nat.add_sub_cancel_left, show 2 ^ 64 % 2 ^ 64 / PGSIZE + 1 = 1 by decide]
  apply wp_bind
  apply wp_bind
  simp only [Nat.zero_mul, Nat.add_zero]
  refine (h.walk_alloc ha hused hva).bind fun r m' hr => ?_
  obtain ⟨t', refs', hg, hl, hlen, ⟨rfl, hempty⟩ | ⟨hptr, hne⟩⟩ := hr
  · exact wp_pure (wp_pure (wp_pure ⟨t', refs', m', hg, hl, hlen, .inl ⟨rfl, rfl, hempty⟩⟩))
  · rw [hdiv] at hptr
    cases r with
    | none => exact absurd rfl hne
    | some p =>
      apply hg.rep.wp_readPte hptr.symm
      rw [hl, hleaf]
      apply wp_bind_modify
      exact wp_pure (wp_pure (wp_pure ⟨t', refs', m', hg, hl, hlen,
        .inr ⟨rfl, p, hptr.symm, rfl⟩⟩))

end Table.Rep

end Xv6
