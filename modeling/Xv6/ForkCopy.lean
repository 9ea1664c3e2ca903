import Xv6.CowFault
import Xv6.Space

/-! `uvmcopy`: the child's table maps the parent's pages, and neither may write them. -/

namespace Xv6

open Function StateProg

variable {L : Layout} {m m' : PhysMem} {env : Env} {t u : Table} {v q : Nat} {p : PtePtr} {pte : Pte}

namespace TableInv

theorem cow_mark (h : TableInv L m env t) (hp : t.ptr v = some p) (hm : t.MapsAt v q)
    (hw : (t.leaf v).has PTE_W = true) :
    TableInv L (m.setPte p ((t.leaf v &&& ~~~PTE_W) ||| PTE_COW)) env
      (t.setLeaf v ((t.leaf v &&& ~~~PTE_W) ||| PTE_COW)) ∧
    t.Agrees (t.setLeaf v ((t.leaf v &&& ~~~PTE_W) ||| PTE_COW)) := by
  obtain ⟨hsame, hW, hC, hpa⟩ := cowMark (t.leaf v)
  constructor
  · apply h.setPte hp
    · apply h.fits.setLeaf
      · refine ⟨fun hf => ?_, fun hge => ?_, fun _ => ?_, fun hf => ?_, fun hge => ?_⟩
        · rw [hsame.valid, hm.2.1] at hf
          cases hf
        · rw [hsame.valid]
          exact (h.fits.leaf v).top hge
        · rw [hsame.readable]
          exact (h.fits.leaf v).readable hm.2.1
        · rw [hW] at hf
          cases hf
        · rw [hsame.user]
          exact (h.fits.leaf v).user hge
      · intro _ _
        rw [hpa, hm.2.2]
        refine ⟨fun hs => h.fits.sole q hs (.inr ⟨v, hm⟩), fun hh => h.fits.apart q hh ⟨v, hm⟩,
          fun hf => ?_, fun w hne hw' => hne (h.fits.inj w v q hw' hm)⟩
        rw [hW] at hf
        cases hf
    · apply owners_same
      intro _
      exact ⟨hsame.valid, hpa⟩
  · refine ⟨rfl, fun w => ?_, fun w => ?_⟩
    · by_cases he : w = v
      · subst w
        rw [Table.leaf_setLeaf_self]
        exact hsame
      · rw [Table.leaf_setLeaf_ne he]
        exact ⟨rfl, rfl, rfl⟩
    · by_cases he : w = v
      · subst w
        simp only [Table.leaf_setLeaf_self, Pte.mayWrite, hsame.valid, hsame.user, hC, hw, Bool.or_true,
          Bool.true_or]
      · rw [Table.leaf_setLeaf_ne he]

theorem map_shared {flags : Pte} (h : TableInv L m env t) (hv : v < userTop)
    (hleaf : (t.leaf v).has PTE_V = false) (hpos : 0 < env.count q) (hs : ¬ env.sole q)
    (hlt : env.count q < 255) (hnot : ¬ t.Uses q) (hlow : flags.toNat < 1024)
    (hr : flags.has PTE_R = true) (hw : flags.has PTE_W = false) :
    Wp (mappages t.root (v * PGSIZE) PGSIZE q flags) (fun r m' => ∃ t', t'.root = t.root ∧
      Set.EqOn m'.page m.page (env.live t) ∧ m.freelist.length ≤ m'.freelist.length + 2 ∧
      (r = -1 ∧ TableInv L m' env t' ∧ t'.leaf = t.leaf ∧ m'.freelist = [] ∨
       r = 0 ∧ t'.leaf = update t.leaf v (pa2pte q ||| flags ||| PTE_V) ∧
        Wp (increaseCount q) (fun _ m'' => TableInv L m'' env t' ∧ m''.page = m'.page) m')) m := by
  have hmax : v < MAXVA / PGSIZE := by
    simp only [userTop, TRAPFRAME, TRAMPOLINE, MAXVA, PGSIZE] at hv ⊢
    omega
  have hrange : L.InRange q := by
    apply h.alloc.inRange
    rw [owners_not_uses hnot]
    exact hpos
  obtain ⟨hV, hR, hW, hU, hC⟩ := mapped_flags q flags
  have hpa : pte2pa (pa2pte q ||| flags ||| PTE_V) = q := mapped_pa hrange.pageAddr hlow
  refine (h.mappages_page hmax hleaf q flags).mono fun r m' hres => ?_
  obtain ⟨t', m₁, hinv, hroot, hl, hpage, hlen, ⟨rfl, rfl, hnone⟩ | ⟨rfl, p, hp, rfl⟩⟩ := hres
  · exact ⟨t', hroot, hpage, hlen.1, .inl ⟨rfl, hinv, hl, hnone⟩⟩
  · have hnot' : ¬ t'.Uses q := by
      rintro (hh | ⟨w, hw'⟩)
      · have hz := hinv.fits.has q hh
        omega
      · rw [Table.MapsAt, hl] at hw'
        exact hnot (.inr ⟨w, hw'⟩)
    refine ⟨t'.setLeaf v (pa2pte q ||| flags ||| PTE_V), hroot, fun x hx => ?_, hlen.1,
      .inr ⟨rfl, by rw [Table.setLeaf, hl], ?_⟩⟩
    · rw [hinv.page_setPte hp _ (Env.live_congr hl ▸ hx)]
      exact hpage hx
    · have hcount : owners env t' q = env.count q := owners_not_uses hnot'
      have halloc : AllocInv L (m₁.setPte p (pa2pte q ||| flags ||| PTE_V)) (owners env t') :=
        hinv.alloc.congr rfl rfl
      refine (halloc.increase (by omega) (by omega)).mono fun _ m₂ hr₂ => ⟨⟨?_, ?_, ?_⟩, hr₂.2⟩
      · rw [owners_map (by rw [hl]; exact hleaf) hv hV (by rw [hpa]; exact hnot'), hpa]
        exact hr₂.1
      · rw [hr₂.2]
        exact hinv.rep.setPte hp _
      · apply hinv.fits.setLeaf
        · refine ⟨fun hf => ?_, fun hge => by omega, fun _ => hR.trans hr, fun hf => ?_,
            fun hge => by omega⟩
          · rw [hV] at hf
            cases hf
          · rw [hW, hw] at hf
            cases hf
        · intro _ _
          rw [hpa]
          refine ⟨hs, fun hh => hnot' (.inl hh), fun hf => ?_, fun w _ hw' => hnot' (.inr ⟨w, hw'⟩)⟩
          rw [hW, hw] at hf
          cases hf

end TableInv

structure Table.CopyAt (t u : Table) (j : Nat) : Prop where
  access : (u.leaf j).SameAccess (t.leaf j)
  frame : pte2pa (u.leaf j) = pte2pa (t.leaf j)
  write : ((u.leaf j).has PTE_W || (u.leaf j).has PTE_COW) =
    ((t.leaf j).has PTE_W || (t.leaf j).has PTE_COW)

theorem Table.CopyAt.view {j : Nat} (h : t.CopyAt u j) (page : Nat → Buffer) :
    u.view page j = t.view page j := by
  simp only [Table.view, h.access.valid, h.access.user, h.frame, h.write]

variable {K : Type} [Fintype K] [DecidableEq K] {σ : Space K} {k k' : K}

def Space.beside (σ : Space K) (k k' : K) : Set Nat :=
  {x | x ∈ σ.kernel ∨ ∃ k'', k'' ≠ k ∧ k'' ≠ k' ∧ σ.UsedBy x k''}

/-- `uvmcopy` has copied the pages below `i`: `t'` and `u'` are the tables of parent and
child by now. -/
structure Copying (L : Layout) (m₀ : PhysMem) (σ : Space K) (k k' : K) (t u : Table) (i : Nat)
    (m : PhysMem) (t' u' : Table) : Prop where
  inv : SpaceInv L m ((σ.set k (some t')).set k' (some u'))
  agrees : t.Agrees t'
  view : t'.view m.page = t.view m₀.page
  root : u'.root = u.root
  copied : ∀ j < i, t'.CopyAt u' j
  rest : ∀ j, i ≤ j → u'.leaf j = u.leaf j
  frame : Set.EqOn m.page m₀.page (σ.beside k k')
  uses : ∀ x, t'.Uses x ↔ t.Uses x

namespace Copying

variable {i x : Nat} {m₀ : PhysMem} {t' u' : Table}

theorem parent (h : Copying L m₀ σ k k' t u i m t' u') (hne : k ≠ k') :
    TableInv L m (((σ.set k (some t')).set k' (some u')).env k) t' := by
  apply h.inv.tableInv
  rw [Space.table_set_ne hne, Space.table_set_self]

theorem child (h : Copying L m₀ σ k k' t u i m t' u') :
    TableInv L m (((σ.set k (some t')).set k' (some u')).env k') u' :=
  h.inv.tableInv Space.table_set_self

omit [Fintype K] in
theorem usedBy_beside {a b : Option Table} {k'' : K} (h1 : k'' ≠ k) (h2 : k'' ≠ k')
    (h : σ.UsedBy x k'') : ((σ.set k a).set k' b).UsedBy x k'' := by
  rw [Space.usedBy_set_ne h2, Space.usedBy_set_ne h1]
  exact h

theorem beside_parent (a b : Option Table) (hx : x ∈ σ.beside k k') :
    0 < (((σ.set k a).set k' b).env k).count x := by
  rw [Space.env_count_pos]
  rcases hx with hx | ⟨k'', h1, h2, hx⟩
  · exact .inl hx
  · exact .inr ⟨k'', h1, usedBy_beside h1 h2 hx⟩

theorem beside_child (a b : Option Table) (hx : x ∈ σ.beside k k') :
    0 < (((σ.set k a).set k' b).env k').count x := by
  rw [Space.env_count_pos]
  rcases hx with hx | ⟨k'', h1, h2, hx⟩
  · exact .inl hx
  · exact .inr ⟨k'', h2, usedBy_beside h1 h2 hx⟩

omit [Fintype K] in
theorem set_parent (hne : k ≠ k') (a b c : Option Table) :
    ((σ.set k a).set k' b).set k c = (σ.set k c).set k' b := by
  simp only [Space.set, update_comm hne.symm, update_idem]

omit [Fintype K] in
theorem set_child (a b c : Option Table) : ((σ.set k a).set k' b).set k' c = (σ.set k a).set k' c := by
  simp only [Space.set, update_idem]

theorem parent_counted (hne : k ≠ k') (hx : t'.Uses x) :
    0 < (((σ.set k (some t')).set k' (some u')).env k').count x := by
  rw [Space.env_count_pos]
  refine .inr ⟨k, hne, t', ?_, hx⟩
  rw [Space.table_set_ne hne, Space.table_set_self]

theorem view_of_eqOn (h : Copying L m₀ σ k k' t u i m t' u') (hne : k ≠ k')
    (heq : Set.EqOn m'.page m.page {x | 0 < (((σ.set k (some t')).set k' (some u')).env k').count x}) :
    t'.view m'.page = t.view m₀.page := by
  rw [← h.view]
  funext j
  apply (h.parent hne).fits.view_congr rfl
  intro x hx
  exact heq (parent_counted hne (.inr ⟨j, hx⟩))

theorem mark (h : Copying L m₀ σ k k' t u i m t' u') (hne : k ≠ k') (hp : t'.ptr i = some p)
    (hm : t'.MapsAt i q) (hw : (t'.leaf i).has PTE_W = true) :
    Copying L m₀ σ k k' t u i (m.setPte p ((t'.leaf i &&& ~~~PTE_W) ||| PTE_COW))
      (t'.setLeaf i ((t'.leaf i &&& ~~~PTE_W) ||| PTE_COW)) u' := by
  have hpar := h.parent hne
  obtain ⟨hinv, hag⟩ := hpar.cow_mark hp hm hw
  have heq := hpar.page_setPte hp ((t'.leaf i &&& ~~~PTE_W) ||| PTE_COW)
  obtain ⟨hsame, hW, hC, hpa⟩ := cowMark (t'.leaf i)
  generalize (t'.leaf i &&& ~~~PTE_W) ||| PTE_COW = pte at *
  refine ⟨?_, h.agrees.trans hag, ?_, h.root, ?_, h.rest, ?_, fun x => ?_⟩
  · have hset := h.inv.set hinv fun x hx => heq (.inl hx)
    rwa [set_parent hne] at hset
  · rw [← h.view]
    funext j
    by_cases he : j = i
    · subst j
      have hx : (m.setPte p pte).page (pte2pa (t'.leaf i)) = m.page (pte2pa (t'.leaf i)) :=
        heq (.inr ⟨i, hm.1, hm.2.1, rfl⟩)
      simp only [Table.view, Table.leaf_setLeaf_self, hsame.valid, hsame.user, hpa, hx, hC, hw,
        Bool.or_true, Bool.true_or]
    · exact hpar.fits.view_congr (Table.leaf_setLeaf_ne he) fun x hx => heq (.inr ⟨j, hx⟩)
  · intro j hj
    have he : j ≠ i := by omega
    have hc := h.copied j hj
    refine ⟨?_, ?_, ?_⟩
    · rw [Table.leaf_setLeaf_ne he]
      exact hc.access
    · rw [Table.leaf_setLeaf_ne he]
      exact hc.frame
    · rw [Table.leaf_setLeaf_ne he]
      exact hc.write
  · intro x hx
    rw [heq (.inl (beside_parent _ _ hx)), h.frame hx]
  · rw [← h.uses x]
    exact or_congr Iff.rfl (Table.maps_setLeaf_same (fun _ => ⟨hsame.valid, hpa⟩))

theorem not_sole (h : Copying L m₀ σ k k' t u i m t' u') (hne : k ≠ k') (hm : t'.MapsAt i q)
    (hw : (t'.leaf i).has PTE_W = false) :
    ¬ (((σ.set k (some t')).set k' (some u')).env k').sole q := by
  have hpar := h.parent hne
  rintro (hker | ⟨k'', _, hs⟩)
  · exact hpar.fits.sole q (.inl hker) (.inr ⟨i, hm⟩)
  · by_cases he : k'' = k
    · subst k''
      obtain ⟨t₁, ht₁, hs⟩ := hs
      rw [Space.table_set_ne hne, Space.table_set_self, Option.some.injEq] at ht₁
      subst ht₁
      rcases hs with hs | ⟨v, hv, hvw⟩
      · exact hpar.fits.apart q hs ⟨i, hm⟩
      · rw [hpar.fits.inj v i q hv hm, hw] at hvw
        cases hvw
    · exact hpar.fits.sole q (.inr ⟨k'', he, hs⟩) (.inr ⟨i, hm⟩)

theorem not_used (h : Copying L m₀ σ k k' t u i m t' u') (hne : k ≠ k') (hm : t'.MapsAt i q)
    (hu : ∀ j < userTop, (u.leaf j).has PTE_V = false) : ¬ u'.Uses q := by
  rintro (hh | ⟨j, hj⟩)
  · have hz := h.child.fits.has q hh
    have hp : 0 < (((σ.set k (some t')).set k' (some u')).env k').count q :=
      parent_counted hne (.inr ⟨i, hm⟩)
    omega
  · by_cases hlt : j < i
    · have hc := h.copied j hlt
      have hj' : t'.MapsAt j q := ⟨hj.1, hc.access.valid ▸ hj.2.1, hc.frame ▸ hj.2.2⟩
      have he := (h.parent hne).fits.inj j i q hj' hm
      omega
    · have hv := hj.2.1
      rw [h.rest j (by omega), hu j hj.1] at hv
      cases hv

theorem count_lt (h : Copying L m₀ σ k k' t u i m t' u') (hne : k ≠ k') (hK : Fintype.card K < 255)
    (hm : t'.MapsAt i q) : (((σ.set k (some t')).set k' (some u')).env k').count q < 255 := by
  have hheld : ((σ.set k (some t')).set k' (some u')).held q = 0 := by
    by_contra hh
    have hker := Space.held_pos.mp (Nat.pos_of_ne_zero hh)
    exact (h.parent hne).fits.sole q (.inl hker) (.inr ⟨i, hm⟩)
  change (((((σ.set k (some t')).set k' (some u')).users q).erase k').card + _) < 255
  have hcard := Finset.card_le_univ ((((σ.set k (some t')).set k' (some u')).users q).erase k')
  omega

theorem share (h : Copying L m₀ σ k k' t u i m t' u') (hne : k ≠ k') (hK : Fintype.card K < 255)
    (hm : t'.MapsAt i q) (hw : (t'.leaf i).has PTE_W = false)
    (hu : ∀ j < userTop, (u.leaf j).has PTE_V = false) :
    Wp (mappages u.root (i * PGSIZE) PGSIZE q (pteFlags (t'.leaf i))) (fun r m' =>
      r = -1 ∧ m.freelist.length ≤ 2 ∧ (∃ u'', Copying L m₀ σ k k' t u i m' t' u'') ∨
      r = 0 ∧ Wp (increaseCount q) (fun _ m'' => ∃ u'', Copying L m₀ σ k k' t u (i + 1) m'' t' u'') m')
      m := by
  have hpar := h.parent hne
  obtain ⟨hR, hW, hU, hC⟩ := pteFlags_has (t'.leaf i)
  have hleaf : (u'.leaf i).has PTE_V = false := by
    rw [h.rest i (Nat.le_refl i)]
    exact hu i hm.1
  have hrange : L.InRange q := hpar.inRange (.inr ⟨i, hm⟩)
  rw [← h.root]
  refine (h.child.map_shared hm.1 hleaf (parent_counted hne (.inr ⟨i, hm⟩)) (h.not_sole hne hm hw)
    (h.count_lt hne hK hm) (h.not_used hne hm hu) (pteFlags_lt _) (hR.trans (hpar.fits.leaf i |>.readable hm.2.1))
    (hW.trans hw)).mono fun r m₁ hr => ?_
  obtain ⟨u'', hroot, heq, hlen, ⟨rfl, hinv, hl, hnone⟩ | ⟨rfl, hl, hinc⟩⟩ := hr
  · have heq' : Set.EqOn m₁.page m.page
        {x | 0 < (((σ.set k (some t')).set k' (some u')).env k').count x} := fun x hx => heq (.inl hx)
    rw [hnone] at hlen
    refine .inl ⟨rfl, hlen, u'', ?_, h.agrees, h.view_of_eqOn hne heq', hroot.trans h.root, ?_, ?_, ?_,
      h.uses⟩
    · have hset := h.inv.set hinv heq'
      rwa [set_child] at hset
    · intro j hj
      exact ⟨by rw [hl]; exact (h.copied j hj).access, by rw [hl]; exact (h.copied j hj).frame,
        by rw [hl]; exact (h.copied j hj).write⟩
    · intro j hj
      rw [hl]
      exact h.rest j hj
    · intro x hx
      rw [heq' (beside_child _ _ hx), h.frame hx]
  · refine .inr ⟨rfl, hinc.mono (fun _ m₂ hr₂ => ?_)⟩
    obtain ⟨hinv, hpage⟩ := hr₂
    have heq' : Set.EqOn m₂.page m.page
        {x | 0 < (((σ.set k (some t')).set k' (some u')).env k').count x} := by
      intro x hx
      rw [hpage]
      exact heq (.inl hx)
    obtain ⟨hV', hR', hW', hU', hC'⟩ := mapped_flags q (pteFlags (t'.leaf i))
    refine ⟨u'', ?_, h.agrees, h.view_of_eqOn hne heq', hroot.trans h.root, ?_, ?_, ?_, h.uses⟩
    · have hset := h.inv.set hinv heq'
      rwa [set_child] at hset
    · intro j hj
      by_cases he : j = i
      · subst j
        have hl' : u''.leaf i = pa2pte q ||| pteFlags (t'.leaf i) ||| PTE_V := by
          rw [hl, update_self]
        refine ⟨⟨?_, ?_, ?_⟩, ?_, ?_⟩
        · rw [hl', hV', hm.2.1]
        · rw [hl', hR', hR]
        · rw [hl', hU', hU]
        · rw [hl', mapped_pa hrange.pageAddr (pteFlags_lt _), hm.2.2]
        · rw [hl', hW', hC', hW, hC]
      · have hc := h.copied j (by omega)
        have hl' : u''.leaf j = u'.leaf j := by rw [hl, update_of_ne he]
        exact ⟨by rw [hl']; exact hc.access, by rw [hl']; exact hc.frame, by rw [hl']; exact hc.write⟩
    · intro j hj
      have he : j ≠ i := by omega
      rw [hl, update_of_ne he]
      exact h.rest j (by omega)
    · intro x hx
      rw [heq' (beside_child _ _ hx), h.frame hx]

theorem round (h : Copying L m₀ σ k k' t u i m t' u') (hne : k ≠ k') (hK : Fintype.card K < 255)
    (hp : t'.ptr i = some p) (hm : t'.MapsAt i q) (hw : (t'.leaf i).has PTE_W = false)
    (hu : ∀ j < userTop, (u.leaf j).has PTE_V = false) :
    Wp (do
      let pte ← readPte p
      let r ← mappages u.root (i * PGSIZE) PGSIZE q (pteFlags pte)
      if r ≠ 0 then pure (some i)
      else
        increaseCount q
        pure none) (fun r m' =>
          r = none ∧ (∃ t' u', Copying L m₀ σ k k' t u (i + 1) m' t' u') ∨
          r = some i ∧ ∃ t' u', Copying L m₀ σ k k' t u i m' t' u') m := by
  apply (h.parent hne).rep.wp_readPte hp
  refine (h.share hne hK hm hw hu).bind fun r m₁ hr => ?_
  rcases hr with ⟨rfl, _, u'', hc⟩ | ⟨rfl, hinc⟩
  · exact wp_pure (.inr ⟨rfl, t', u'', hc⟩)
  · refine hinc.bind fun _ m₂ hr => ?_
    obtain ⟨u'', hc⟩ := hr
    exact wp_pure (.inl ⟨rfl, t', u'', hc⟩)

theorem start (h : SpaceInv L m σ) (hk : σ.table k = some t) (hk' : σ.table k' = some u) :
    Copying L m σ k k' t u 0 m t u := by
  have hset : (σ.set k (some t)).set k' (some u) = σ := by
    simp only [Space.set, ← hk, update_eq_self, ← hk']
  refine ⟨by rw [hset]; exact h, .refl t, rfl, rfl, ?_, fun _ _ => rfl, fun _ _ => rfl, fun _ => Iff.rfl⟩
  intro j hj
  omega

theorem undo (h : Copying L m₀ σ k k' t u i m t' u') (hne : k ≠ k') (hi : i ≤ userTop)
    (hv : ∀ j < i, (t.leaf j).has PTE_V = true) (hf : u.Fits env)
    (hu : ∀ j < userTop, (u.leaf j).has PTE_V = false) :
    Wp (Xv6.uvmunmap L u.root 0 i true) (fun _ m' => ∃ u'', Copying L m₀ σ k k' t u 0 m' t' u'') m := by
  have hall : ∀ j < i, 0 + j < userTop ∧ (u'.leaf (0 + j)).has PTE_V = true := by
    intro j hj
    rw [Nat.zero_add, (h.copied j hj).access.valid, (h.agrees.leaf j).valid]
    exact ⟨by omega, hv j hj⟩
  have hun := h.child.uvmunmap hall
  rw [Nat.zero_mul, h.root] at hun
  refine hun.mono fun _ m' hr => ⟨u'.clear 0 i, ?_⟩
  obtain ⟨hinv, heq⟩ := hr
  have heq' : Set.EqOn m'.page m.page
      {x | 0 < (((σ.set k (some t')).set k' (some u')).env k').count x} := fun x hx => heq (.inl hx)
  refine ⟨?_, h.agrees, h.view_of_eqOn hne heq', h.root, fun j hj => by omega, fun j _ => ?_, ?_,
    h.uses⟩
  · have hset := h.inv.set hinv heq'
    rwa [set_child] at hset
  · by_cases hj : j < i
    · rw [(hf.leaf j).zero (hu j (by omega))]
      exact if_pos (by omega)
    · rw [Table.clear_leaf_of_not (by omega)]
      exact h.rest j (by omega)
  · intro x hx
    rw [heq' (beside_child _ _ hx), h.frame hx]

end Copying

theorem SpaceInv.uvmcopy {sz : Nat} (h : SpaceInv L m σ) (hne : k ≠ k') (hK : Fintype.card K < 255)
    (hk : σ.table k = some t) (hk' : σ.table k' = some u)
    (hv : ∀ i < pageCount sz, i < userTop ∧ (t.leaf i).has PTE_V = true)
    (hu : ∀ j < userTop, (u.leaf j).has PTE_V = false) :
    Wp (Xv6.uvmcopy L t.root u.root sz) (fun r m' => ∃ t' u',
      r = 0 ∧ Copying L m σ k k' t u (pageCount sz) m' t' u' ∨
      r = -1 ∧ Copying L m σ k k' t u 0 m' t' u') m := by
  apply wp_bind
  refine (wp_loop_exit (fun i m' => ∃ t' u', Copying L m σ k k' t u i m' t' u')
    (fun i m' => i < pageCount sz ∧ ∃ t' u', Copying L m σ k k' t u i m' t' u') ?_ ?_).mono
    (fun r m' hres => ?_)
  · exact ⟨t, u, Copying.start h hk hk'⟩
  · rintro i m₁ hi ⟨t', u', hc⟩
    obtain ⟨htop, hval⟩ := hv i hi
    have hva : i * PGSIZE < MAXVA := by
      simp only [userTop, TRAPFRAME, TRAMPOLINE, MAXVA, PGSIZE] at htop ⊢
      omega
    have hdiv : i * PGSIZE / PGSIZE = i := by
      simp only [PGSIZE]
      omega
    have hpar := hc.parent hne
    have hval' : (t'.leaf i).has PTE_V = true := (hc.agrees.leaf i).valid.trans hval
    have hm : t'.MapsAt i (pte2pa (t'.leaf i)) := ⟨htop, hval', rfl⟩
    obtain ⟨p, hp⟩ := hpar.rep.ptr_of_valid hval'
    rw [← hc.agrees.root]
    apply hpar.rep.wp_walk hva
    rw [hdiv, hp]
    apply hpar.rep.wp_readPte hp
    rw [hval']
    cases hw : (t'.leaf i).has PTE_W with
    | true =>
      obtain ⟨hsame, hW, _, hpa⟩ := cowMark (t'.leaf i)
      have hmark := hc.mark hne hp hm hw
      apply wp_bind_modify
      refine (hmark.round hne hK hp ?_ ?_ hu).mono fun r m₂ hr => ?_
      · rw [Table.mapsAt_setLeaf_self, hsame.valid, hpa]
        exact ⟨htop, hval', rfl⟩
      · rw [Table.leaf_setLeaf_self]
        exact hW
      · rcases hr with ⟨rfl, hr⟩ | ⟨rfl, hr⟩
        · exact hr
        · exact ⟨hi, hr⟩
    | false =>
      refine (hc.round hne hK hp hm hw hu).mono fun r m₂ hr => ?_
      rcases hr with ⟨rfl, hr⟩ | ⟨rfl, hr⟩
      · exact hr
      · exact ⟨hi, hr⟩
  · cases r with
    | none =>
      obtain ⟨t', u', hc⟩ := hres
      exact wp_pure ⟨t', u', .inl ⟨rfl, hc⟩⟩
    | some i =>
      obtain ⟨hi, t', u', hc⟩ := hres
      apply wp_bind
      have hle : i ≤ userTop := Nat.le_of_lt (hv i hi).1
      refine (hc.undo hne hle (fun j hj => (hv j (by omega)).2) (h.fits k' u hk') hu).mono
        fun _ m₂ hr => ?_
      obtain ⟨u'', hc'⟩ := hr
      exact wp_pure ⟨t', u'', .inr ⟨rfl, hc'⟩⟩

end Xv6
