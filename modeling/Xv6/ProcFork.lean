import Xv6.ProcLife

/-! Where processes come from: `userinit` and `fork`. -/

namespace Xv6

open Function StateProg

variable {L : Layout} {m : PhysMem} {env : Env} {t u t' u' : Table} {s w : KState}
  {σ σ' : Space Key} {p q np : Fin NPROC} {v x : Nat}

def initImage : UserMem := (UserMem.empty.grow 0 1 true).putPage 0 0 initcode

theorem Settled.start {pr : Proc} (h : Settled s) (hself : w.proc np = pr)
    (hother : ∀ q, q ≠ np → w.proc q = s.proc q) (hstate : pr.state = .runnable)
    (hpt : pr.pagetable ≠ none) (htf : pr.trapframe ≠ none) (hinit : w.initproc ≠ none) : Settled w where
  unused q hq := by
    by_cases he : q = np
    · subst q
      rw [hself, hstate] at hq
      cases hq
    · rw [hother q he] at hq ⊢
      exact h.unused q hq
  live q hq := by
    by_cases he : q = np
    · subst q
      rw [hself, hstate]
      exact ⟨by decide, hpt, htf⟩
    · rw [hother q he] at hq ⊢
      exact h.live q hq
  init hi := absurd hi hinit

theorem Table.Covers.first (hc : t.Covers 0) (hf : t.Fits env) (ha : PageAddr x)
    (hl : t'.leaf = update t.leaf 0
      (pa2pte x ||| (PTE_W ||| PTE_R ||| PTE_X ||| PTE_U) ||| PTE_V))
    (hx : m.page x = Buffer.write (fun _ => 0) 0 initcode) :
    t'.Covers 1 ∧ t'.view m.page = initImage := by
  obtain ⟨hV, _, hW, hU, hC⟩ := mapped_flags x (PTE_W ||| PTE_R ||| PTE_X ||| PTE_U)
  have hpa : pte2pa (pa2pte x ||| (PTE_W ||| PTE_R ||| PTE_X ||| PTE_U) ||| PTE_V) = x :=
    mapped_pa ha (by decide)
  have hself : t'.leaf 0 = pa2pte x ||| (PTE_W ||| PTE_R ||| PTE_X ||| PTE_U) ||| PTE_V := by
    rw [hl, update_self]
  have hother : ∀ v, v ≠ 0 → t'.leaf v = t.leaf v := fun v hv => by rw [hl, update_of_ne hv]
  refine ⟨⟨fun v => ?_, by decide⟩, ?_⟩
  · by_cases hv : v = 0
    · subst v
      rw [hself, hV]
      simp
    · rw [hother v hv, hc.valid v]
      have h0 : ¬ v < 0 := by omega
      have h1 : ¬ v < 1 := by omega
      simp only [h0, h1]
  · funext v
    by_cases hv : v = 0
    · subst v
      rw [Table.view, hself, hV, hU, hW, hpa, hx]
      rfl
    · have he := congrFun (hc.view_empty hf m.page) v
      rw [Table.view] at he ⊢
      rw [hother v hv, he, initImage, UserMem.putPage, update_of_ne hv, UserMem.grow,
        if_neg (by omega)]

namespace Procs

theorem userinit (h : Procs L s σ) (hs : Settled s) (hinit : s.initproc = none)
    (hfree : 10 ≤ s.mem.freelist.length) :
    Wp (userinit L) (fun _ w => ∃ np, w.initproc = some np ∧ (∃ σ', Procs L w σ') ∧ Settled w ∧
      (w.proc np).state = .runnable ∧ s.users np = none ∧
      w.users = update s.users np (some ⟨initImage, PGSIZE⟩)) s := by
  rw [Xv6.userinit]
  refine (h.allocproc hs).bind fun r s₁ hr => ?_
  obtain ⟨rfl, _, hnone | hfew⟩ | ⟨np, σ₁, pr, rfl, hfind, ha, _, hlen⟩ := hr
  · exact absurd (hs.init hinit 0) (findUnused_none hnone 0)
  · omega
  obtain ⟨root, hroot⟩ := Option.ne_none_iff_exists'.mp ha.pagetable
  obtain ⟨tf, htf⟩ := Option.ne_none_iff_exists'.mp ha.trapframe
  rw [← ha.edits.self] at hroot htf
  obtain ⟨t, ht, rfl, hc⟩ := ha.procs.exists_table hroot
  rw [ha.edits.self, ha.sz] at hc
  apply wp_bind
  apply wp_deref rfl
  apply wp_bind_modify
  obtain ⟨h₁, hus₁⟩ := ha.procs.congr (w := { s₁ with initproc := some np }) rfl rfl
    fun _ => ⟨rfl, rfl, rfl⟩
  apply wp_bind_get
  apply wp_bind
  apply wp_deref hroot
  apply wp_bind_get
  apply wp_bind
  apply wp_deref htf
  apply wp_bind
  apply wp_onMem
  have hinv := h₁.tableInv ht
  refine (hinv.uvmfirst initcode ?_ (by decide) (by dsimp only; omega)).mono fun _ m₂ hr => ?_
  · exact hc.not_valid (Nat.zero_le 0) (by decide)
  obtain ⟨t', x, ht', hroot', hax, hl, hx, heq, _⟩ := hr
  obtain ⟨hc', hview⟩ := hc.first hinv.fits hax hl hx
  apply wp_bind
  refine wp_setProc fun s₃ he₃ hm₃ => ?_
  rw [← show s₃.mem = m₂ from hm₃] at ht' heq hview
  obtain ⟨h₃, hus₃⟩ := h₁.set ht' (fun y hy => heq (.inl hy)) he₃.of_mem (by rw [hroot']; exact hroot)
    (by dsimp only; rw [show pageCount PGSIZE = 1 by decide]; exact hc') rfl
  have htf₃ : (s₃.proc np).trapframe = some tf := by
    rw [he₃.self]
    exact htf
  refine (h₃.setTrapframe htf₃ Trapframe.epc 0).bind fun _ s₄ h₄ => ?_
  obtain ⟨m₄, rfl, h₄, hus₄⟩ := h₄
  refine (h₄.setTrapframe htf₃ Trapframe.sp PGSIZE).bind fun _ s₅ h₅ => ?_
  obtain ⟨m₅, rfl, h₅, hus₅⟩ := h₅
  refine wp_setProc fun s₆ he₆ hm₆ => ?_
  obtain ⟨h₆, hus₆⟩ := h₅.edit he₆ hm₆ ⟨rfl, rfl, rfl⟩
  have hinit₆ : s₆.initproc = some np := he₆.initproc.trans he₃.initproc
  refine ⟨np, hinit₆, ⟨_, h₆⟩, hs.start he₆.self (fun q hq => ?_) rfl ?_ ?_ ?_, by rw [he₆.self], ?_, ?_⟩
  · exact ((he₆.other q hq).trans (he₃.other q hq)).trans (ha.edits.other q hq)
  · dsimp only
    rw [he₃.self]
    exact hroot ▸ Option.some_ne_none _
  · dsimp only
    rw [htf₃]
    exact Option.some_ne_none _
  · rw [hinit₆]
    exact Option.some_ne_none _
  · exact hs.users_unused (findUnused_some hfind)
  · rw [hus₆, hus₅, hus₄, hus₃, hview, hus₁, ha.users, update_idem]

theorem copied {i : Nat} (h : Procs L s σ) (hne : p ≠ np) (ht : σ.table (some p) = some t)
    (hu : σ.table (some np) = some u) (hc : Copying L s.mem σ (some p) (some np) t u i w.mem t' u')
    (hk : w.kpages = s.kpages) (hpt : ∀ q, (w.proc q).pagetable = (s.proc q).pagetable)
    (htf : ∀ q, (w.proc q).trapframe = (s.proc q).trapframe)
    (hsz : ∀ q, q ≠ np → (w.proc q).sz = (s.proc q).sz)
    (hcov : u'.Covers (pageCount (w.proc np).sz)) :
    Procs L w ((σ.set (some p) (some t')).set (some np) (some u')) ∧
    w.users = update s.users np (some ⟨u'.view w.mem.page, (w.proc np).sz⟩) := by
  have hkey : (some p : Key) ≠ some np := fun hh => hne (Option.some.inj hh)
  have htab : ∀ q, q ≠ p → q ≠ np →
      ((σ.set (some p) (some t')).set (some np) (some u')).table (some q) = σ.table (some q) := by
    intro q h1 h2
    rw [Space.table_set_ne (fun hh => h2 (Option.some.inj hh)),
      Space.table_set_ne (fun hh => h1 (Option.some.inj hh))]
  have htabp : ((σ.set (some p) (some t')).set (some np) (some u')).table (some p) = some t' := by
    rw [Space.table_set_ne hkey, Space.table_set_self]
  have h' : Procs L w ((σ.set (some p) (some t')).set (some np) (some u')) := by
    refine h.of_space hc.inv rfl ?_ (fun q => ?_) hk htf
    · rw [Space.table_set_ne (by simp), Space.table_set_ne (by simp)]
      exact h.spare
    · by_cases h2 : q = np
      · subst q
        rw [Space.table_set_self]
        exact ⟨by rw [hpt, (h.holds hu).1, hc.root], hcov⟩
      · by_cases h1 : q = p
        · subst q
          rw [htabp]
          refine ⟨by rw [hpt, (h.holds ht).1, hc.agrees.root], ?_⟩
          rw [hsz p h2]
          exact (h.holds ht).2.congr fun v => (hc.agrees.leaf v).valid
        · rw [htab q h1 h2]
          have hq := h.table q
          cases hτ : σ.table (some q) with
          | none =>
            rw [hτ] at hq
            exact (hpt q).trans hq
          | some t₁ =>
            rw [hτ] at hq
            exact ⟨(hpt q).trans hq.1, by rw [hsz q h2]; exact hq.2⟩
  refine ⟨h', ?_⟩
  funext q
  by_cases h2 : q = np
  · subst q
    rw [update_self, h'.users_some Space.table_set_self]
  · rw [update_of_ne h2]
    by_cases h1 : q = p
    · subst q
      rw [h'.users_some htabp, h.users_some ht, hc.view, hsz p h2]
    · refine h.users_eq h' (htab q h1 h2) (hsz q h2) fun y hy => hc.frame (.inr ?_)
      exact ⟨some q, fun hh => h1 (Option.some.inj hh), fun hh => h2 (Option.some.inj hh), hy⟩

end Procs

theorem Copying.child_view {m₀ : PhysMem} {n : Nat}
    (h : Copying L m₀ σ (some p) (some np) t u n m t' u') (hne : p ≠ np) (ht : t.Covers n)
    (hu : u.Covers 0) : u'.Covers n ∧ u'.view m.page = t'.view m.page := by
  have hchild := h.child.fits
  have hparent := (h.parent (fun hh => hne (Option.some.inj hh))).fits
  refine ⟨⟨fun v => ?_, ht.le⟩, ?_⟩
  · by_cases hv : v < n
    · rw [(h.copied v hv).access.valid, (h.agrees.leaf v).valid]
      exact ht.valid v
    · rw [h.rest v (by omega), hu.valid v]
      simp [hv]
  · funext v
    by_cases hv : v < n
    · exact (h.copied v hv).view m.page
    · by_cases htop : userTop ≤ v
      · rw [hchild.view_top htop, hparent.view_top htop]
      · have h1 : (u'.leaf v).has PTE_V = false := by
          rw [h.rest v (by omega)]
          exact hu.not_valid (Nat.zero_le v) (by omega)
        have h2 : (t'.leaf v).has PTE_V = false := by
          rw [(h.agrees.leaf v).valid]
          exact ht.not_valid (by omega) (by omega)
        simp only [Table.view, h1, h2, Bool.false_and, Bool.false_eq_true, if_false]

theorem Procs.fork_exact (h : Procs L s σ) (hs : Settled s) (hrun : (s.proc p).state = .runnable) :
    Wp (fork L p) (fun r w => r = -1 ∧ Refused L s σ w ∨
      (∃ σ', Procs L w σ') ∧ Settled w ∧ ∃ np, 0 ≤ r ∧ findUnused s = some np ∧ s.users np = none ∧
        w.users = update s.users np (s.users p)) s := by
  rw [Xv6.fork]
  refine (h.allocproc hs).bind fun r s₁ hr => ?_
  obtain ⟨rfl, href, _⟩ | ⟨np, σ₁, pr, rfl, hfind, ha, htab, _⟩ := hr
  · exact wp_pure (.inl ⟨rfl, href⟩)
  have hun := findUnused_some hfind
  have hne : p ≠ np := by
    rintro rfl
    rw [hrun] at hun
    cases hun
  obtain ⟨_, hptp, htfp⟩ := hs.live p (by rw [hrun]; decide)
  obtain ⟨old, hold⟩ := Option.ne_none_iff_exists'.mp hptp
  obtain ⟨tf, htf⟩ := Option.ne_none_iff_exists'.mp htfp
  rw [← ha.edits.other p hne] at hold htf
  obtain ⟨new, hnew⟩ := Option.ne_none_iff_exists'.mp ha.pagetable
  obtain ⟨ntf, hntf⟩ := Option.ne_none_iff_exists'.mp ha.trapframe
  rw [← ha.edits.self] at hnew hntf
  obtain ⟨t, ht, rfl, hct⟩ := ha.procs.exists_table hold
  obtain ⟨u, hu, rfl, hcu⟩ := ha.procs.exists_table hnew
  have hsz : (s₁.proc np).sz = 0 := by rw [ha.edits.self, ha.sz]
  rw [hsz] at hcu
  have hkey : (some p : Key) ≠ some np := fun hh => hne (Option.some.inj hh)
  apply wp_bind_get
  apply wp_bind
  apply wp_deref hold
  apply wp_bind_get
  apply wp_bind
  apply wp_deref hnew
  apply wp_bind_get
  apply wp_bind
  apply wp_onMem
  refine (ha.procs.space.uvmcopy hkey (by simp [NPROC]) ht hu (fun i hi => ?_) (fun j hj => ?_)).mono
    fun r m₂ hr => ?_
  · have hlt : i < userTop := Nat.lt_of_lt_of_le hi hct.le
    exact ⟨hlt, (hct.user hlt).mpr hi⟩
  · exact hcu.not_valid (Nat.zero_le j) hj
  obtain ⟨t', u', ⟨rfl, hc⟩ | ⟨rfl, hc⟩⟩ := hr
  · rw [if_neg (by decide)]
    obtain ⟨hcu', hview⟩ := hc.child_view hne hct hcu
    apply wp_bind
    refine wp_setProc fun s₃ he₃ hm₃ => ?_
    rw [← show s₃.mem = m₂ from hm₃] at hc hview
    have he₃ := he₃.of_mem
    obtain ⟨h₃, hus₃⟩ := ha.procs.copied hne ht hu hc he₃.kpages (he₃.field_eq rfl) (he₃.field_eq rfl)
      (fun q hq => by rw [he₃.other q hq]) (by rw [he₃.self]; exact hcu')
    have htf₃ : (s₃.proc p).trapframe = some tf := by rw [he₃.other p hne, htf]
    have hntf₃ : (s₃.proc np).trapframe = some ntf := by rw [he₃.self, ← hntf]
    apply wp_bind_get
    apply wp_bind
    apply wp_deref htf₃
    apply wp_bind_get
    apply wp_bind
    apply wp_deref hntf₃
    apply wp_bind_get
    apply wp_bind
    apply wp_onMem
    apply wp_modify
    obtain ⟨h₄, hus₄⟩ := h₃.write_kernel ((h₃.kernel ntf).mpr (.inr ⟨np, hntf₃⟩)) (s₃.mem.page tf)
    refine (h₄.setTrapframe hntf₃ Trapframe.a0 0).bind fun _ s₅ h₅ => ?_
    obtain ⟨m₅, rfl, h₅, hus₅⟩ := h₅
    apply wp_bind
    refine wp_setProc fun s₆ he₆ hm₆ => ?_
    obtain ⟨h₆, hus₆⟩ := h₅.edit he₆ hm₆ ⟨rfl, rfl, rfl⟩
    apply wp_bind_get
    have husp : s.users p = some ⟨u'.view s₃.mem.page, (s₃.proc np).sz⟩ := by
      have hp : s₁.users p = s.users p := by rw [ha.users, update_of_ne hne]
      rw [← hp, ha.procs.users_some ht, hview, hc.view, he₃.self]
    have hinit : s₆.initproc ≠ none := by
      intro hi
      rw [show s₆.initproc = s.initproc from he₆.initproc.trans (he₃.initproc.trans ha.edits.initproc)] at hi
      rw [hs.init hi p] at hrun
      cases hrun
    refine wp_pure (.inr ⟨⟨_, h₆⟩, hs.start he₆.self (fun q hq => ?_) rfl ?_ ?_ hinit,
      np, Int.natCast_nonneg _, hfind, hs.users_unused hun, ?_⟩)
    · exact ((he₆.other q hq).trans (he₃.other q hq)).trans (ha.edits.other q hq)
    · dsimp only
      rw [he₃.self]
      exact hnew ▸ Option.some_ne_none _
    · dsimp only
      rw [hntf₃]
      exact Option.some_ne_none _
    · rw [hus₆, hus₅, hus₄, hus₃, ha.users, update_idem, husp]
  · rw [if_pos (by decide)]
    have hcu' : u'.Covers 0 := hcu.congr fun v => by rw [hc.rest v (Nat.zero_le v)]
    obtain ⟨h₂, hus₂⟩ := ha.procs.copied (w := { s₁ with mem := m₂ }) hne ht hu hc rfl
      (fun _ => rfl) (fun _ => rfl) (fun _ _ => rfl) (by rw [hsz]; exact hcu')
    refine (alloc_failed h hs hun h₂ ha.edits.set_mem (by rw [hus₂, ha.users, update_idem])
      (fun k hk x => ?_)).bind fun _ w hw => wp_pure (.inl ⟨rfl, hw⟩)
    rw [Space.usedBy_set_ne hk]
    by_cases hkp : k = some p
    · subst k
      rw [htab _ hkey] at ht
      simp only [Space.UsedBy, Space.table_set_self, ht, Option.some.injEq, exists_eq_left']
      exact hc.uses x
    · rw [Space.usedBy_set_ne hkp, Space.UsedBy, htab k hk, Space.UsedBy]

theorem Procs.fork (h : Procs L s σ) (hs : Settled s) (hrun : (s.proc p).state = .runnable) :
    Wp (fork L p) (fun r w => (∃ σ', Procs L w σ') ∧ Settled w ∧
      (r < 0 ∧ w.users = s.users ∨ ∃ np, 0 ≤ r ∧ findUnused s = some np ∧ s.users np = none ∧
        w.users = update s.users np (s.users p))) s := by
  refine (h.fork_exact hs hrun).mono fun r w hr => ?_
  obtain ⟨rfl, href⟩ | ⟨hp, hset, hnew⟩ := hr
  · obtain ⟨σ', hp, _⟩ := href.procs
    exact ⟨⟨σ', hp⟩, href.settled, .inl ⟨by decide, href.users⟩⟩
  · exact ⟨hp, hset, .inr hnew⟩

end Xv6
