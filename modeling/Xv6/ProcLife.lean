import Xv6.ProcTable

/-! Processes come and go: `freeproc`, `allocproc`, `userinit`, `fork`. -/

namespace Xv6

open Function StateProg

variable {L : Layout} {t : Table} {s w : KState} {σ σ' τ : Space Key}
  {p q np : Fin NPROC} {x : Nat}

namespace Procs

theorem free_trapframe (h : Procs L s σ) (p : Fin NPROC) :
    Wp (ifSome (s.proc p).trapframe (kfree L)) (fun _ w => ∃ m₁ τ, w = { s with mem := m₁ } ∧
      SpaceInv L m₁ τ ∧ τ.table = σ.table ∧
      (∀ x, x ∈ τ.kernel ↔ x ∈ σ.kernel ∧ (s.proc p).trapframe ≠ some x) ∧
      ∀ k x, σ.UsedBy x k → m₁.page x = s.mem.page x) s := by
  cases htf : (s.proc p).trapframe with
  | none =>
    refine wp_pure ⟨s.mem, σ, rfl, h.space, rfl, fun x => ?_, fun _ _ _ => rfl⟩
    simp
  | some tf =>
    have hker : tf ∈ σ.kernel := (h.kernel tf).mpr (.inr ⟨p, htf⟩)
    apply wp_onMem
    refine (h.space.kfree hker).mono fun _ m₁ hr => ?_
    refine ⟨m₁, σ.release tf, rfl, hr.1, rfl, fun x => ?_, fun k x hx => hr.2 x ?_⟩
    · change x ∈ σ.kernel \ {tf} ↔ _
      simp [eq_comm]
    · rintro rfl
      exact h.space.not_used_of_kernel hker k hx

theorem free_table (h : SpaceInv L s.mem τ) (hh : (s.proc p).Holds (τ.table (some p))) :
    Wp (ifSome (s.proc p).pagetable (fun root => procFreepagetable L root (s.proc p).sz))
      (fun _ w => ∃ m₁, w = { s with mem := m₁ } ∧ SpaceInv L m₁ (τ.set (some p) none) ∧
        Set.EqOn m₁.page s.mem.page {x | 0 < (τ.env (some p)).count x}) s := by
  cases ht : τ.table (some p) with
  | none =>
    rw [ht] at hh
    rw [show (s.proc p).pagetable = none from hh]
    refine wp_pure ⟨s.mem, rfl, ?_, fun _ _ => rfl⟩
    have hset : τ.set (some p) none = τ := by
      rw [Space.set, ← ht, update_eq_self]
    rw [hset]
    exact h
  | some t =>
    rw [ht] at hh
    rw [hh.1]
    apply wp_onMem
    refine (procFreepagetable_spec (h.tableInv ht) hh.2).mono fun _ m₁ hr => ?_
    exact ⟨m₁, rfl, h.drop hr.1 hr.2, hr.2⟩

theorem freed (h : Procs L s σ) (hs : SpaceInv L w.mem (τ.set (some p) none))
    (htab : τ.table = σ.table)
    (hker : ∀ x, x ∈ τ.kernel ↔ x ∈ σ.kernel ∧ (s.proc p).trapframe ≠ some x)
    (he : s.Edits w p ⟨.unused, 0, none, 0, none, none, 0⟩)
    (hp : ∀ q, q ≠ p → ∀ x, σ.UsedBy x (some q) → w.mem.page x = s.mem.page x) :
    Procs L w (τ.set (some p) none) ∧ w.users = update s.users p none := by
  have htab' : ∀ q, q ≠ p → (τ.set (some p) none).table (some q) = σ.table (some q) := by
    intro q hq
    rw [Space.table_set_ne (fun hh => hq (Option.some.inj hh)), htab]
  have hprocs : Procs L w (τ.set (some p) none) := by
    refine ⟨hs, ?_, ?_, ?_, by rw [he.kpages]; exact h.nodup, ?_⟩
    · rw [Space.table_set_ne (by simp), htab]
      exact h.spare
    · intro q
      by_cases hq : q = p
      · subst q
        rw [Space.table_set_self, he.self]
        rfl
      · rw [htab' q hq, he.other q hq]
        exact h.table q
    · intro x
      change x ∈ τ.kernel ↔ _
      rw [hker, h.kernel x, he.kpages]
      constructor
      · rintro ⟨hx | ⟨q, hq⟩, hne⟩
        · exact .inl hx
        · have hqp : q ≠ p := by
            rintro rfl
            exact hne hq
          exact .inr ⟨q, by rw [he.other q hqp]; exact hq⟩
      · rintro (hx | ⟨q, hq⟩)
        · exact ⟨.inl hx, fun hh => (h.trapframe p x hh).1 hx⟩
        · have hqp : q ≠ p := by
            rintro rfl
            rw [he.self] at hq
            cases hq
          rw [he.other q hqp] at hq
          exact ⟨.inr ⟨q, hq⟩, fun hh => hqp ((h.trapframe p x hh).2 q hq)⟩
    · intro q x hx
      have hne : ∀ r, (w.proc r).trapframe = some x → r ≠ p := by
        rintro r hr rfl
        rw [he.self] at hr
        cases hr
      rw [he.other q (hne q hx)] at hx
      rw [he.kpages]
      refine ⟨(h.trapframe q x hx).1, fun r hr => ?_⟩
      rw [he.other r (hne r hr)] at hr
      exact (h.trapframe q x hx).2 r hr
  refine ⟨hprocs, h.users_update hprocs ?_ htab' (fun q hq => by rw [he.other q hq]) hp⟩
  exact users_none (by rw [he.self])

theorem freeproc (h : Procs L s σ) (p : Fin NPROC) :
    Wp (freeproc L p) (fun _ w => ∃ σ', s.Edits w p ⟨.unused, 0, none, 0, none, none, 0⟩ ∧ Procs L w σ' ∧
      w.users = update s.users p none ∧ σ'.table = update σ.table (some p) none) s := by
  rw [Xv6.freeproc]
  apply wp_bind_get
  refine (h.free_trapframe p).bind fun _ s₁ h₁ => ?_
  obtain ⟨m₁, τ, rfl, hsp, htab, hker, hpage⟩ := h₁
  refine (free_table (s := { s with mem := m₁ }) hsp (by rw [htab]; exact h.table p)).bind fun _ s₂ h₂ => ?_
  obtain ⟨m₂, rfl, hsp₂, heq⟩ := h₂
  refine wp_setProc fun w he hm => ?_
  rw [← show w.mem = m₂ from hm] at hsp₂ heq
  have hpages : ∀ q, q ≠ p → ∀ x, σ.UsedBy x (some q) → w.mem.page x = s.mem.page x := by
    intro q hq x hx
    rw [← hpage (some q) x hx]
    apply SpaceInv.usedBy_of_eqOn (fun hh => hq (Option.some.inj hh)) heq
    rw [Space.UsedBy, htab]
    exact hx
  obtain ⟨hprocs, husers⟩ := h.freed hsp₂ htab hker he.of_mem.of_mem hpages
  exact ⟨τ.set (some p) none, he.of_mem.of_mem, hprocs, husers, by rw [Space.set, htab]⟩

theorem hold_trapframe (h : Procs L s σ) (hs : SpaceInv L w.mem (σ.hold x)) (h0 : σ.refs x = 0)
    (hpage : ∀ y, y ≠ x → w.mem.page y = s.mem.page y) (htf : (s.proc p).trapframe = none)
    (he : s.Edits w p { s.proc p with trapframe := some x }) :
    Procs L w (σ.hold x) ∧ w.users = s.users := by
  obtain ⟨hker, hused⟩ := Space.not_used_of_zero h0
  rw [h.kernel, not_or, not_exists] at hker
  have hfield : ∀ q, (w.proc q).pagetable = (s.proc q).pagetable ∧ (w.proc q).sz = (s.proc q).sz := by
    intro q
    by_cases hq : q = p
    · subst q
      rw [he.self]
      exact ⟨rfl, rfl⟩
    · rw [he.other q hq]
      exact ⟨rfl, rfl⟩
  have htfs : ∀ q y, (w.proc q).trapframe = some y ↔
      (s.proc q).trapframe = some y ∨ q = p ∧ y = x := by
    intro q y
    by_cases hq : q = p
    · subst q
      rw [he.self, htf]
      simp [eq_comm]
    · rw [he.other q hq]
      simp [hq]
  have h' : Procs L w (σ.hold x) := by
    refine ⟨hs, h.spare, ?_, ?_, by rw [he.kpages]; exact h.nodup, ?_⟩
    · intro q
      have hq := h.table q
      change (w.proc q).Holds (σ.table (some q))
      cases ht : σ.table (some q) with
      | none =>
        rw [ht] at hq
        exact (hfield q).1.trans hq
      | some t =>
        rw [ht] at hq
        exact ⟨(hfield q).1.trans hq.1, by rw [(hfield q).2]; exact hq.2⟩
    · intro y
      change y ∈ insert x σ.kernel ↔ _
      rw [Set.mem_insert_iff, h.kernel, he.kpages]
      simp only [htfs]
      constructor
      · rintro (rfl | hy | ⟨q, hq⟩)
        · exact .inr ⟨p, .inr ⟨rfl, rfl⟩⟩
        · exact .inl hy
        · exact .inr ⟨q, .inl hq⟩
      · rintro (hy | ⟨q, hq | ⟨_, rfl⟩⟩)
        · exact .inr (.inl hy)
        · exact .inr (.inr ⟨q, hq⟩)
        · exact .inl rfl
    · intro q y hy
      rw [he.kpages]
      rcases (htfs q y).mp hy with hq | ⟨rfl, rfl⟩
      · refine ⟨(h.trapframe q y hq).1, fun r hr => ?_⟩
        rcases (htfs r y).mp hr with hr | ⟨rfl, rfl⟩
        · exact (h.trapframe q y hq).2 r hr
        · exact absurd hq (hker.2 q)
      · refine ⟨hker.1, fun r hr => ?_⟩
        rcases (htfs r y).mp hr with hr | ⟨rfl, _⟩
        · exact absurd hr (hker.2 r)
        · rfl
  refine ⟨h', ?_⟩
  funext q
  refine h.users_eq h' rfl (hfield q).2 fun y hy => hpage y ?_
  rintro rfl
  exact hused (some q) hy

end Procs

structure Allocated (L : Layout) (s : KState) (np : Fin NPROC) (w : KState) (σ' : Space Key) (pr : Proc) :
    Prop where
  procs : Procs L w σ'
  edits : s.Edits w np pr
  state : pr.state = .used
  sz : pr.sz = 0
  pagetable : pr.pagetable ≠ none
  trapframe : pr.trapframe ≠ none
  users : w.users = update s.users np (some ⟨UserMem.empty, 0⟩)

theorem wp_allocpid : Wp allocpid (fun _ w => (∀ p, s.Edits w p (s.proc p)) ∧ w.mem = s.mem) s := by
  apply wp_bind_get
  apply wp_bind_modify
  exact wp_pure ⟨fun p => ⟨rfl, fun _ _ => rfl, rfl, rfl⟩, rfl⟩

theorem findUnused_some (h : findUnused s = some np) : (s.proc np).state = .unused := by
  have hf := List.find?_some h
  simpa using hf

theorem findUnused_none (h : findUnused s = none) (p : Fin NPROC) : (s.proc p).state ≠ .unused := by
  have hf := List.find?_eq_none.mp h p (List.mem_finRange p)
  simpa using hf

namespace Settled

theorem users_unused (h : Settled s) (hp : (s.proc p).state = .unused) : s.users p = none :=
  Procs.users_none (h.unused p hp).1

theorem free (h : Settled s) (he : s.Edits w np ⟨.unused, 0, none, 0, none, none, 0⟩) : Settled w where
  unused q hq := by
    by_cases hnp : q = np
    · subst q
      rw [he.self]
      exact ⟨rfl, rfl, rfl⟩
    · rw [he.other q hnp] at hq ⊢
      exact h.unused q hq
  live q hq := by
    by_cases hnp : q = np
    · subst q
      rw [he.self] at hq
      exact absurd rfl hq
    · rw [he.other q hnp] at hq ⊢
      exact h.live q hq
  init hi q := by
    by_cases hnp : q = np
    · subst q
      rw [he.self]
    · rw [he.other q hnp]
      exact h.init (he.initproc ▸ hi) q

end Settled

/-- A call that needed a process or pages and did not get them: the owners of every page,
the other slots and what each process sees are as before. -/
structure Refused (L : Layout) (s : KState) (σ : Space Key) (w : KState) : Prop where
  procs : ∃ σ', Procs L w σ' ∧ σ'.refs = σ.refs
  settled : Settled w
  users : w.users = s.users
  slots : w.proc = s.proc ∨
    ∃ np, (s.proc np).state = .unused ∧ s.Edits w np ⟨.unused, 0, none, 0, none, none, 0⟩

namespace Procs

theorem refs_eq_freed (h : Procs L s σ) (hs : Settled s) (hu : (s.proc np).state = .unused)
    (h' : Procs L w σ') (he : s.Edits w np ⟨.unused, 0, none, 0, none, none, 0⟩)
    (hnone : σ'.table (some np) = none)
    (hused : ∀ k, k ≠ some np → ∀ x, σ'.UsedBy x k ↔ σ.UsedBy x k) : σ'.refs = σ.refs := by
  obtain ⟨hpt, htf, _⟩ := hs.unused np hu
  have htfs : ∀ q, (w.proc q).trapframe = (s.proc q).trapframe := by
    intro q
    by_cases hq : q = np
    · subst q
      rw [he.self, htf]
    · rw [he.other q hq]
  apply Space.refs_congr
  · intro k x
    by_cases hk : k = some np
    · subst k
      simp only [Space.UsedBy, hnone, h.table_none hpt, reduceCtorEq, false_and, exists_false]
    · exact hused k hk x
  · ext x
    rw [h'.kernel, h.kernel, he.kpages]
    simp only [htfs]

theorem alloc_failed {s₁ : KState} {σ₁ : Space Key} {a : Option UserProc} {pr : Proc}
    (h₀ : Procs L s σ) (hs : Settled s) (hu : (s.proc np).state = .unused) (h : Procs L s₁ σ₁)
    (he : s.Edits s₁ np pr) (husers : s₁.users = update s.users np a)
    (hused : ∀ k, k ≠ some np → ∀ x, σ₁.UsedBy x k ↔ σ.UsedBy x k) :
    Wp (Xv6.freeproc L np) (fun _ w => Refused L s σ w) s₁ := by
  refine (h.freeproc np).mono fun _ w hw => ?_
  obtain ⟨σ', he', hp, hus, htab⟩ := hw
  refine ⟨⟨σ', hp, h₀.refs_eq_freed hs hu hp (he.trans he') ?_ (fun k hk x => ?_)⟩, hs.free (he.trans he'),
    ?_, .inr ⟨np, hu, he.trans he'⟩⟩
  · rw [htab, update_self]
  · rw [← hused k hk x, Space.UsedBy, htab, update_of_ne hk, Space.UsedBy]
  · rw [hus, husers, update_idem, ← hs.users_unused hu, update_eq_self]

theorem allocproc (h : Procs L s σ) (hs : Settled s) :
    Wp (allocproc L) (fun r w =>
      r = none ∧ Refused L s σ w ∧ (findUnused s = none ∨ s.mem.freelist.length ≤ 6) ∨
      ∃ np σ' pr, r = some np ∧ findUnused s = some np ∧ Allocated L s np w σ' pr ∧
        (∀ k, k ≠ some np → σ'.table k = σ.table k) ∧
        s.mem.freelist.length ≤ w.mem.freelist.length + 6) s := by
  rw [Xv6.allocproc]
  apply wp_bind_get
  cases hfind : findUnused s with
  | none => exact wp_pure (.inl ⟨rfl, ⟨⟨σ, h, rfl⟩, hs, rfl, .inl rfl⟩, .inl rfl⟩)
  | some np =>
    have hun := findUnused_some hfind
    obtain ⟨hpt, htf, hsz⟩ := hs.unused np hun
    refine wp_allocpid.bind fun pid s₀ h₀ => ?_
    apply wp_bind
    refine wp_setProc fun s₁ he hm => ?_
    have he₁ := (h₀.1 np).trans he
    have hm₁ : s₁.mem = s.mem := hm.trans h₀.2
    rw [(h₀.1 np).self] at he₁
    obtain ⟨h₁, hus₁⟩ := h.edit he₁ hm₁ ⟨rfl, rfl, rfl⟩
    apply wp_bind
    apply wp_onMem
    refine h₁.space.kalloc.mono fun r m₂ hr => ?_
    cases r with
    | none =>
      rw [hr.2]
      refine (alloc_failed (a := s.users np) h hs hun h₁ he₁
        (by rw [hus₁, update_eq_self]) (fun _ _ _ => Iff.rfl)).bind fun _ w hw => ?_
      refine wp_pure (.inl ⟨rfl, hw, .inr ?_⟩)
      rw [← hm₁, hr.1]
      simp
    | some tf =>
      obtain ⟨hsp, h0, hfree, hpage⟩ := hr
      apply wp_bind
      refine wp_setProc fun s₃ he hm₃ => ?_
      rw [← show s₃.mem = m₂ from hm₃] at hsp hfree hpage
      obtain ⟨h₃, hus₃⟩ := h₁.hold_trapframe hsp h0 hpage (by rw [he₁.self]; exact htf) he.of_mem
      have he₃ := he₁.trans he.of_mem
      rw [he₁.self] at he₃
      have hnone : (σ.hold tf).table (some np) = none := h₃.table_none (by rw [he₃.self]; exact hpt)
      have halloc : AllocInv L s₃.mem ((σ.hold tf).env (some np)).count := by
        rw [Space.env_eq_refs hnone]
        exact h₃.space.alloc
      have hlen : s.mem.freelist.length = s₃.mem.freelist.length + 1 := by
        rw [← hm₁, hfree, List.length_cons]
      apply wp_bind
      apply wp_onMem
      refine (procPagetable_spec halloc tf).mono fun r m₄ hr => ?_
      obtain ⟨heq, ⟨rfl, ha, hfew⟩ | ⟨t, rfl, ht, hc, hfew⟩⟩ := hr
      · have hset : (σ.hold tf).set (some np) none = σ.hold tf := by
          rw [Space.set, ← hnone, update_eq_self]
        have hsp₄ := h₃.space.drop ha heq
        rw [hset] at hsp₄
        obtain ⟨h₄, hus₄⟩ := h₃.mem_congr hsp₄ (fun k y hy => by
          refine SpaceInv.usedBy_of_eqOn (k := some np) ?_ heq hy
          rintro rfl
          obtain ⟨t, ht, _⟩ := hy
          rw [hnone] at ht
          cases ht)
        refine (alloc_failed (a := s.users np) h hs hun h₄ he₃.set_mem
          (by rw [hus₄, hus₃, hus₁, update_eq_self]) (fun _ _ _ => Iff.rfl)).bind fun _ w hw => ?_
        exact wp_pure (.inl ⟨rfl, hw, .inr (by omega)⟩)
      · apply wp_bind
        refine wp_setProc fun s₅ he hm₅ => ?_
        have he₅ := he₃.trans he.of_mem
        have hm₅ : s₅.mem = m₄ := hm₅
        rw [← hm₅] at heq ht hfew
        have hsz₃ : (s₃.proc np).sz = 0 := by rw [he₃.self, ← hsz]
        obtain ⟨h₅, hus₅⟩ := h₃.set ht heq he.of_mem rfl (by dsimp only; rw [hsz₃]; exact hc) rfl
        rw [he₃.self] at he₅
        refine wp_pure (.inr ⟨np, _, _, rfl, rfl, ⟨h₅, he₅, rfl, hsz, ?_, ?_, ?_⟩,
          fun k hk => Space.table_set_ne hk, by omega⟩)
        · exact Option.some_ne_none _
        · exact Option.some_ne_none _
        · rw [hus₅, hus₃, hus₁, hc.view_empty ht.fits]
          dsimp only
          rw [hsz₃]

end Procs

end Xv6
