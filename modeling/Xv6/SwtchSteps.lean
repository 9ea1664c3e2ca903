import Xv6.SwtchInv

/-! Every step keeps the invariant, and none of them panics. -/

namespace Xv6.Swtch

open Function

variable {P C : Type*} {s : Sys P C} {c c' : C} {x : Cpu P C} {q : P} {y : Proc P C}

theorem Inv.eq_of_proc (h : Inv s) (hc : (s.cpu c).proc = some q) (hne : c' ≠ c) :
    (s.cpu c').proc ≠ some q := fun hc' => hne (h.unique c' c q hc' hc)

theorem Inv.off_cpu (h : Inv s) (hst : (s.proc q).state ≠ .running) (hl : (s.proc q).lock ≠ some c') :
    (s.cpu c').proc ≠ some q := by
  intro hq
  rcases (h.cpu c').proc_eq hq with hr | hheld
  · exact hst hr
  · exact hl ((h.locks c' q).mpr hheld)

theorem AtSched.setPc (h : AtSched c x) (pc : Pc P C) : AtSched c { x with pc } := ⟨h.1, h.2⟩

theorem Awaits.setPc (h : Awaits c x q) (pc : Pc P C) : Awaits c { x with pc } q :=
  ⟨h.1, h.2, h.3, h.4⟩

theorem Runs.setPc {ps : P → Proc P C} (h : Runs c x ps q) (pc : Pc P C) :
    Runs c { x with pc } ps q :=
  ⟨h.toAwaits.setPc pc, h.context, h.state, h.stack⟩

theorem Inv.held_unique (h : Inv s) (hheld : (s.cpu c).held = some q) (c' : C) (hne : c' ≠ c) :
    (s.proc q).lock ≠ some c' := by
  rw [(h.locks c q).mpr hheld]
  exact fun he => hne (Option.some.inj he).symm

section Rules

variable [DecidableEq C]

theorem Inv.setCpu (h : Inv s) (hheld : x.held = (s.cpu c).held)
    (hproc : x.proc = (s.cpu c).proc) (hok : CpuOk c x s.proc) : Inv (s.setCpu c x) := by
  have hfield : ∀ c', ((s.setCpu c x).cpu c').proc = (s.cpu c').proc := by
    intro c'
    by_cases hc : c' = c
    · subst c'; rw [Sys.setCpu_cpu_self, hproc]
    · rw [Sys.setCpu_cpu_of_ne _ hc]
  constructor
  case locks =>
    intro c' q'
    by_cases hc : c' = c
    · subst c'
      rw [Sys.setCpu_cpu_self, hheld]
      exact h.locks c q'
    · rw [Sys.setCpu_cpu_of_ne _ hc]
      exact h.locks c' q'
  case cpu =>
    intro c'
    by_cases hc : c' = c
    · subst c'
      rw [Sys.setCpu_cpu_self]
      exact hok
    · rw [Sys.setCpu_cpu_of_ne _ hc]
      exact h.cpu c'
  case unique =>
    intro c₁ c₂ q'
    rw [hfield, hfield]
    exact h.unique c₁ c₂ q'
  case running =>
    intro q' hq
    obtain ⟨c', hc'⟩ := h.running q' hq
    exact ⟨c', (hfield c').trans hc'⟩
  case kept =>
    intro q' hq
    exact h.kept q' fun c' hc' => hq c' ((hfield c').trans hc')

variable [DecidableEq P]

/-- What a step of CPU `c` on process `q` has to keep: no other CPU has the lock of `q`, and
the CPUs that run another process, or run `q` without its lock, notice nothing. -/
structure StepOk (s : Sys P C) (c : C) (x : Cpu P C) (q : P) (y : Proc P C) : Prop where
  others : ∀ c', c' ≠ c → (s.proc q).lock ≠ some c'
  lock : ∀ c', y.lock = some c' ↔ c' = c ∧ x.held = some q
  held : ∀ q', q' ≠ q → (x.held = some q' ↔ (s.cpu c).held = some q')
  proc : ∀ q', q' ≠ q → (x.proc = some q' ↔ (s.cpu c).proc = some q')
  enters : x.proc = some q → (s.cpu c).proc = some q ∨ ∀ c', (s.cpu c').proc ≠ some q
  stops : (s.proc q).state = .running → y.state = .running ∨ (s.cpu c).proc = some q
  runs : y.state = .running → x.proc = some q ∨ (s.proc q).state = .running ∧ (s.cpu c).proc ≠ some q
  kept : x.proc ≠ some q → (∀ c', c' ≠ c → (s.cpu c').proc ≠ some q) → y.Kept q
  ok : CpuOk c x (update s.proc q y)

theorem Inv.stepOk (h : Inv s) (hx : StepOk s c x q y) : Inv ((s.setProc q y).setCpu c x) := by
  have self : ((s.setProc q y).setCpu c x).cpu c = x := Sys.setCpu_cpu_self ..
  have other : ∀ {c'}, c' ≠ c → ((s.setProc q y).setCpu c x).cpu c' = s.cpu c' := fun hc =>
    Sys.setCpu_cpu_of_ne _ hc _
  have procSelf : ((s.setProc q y).setCpu c x).proc q = y := Sys.setProc_proc_self ..
  have procOther : ∀ {q'}, q' ≠ q → ((s.setProc q y).setCpu c x).proc q' = s.proc q' := fun hq =>
    Sys.setProc_proc_of_ne _ hq _
  constructor
  case locks =>
    intro c' q'
    by_cases hq : q' = q <;> by_cases hc : c' = c
    · subst q' c'
      rw [procSelf, self, hx.lock]
      simp
    · subst q'
      rw [procSelf, other hc, hx.lock, ← h.locks c' q]
      exact iff_of_false (fun h' => hc h'.1) (hx.others c' hc)
    · subst c'
      rw [procOther hq, self, hx.held q' hq]
      exact h.locks c q'
    · rw [procOther hq, other hc]
      exact h.locks c' q'
  case cpu =>
    intro c'
    by_cases hc : c' = c
    · subst c'
      rw [self]
      exact hx.ok
    · rw [other hc]
      apply (h.cpu c').frame
      · intro q' hheld
        apply update_of_ne
        rintro rfl
        exact hx.others c' hc ((h.locks c' _).mpr hheld)
      · intro q' hq' hrun
        by_cases hq : q' = q
        · subst q'
          rw [procSelf]
          rcases hx.stops hrun with hy | hown
          · exact hy
          · exact absurd hq' (h.eq_of_proc hown hc)
        · rw [procOther hq]
          exact hrun
  case unique =>
    -- only `c` may have a process it did not have, and then no other CPU has it
    have new : ∀ {c'} {q'}, c' ≠ c → x.proc = some q' → (s.cpu c').proc ≠ some q' := by
      intro c' q' hc hq'
      by_cases hq : q' = q
      · subst q'
        rcases hx.enters hq' with hown | hnone
        · exact h.eq_of_proc hown hc
        · exact hnone c'
      · exact h.eq_of_proc ((hx.proc q' hq).mp hq') hc
    intro c₁ c₂ q' h₁ h₂
    by_cases hc₁ : c₁ = c <;> by_cases hc₂ : c₂ = c
    · rw [hc₁, hc₂]
    · subst c₁
      rw [self] at h₁
      rw [other hc₂] at h₂
      exact absurd h₂ (new hc₂ h₁)
    · subst c₂
      rw [other hc₁] at h₁
      rw [self] at h₂
      exact absurd h₁ (new hc₁ h₂)
    · rw [other hc₁] at h₁
      rw [other hc₂] at h₂
      exact h.unique c₁ c₂ q' h₁ h₂
  case running =>
    intro q' hrun
    have elsewhere : (s.proc q').state = .running → (s.cpu c).proc ≠ some q' →
        ∃ c', (((s.setProc q y).setCpu c x).cpu c').proc = some q' := by
      intro hr hne
      obtain ⟨c', hc'⟩ := h.running q' hr
      have hcc : c' ≠ c := fun he => hne (he ▸ hc')
      exact ⟨c', by rw [other hcc]; exact hc'⟩
    by_cases hq : q' = q
    · subst q'
      rw [procSelf] at hrun
      rcases hx.runs hrun with hown | ⟨hr, hne⟩
      · exact ⟨c, by rw [self]; exact hown⟩
      · exact elsewhere hr hne
    · rw [procOther hq] at hrun
      by_cases hown : (s.cpu c).proc = some q'
      · exact ⟨c, by rw [self]; exact (hx.proc q' hq).mpr hown⟩
      · exact elsewhere hrun hown
  case kept =>
    intro q' hoff
    have hc := hoff c
    rw [self] at hc
    have hother : ∀ c', c' ≠ c → (s.cpu c').proc ≠ some q' := by
      intro c' hne
      rw [← other hne]
      exact hoff c'
    by_cases hq : q' = q
    · subst q'
      rw [procSelf]
      exact hx.kept hc hother
    · rw [procOther hq]
      apply h.kept q'
      intro c'
      by_cases hcc : c' = c
      · subst c'
        exact fun h' => hc ((hx.proc q' hq).mpr h')
      · exact hother c' hcc

end Rules

section Locks

variable [DecidableEq P] [DecidableEq C] {pc : Pc P C}

theorem Inv.acquire (h : Inv s) (hfree : (s.cpu c).held = none)
    (hheld : { s.cpu c with pc : Cpu P C }.held = some q)
    (hok : ∀ y : Proc P C, y.state = (s.proc q).state →
      CpuOk c { s.cpu c with pc } (update s.proc q y)) : ∃ s', s.acquire c q pc = .ok s' ∧ Inv s' := by
  unfold Sys.acquire
  cases hl : (s.proc q).lock with
  | some c' =>
    have hne : c' ≠ c := by
      rintro rfl
      rw [(h.locks c' q).mp hl] at hfree
      cases hfree
    exact ⟨s, if_neg hne, h⟩
  | none =>
    refine ⟨_, rfl, h.stepOk (c := c) (x := { s.cpu c with pc }) ?_⟩
    exact {
      others := fun c' _ => by rw [hl]; exact (nofun)
      lock := fun c' => by
        rw [hheld]
        simp [eq_comm]
      held := fun q' hne => by
        rw [hheld, hfree]
        simp [hne.symm]
      proc := fun q' _ => Iff.rfl
      enters := .inl
      stops := .inl
      runs := fun hr => by
        by_cases hq : (s.cpu c).proc = some q
        · exact .inl hq
        · exact .inr ⟨hr, hq⟩
      kept := fun hc hothers => by
        refine h.kept q fun c' => ?_
        by_cases hcc : c' = c
        · exact hcc ▸ hc
        · exact hothers c' hcc
      ok := hok _ rfl }

/-- CPU `c` lets go of the lock it holds, and leaves behind a process that runs if it
did and is put away if no CPU has it. -/
theorem Inv.release (h : Inv s) (hheld : (s.cpu c).held = some q)
    (hpc : { s.cpu c with pc : Cpu P C }.held = none) (hlock : y.lock = none)
    (hrun : y.state = .running ↔ (s.proc q).state = .running) (hkept : (s.proc q).Kept q → y.Kept q)
    (hok : CpuOk c { s.cpu c with pc } (update s.proc q y)) : Inv ((s.setProc q y).setPc c pc) := by
  refine h.stepOk ?_
  exact {
    others := h.held_unique hheld
    lock := fun c' => by
      rw [hlock]
      exact iff_of_false (nofun) fun hh => by cases hpc.symm.trans hh.2
    held := fun q' hne => by
      rw [hheld]
      exact iff_of_false fun hh => by cases hpc.symm.trans hh
        fun hh => hne (Option.some.inj hh).symm
    proc := fun q' _ => Iff.rfl
    enters := .inl
    stops := fun hr => .inl (hrun.mpr hr)
    runs := fun hr => by
      by_cases hq : (s.cpu c).proc = some q
      · exact .inl hq
      · exact .inr ⟨hrun.mp hr, hq⟩
    kept := fun hc hothers => by
      refine hkept (h.kept q fun c' => ?_)
      by_cases hcc : c' = c
      · exact hcc ▸ hc
      · exact hothers c' hcc
    ok := hok }

theorem release_eq (s : Sys P C) (y : Proc P C) (hl : y.lock = some c) :
    (s.setProc q y).release c q = .ok (s.setProc q { y with lock := none }) := by
  unfold Sys.release
  rw [Sys.setProc_proc_self, if_pos hl, Sys.setProc_setProc]

end Locks

end Xv6.Swtch
