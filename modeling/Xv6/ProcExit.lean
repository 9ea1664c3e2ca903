import Xv6.ProcMemory

/-! `exit` and `wait`. -/

namespace Xv6

open Function StateProg

variable {L : Layout} {t : Table} {s w : KState} {σ : Space Key} {p q : Fin NPROC} {u : UserProc}

theorem Procs.reparent (h : Procs L s σ) (hs : Settled s) (p : Fin NPROC) :
    Wp (reparent p) (fun _ w => Procs L w σ ∧ Settled w ∧ w.users = s.users ∧ w.initproc = s.initproc ∧
      ∀ q, (w.proc q).state = (s.proc q).state) s := by
  apply wp_modify
  generalize hw : ({ s with proc := fun q =>
      if (s.proc q).parent = some p then { s.proc q with parent := s.initproc } else s.proc q } : KState) = w
  have hproc : ∀ q, (w.proc q).state = (s.proc q).state ∧ (w.proc q).pagetable = (s.proc q).pagetable ∧
      (w.proc q).trapframe = (s.proc q).trapframe ∧ (w.proc q).sz = (s.proc q).sz := by
    intro q
    rw [← hw]
    dsimp only
    by_cases hpar : (s.proc q).parent = some p
    · rw [if_pos hpar]
      exact ⟨rfl, rfl, rfl, rfl⟩
    · rw [if_neg hpar]
      exact ⟨rfl, rfl, rfl, rfl⟩
  have hinit : w.initproc = s.initproc := by rw [← hw]
  obtain ⟨h', hus⟩ := h.congr (w := w) (by rw [← hw]) (by rw [← hw]) fun q => (hproc q).2
  refine ⟨h', ⟨fun q hq => ?_, fun q hq => ?_, fun hi q => ?_⟩, hus, hinit, fun q => (hproc q).1⟩
  · rw [(hproc q).1] at hq
    rw [(hproc q).2.1, (hproc q).2.2.1, (hproc q).2.2.2]
    exact hs.unused q hq
  · rw [(hproc q).1] at hq
    rw [(hproc q).1, (hproc q).2.1, (hproc q).2.2.1]
    exact hs.live q hq
  · rw [(hproc q).1]
    exact hs.init (hinit ▸ hi) q

theorem Procs.exit (h : Procs L s σ) (hs : Settled s) (hrun : (s.proc p).state = .runnable)
    (hinit : s.initproc ≠ some p) (status : Nat) :
    Wp (exit p status) (fun _ w => Procs L w σ ∧ Settled w ∧ w.users = s.users) s := by
  rw [Xv6.exit]
  apply wp_bind_get
  rw [if_neg hinit]
  refine (h.reparent hs p).bind fun _ s₁ h₁ => ?_
  obtain ⟨h₁, hs₁, hus₁, _, hstate⟩ := h₁
  have hrun₁ : (s₁.proc p).state = .runnable := (hstate p).trans hrun
  refine wp_setProc fun w he hm => ?_
  obtain ⟨h₂, hus₂⟩ := h₁.edit he hm ⟨rfl, rfl, rfl⟩
  refine ⟨h₂, hs₁.edit he ?_ ⟨nofun, nofun⟩ (hs₁.running hrun₁).1 (hs₁.running hrun₁).2,
    hus₂.trans hus₁⟩
  rw [hrun₁]
  decide

theorem Procs.wait (h : Procs L s σ) (hs : Settled s) (hu : s.users p = some u)
    (ht : σ.table (some p) = some t) (addr : Nat) :
    Wp (wait L p addr) (fun r w => (∃ σ', Procs L w σ') ∧ Settled w ∧
      (findZombie s p = none ∧ w.users = s.users ∨
       ∃ q r', findZombie s p = some q ∧ r = some r' ∧
        (r' < 0 ∧ addr ≠ 0 ∧ (∃ u', w.users = update s.users p (some u') ∧
          (copyoutRefused L t.root 4 addr (intBytes (s.proc q).xstate) s.mem = false →
            u.copyout addr (intBytes (s.proc q).xstate) = (u', -1))) ∨
         0 ≤ r' ∧ addr = 0 ∧ w.users = update s.users q none ∨
         0 ≤ r' ∧ addr ≠ 0 ∧ ∃ u', u.copyout addr (intBytes (s.proc q).xstate) = (u', 0) ∧
          w.users = update (update s.users p (some u')) q none))) s := by
  rw [Xv6.wait]
  apply wp_bind_get
  cases hz : findZombie s p with
  | none =>
    dsimp only
    split
    · exact wp_pure ⟨⟨σ, h⟩, hs, .inl ⟨rfl, rfl⟩⟩
    · exact wp_pure ⟨⟨σ, h⟩, hs, .inl ⟨rfl, rfl⟩⟩
  | some q =>
    obtain ⟨hroot, _⟩ := h.holds ht
    apply wp_bind
    apply wp_deref hroot
    by_cases haddr : addr = 0
    · rw [if_neg (not_not.mpr haddr)]
      refine (h.freeproc q).bind fun _ w hw => ?_
      obtain ⟨σ', he, hp, hus, _⟩ := hw
      exact wp_pure ⟨⟨σ', hp⟩, hs.free he, .inr ⟨q, _, rfl, rfl,
        .inr (.inl ⟨Int.natCast_nonneg _, haddr, hus⟩)⟩⟩
    · rw [if_pos haddr]
      refine (h.copyout ht hu addr (intBytes (s.proc q).xstate)).bind fun r s₁ h₁ => ?_
      obtain ⟨⟨m₁, rfl⟩, ⟨σ₁, h₁⟩, hr, u', hus₁, hcopy⟩ := h₁
      have hs₁ : Settled { s with mem := m₁ } := ⟨hs.unused, hs.live, hs.init⟩
      rcases hr with rfl | rfl
      · rw [if_neg (by decide)]
        refine (h₁.freeproc q).bind fun _ w hw => ?_
        obtain ⟨σ', he, hp, hus, _⟩ := hw
        refine wp_pure ⟨⟨σ', hp⟩, hs₁.free he, .inr ⟨q, _, rfl, rfl, .inr (.inr
          ⟨Int.natCast_nonneg _, haddr, u', hcopy (.inl rfl), ?_⟩)⟩⟩
        rw [hus, hus₁]
      · rw [if_pos (by decide)]
        exact wp_pure ⟨⟨σ₁, h₁⟩, hs₁, .inr ⟨q, _, rfl, rfl, .inl ⟨by decide, haddr, u', hus₁,
          fun hnot => hcopy (.inr hnot)⟩⟩⟩

end Xv6
