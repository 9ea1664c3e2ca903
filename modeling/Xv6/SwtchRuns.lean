import Xv6.SwtchSteps

namespace Xv6.Swtch

open Function

variable {P C : Type*}

section Visit

variable {q : P} {y : Proc P C}

theorem Visit.apply_lock (v : Visit) : (v.apply q y).lock = y.lock := by
  cases v <;> simp only [apply] <;> split <;> rfl

theorem Visit.apply_running (v : Visit) :
    (v.apply q y).state = .running ↔ y.state = .running := by
  cases v <;> simp only [apply] <;> split <;> simp_all

theorem Visit.apply_kept (v : Visit) (h : y.Kept q) : (v.apply q y).Kept q := by
  have move : ∀ st : RunState, y.Waits → Proc.Kept q { y with state := st } := fun st hw _ => h hw
  have gone : ∀ ch, Proc.Kept q { y with chan := ch, state := .unused } := fun ch hw => by
    rcases hw with hw | hw | hw <;> cases hw
  cases v with
  | wakeup ch =>
    simp only [apply]
    split
    case isTrue hc => exact move _ (.inr (.inl hc.1))
    case isFalse => exact h
  | kill =>
    simp only [apply]
    split
    case isTrue hc => exact move _ (.inr (.inl hc))
    case isFalse => exact h
  | start =>
    simp only [apply]
    split
    case isTrue hc => exact move _ (.inl hc)
    case isFalse => exact h
  | wait =>
    simp only [apply]
    split
    case isTrue => exact gone 0
    case isFalse => exact h
  | freeproc =>
    simp only [apply]
    split
    case isTrue => exact gone 0
    case isFalse => exact h
  | allocproc =>
    simp only [apply]
    split
    case isTrue => exact fun _ => ⟨rfl, rfl, .inl rfl⟩
    case isFalse => exact h

end Visit

/-! `swtch`, one instruction at a time. -/

section Instructions

variable {c : C} {q : P} {x : Cpu P C} {ps : P → Proc P C} {k : Nat}

theorem load_regs {regs old new : Context P C} (hk : ¬ k < 14) (hk' : k - 14 < 14)
    (h : ∀ i : Fin 14, regs i = if i + 14 < k then new i else old i) (i : Fin 14) :
    update regs ⟨k - 14, hk'⟩ (new ⟨k - 14, hk'⟩) i =
      if i + 14 < k + 1 then new i else old i := by
  by_cases hi : i = ⟨k - 14, hk'⟩
  · subst i
    rw [update_self, if_pos (by dsimp only; omega)]
  · have hne : i.val ≠ k - 14 := fun he => hi (Fin.ext he)
    rw [update_of_ne hi, h i]
    exact if_congr (by omega) rfl rfl

theorem store_context {ctx saved : Context P C} (hk : k < 14)
    (h : ∀ i : Fin 14, i < k → ctx i = saved i) (i : Fin 14) (hi : i < k + 1) :
    update ctx ⟨k, hk⟩ (saved ⟨k, hk⟩) i = saved i := by
  by_cases he : i = ⟨k, hk⟩
  · subst i
    rw [update_self]
  · have hne : i.val ≠ k := fun h' => he (Fin.ext h')
    rw [update_of_ne he]
    exact h i (by omega)

theorem regs_store {regs old new : Context P C} (hk : k < 14)
    (h : ∀ i : Fin 14, regs i = if i + 14 < k then new i else old i) (i : Fin 14) :
    regs i = if i + 14 < k + 1 then new i else old i := by
  rw [h i]
  exact if_congr (by omega) rfl rfl

theorem Entering.store (h : Entering c x ps q k) (hk : k < 14) (pc : Pc P C) :
    Entering c { x with context := update x.context ⟨k, hk⟩ (x.regs ⟨k, hk⟩), pc } ps q
      (k + 1) := by
  have hreg : x.regs ⟨k, hk⟩ = x.saved ⟨k, hk⟩ := by
    rw [h.regs, if_neg (by dsimp only; omega)]
  refine ⟨⟨h.proc, h.loopVar, h.savedRa, h.savedSp⟩, h.state, h.whole, h.resumable, ?_, ?_⟩
  · rw [hreg]
    exact store_context hk h.stored
  · exact regs_store hk h.regs

theorem Entering.load (h : Entering c x ps q k) (hk : ¬ k < 14) (hk' : k - 14 < 14) (pc : Pc P C) :
    Entering c { x with regs := update x.regs ⟨k - 14, hk'⟩ ((ps q).context ⟨k - 14, hk'⟩),
                        pc } ps q (k + 1) := by
  refine ⟨⟨h.proc, h.loopVar, h.savedRa, h.savedSp⟩, h.state, h.whole, h.resumable,
    fun i _ => h.stored i (by omega), ?_⟩
  rw [h.whole]
  exact load_regs hk hk' h.regs

theorem Entering.runs (h : Entering c x ps q k) (hk : ¬ k - 14 < 14) (pc : Pc P C) :
    Runs c { x with pc } ps q ∧ x.regs = (ps q).saved := by
  have hregs : x.regs = (ps q).saved := by
    funext i
    rw [h.regs, if_pos (by omega)]
  refine ⟨⟨⟨h.proc, h.loopVar, h.savedRa, h.savedSp⟩, ?_, h.state, ?_⟩, hregs⟩
  · exact funext fun i => h.stored i (by omega)
  · exact (congrFun hregs sp).trans h.resumable.1

theorem Exiting.load (h : Exiting c x ps q k) (hk : ¬ k < 14) (hk' : k - 14 < 14) (pc : Pc P C) :
    Exiting c { x with regs := update x.regs ⟨k - 14, hk'⟩ (x.context ⟨k - 14, hk'⟩), pc }
      ps q (k + 1) := by
  refine ⟨⟨h.proc, h.loopVar, h.savedRa, h.savedSp⟩, h.state, h.resumable, h.savedStack, h.context,
    fun i _ => h.stored i (by omega), ?_⟩
  rw [h.context]
  exact load_regs hk hk' h.regs

theorem Exiting.returned (h : Exiting c x ps q k) (hk : ¬ k - 14 < 14) (pc : Pc P C) :
    Returned c { x with pc } ps q ∧ x.regs = x.saved := by
  have hregs : x.regs = x.saved := by
    funext i
    rw [h.regs, if_pos (by omega)]
  refine ⟨⟨⟨h.proc, h.loopVar, h.savedRa, h.savedSp⟩, h.state, fun hw => ⟨?_, h.resumable hw⟩, ?_⟩,
    hregs⟩
  · exact funext fun i => h.stored i (by omega)
  · exact (congrFun hregs sp).trans h.savedSp

end Instructions

variable [DecidableEq P] {s : Sys P C} {c : C} {q : P}

theorem state_update {ps : P → Proc P C} {y : Proc P C} {p : P}
    (hy : (ps q).state = .running → y.state = .running) (hp : (ps p).state = .running) :
    (update ps q y p).state = .running := by
  by_cases he : p = q
  · subst p
    rw [update_self]
    exact hy hp
  · rw [update_of_ne he]
    exact hp

variable [DecidableEq C]

namespace Inv

variable {b : Base} {y : Proc P C} {v : Visit} {k : Nat}

theorem visitStep (h : Inv s) (hpc : (s.cpu c).pc = .visit v q b) :
    ∃ s', s.visitStep c v q b = .ok s' ∧ Inv s' := by
  have hheld : (s.cpu c).held = some q := by rw [Cpu.held, hpc]
  have hlock : (v.apply q (s.proc q)).lock = some c :=
    v.apply_lock.trans ((h.locks c q).mpr hheld)
  unfold Sys.visitStep
  rw [release_eq s _ hlock]
  refine ⟨_, rfl, h.release hheld rfl rfl v.apply_running v.apply_kept ?_⟩
  have hok := h.cpu c
  unfold CpuOk at hok ⊢
  rw [hpc] at hok
  cases b with
  | loop => exact AtSched.setPc hok _
  | run =>
    obtain ⟨p, hp⟩ := hok
    exact ⟨p, (hp.setPc _).frame (state_update v.apply_running.mpr hp.state)⟩

theorem pick (h : Inv s) (hpc : (s.cpu c).pc = .base .loop) :
    ∃ s', s.acquire c q (.picked q) = .ok s' ∧ Inv s' := by
  have hok := h.cpu c
  unfold CpuOk at hok
  rw [hpc] at hok
  exact h.acquire (by rw [Cpu.held, hpc]) rfl fun y _ => AtSched.setPc hok _

theorem leave (h : Inv s) (why : Why) (hpc : (s.cpu c).pc = .base .run)
    (hq : (s.cpu c).proc = some q) : ∃ s', s.acquire c q (.leaving why q) = .ok s' ∧ Inv s' := by
  have hok := h.cpu c
  unfold CpuOk at hok
  rw [hpc] at hok
  obtain ⟨p, hp⟩ := hok
  obtain rfl : p = q := Option.some.inj (hp.proc.symm.trans hq)
  refine h.acquire (by rw [Cpu.held, hpc]) rfl fun y hy => (hp.setPc _).frame ?_
  exact state_update (fun hr => hy.trans hr) hp.state

theorem visit (h : Inv s) (hpc : (s.cpu c).pc = .base b) :
    ∃ s', s.acquire c q (.visit v q b) = .ok s' ∧ Inv s' := by
  have hok := h.cpu c
  unfold CpuOk at hok
  rw [hpc] at hok
  refine h.acquire (by rw [Cpu.held, hpc]) rfl fun y hy => ?_
  cases b with
  | loop => exact AtSched.setPc hok _
  | run =>
    obtain ⟨p, hp⟩ := hok
    exact ⟨p, (hp.setPc _).frame (state_update (fun hr => hy.trans hr) hp.state)⟩

/-- The scheduler enters a `RUNNABLE` process whose lock it has: no CPU has it then, so its
context is whole. -/
theorem resume (h : Inv s) (hpc : (s.cpu c).pc = .picked q)
    (hst : (s.proc q).state = .runnable) : Inv (s.resume c q) := by
  have hheld : (s.cpu c).held = some q := by rw [Cpu.held, hpc]
  have hok := h.cpu c
  unfold CpuOk at hok
  rw [hpc] at hok
  have hoff : ∀ c', (s.cpu c').proc ≠ some q := by
    intro c'
    by_cases hc : c' = c
    · rw [hc, hok.proc]
      rintro ⟨⟩
    · exact h.off_cpu (by rw [hst]; rintro ⟨⟩) (h.held_unique hheld c' hc)
  obtain ⟨hwhole, hres⟩ := h.kept q hoff (.inr (.inr hst))
  refine h.stepOk ?_
  exact {
    others := h.held_unique hheld
    lock := fun c' => by
      change (s.proc q).lock = some c' ↔ c' = c ∧ some q = some q
      rw [(h.locks c q).mpr hheld]
      simp [eq_comm]
    held := fun q' _ => by rw [hheld]; rfl
    proc := fun q' hne => by
      rw [hok.proc]
      exact iff_of_false (fun he => hne (Option.some.inj he).symm) (by rintro ⟨⟩)
    enters := fun _ => .inr hoff
    stops := fun hr => by rw [hst] at hr; cases hr
    runs := fun _ => .inl rfl
    kept := fun hne => absurd rfl hne
    ok := by
      refine ⟨q, .inl ⟨rfl, rfl, ⟨rfl, rfl, rfl, ?_⟩, ?_, ?_, ?_, ?_, ?_⟩⟩
      · exact hok.stack
      · rw [update_self]
      · rw [update_self]
        exact hwhole
      · rw [update_self]
        exact hres
      · exact fun i hi => absurd hi (Nat.not_lt_zero _)
      · exact fun i => (if_neg (Nat.not_lt_zero _)).symm }

theorem pickedStep (h : Inv s) (hpc : (s.cpu c).pc = .picked q) :
    ∃ s', s.pickedStep c q = .ok s' ∧ Inv s' := by
  unfold Sys.pickedStep
  by_cases hst : (s.proc q).state = .runnable
  · rw [if_pos hst]
    exact ⟨_, rfl, h.resume hpc hst⟩
  · have hheld : (s.cpu c).held = some q := by rw [Cpu.held, hpc]
    rw [if_neg hst, Sys.release, if_pos ((h.locks c q).mpr hheld)]
    refine ⟨_, rfl, h.release hheld rfl rfl Iff.rfl id ?_⟩
    have hok := h.cpu c
    unfold CpuOk at hok
    rw [hpc] at hok
    exact AtSched.setPc hok _

theorem enteringStep (h : Inv s) (hpc : (s.cpu c).pc = .swtch (.cpu c) (.proc q) k)
    (hq : Entering c (s.cpu c) s.proc q k) :
    ∃ s', s.swtchStep c (.cpu c) (.proc q) k = .ok s' ∧ Inv s' := by
  have hheld : (s.cpu c).held = (s.cpu c).proc := by rw [Cpu.held, hpc]
  unfold Sys.swtchStep
  by_cases hk : k < 14
  · rw [dif_pos hk]
    refine ⟨_, rfl, ?_⟩
    simp only [Sys.store, Sys.setPc, Sys.setCpu_cpu_self, Sys.setCpu_setCpu]
    exact h.setCpu hheld.symm rfl ⟨q, .inl ⟨rfl, rfl, hq.store hk _⟩⟩
  · rw [dif_neg hk]
    by_cases hk' : k - 14 < 14
    · rw [dif_pos hk']
      exact ⟨_, rfl, h.setCpu hheld.symm rfl ⟨q, .inl ⟨rfl, rfl, hq.load hk hk' _⟩⟩⟩
    · rw [dif_neg hk', Sys.ret]
      have hregs := (hq.runs hk' .back).2
      obtain ⟨hsp, hra | ⟨hra, hframe⟩⟩ := hq.resumable
      · rw [hregs, hsp, hra]
        exact ⟨_, rfl, h.setCpu hheld.symm rfl ⟨q, (hq.runs hk' _).1⟩⟩
      · rw [hregs, hsp, hra]
        exact ⟨_, rfl, h.setCpu hheld.symm rfl ⟨q, (hq.runs hk' _).1, hframe⟩⟩

theorem holding (h : Inv s) {x : Cpu P C} (hheld : (s.cpu c).held = some q)
    (hproc : (s.cpu c).proc = some q) (hheld' : x.held = some q) (hproc' : x.proc = some q)
    (hlock : y.lock = (s.proc q).lock) (hok : CpuOk c x (update s.proc q y)) :
    Inv ((s.setProc q y).setCpu c x) := by
  refine h.stepOk ?_
  exact {
    others := h.held_unique hheld
    lock := fun c' => by
      rw [hlock, (h.locks c q).mpr hheld, hheld']
      simp [eq_comm]
    held := fun q' _ => by rw [hheld, hheld']
    proc := fun q' _ => by rw [hproc, hproc']
    enters := fun _ => .inl hproc
    stops := fun _ => .inr hproc
    runs := fun _ => .inl hproc'
    kept := fun hne => absurd hproc' hne
    ok := hok }

theorem exitingStep (h : Inv s) (hpc : (s.cpu c).pc = .swtch (.proc q) (.cpu c) k)
    (hq : Exiting c (s.cpu c) s.proc q k) :
    ∃ s', s.swtchStep c (.proc q) (.cpu c) k = .ok s' ∧ Inv s' := by
  have hheld : (s.cpu c).held = (s.cpu c).proc := by rw [Cpu.held, hpc]
  unfold Sys.swtchStep
  by_cases hk : k < 14
  · rw [dif_pos hk]
    refine ⟨_, rfl, h.holding (hheld.trans hq.proc) hq.proc hq.proc hq.proc rfl ?_⟩
    have hreg : (s.cpu c).regs ⟨k, hk⟩ = (s.proc q).saved ⟨k, hk⟩ := by
      rw [hq.regs, if_neg (by dsimp only; omega)]
    refine ⟨q, .inr ⟨rfl, rfl, hq.toAwaits.setPc _, ?_, ?_, ?_, hq.context, ?_, ?_⟩⟩
    · rw [update_self]; exact hq.state
    · rw [update_self]; exact hq.resumable
    · rw [update_self]; exact hq.savedStack
    · rw [update_self, hreg]
      exact store_context hk hq.stored
    · rw [update_self]
      exact regs_store hk hq.regs
  · rw [dif_neg hk]
    by_cases hk' : k - 14 < 14
    · rw [dif_pos hk']
      exact ⟨_, rfl, h.setCpu hheld.symm rfl ⟨q, .inr ⟨rfl, rfl, hq.load hk hk' _⟩⟩⟩
    · rw [dif_neg hk', Sys.ret, (hq.returned hk' .back).2, hq.savedRa, hq.savedSp]
      exact ⟨_, rfl, h.setCpu hheld.symm rfl ⟨q, (hq.returned hk' _).1⟩⟩

theorem backStep (h : Inv s) (hpc : (s.cpu c).pc = .back) :
    ∃ s', s.backStep c = .ok s' ∧ Inv s' := by
  have hok := h.cpu c
  unfold CpuOk at hok
  rw [hpc] at hok
  obtain ⟨q, hq⟩ := hok
  have hheld : (s.cpu c).held = some q := by rw [Cpu.held, hpc]; exact hq.proc
  simp only [Sys.backStep, hq.stack, hq.loopVar, Sys.release, if_pos ((h.locks c q).mpr hheld)]
  refine ⟨_, rfl, h.stepOk ?_⟩
  exact {
    others := h.held_unique hheld
    lock := fun c' => iff_of_false (by rintro ⟨⟩) fun hh => by cases hh.2
    held := fun q' hne => by
      rw [hheld]
      exact iff_of_false (by rintro ⟨⟩) fun he => hne (Option.some.inj he).symm
    proc := fun q' hne => by
      rw [hq.proc]
      exact iff_of_false (by rintro ⟨⟩) fun he => hne (Option.some.inj he).symm
    enters := (by rintro ⟨⟩)
    stops := fun _ => .inr hq.proc
    runs := fun hr => absurd hr hq.state
    kept := fun _ _ => hq.kept
    ok := ⟨rfl, hq.stack⟩ }

theorem ownRelease (h : Inv s) (hheld : (s.cpu c).held = some q) (hq : Runs c (s.cpu c) s.proc q)
    (hlock : y.lock = none) (hst : y.state = (s.proc q).state) :
    Inv ((s.setProc q y).setPc c (.base .run)) := by
  have hkept : (s.proc q).Kept q → y.Kept q := fun _ hw => by
    rcases hw with hw | hw | hw <;> cases hw.symm.trans (hst.trans hq.state)
  refine h.release hheld rfl hlock (by rw [hst]) hkept ⟨q, (hq.setPc _).frame ?_⟩
  rw [update_self, hst]
  exact hq.state

theorem forkretStep (h : Inv s) (hpc : (s.cpu c).pc = .forkret) :
    ∃ s', s.forkretStep c = .ok s' ∧ Inv s' := by
  have hok := h.cpu c
  unfold CpuOk at hok
  rw [hpc] at hok
  obtain ⟨q, hq⟩ := hok
  have hheld : (s.cpu c).held = some q := by rw [Cpu.held, hpc]; exact hq.proc
  simp only [Sys.forkretStep, hq.proc, Sys.release, if_pos ((h.locks c q).mpr hheld)]
  exact ⟨_, rfl, h.ownRelease hheld hq rfl rfl⟩

theorem returnedStep (h : Inv s) (hpc : (s.cpu c).pc = .returned) :
    ∃ s', s.returnedStep c = .ok s' ∧ Inv s' := by
  have hok := h.cpu c
  unfold CpuOk at hok
  rw [hpc] at hok
  obtain ⟨q, hq, why, hne, hframe⟩ := hok
  have hheld : (s.cpu c).held = some q := by rw [Cpu.held, hpc]; exact hq.proc
  have hlock := (h.locks c q).mpr hheld
  simp only [Sys.returnedStep, hq.stack, hframe]
  cases why with
  | exit => exact absurd rfl hne
  | yield =>
    simp only [Sys.release, if_pos hlock]
    exact ⟨_, rfl, h.ownRelease hheld hq rfl rfl⟩
  | sleep ch =>
    simp only [release_eq s { s.proc q with chan := 0 } hlock]
    exact ⟨_, rfl, h.ownRelease hheld hq rfl rfl⟩

theorem leavingStep (h : Inv s) {why : Why} (hpc : (s.cpu c).pc = .leaving why q) :
    ∃ s', s.leavingStep c why q = .ok s' ∧ Inv s' := by
  have hq := h.cpu c
  unfold CpuOk at hq
  rw [hpc] at hq
  have hheld : (s.cpu c).held = some q := by rw [Cpu.held, hpc]
  have hlock : (why.enter (s.proc q)).lock = some c := by
    rw [← (h.locks c q).mpr hheld]
    cases why <;> rfl
  have hst : (why.enter (s.proc q)).state ≠ .running := by cases why <;> rintro ⟨⟩
  simp only [Sys.leavingStep, hq.stack, Sys.sched, Sys.setProc_cpu, hq.proc, Sys.setProc_proc_self,
    hlock, ne_eq, not_true_eq_false, if_false, if_neg hst, Sys.setProc_setProc]
  refine ⟨_, rfl, h.holding hheld hq.proc rfl rfl ((h.locks c q).mpr hheld).symm ?_⟩
  have hsp : update (s.cpu c).regs ra (.code .sched) sp = .stack (.proc q) := hq.stack
  refine ⟨q, .inr ⟨rfl, rfl, ⟨rfl, hq.loopVar, hq.savedRa, hq.savedSp⟩, ?_, ?_, ?_,
    hq.context, fun i hi => absurd hi (Nat.not_lt_zero _), ?_⟩⟩
  · rw [update_self]; exact hst
  · rw [update_self]
    refine fun hw => ⟨hsp, .inr ⟨rfl, why, ?_, rfl⟩⟩
    rintro rfl
    rcases hw with hw | hw | hw <;> cases hw
  · rw [update_self]; exact hsp
  · intro i
    rw [update_self, if_neg (Nat.not_lt_zero _)]

theorem advance (h : Inv s) (c : C) : ∃ s', s.advance c = .ok s' ∧ Inv s' := by
  unfold Sys.advance
  cases hpc : (s.cpu c).pc with
  | base b => exact ⟨s, rfl, h⟩
  | visit v q b => exact h.visitStep hpc
  | picked q => exact h.pickedStep hpc
  | back => exact h.backStep hpc
  | returned => exact h.returnedStep hpc
  | forkret => exact h.forkretStep hpc
  | leaving why q => exact h.leavingStep hpc
  | swtch old new k =>
    have hok := h.cpu c
    unfold CpuOk at hok
    rw [hpc] at hok
    obtain ⟨q, ⟨rfl, rfl, hq⟩ | ⟨rfl, rfl, hq⟩⟩ := hok
    · exact h.enteringStep hpc hq
    · exact h.exitingStep hpc hq

omit [DecidableEq P] in
theorem compute (h : Inv s) (hpc : (s.cpu c).pc = .base b) {r : Fin 14} (hr : r ≠ sp) (w : Word P C) :
    Inv (s.setCpu c { s.cpu c with regs := update (s.cpu c).regs r w }) := by
  have hsp : update (s.cpu c).regs r w sp = (s.cpu c).regs sp :=
    update_of_ne hr.symm ..
  have hok := h.cpu c
  unfold CpuOk at hok
  refine h.setCpu rfl rfl ?_
  simp only [hpc] at hok ⊢
  cases b with
  | loop => exact ⟨hok.proc, hsp.trans hok.stack⟩
  | run =>
    obtain ⟨q, hq⟩ := hok
    exact ⟨q, ⟨hq.proc, hq.loopVar, hq.savedRa, hq.savedSp⟩, hq.context, hq.state,
      hsp.trans hq.stack⟩

theorem step (h : Inv s) (a : Act P C) : ∃ s', s.step a = .ok s' ∧ Inv s' := by
  have stays : ∃ s', (.ok s : Except Fault (Sys P C)) = .ok s' ∧ Inv s' := ⟨s, rfl, h⟩
  cases a with
  | advance c => exact h.advance c
  | pick c q =>
    simp only [Sys.step]
    split
    case h_1 hpc => exact h.pick hpc
    case h_2 => exact stays
  | leave c why =>
    simp only [Sys.step]
    split
    case h_1 hpc =>
      have hok := h.cpu c
      unfold CpuOk at hok
      rw [hpc] at hok
      obtain ⟨q, hq⟩ := hok
      simp only [hq.proc]
      exact h.leave why hpc hq.proc
    case h_2 => exact stays
  | visit c v q =>
    simp only [Sys.step]
    split
    case h_1 b hpc =>
      unfold Sys.enterVisit
      split
      · split
        · exact stays
        · exact h.visit hpc
      · exact h.visit hpc
    case h_2 => exact stays
  | compute c r w =>
    simp only [Sys.step]
    split
    case h_1 b hpc =>
      split
      case isTrue => exact stays
      case isFalse hr => exact ⟨_, rfl, h.compute hpc hr w⟩
    case h_2 => exact stays

omit [DecidableEq P] [DecidableEq C] in
theorem init : Inv (Sys.init : Sys P C) where
  locks c q := iff_of_false (nofun) (nofun)
  cpu c := ⟨rfl, rfl⟩
  unique _ _ _ h := by cases h
  running _ h := by cases h
  kept q _ hw := by rcases hw with hw | hw | hw <;> cases hw

theorem run (h : Inv s) (as : List (Act P C)) :
    ∃ s', ActionRun.run Sys.step s as = .ok s' ∧ Inv s' := by
  induction as generalizing s with
  | nil => exact ⟨s, rfl, h⟩
  | cons a as ih =>
    obtain ⟨s₁, hstep, h₁⟩ := h.step a
    obtain ⟨s', hrun, h'⟩ := ih h₁
    refine ⟨s', ?_, h'⟩
    rw [ActionRun.run, hstep]
    exact hrun

end Inv

def Sys.current (s : Sys P C) (c : C) : Word P C := (s.cpu c).regs sp

structure Scheduled (s : Sys P C) : Prop where
  /-- A process's kernel thread is the current one of at most one CPU. -/
  one_cpu : ∀ p c c', s.current c = .stack (.proc p) → s.current c' = .stack (.proc p) → c = c'
  running : ∀ p, (s.proc p).state = .running → ∃! c, (s.cpu c).proc = some p
  /-- What the next `swtch` to a process loads is what the last one from it had in its
  registers, all of them, or what `allocproc` put there. -/
  context : ∀ p, (s.proc p).state = .runnable → (s.proc p).lock = none →
    (s.proc p).context = (s.proc p).saved

omit [DecidableEq P] [DecidableEq C] in
theorem Inv.scheduled (h : Inv s) : Scheduled s where
  one_cpu p c c' hc hc' := h.unique c c' p ((h.cpu c).stack_eq hc) ((h.cpu c').stack_eq hc')
  running p hp := by
    obtain ⟨c, hc⟩ := h.running p hp
    exact ⟨c, hc, fun c' hc' => h.unique c' c p hc' hc⟩
  context p hp hl := by
    have hoff : ∀ c, (s.cpu c).proc ≠ some p := fun c =>
      h.off_cpu (by rw [hp]; exact (nofun)) (by rw [hl]; exact (nofun))
    exact (h.kept p hoff (.inr (.inr hp))).1

/-- However the CPUs are interleaved, none of them panics, a process is on one CPU at most,
and it is resumed only with its whole context. -/
theorem process_on_one_cpu (as : List (Act P C)) :
    ∃ s, ActionRun.run Sys.step Sys.init as = .ok s ∧ Scheduled s := by
  obtain ⟨s, hrun, hs⟩ := (Inv.init (P := P) (C := C)).run as
  exact ⟨s, hrun, hs.scheduled⟩

/-- A new process gets to run on CPU 1, with its lock released in `forkret`. -/
example : (ActionRun.run Sys.step (Sys.init : Sys (Fin 2) (Fin 2))
    ([.visit 0 .allocproc 1, .advance 0, .visit 0 .start 1, .advance 0, .pick 1 1] ++
      List.replicate 31 (.advance 1))).toOption.map
      (fun s => ((s.cpu 1).proc, (s.proc 1).state, (s.proc 1).lock)) =
    some (some 1, .running, none) := by
  rfl

end Xv6.Swtch
