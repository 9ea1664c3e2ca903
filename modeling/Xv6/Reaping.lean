import Mathlib.Data.List.Nodup
import Xv6.WaitExit

/-! Parents, zombies and the processes that wait for them. -/

namespace Xv6

open ActionRun Function

inductive SlotKind where
  | unused
  | used
  | live
  | zombie
  deriving DecidableEq

def ProcSlot.kind (x : ProcSlot) : SlotKind :=
  match x.state with
  | .unused => .unused
  | .used => .used
  | .zombie => .zombie
  | .sleeping | .runnable | .running => .live

structure ProcSlot.Keeps (x y : ProcSlot) : Prop where
  kind : y.kind = x.kind
  parent : y.parent = x.parent
  pid : y.pid = x.pid
  xstate : y.xstate = x.xstate

namespace ProcSlot

variable {x : ProcSlot}

theorem Keeps.refl (x : ProcSlot) : Keeps x x := ⟨rfl, rfl, rfl, rfl⟩

theorem kind_of_running (h : x.state = .running) : x.kind = .live := by simp [kind, h]

theorem kind_eq_unused : x.kind = .unused ↔ x.state = .unused := by
  cases h : x.state <;> simp [kind, h]

theorem kind_eq_zombie : x.kind = .zombie ↔ x.state = .zombie := by
  cases h : x.state <;> simp [kind, h]

theorem wake_keeps (x : ProcSlot) (ch : Option SleepChan) : Keeps x (x.wake ch) := by
  unfold wake
  split_ifs with h
  · exact ⟨by simp [kind, h.1], rfl, rfl, rfl⟩
  · exact .refl x

theorem kill_keeps (x : ProcSlot) : Keeps x x.kill := by
  unfold kill
  split_ifs with h
  · exact ⟨by simp [kind, h], rfl, rfl, rfl⟩
  · exact ⟨rfl, rfl, rfl, rfl⟩

theorem sleeping_of_wake {ch : Option SleepChan} (h : (x.wake ch).state = .sleeping) :
    x.wake ch = x ∧ ¬ (x.state = .sleeping ∧ x.chan = ch) := by
  unfold wake at h ⊢
  split_ifs at h ⊢ with hc
  exact ⟨rfl, hc⟩

end ProcSlot

namespace Ctl

def child : Ctl → Option ProcId
  | forkParent np | forkRunnable np => some np
  | _ => none

def exiting : Ctl → Bool
  | exitReparent _ _ | exitWakeInit _ _ _ | exitWakeParent _ _ | exitZombie _ => true
  | _ => false

def Passed (q : ProcId) : Ctl → Prop
  | exitReparent i _ => q.val < i
  | exitWakeInit i _ _ => q.val ≤ i
  | exitWakeParent _ _ | exitZombie _ => True
  | _ => False

def WakingInit (r : ProcId) : Ctl → Prop
  | exitWakeInit _ j _ => j ≤ r.val
  | _ => False

def Woke (r : ProcId) : Ctl → Prop
  | exitWakeParent j _ => r.val < j
  | exitZombie _ => True
  | _ => False

def Scanned (q : ProcId) : Ctl → Prop
  | waitScan _ i _ => q.val < i
  | waitDecide _ _ | waitSleep _ => True
  | _ => False

variable {c : Ctl} {q r : ProcId}

theorem Passed.exiting (h : c.Passed q) : c.exiting = true := by
  cases c <;> first | rfl | exact h.elim

theorem exiting_locked (h : c.exiting = true) : c.locked = true := by
  cases c <;> first | rfl | cases h

theorem WakingInit.locked (h : c.WakingInit r) : c.locked = true := by
  cases c <;> first | rfl | exact h.elim

theorem Woke.exiting (h : c.Woke r) : c.exiting = true := by
  cases c <;> first | rfl | exact h.elim

theorem Scanned.locked (h : c.Scanned q) : c.locked = true := by
  cases c <;> first | rfl | exact h.elim

end Ctl

namespace WaitSys

def Asleep (s : WaitSys) (p : ProcId) : Prop :=
  (∃ u, s.ctl p = .waitAsleep u) ∧ (s.slot p).state = .sleeping

structure Family (s : WaitSys) : Prop where
  init : (s.slot s.initproc).kind = .live
  parent : ∀ q, q ≠ s.initproc → (s.slot q).kind = .live ∨ (s.slot q).kind = .zombie →
    ∃ r, (s.slot q).parent = some r ∧ (s.slot r).kind = .live
  child : ∀ p np, (s.ctl p).child = some np → (s.slot np).kind = .used
  forkOne : ∀ p p' np, (s.ctl p).child = some np → (s.ctl p').child = some np → p = p'
  forkSet : ∀ p np, s.ctl p = .forkRunnable np → (s.slot np).parent = some p
  exiting : ∀ p, (s.ctl p).exiting = true → p ≠ s.initproc
  passed : ∀ p q, (s.ctl p).Passed q → (s.slot q).parent ≠ some p
  zombie : ∀ q, (s.slot q).kind = .zombie →
    s.exits[s.exitOf q]? = some ⟨q, (s.slot q).pid, (s.slot q).xstate⟩ ∧
      ∀ r ∈ s.reaps, r.exit ≠ s.exitOf q
  once : (s.reaps.map ReapRec.exit).Nodup
  reaped : ∀ r ∈ s.reaps, r.parent = some r.waiter ∧
    ∃ q, s.exits[r.exit]? = some ⟨q, r.pid, r.status⟩

structure Waiting (s : WaitSys) : Prop where
  lock : ∀ p, (s.ctl p).locked = true ↔ s.waitLock = some p
  runs : ∀ p, (s.ctl p).locked = true → (s.slot p).state = .running
  chan : ∀ p, s.Asleep p → (s.slot p).chan = some (.proc p)
  noZombie : ∀ p, s.Asleep p →
    (∀ q, (s.slot q).parent = some p → (s.slot q).kind ≠ .zombie) ∨
      (p = s.initproc ∧ ∃ e, (s.ctl e).WakingInit p)
  woken : ∀ e r, (s.ctl e).Woke r → (s.slot e).parent = some r → ¬ s.Asleep r
  scan : ∀ p q, (s.ctl p).Scanned q → (s.slot q).parent = some p → (s.slot q).kind ≠ .zombie

variable {s t : WaitSys} {p q r np : ProcId} {c : Ctl} {status : Int} {ch : Option SleepChan}
  {x : ProcSlot} {toUser havekids : Bool} {i j : Nat}

structure Soft (s t : WaitSys) (p : ProcId) : Prop where
  keeps : ∀ q, (s.slot q).Keeps (t.slot q)
  ctl : ∀ q, q ≠ p → t.ctl q = s.ctl q
  initproc : t.initproc = s.initproc
  exits : t.exits = s.exits
  exitOf : t.exitOf = s.exitOf
  reaps : t.reaps = s.reaps

theorem Family.soft (h : s.Family) (hs : Soft s t p)
    (hchild : ∀ np, (t.ctl p).child = some np →
      (s.slot np).kind = .used ∧ ∀ e, e ≠ p → (s.ctl e).child ≠ some np)
    (hset : ∀ np, t.ctl p = .forkRunnable np → (s.slot np).parent = some p)
    (hexit : (t.ctl p).exiting = true → p ≠ s.initproc)
    (hpass : ∀ q, (t.ctl p).Passed q → (s.slot q).parent ≠ some p) : t.Family := by
  have hkind : ∀ q, (t.slot q).kind = (s.slot q).kind := fun q => (hs.keeps q).kind
  have hpar : ∀ q, (t.slot q).parent = (s.slot q).parent := fun q => (hs.keeps q).parent
  refine ⟨?_, ?_, ?_, ?_, ?_, ?_, ?_, ?_, ?_, ?_⟩
  · rw [hs.initproc, hkind]
    exact h.init
  · intro q hq hk
    rw [hs.initproc] at hq
    rw [hkind] at hk
    obtain ⟨r, hr, hlive⟩ := h.parent q hq hk
    exact ⟨r, by rw [hpar, hr], by rw [hkind, hlive]⟩
  · intro q np hq
    rw [hkind]
    by_cases hqp : q = p
    · subst q
      exact (hchild np hq).1
    · exact h.child q np (hs.ctl q hqp ▸ hq)
  · intro q q' np hq hq'
    by_cases hqp : q = p <;> by_cases hqp' : q' = p
    · rw [hqp, hqp']
    · subst q
      exact absurd (hs.ctl q' hqp' ▸ hq') ((hchild np hq).2 q' hqp')
    · subst q'
      exact absurd (hs.ctl q hqp ▸ hq) ((hchild np hq').2 q hqp)
    · exact h.forkOne q q' np (hs.ctl q hqp ▸ hq) (hs.ctl q' hqp' ▸ hq')
  · intro q np hq
    rw [hpar]
    by_cases hqp : q = p
    · subst q
      exact hset np hq
    · exact h.forkSet q np (hs.ctl q hqp ▸ hq)
  · intro q hq
    rw [hs.initproc]
    by_cases hqp : q = p
    · subst q
      exact hexit hq
    · exact h.exiting q (hs.ctl q hqp ▸ hq)
  · intro q r hq
    rw [hpar]
    by_cases hqp : q = p
    · subst q
      exact hpass r hq
    · exact h.passed q r (hs.ctl q hqp ▸ hq)
  · intro q hq
    rw [hkind] at hq
    rw [hs.exits, hs.exitOf, hs.reaps, (hs.keeps q).pid, (hs.keeps q).xstate]
    exact h.zombie q hq
  · rw [hs.reaps]
    exact h.once
  · rw [hs.reaps, hs.exits]
    exact h.reaped

theorem Waiting.soft (h : s.Waiting) (hs : Soft s t p)
    (hlock : (t.ctl p).locked = true ↔ t.waitLock = some p)
    (hother : ∀ q, q ≠ p → (t.waitLock = some q ↔ s.waitLock = some q))
    (hruns : ∀ q, (t.ctl q).locked = true → (t.slot q).state = .running)
    (hsleep : ∀ r, t.Asleep r → (s.Asleep r ∧ (t.slot r).chan = (s.slot r).chan) ∨
      (s.waitLock = some p ∧ (t.slot r).chan = some (.proc r) ∧
        ∀ q, (s.slot q).parent = some r → (s.slot q).kind ≠ .zombie))
    (hinit : (s.ctl p).WakingInit s.initproc → t.Asleep s.initproc →
      (t.ctl p).WakingInit s.initproc)
    (hwoke : ∀ r, (t.ctl p).Woke r → (s.slot p).parent = some r → ¬ t.Asleep r)
    (hscan : ∀ q, (t.ctl p).Scanned q → (s.slot q).parent = some p → (s.slot q).kind ≠ .zombie) :
    t.Waiting := by
  have hkind : ∀ q, (t.slot q).kind = (s.slot q).kind := fun q => (hs.keeps q).kind
  have hpar : ∀ q, (t.slot q).parent = (s.slot q).parent := fun q => (hs.keeps q).parent
  refine ⟨?_, hruns, ?_, ?_, ?_, ?_⟩
  · intro q
    by_cases hq : q = p
    · subst q
      exact hlock
    · rw [hs.ctl q hq, h.lock q, hother q hq]
  · intro r hr
    obtain ⟨hold, hc⟩ | ⟨-, hc, -⟩ := hsleep r hr
    · rw [hc]
      exact h.chan r hold
    · exact hc
  · intro r hr
    simp only [hkind, hpar, hs.initproc]
    obtain ⟨hold, -⟩ | ⟨-, -, hz⟩ := hsleep r hr
    · obtain hz | ⟨hi, e, he⟩ := h.noZombie r hold
      · exact .inl hz
      · refine .inr ⟨hi, e, ?_⟩
        by_cases hep : e = p
        · subst e hi
          exact hinit he hr
        · rwa [hs.ctl e hep]
    · exact .inl hz
  · intro e r he hr
    rw [hpar] at hr
    by_cases hep : e = p
    · subst e
      exact hwoke r he hr
    · intro hasleep
      rw [hs.ctl e hep] at he
      obtain ⟨hold, -⟩ | ⟨hp, -⟩ := hsleep r hasleep
      · exact h.woken e r he hr hold
      · rw [(h.lock e).mp (Ctl.exiting_locked he.exiting)] at hp
        exact hep (Option.some.inj hp)
  · intro q r hq hr
    rw [hpar] at hr
    rw [hkind]
    by_cases hqp : q = p
    · subst q
      exact hscan r hq hr
    · exact h.scan q r (hs.ctl q hqp ▸ hq) hr

structure Inv (s : WaitSys) : Prop where
  family : s.Family
  waiting : s.Waiting

@[simp] theorem goto_ctl_self (c : Ctl) : (s.goto p c).ctl p = c := update_self ..

theorem goto_ctl_of_ne (c : Ctl) (h : q ≠ p) : (s.goto p c).ctl q = s.ctl q :=
  update_of_ne h ..

theorem Waiting.eq_of_locked (h : s.Waiting) (hp : (s.ctl p).locked = true)
    (hq : (s.ctl q).locked = true) : q = p := by
  have hl := (h.lock p).mp hp
  rw [(h.lock q).mp hq] at hl
  exact Option.some.inj hl

theorem Inv.setSlot (h : s.Inv) (hk : (s.slot p).Keeps x)
    (hsleep : (∃ u, s.ctl p = .waitAsleep u) → x.state = .sleeping →
      (s.slot p).state = .sleeping ∧ x.chan = (s.slot p).chan)
    (hrun : (s.ctl p).locked = true → x.state = .running) : (s.setSlot p x).Inv := by
  have hs : Soft s (s.setSlot p x) p := by
    refine ⟨?_, fun _ _ => rfl, rfl, rfl, rfl, rfl⟩
    intro q
    by_cases hq : q = p
    · subst q
      simpa [WaitSys.setSlot] using hk
    · simpa [WaitSys.setSlot, hq] using ProcSlot.Keeps.refl _
  have hasleep : ∀ r, (s.setSlot p x).Asleep r →
      s.Asleep r ∧ ((s.setSlot p x).slot r).chan = (s.slot r).chan := by
    rintro r ⟨hc, hst⟩
    by_cases hr : r = p
    · subst r
      simp only [WaitSys.setSlot, update_self] at hst ⊢
      exact ⟨⟨hc, (hsleep hc hst).1⟩, (hsleep hc hst).2⟩
    · simp only [WaitSys.setSlot, update_of_ne hr] at hst ⊢
      exact ⟨⟨hc, hst⟩, trivial⟩
  constructor
  · refine h.family.soft hs ?_ (h.family.forkSet p) (h.family.exiting p) (h.family.passed p)
    intro np hnp
    exact ⟨h.family.child p np hnp, fun e he hc => he (h.family.forkOne e p np hc hnp)⟩
  · refine h.waiting.soft hs (h.waiting.lock p) (fun _ _ => Iff.rfl) ?_
      (fun r hr => .inl (hasleep r hr)) (fun hw _ => hw) ?_ (h.waiting.scan p)
    · intro q hq
      by_cases hqp : q = p
      · subst q
        simpa [WaitSys.setSlot] using hrun hq
      · simpa [WaitSys.setSlot, hqp] using h.waiting.runs q hq
    · exact fun r hw hr ha => h.waiting.woken p r hw hr (hasleep r ha).1

structure Next (s : WaitSys) (p : ProcId) (c : Ctl) : Prop where
  child : ∀ np, c.child = some np →
    (s.slot np).kind = .used ∧ ∀ e, e ≠ p → (s.ctl e).child ≠ some np
  forkSet : ∀ np, c = .forkRunnable np → (s.slot np).parent = some p
  exiting : c.exiting = true → p ≠ s.initproc
  passed : ∀ q, c.Passed q → (s.slot q).parent ≠ some p
  waking : (s.ctl p).WakingInit s.initproc → s.Asleep s.initproc → c.WakingInit s.initproc
  woke : ∀ r, c.Woke r → (s.slot p).parent = some r → ¬ s.Asleep r
  scanned : ∀ q, c.Scanned q → (s.slot q).parent = some p → (s.slot q).kind ≠ .zombie

theorem Inv.move {l : Option ProcId} (h : s.Inv) (hrun : (s.slot p).state = .running) (hn : s.Next p c)
    (hlock : c.locked = true ↔ l = some p) (hother : ∀ q, q ≠ p → (l = some q ↔ s.waitLock = some q)) :
    ({ s.goto p c with waitLock := l } : WaitSys).Inv := by
  have hctl : (s.goto p c).ctl p = c := goto_ctl_self c
  have hs : Soft s { s.goto p c with waitLock := l } p :=
    ⟨fun q => .refl _, fun q hq => goto_ctl_of_ne c hq, rfl, rfl, rfl, rfl⟩
  have hasleep : ∀ r, ({ s.goto p c with waitLock := l } : WaitSys).Asleep r → s.Asleep r := by
    rintro r ⟨⟨u, hu⟩, hst⟩
    have hr : r ≠ p := by
      rintro rfl
      rw [show (s.slot r).state = .sleeping from hst] at hrun
      cases hrun
    exact ⟨⟨u, (goto_ctl_of_ne c hr).symm.trans hu⟩, hst⟩
  constructor
  · apply h.family.soft hs
    · exact fun np hnp => hn.child np (hctl ▸ hnp)
    · exact fun np hnp => hn.forkSet np (hctl ▸ hnp)
    · exact fun he => hn.exiting (hctl ▸ he)
    · exact fun q hq => hn.passed q (hctl ▸ hq)
  · apply h.waiting.soft hs
    · show ((s.goto p c).ctl p).locked = true ↔ l = some p
      rw [hctl]
      exact hlock
    · exact hother
    · intro q hq
      by_cases hqp : q = p
      · rw [hqp]
        exact hrun
      · exact h.waiting.runs q ((goto_ctl_of_ne c hqp) ▸ hq)
    · exact fun r hr => .inl ⟨hasleep r hr, rfl⟩
    · intro hw hr
      show ((s.goto p c).ctl p).WakingInit s.initproc
      rw [hctl]
      exact hn.waking hw (hasleep _ hr)
    · exact fun r hw hr ha => hn.woke r (hctl ▸ hw) hr (hasleep r ha)
    · exact fun q hq => hn.scanned q (hctl ▸ hq)

theorem Inv.goto (h : s.Inv) (hrun : (s.slot p).state = .running) (hn : s.Next p c)
    (hlock : c.locked = (s.ctl p).locked) : (s.goto p c).Inv := by
  have hl := h.waiting.lock p
  rw [← hlock] at hl
  exact h.move hrun hn hl fun _ _ => Iff.rfl

theorem Inv.acquire (h : s.Inv) (hrun : (s.slot p).state = .running) (hn : s.Next p c)
    (hlock : c.locked = true) : (s.acquire p c).Inv := by
  unfold WaitSys.acquire
  split_ifs with hfree
  · refine h.move hrun hn (iff_of_true hlock rfl) ?_
    intro q hq
    simp [hfree, Ne.symm hq]
  · exact h

theorem Inv.release (h : s.Inv) (hp : (s.ctl p).locked = true) (hn : s.Next p c)
    (hlock : c.locked = false) : (s.release p c).Inv := by
  refine h.move (h.waiting.runs p hp) hn (by simp [hlock]) ?_
  intro q hq
  rw [(h.waiting.lock p).mp hp]
  simp [Ne.symm hq]

theorem Next.of_plain (hchild : c.child = none) (hexit : c.exiting = false) (hscan : ∀ q, ¬ c.Scanned q)
    (hwake : ∀ r, ¬ (s.ctl p).WakingInit r) : s.Next p c := by
  refine ⟨by simp [hchild], ?_, by simp [hexit], ?_, fun hr => absurd hr (hwake _), ?_,
    fun q hq => absurd hq (hscan q)⟩
  · rintro np rfl
    cases hchild
  · intro q hq
    simp [hq.exiting] at hexit
  · intro r hr
    simp [hr.exiting] at hexit

theorem setSlot_self (q : ProcId) (x : ProcSlot) : (s.setSlot q x).slot q = x :=
  update_self ..

theorem setSlot_of_ne (x : ProcSlot) (h : r ≠ q) : (s.setSlot q x).slot r = s.slot r :=
  update_of_ne h ..

theorem Inv.setEmpty (h : s.Inv) (hq : (s.slot q).kind = .unused ∨ (s.slot q).kind = .used)
    (hx : x.kind = .unused ∨ x.kind = .used) (hchild : ∀ e, (s.ctl e).child = some q → x.kind = .used)
    (hset : ∀ e, s.ctl e = .forkRunnable q → x.parent = some e)
    (hpass : ∀ e, (s.ctl e).Passed q → x.parent ≠ some e) : (s.setSlot q x).Inv := by
  have hne : ∀ r, (s.slot r).kind = .live ∨ (s.slot r).kind = .zombie →
      (s.setSlot q x).slot r = s.slot r := by
    intro r hr
    apply setSlot_of_ne
    rintro rfl
    rcases hr with hr | hr <;> rcases hq with hq | hq <;> simp [hr] at hq
  have hback : ∀ r, ((s.setSlot q x).slot r).kind = .live ∨
      ((s.setSlot q x).slot r).kind = .zombie → (s.setSlot q x).slot r = s.slot r := by
    intro r hr
    by_cases hrq : r = q
    · subst r
      rw [setSlot_self] at hr
      rcases hr with hr | hr <;> rcases hx with hx | hx <;> simp [hr] at hx
    · exact setSlot_of_ne x hrq
  have hasleep : ∀ r, (s.setSlot q x).Asleep r →
      s.Asleep r ∧ (s.setSlot q x).slot r = s.slot r := by
    rintro r ⟨hu, hst⟩
    have he := hback r (.inl (by simp [ProcSlot.kind, hst]))
    exact ⟨⟨hu, by rw [← he]; exact hst⟩, he⟩
  constructor
  · refine ⟨?_, ?_, ?_, h.family.forkOne, ?_, h.family.exiting, ?_, ?_, h.family.once,
      h.family.reaped⟩
    · exact (hne _ (.inl h.family.init)).symm ▸ h.family.init
    · intro r hr hk
      have heq := hback r hk
      rw [heq] at hk ⊢
      obtain ⟨e, he, hlive⟩ := h.family.parent r hr hk
      exact ⟨e, he, by rw [hne e (.inl hlive), hlive]⟩
    · intro e np he
      by_cases hnp : np = q
      · rw [hnp, setSlot_self]
        exact hchild e (hnp ▸ he)
      · rw [setSlot_of_ne x hnp]
        exact h.family.child e np he
    · intro e np he
      by_cases hnp : np = q
      · rw [hnp, setSlot_self]
        exact hset e (hnp ▸ he)
      · rw [setSlot_of_ne x hnp]
        exact h.family.forkSet e np he
    · intro e r he
      by_cases hrq : r = q
      · rw [hrq, setSlot_self]
        exact hpass e (hrq ▸ he)
      · rw [setSlot_of_ne x hrq]
        exact h.family.passed e r he
    · intro r hr
      have heq := hback r (.inr hr)
      rw [heq] at hr ⊢
      exact h.family.zombie r hr
  · refine ⟨h.waiting.lock, ?_, ?_, ?_, ?_, ?_⟩
    · intro e he
      have hrun := h.waiting.runs e he
      rw [hne e (.inl (ProcSlot.kind_of_running hrun))]
      exact hrun
    · intro r hr
      rw [(hasleep r hr).2]
      exact h.waiting.chan r (hasleep r hr).1
    · intro r hr
      obtain hz | hi := h.waiting.noZombie r (hasleep r hr).1
      · left
        intro q' hq' hk
        rw [hback q' (.inr hk)] at hq' hk
        exact hz q' hq' hk
      · exact .inr hi
    · intro e r he hr ha
      have hrun := h.waiting.runs e (Ctl.exiting_locked he.exiting)
      rw [hne e (.inl (ProcSlot.kind_of_running hrun))] at hr
      exact h.waiting.woken e r he hr (hasleep r ha).1
    · intro e r he hr hk
      rw [hback r (.inr hk)] at hr hk
      exact h.waiting.scan e r he hr hk

theorem Inv.forkRunnable (h : s.Inv) (hrun : (s.slot p).state = .running)
    (hc : s.ctl p = .forkRunnable np) : (s.forkRunnable p np).Inv := by
  have hused := h.family.child p np (by rw [hc]; rfl)
  have hlive : (s.slot p).kind = .live := ProcSlot.kind_of_running hrun
  have hnp : np ≠ p := by
    rintro rfl
    simp [hlive] at hused
  have hself : (s.forkRunnable p np).slot np = { s.slot np with state := .runnable } :=
    setSlot_self ..
  have hother : ∀ q, q ≠ np → (s.forkRunnable p np).slot q = s.slot q :=
    fun q hq => setSlot_of_ne _ hq
  have hpar : ∀ q, ((s.forkRunnable p np).slot q).parent = (s.slot q).parent := by
    intro q
    by_cases hq : q = np
    · rw [hq, hself]
    · rw [hother q hq]
  have hzombie : ∀ q, ((s.forkRunnable p np).slot q).kind = .zombie →
      q ≠ np ∧ (s.slot q).kind = .zombie := by
    intro q hq
    by_cases hqn : q = np
    · rw [hqn, hself] at hq
      simp [ProcSlot.kind] at hq
    · rw [hother q hqn] at hq
      exact ⟨hqn, hq⟩
  have hkind : ∀ q, (s.slot q).kind = .live → ((s.forkRunnable p np).slot q).kind = .live := by
    intro q hq
    rw [hother q, hq]
    rintro rfl
    simp [hq] at hused
  -- the two processes are in user space, the others where they were
  have hctl : ∀ q, (∃ ret, (s.forkRunnable p np).ctl q = .user ret) ∨
      (q ≠ p ∧ (s.forkRunnable p np).ctl q = s.ctl q) := by
    intro q
    by_cases hqp : q = p
    · subst q
      exact .inl ⟨_, goto_ctl_self _⟩
    · by_cases hqn : q = np
      · subst q
        exact .inl ⟨0, (goto_ctl_of_ne _ hnp).trans (goto_ctl_self _)⟩
      · exact .inr ⟨hqp, (goto_ctl_of_ne _ hqp).trans (goto_ctl_of_ne _ hqn)⟩
  have hold : ∀ (P : Ctl → Prop) q, (∀ ret, ¬ P (.user ret)) → P ((s.forkRunnable p np).ctl q) →
      q ≠ p ∧ P (s.ctl q) := by
    intro P q hP hq
    obtain ⟨ret, hu⟩ | ⟨hqp, he⟩ := hctl q
    · exact absurd (hu ▸ hq) (hP ret)
    · exact ⟨hqp, he ▸ hq⟩
  have hasleep : ∀ r, (s.forkRunnable p np).Asleep r → r ≠ np ∧ s.Asleep r := by
    rintro r ⟨hu, hst⟩
    have hrn : r ≠ np := by
      rintro rfl
      simp [hself] at hst
    obtain ⟨-, hu⟩ := hold (fun c => ∃ u, c = .waitAsleep u) r (by simp) hu
    exact ⟨hrn, hu, by rwa [hother r hrn] at hst⟩
  have hkeep : ∀ q, (s.ctl q).locked = true → (s.forkRunnable p np).ctl q = s.ctl q := by
    intro q hq
    have hqp : q ≠ p := by
      rintro rfl
      simp [hc, Ctl.locked] at hq
    have hqn : q ≠ np := by
      rintro rfl
      simp [ProcSlot.kind_of_running (h.waiting.runs q hq)] at hused
    exact (goto_ctl_of_ne _ hqp).trans (goto_ctl_of_ne _ hqn)
  have hlocked : ∀ q, ((s.forkRunnable p np).ctl q).locked = true ↔ (s.ctl q).locked = true :=
    fun q => ⟨fun hq => (hold (fun c => c.locked = true) q (by simp [Ctl.locked]) hq).2,
      fun hq => by rwa [hkeep q hq]⟩
  constructor
  · refine ⟨hkind _ h.family.init, ?_, ?_, ?_, ?_, ?_, ?_, ?_, h.family.once, h.family.reaped⟩
    · intro q hq hk
      rw [hpar]
      by_cases hqn : q = np
      · exact ⟨p, by rw [hqn, h.family.forkSet p np hc], hkind p hlive⟩
      · rw [hother q hqn] at hk
        obtain ⟨r, hr, hl⟩ := h.family.parent q hq hk
        exact ⟨r, hr, hkind r hl⟩
    · intro q c hq
      obtain ⟨hqp, hchild⟩ := hold (fun x => x.child = some c) q (by simp [Ctl.child]) hq
      rw [hother c]
      · exact h.family.child q c hchild
      · intro hcn
        exact hqp (h.family.forkOne q p c hchild (by rw [hc, hcn]; rfl))
    · intro q q' c hq hq'
      exact h.family.forkOne q q' c (hold (fun x => x.child = some c) q (by simp [Ctl.child]) hq).2
        (hold (fun x => x.child = some c) q' (by simp [Ctl.child]) hq').2
    · intro q c hq
      rw [hpar]
      exact h.family.forkSet q c (hold (fun x => x = .forkRunnable c) q (by simp) hq).2
    · intro q hq
      exact h.family.exiting q (hold (fun x => x.exiting = true) q (by simp [Ctl.exiting]) hq).2
    · intro q r hq
      rw [hpar]
      exact h.family.passed q r (hold (fun x => x.Passed r) q (fun _ => id) hq).2
    · intro q hq
      obtain ⟨hqn, hz⟩ := hzombie q hq
      rw [hother q hqn]
      exact h.family.zombie q hz
  · refine ⟨fun q => (hlocked q).trans (h.waiting.lock q), ?_, ?_, ?_, ?_, ?_⟩
    · intro q hq
      have hr := h.waiting.runs q ((hlocked q).mp hq)
      rw [hother q, hr]
      rintro rfl
      simp [ProcSlot.kind_of_running hr] at hused
    · intro r hr
      rw [hother r (hasleep r hr).1]
      exact h.waiting.chan r (hasleep r hr).2
    · intro r hr
      obtain hz | ⟨hi, e, he⟩ := h.waiting.noZombie r (hasleep r hr).2
      · left
        intro q hq hk
        rw [hpar] at hq
        exact hz q hq (hzombie q hk).2
      · exact .inr ⟨hi, e, by rwa [hkeep e he.locked]⟩
    · intro e r he hr ha
      rw [hpar] at hr
      exact h.waiting.woken e r (hold (fun x => x.Woke r) e (fun _ => id) he).2 hr (hasleep r ha).2
    · intro e r he hr hk
      rw [hpar] at hr
      exact h.waiting.scan e r (hold (fun x => x.Scanned r) e (fun _ => id) he).2 hr (hzombie r hk).2

theorem Inv.alone (h : s.Inv) (hp : (s.ctl p).locked = true) (hq : q ≠ p) :
    (s.ctl q).locked = false := by
  rw [Bool.eq_false_iff]
  exact fun hl => hq (h.waiting.eq_of_locked hp hl)

theorem Inv.of_holder (h : s.Inv) (hp : (s.ctl p).locked = true) (hctl : ∀ e, e ≠ p → t.ctl e = s.ctl e)
    (hc : t.ctl p = c) (hchild : c.child = none)
    (hlock : t.waitLock = if c.locked then some p else none)
    (hruns : c.locked = true → (t.slot p).state = .running)
    (hinit : t.initproc = s.initproc ∧ (t.slot s.initproc).kind = .live)
    (hexit : c.exiting = true → p ≠ s.initproc) (hpassed : ∀ q, c.Passed q → (t.slot q).parent ≠ some p)
    (hwoken : ∀ r, c.Woke r → (t.slot p).parent = some r → ¬ t.Asleep r)
    (hscan : ∀ q, c.Scanned q → (t.slot q).parent = some p → (t.slot q).kind ≠ .zombie)
    (hparent : ∀ q, q ≠ s.initproc → (t.slot q).kind = .live ∨ (t.slot q).kind = .zombie →
      ∃ r, (t.slot q).parent = some r ∧ (t.slot r).kind = .live)
    (hfork : ∀ e np, (s.ctl e).child = some np → (t.slot np).kind = .used)
    (hset : ∀ e np, s.ctl e = .forkRunnable np → (t.slot np).parent = some e)
    (hzombie : ∀ q, (t.slot q).kind = .zombie →
      t.exits[t.exitOf q]? = some ⟨q, (t.slot q).pid, (t.slot q).xstate⟩ ∧
        ∀ r ∈ t.reaps, r.exit ≠ t.exitOf q) (honce : (t.reaps.map ReapRec.exit).Nodup)
    (hreaped : ∀ r ∈ t.reaps, r.parent = some r.waiter ∧
      ∃ q, t.exits[r.exit]? = some ⟨q, r.pid, r.status⟩)
    (hasleep : ∀ r, t.Asleep r → (t.slot r).chan = some (.proc r) ∧
      ((∀ q, (t.slot q).parent = some r → (t.slot q).kind ≠ .zombie) ∨
        r = s.initproc ∧ c.WakingInit r)) : t.Inv := by
  have hfree : ∀ e, e ≠ p → (t.ctl e).locked = false := by
    intro e he
    rw [hctl e he]
    exact h.alone hp he
  -- a duty belongs to a process that holds the lock
  have hduty : ∀ (P : Ctl → Prop) e, (∀ x, P x → x.locked = true) → P (t.ctl e) → e = p ∧ P c := by
    intro P e hP he
    have hep : e = p := by
      by_contra hne
      simpa [hfree e hne] using hP _ he
    subst e
    exact ⟨rfl, hc ▸ he⟩
  have hkid : ∀ e np, (t.ctl e).child = some np → (s.ctl e).child = some np := by
    intro e np he
    by_cases hep : e = p
    · rw [hep, hc, hchild] at he
      cases he
    · rwa [hctl e hep] at he
  constructor
  · refine ⟨?_, ?_, fun e np he => hfork e np (hkid e np he), ?_, ?_, ?_, ?_, hzombie, honce, hreaped⟩
    · rw [hinit.1]
      exact hinit.2
    · rw [hinit.1]
      exact hparent
    · exact fun e e' np he he' => h.family.forkOne e e' np (hkid e np he) (hkid e' np he')
    · intro e np he
      apply hset
      by_cases hep : e = p
      · rw [hep, hc] at he
        rw [he] at hchild
        cases hchild
      · rwa [hctl e hep] at he
    · intro e he
      obtain ⟨rfl, hx⟩ := hduty (fun x => x.exiting = true) e (fun _ => Ctl.exiting_locked) he
      rw [hinit.1]
      exact hexit hx
    · intro e q he
      obtain ⟨rfl, hx⟩ := hduty (fun x => x.Passed q) e (fun _ hx => Ctl.exiting_locked hx.exiting) he
      exact hpassed q hx
  · refine ⟨?_, ?_, fun r hr => (hasleep r hr).1, ?_, ?_, ?_⟩
    · intro e
      rw [hlock]
      by_cases hep : e = p
      · rw [hep, hc]
        cases c.locked <;> simp
      · rw [hfree e hep]
        cases c.locked <;> simp [Ne.symm hep]
    · intro e he
      obtain ⟨rfl, hx⟩ := hduty (fun x => x.locked = true) e (fun _ => id) he
      exact hruns hx
    · intro r hr
      rw [hinit.1]
      obtain hz | ⟨hi, hw⟩ := (hasleep r hr).2
      · exact .inl hz
      · exact .inr ⟨hi, p, hc ▸ hw⟩
    · intro e r he
      obtain ⟨rfl, hx⟩ := hduty (fun x => x.Woke r) e (fun _ hx => Ctl.exiting_locked hx.exiting) he
      exact hwoken r hx
    · intro e q he
      obtain ⟨rfl, hx⟩ := hduty (fun x => x.Scanned q) e (fun _ hx => hx.locked) he
      exact hscan q hx

/-- A process sleeping in `wait` has no zombie child, unless it is init and is about to be
woken up. -/
theorem Inv.noZombie (h : s.Inv) (hp : (s.ctl p).locked = true) (hr : s.Asleep r) :
    (∀ q, (s.slot q).parent = some r → (s.slot q).kind ≠ .zombie) ∨
      (r = s.initproc ∧ (s.ctl p).WakingInit r) := by
  obtain hz | ⟨hi, e, he⟩ := h.waiting.noZombie r hr
  · exact .inl hz
  · have hep : e = p := h.waiting.eq_of_locked hp he.locked
    exact .inr ⟨hi, hep ▸ he⟩

structure Replaced (s t : WaitSys) (q : ProcId) (x : ProcSlot) (p : ProcId) (c : Ctl) : Prop where
  self : t.slot q = x
  other : ∀ r, r ≠ q → t.slot r = s.slot r
  ctl : t.ctl p = c
  ctlOther : ∀ e, e ≠ p → t.ctl e = s.ctl e
  initproc : t.initproc = s.initproc

theorem Replaced.asleep (ht : Replaced s t q x p c) (hx : x.state = .sleeping → q = p)
    (hc : ∀ u, c ≠ .waitAsleep u) (hr : t.Asleep r) : s.Asleep r ∧ r ≠ q ∧ t.slot r = s.slot r := by
  obtain ⟨⟨u, hu⟩, hst⟩ := hr
  have hrp : r ≠ p := by
    rintro rfl
    exact hc u (ht.ctl ▸ hu)
  have hrq : r ≠ q := by
    rintro rfl
    exact hrp (hx (ht.self ▸ hst))
  exact ⟨⟨⟨u, ht.ctlOther r hrp ▸ hu⟩, ht.other r hrq ▸ hst⟩, hrq, ht.other r hrq⟩

theorem Inv.exitReparent (h : s.Inv) (hc : s.ctl p = .exitReparent q status)
    (hq : (s.slot q).parent = some p)
    (ht : Replaced s t q { s.slot q with parent := some s.initproc } p (.exitWakeInit q 0 status))
    (hlock : t.waitLock = s.waitLock) (hexits : t.exits = s.exits) (hexitOf : t.exitOf = s.exitOf)
    (hreaps : t.reaps = s.reaps) : t.Inv := by
  have hl : (s.ctl p).locked = true := by rw [hc]; rfl
  have hinit : p ≠ s.initproc := h.family.exiting p (by rw [hc]; rfl)
  -- nothing but the parent of `q` changes
  have hslot : ∀ r, ∃ o, t.slot r = { s.slot r with parent := o } := by
    intro r
    by_cases hr : r = q
    · subst r
      exact ⟨some s.initproc, ht.self⟩
    · exact ⟨(s.slot r).parent, ht.other r hr⟩
  have hkind : ∀ r, (t.slot r).kind = (s.slot r).kind := by
    intro r
    obtain ⟨o, ho⟩ := hslot r
    rw [ho]
    rfl
  have hself : (t.slot q).parent = some s.initproc := by rw [ht.self]
  refine h.of_holder hl ht.ctlOther ht.ctl rfl (hlock.trans ((h.waiting.lock p).mp hl)) ?_
    ⟨ht.initproc, (hkind _).trans h.family.init⟩ (fun _ => hinit) ?_ nofun nofun ?_ ?_ ?_ ?_
    (hreaps ▸ h.family.once) (by rw [hreaps, hexits]; exact h.family.reaped) ?_
  · intro _
    obtain ⟨o, ho⟩ := hslot p
    rw [ho]
    exact h.waiting.runs p hl
  · intro r hr
    by_cases hrq : r = q
    · rw [hrq, hself]
      exact fun he => hinit (Option.some.inj he).symm
    · rw [ht.other r hrq]
      apply h.family.passed p r
      rw [hc]
      exact lt_of_le_of_ne hr fun he => hrq (Fin.ext he)
  · intro r hr hk
    by_cases hrq : r = q
    · exact ⟨s.initproc, by rw [hrq, hself], (hkind _).trans h.family.init⟩
    · rw [ht.other r hrq] at hk ⊢
      obtain ⟨e, he, hlive⟩ := h.family.parent r hr hk
      exact ⟨e, he, (hkind e).trans hlive⟩
  · intro e np he
    exact (hkind np).trans (h.family.child e np he)
  · intro e np he
    have hpar := h.family.forkSet e np he
    rw [ht.other np, hpar]
    rintro rfl
    rw [hpar, Option.some.injEq] at hq
    rw [hq, hc] at he
    cases he
  · intro r hr
    rw [hkind] at hr
    obtain ⟨o, ho⟩ := hslot r
    rw [ho, hexits, hexitOf, hreaps]
    exact h.family.zombie r hr
  · intro r hr
    have hsr : s.Asleep r := by
      obtain ⟨⟨u, hu⟩, hst⟩ := hr
      have hrp : r ≠ p := by
        rintro rfl
        rw [ht.ctl] at hu
        cases hu
      obtain ⟨o, ho⟩ := hslot r
      exact ⟨⟨u, ht.ctlOther r hrp ▸ hu⟩, by rwa [ho] at hst⟩
    obtain ⟨o, ho⟩ := hslot r
    refine ⟨by rw [ho]; exact h.waiting.chan r hsr, ?_⟩
    by_cases hri : r = s.initproc
    · exact .inr ⟨hri, Nat.zero_le _⟩
    · left
      intro e he
      rw [hkind]
      obtain hz | ⟨-, hw⟩ := h.noZombie hl hsr
      · apply hz
        rwa [ht.other e] at he
        rintro rfl
        rw [hself, Option.some.injEq] at he
        exact hri he.symm
      · rw [hc] at hw
        exact hw.elim

theorem Inv.exitZombie (h : s.Inv) (hc : s.ctl p = .exitZombie status)
    (ht : Replaced s t p { s.slot p with xstate := status, state := .zombie } p .gone)
    (hlock : t.waitLock = none) (hexits : t.exits = s.exits ++ [⟨p, (s.slot p).pid, status⟩])
    (hexitOf : t.exitOf = update s.exitOf p s.exits.length) (hreaps : t.reaps = s.reaps) : t.Inv := by
  have hl : (s.ctl p).locked = true := by rw [hc]; rfl
  have hrun := ProcSlot.kind_of_running (h.waiting.runs p hl)
  have hinit : p ≠ s.initproc := h.family.exiting p (by rw [hc]; rfl)
  have hnokid : ∀ q, (s.slot q).parent ≠ some p := fun q => h.family.passed p q (by rw [hc]; trivial)
  have hlive : ∀ r, r ≠ p → (s.slot r).kind = .live → (t.slot r).kind = .live := by
    intro r hr hk
    rw [ht.other r hr, hk]
  -- a record that has been made stays
  have hkeep : ∀ {n : Nat} {x : ExitRec}, s.exits[n]? = some x → t.exits[n]? = some x := by
    intro n x hn
    rw [hexits, List.getElem?_append_left (List.getElem?_eq_some_iff.mp hn).1, hn]
  refine h.of_holder hl ht.ctlOther ht.ctl rfl hlock nofun
    ⟨ht.initproc, hlive _ hinit.symm h.family.init⟩ nofun (fun _ => False.elim) nofun nofun ?_ ?_ ?_
    ?_ (hreaps ▸ h.family.once) ?_ ?_
  · intro q hq hk
    have hpar : (t.slot q).parent = (s.slot q).parent := by
      by_cases hqp : q = p
      · rw [hqp, ht.self]
      · rw [ht.other q hqp]
    have hks : (s.slot q).kind = .live ∨ (s.slot q).kind = .zombie := by
      by_cases hqp : q = p
      · exact .inl (hqp ▸ hrun)
      · rwa [ht.other q hqp] at hk
    obtain ⟨r, hr, hl⟩ := h.family.parent q hq hks
    refine ⟨r, hpar.trans hr, hlive r ?_ hl⟩
    rintro rfl
    exact hnokid q hr
  · intro e np he
    have hused := h.family.child e np he
    rw [ht.other np, hused]
    rintro rfl
    simp [hrun] at hused
  · intro e np he
    have hused := h.family.child e np (by rw [he]; rfl)
    rw [ht.other np]
    · exact h.family.forkSet e np he
    · rintro rfl
      simp [hrun] at hused
  · intro q hq
    by_cases hqp : q = p
    · subst q
      rw [hexits, hexitOf, hreaps, ht.self, update_self]
      refine ⟨by simp, ?_⟩
      intro r hr he
      obtain ⟨-, q, hx⟩ := h.family.reaped r hr
      have hlt := (List.getElem?_eq_some_iff.mp hx).1
      omega
    · rw [ht.other q hqp] at hq ⊢
      obtain ⟨hx, hn⟩ := h.family.zombie q hq
      rw [hexitOf, update_of_ne hqp, hreaps]
      exact ⟨hkeep hx, hn⟩
  · rw [hreaps]
    intro r hr
    obtain ⟨hpar, q, hx⟩ := h.family.reaped r hr
    exact ⟨hpar, q, hkeep hx⟩
  · intro r hr
    obtain ⟨hsr, hrp, hslot⟩ := ht.asleep nofun nofun hr
    refine ⟨hslot ▸ h.waiting.chan r hsr, .inl ?_⟩
    intro q hq hk
    by_cases hqp : q = p
    · rw [hqp, ht.self] at hq
      exact h.waiting.woken p r (by rw [hc]; trivial) hq hsr
    · rw [ht.other q hqp] at hq hk
      obtain hz | ⟨-, hw⟩ := h.noZombie hl hsr
      · exact hz q hq hk
      · rw [hc] at hw
        exact hw

theorem Inv.reap {ret : Int} (h : s.Inv) (hc : s.ctl p = .waitScan toUser i havekids)
    (hq : (s.slot q).parent = some p) (hz : (s.slot q).kind = .zombie)
    (ht : Replaced s t q .free p (.user ret)) (hlock : t.waitLock = none) (hexits : t.exits = s.exits)
    (hexitOf : t.exitOf = s.exitOf) (hreaps : t.reaps = s.reaps ++
      [⟨p, s.exitOf q, (s.slot q).pid, (s.slot q).xstate, (s.slot q).parent⟩]) : t.Inv := by
  have hl : (s.ctl p).locked = true := by rw [hc]; rfl
  obtain ⟨hx, hnew⟩ := h.family.zombie q hz
  have hfree : (t.slot q).kind = .unused := by rw [ht.self]; rfl
  have hlive : ∀ r, (s.slot r).kind = .live → (t.slot r).kind = .live := by
    intro r hk
    rw [ht.other r, hk]
    rintro rfl
    simp [hz] at hk
  have hback : ∀ r, (t.slot r).kind ≠ .unused → r ≠ q ∧ t.slot r = s.slot r := by
    intro r hr
    have hrq : r ≠ q := by
      rintro rfl
      exact hr hfree
    exact ⟨hrq, ht.other r hrq⟩
  refine h.of_holder hl ht.ctlOther ht.ctl rfl hlock nofun ⟨ht.initproc, hlive _ h.family.init⟩
    nofun (fun _ => False.elim) nofun nofun ?_ ?_ ?_ ?_ ?_ ?_ ?_
  · intro r hr hk
    obtain ⟨-, he⟩ := hback r (by rcases hk with hk | hk <;> simp [hk])
    rw [he] at hk ⊢
    obtain ⟨e, he, hl⟩ := h.family.parent r hr hk
    exact ⟨e, he, hlive e hl⟩
  · intro e np he
    have hused := h.family.child e np he
    rw [ht.other np, hused]
    rintro rfl
    simp [hz] at hused
  · intro e np he
    have hused := h.family.child e np (by rw [he]; rfl)
    rw [ht.other np]
    · exact h.family.forkSet e np he
    · rintro rfl
      simp [hz] at hused
  · intro r hr
    obtain ⟨hrq, he⟩ := hback r (by simp [hr])
    rw [he] at hr ⊢
    obtain ⟨hxr, hn⟩ := h.family.zombie r hr
    rw [hexits, hexitOf, hreaps]
    refine ⟨hxr, ?_⟩
    intro x hmem hxe
    rcases List.mem_append.mp hmem with hmem | hmem
    · exact hn x hmem hxe
    · -- two zombies come from two exits
      obtain rfl := List.mem_singleton.mp hmem
      rw [show s.exitOf q = s.exitOf r from hxe, hxr] at hx
      exact hrq (ExitRec.mk.inj (Option.some.inj hx)).1
  · rw [hreaps, List.map_append, List.nodup_append]
    refine ⟨h.family.once, List.nodup_singleton _, ?_⟩
    intro n hn m hm he
    obtain ⟨x, hxmem, hxe⟩ := List.mem_map.mp hn
    obtain rfl : m = s.exitOf q := List.mem_singleton.mp hm
    exact hnew x hxmem (hxe.trans he)
  · rw [hreaps, hexits]
    intro x hmem
    rcases List.mem_append.mp hmem with hmem | hmem
    · exact h.family.reaped x hmem
    · obtain rfl := List.mem_singleton.mp hmem
      exact ⟨hq, q, hx⟩
  · intro r hr
    obtain ⟨hsr, hrq, hslot⟩ := ht.asleep nofun nofun hr
    refine ⟨hslot ▸ h.waiting.chan r hsr, .inl ?_⟩
    intro e he hk
    obtain ⟨-, hse⟩ := hback e (by simp [hk])
    rw [hse] at he hk
    obtain hno | ⟨-, hw⟩ := h.noZombie hl hsr
    · exact hno e he hk
    · rw [hc] at hw
      exact hw

theorem Inv.waitSleep (h : s.Inv) (hc : s.ctl p = .waitSleep toUser) : (s.waitSleep p toUser).Inv := by
  have hl : (s.ctl p).locked = true := by rw [hc]; rfl
  have hrun := h.waiting.runs p hl
  have hself : (s.waitSleep p toUser).ctl p = .waitAsleep toUser := goto_ctl_self _
  have hslotp : (s.waitSleep p toUser).slot p =
      { s.slot p with state := .sleeping, chan := some (.proc p) } := setSlot_self ..
  have hslot : ∀ q, q ≠ p → (s.waitSleep p toUser).slot q = s.slot q := fun q hq => setSlot_of_ne _ hq
  have hctl : ∀ q, q ≠ p → (s.waitSleep p toUser).ctl q = s.ctl q := fun q hq => goto_ctl_of_ne _ hq
  have hs : Soft s (s.waitSleep p toUser) p := by
    refine ⟨?_, hctl, rfl, rfl, rfl, rfl⟩
    intro q
    by_cases hq : q = p
    · rw [hq, hslotp]
      exact ⟨by simp [ProcSlot.kind, hrun], rfl, rfl, rfl⟩
    · rw [hslot q hq]
      exact .refl _
  constructor
  · apply h.family.soft hs <;> rw [hself] <;> exact nofun
  · apply h.waiting.soft hs
    · rw [hself]
      exact iff_of_false nofun nofun
    · intro q hq
      rw [(h.waiting.lock p).mp hl]
      exact iff_of_false nofun fun he => hq (Option.some.inj he).symm
    · intro q hq
      have hqp : q ≠ p := by
        rintro rfl
        rw [hself] at hq
        cases hq
      rw [hctl q hqp, h.alone hl hqp] at hq
      cases hq
    · intro r hr
      by_cases hrp : r = p
      · subst r
        refine .inr ⟨(h.waiting.lock p).mp hl, by rw [hslotp], ?_⟩
        exact fun q => h.waiting.scan p q (by rw [hc]; trivial)
      · obtain ⟨⟨u, hu⟩, hst⟩ := hr
        rw [hslot r hrp] at hst ⊢
        exact .inl ⟨⟨⟨u, hctl r hrp ▸ hu⟩, hst⟩, rfl⟩
    · intro hw
      rw [hc] at hw
      exact hw.elim
    · intro r hw
      rw [hself] at hw
      exact hw.elim
    · intro q hw
      rw [hself] at hw
      exact hw.elim

theorem Inv.nextpid (h : s.Inv) (n : Int) : ({ s with nextpid := n } : WaitSys).Inv :=
  ⟨⟨h.family.init, h.family.parent, h.family.child, h.family.forkOne, h.family.forkSet,
    h.family.exiting, h.family.passed, h.family.zombie, h.family.once, h.family.reaped⟩,
    ⟨h.waiting.lock, h.waiting.runs, h.waiting.chan, h.waiting.noZombie, h.waiting.woken,
      h.waiting.scan⟩⟩

theorem Inv.forkScan (h : s.Inv) (hrun : (s.slot p).state = .running) (hc : s.ctl p = .forkScan i)
    (mem : Bool) : (s.forkScan p i mem).Inv := by
  have hwake : ∀ r, ¬ (s.ctl p).WakingInit r := by
    rw [hc]
    exact fun _ => id
  have hlock : (s.ctl p).locked = false := by rw [hc]; rfl
  unfold WaitSys.forkScan
  by_cases hi : i < NPROC
  swap
  · rw [dif_neg hi]
    exact h.goto hrun (.of_plain rfl rfl (fun _ => id) hwake) hlock.symm
  rw [dif_pos hi]
  generalize (⟨i, hi⟩ : ProcId) = q
  by_cases hu : (s.slot q).state = .unused
  swap
  · simp only [if_neg hu]
    exact h.goto hrun (.of_plain rfl rfl (fun _ => id) hwake) hlock.symm
  simp only [if_pos hu]
  have hkind := ProcSlot.kind_eq_unused.mpr hu
  have hnone : ∀ e, (s.ctl e).child ≠ some q := by
    intro e he
    rw [h.family.child e q he] at hkind
    cases hkind
  have hqp : p ≠ q := by
    rintro rfl
    rw [hrun] at hu
    cases hu
  have hn := h.nextpid (succPid s.nextpid)
  cases mem with
  | true =>
    -- the slot becomes USED, and `p` its maker
    have hset := hn.setEmpty (x := (s.slot q).alloc s.nextpid) (.inl hkind) (.inr rfl)
      (fun _ _ => rfl) (fun e he => absurd (by rw [show s.ctl e = _ from he]; rfl) (hnone e))
      (fun e => h.family.passed e q)
    refine hset.goto ((setSlot_of_ne _ hqp).symm ▸ hrun) ?_ hlock.symm
    refine ⟨?_, nofun, nofun, fun _ => False.elim, fun hw => absurd hw (hwake _),
      fun _ => False.elim, fun _ => False.elim⟩
    rintro np ⟨⟩
    exact ⟨by rw [setSlot_self]; rfl, fun e _ => hnone e⟩
  | false =>
    have hset := hn.setEmpty (x := .free) (.inl hkind) (.inl rfl)
      (fun e he => absurd he (hnone e))
      (fun e he => absurd (by rw [show s.ctl e = _ from he]; rfl) (hnone e)) (fun _ _ => nofun)
    exact hset.goto ((setSlot_of_ne _ hqp).symm ▸ hrun) (.of_plain rfl rfl (fun _ => id) hwake)
      hlock.symm

theorem Inv.forkParent (h : s.Inv) (hrun : (s.slot p).state = .running)
    (hc : s.ctl p = .forkParent np) : (s.forkParent p np).Inv := by
  unfold WaitSys.forkParent
  split_ifs
  swap
  · exact h
  have hchild : (s.ctl p).child = some np := by rw [hc]; rfl
  have hused := h.family.child p np hchild
  have hnp : p ≠ np := by
    rintro rfl
    rw [ProcSlot.kind_of_running hrun] at hused
    cases hused
  have hset : (s.setSlot np { s.slot np with parent := some p }).Inv := by
    refine h.setEmpty (.inr hused) (.inr hused) (fun _ _ => hused) ?_ ?_
    · intro e he
      have hep := h.family.forkOne e p np (by rw [he]; rfl) hchild
      rw [hep, hc] at he
      cases he
    · intro e he heq
      rw [← Option.some.inj heq, hc] at he
      exact he
  refine hset.goto ((setSlot_of_ne _ hnp).symm ▸ hrun) ?_ (by
    show false = (s.ctl p).locked
    rw [hc]
    rfl)
  refine ⟨?_, ?_, nofun, fun _ => False.elim, ?_, fun _ => False.elim, fun _ => False.elim⟩
  · rintro c ⟨⟩
    exact ⟨by rw [setSlot_self]; exact hused,
      fun e he hec => he (h.family.forkOne e p np hec hchild)⟩
  · rintro c ⟨⟩
    rw [setSlot_self]
  · intro hw
    rw [show (s.setSlot np _).ctl p = _ from hc] at hw
    exact hw.elim

theorem Inv.wake (h : s.Inv) (q : ProcId) (ch : Option SleepChan) :
    (s.setSlot q ((s.slot q).wake ch)).Inv := by
  apply h.setSlot (ProcSlot.wake_keeps _ ch)
  · intro _ hst
    have he := (ProcSlot.sleeping_of_wake hst).1
    rw [he] at hst ⊢
    exact ⟨hst, rfl⟩
  · intro hl
    have hrun := h.waiting.runs q hl
    simp [ProcSlot.wake, hrun]

theorem asleep_of_wake (hr : (s.setSlot q ((s.slot q).wake ch)).Asleep r) :
    s.Asleep r ∧ (r = q → (s.slot r).chan ≠ ch) := by
  obtain ⟨hu, hst⟩ := hr
  by_cases hrq : r = q
  · subst r
    rw [setSlot_self] at hst
    obtain ⟨he, hno⟩ := ProcSlot.sleeping_of_wake hst
    rw [he] at hst
    exact ⟨⟨hu, hst⟩, fun _ hch => hno ⟨hst, hch⟩⟩
  · rw [setSlot_of_ne _ hrq] at hst
    exact ⟨⟨hu, hst⟩, fun he => absurd he hrq⟩

/-- One turn of a `wakeup` loop by the holder of the lock: the loop goes on in a state that
differs in who sleeps only. -/
theorem Inv.wakeAt {next done : Ctl} (h : s.Inv) (hp : (s.ctl p).locked = true)
    (hln : next.locked = true) (hld : done.locked = true) (hdone : NPROC ≤ j → s.Next p done)
    (hnext : ∀ (t : WaitSys), j < NPROC → t.initproc = s.initproc → t.ctl p = s.ctl p →
      (∀ q, (s.slot q).Keeps (t.slot q)) →
      (∀ r, t.Asleep r → s.Asleep r ∧ (r.val = j → r ≠ p → (s.slot r).chan ≠ ch)) →
      t.Next p next) : (s.wakeAt p ch j next done).Inv := by
  have hrun := h.waiting.runs p hp
  unfold WaitSys.wakeAt
  by_cases hj : j < NPROC
  swap
  · rw [dif_neg hj]
    exact h.goto hrun (hdone (not_lt.mp hj)) (hld.trans hp.symm)
  rw [dif_pos hj]
  by_cases hq : (⟨j, hj⟩ : ProcId) = p
  · simp only [if_pos hq]
    refine h.goto hrun (hnext s hj rfl rfl (fun q => .refl _) ?_) (hln.trans hp.symm)
    exact fun r hr => ⟨hr, fun he hne => absurd ((Fin.ext he).trans hq) hne⟩
  · simp only [if_neg hq]
    refine (h.wake ⟨j, hj⟩ ch).goto ?_ (hnext _ hj rfl rfl ?_ ?_) (hln.trans hp.symm)
    · rw [setSlot_of_ne _ (Ne.symm hq)]
      exact hrun
    · intro q
      by_cases hqj : q = ⟨j, hj⟩
      · rw [hqj, setSlot_self]
        exact ProcSlot.wake_keeps _ ch
      · rw [setSlot_of_ne _ hqj]
        exact .refl _
    · intro r hr
      obtain ⟨hs, hch⟩ := asleep_of_wake hr
      exact ⟨hs, fun he _ => hch (Fin.ext he)⟩

theorem Inv.exitWakeInit (h : s.Inv) (hc : s.ctl p = .exitWakeInit i j status) :
    (s.wakeAt p (some (.proc s.initproc)) j (.exitWakeInit i (j + 1) status)
      (.exitReparent (i + 1) status)).Inv := by
  have hinit : p ≠ s.initproc := h.family.exiting p (by rw [hc]; rfl)
  have hpass : ∀ q : ProcId, q.val ≤ i → (s.slot q).parent ≠ some p :=
    fun q hq => h.family.passed p q (by rw [hc]; exact hq)
  refine h.wakeAt (by rw [hc]; rfl) rfl rfl ?_ ?_
  · intro hj
    refine ⟨nofun, nofun, fun _ => hinit, fun q hq => hpass q (Nat.lt_succ_iff.mp hq), ?_,
      fun _ => False.elim, fun _ => False.elim⟩
    intro hw _
    rw [hc] at hw
    exact absurd (lt_of_le_of_lt (hj.trans hw) s.initproc.isLt) (lt_irrefl _)
  · intro t hj hti htc hk ha
    refine ⟨nofun, nofun, fun _ => hti ▸ hinit, ?_, ?_, fun _ => False.elim, fun _ => False.elim⟩
    · intro q hq
      rw [(hk q).parent]
      exact hpass q hq
    · -- when the loop passes init, init is not asleep in `wait` any more
      rw [htc, hti, hc]
      intro hw hr
      obtain ⟨hs, hch⟩ := ha _ hr
      refine Nat.succ_le_of_lt (lt_of_le_of_ne hw fun he => ?_)
      exact hch he.symm hinit.symm (h.waiting.chan _ hs)

theorem Inv.exitWakeParent (h : s.Inv) (hc : s.ctl p = .exitWakeParent j status) :
    (s.wakeAt p ((s.slot p).parent.map .proc) j (.exitWakeParent (j + 1) status)
      (.exitZombie status)).Inv := by
  have hl : (s.ctl p).locked = true := by rw [hc]; rfl
  have hinit : p ≠ s.initproc := h.family.exiting p (by rw [hc]; rfl)
  have hpass : ∀ q : ProcId, (s.slot q).parent ≠ some p :=
    fun q => h.family.passed p q (by rw [hc]; trivial)
  have hwoken : ∀ r : ProcId, r.val < j → (s.slot p).parent = some r → ¬ s.Asleep r :=
    fun r hr => h.waiting.woken p r (by rw [hc]; exact hr)
  have hwake : ∀ r, ¬ (s.ctl p).WakingInit r := by
    rw [hc]
    exact fun _ => id
  refine h.wakeAt hl rfl rfl ?_ ?_
  · intro hj
    refine ⟨nofun, nofun, fun _ => hinit, fun q _ => hpass q, fun hw => absurd hw (hwake _), ?_,
      fun _ => False.elim⟩
    exact fun r _ => hwoken r (r.isLt.trans_le hj)
  · intro t hj hti htc hk ha
    refine ⟨nofun, nofun, fun _ => hti ▸ hinit, ?_, ?_, ?_, fun _ => False.elim⟩
    · intro q _
      rw [(hk q).parent]
      exact hpass q
    · intro hw
      exact absurd (htc ▸ hw) (hwake _)
    · intro r hr hpar hasleep
      rw [(hk p).parent] at hpar
      obtain ⟨hs, hch⟩ := ha r hasleep
      obtain hlt | heq := Nat.lt_succ_iff_lt_or_eq.mp hr
      · exact hwoken r hlt hpar hs
      · have hrp : r ≠ p := by
          rintro rfl
          exact hpass r hpar
        exact hch heq hrp (by rw [h.waiting.chan r hs, hpar]; rfl)

theorem Inv.waitScan (h : s.Inv) (hc : s.ctl p = .waitScan toUser i havekids) (copied : Bool) :
    (s.waitScan p toUser i havekids copied).Inv := by
  have hl : (s.ctl p).locked = true := by rw [hc]; rfl
  have hrun := h.waiting.runs p hl
  have hwake : ∀ r, ¬ (s.ctl p).WakingInit r := by
    rw [hc]
    exact fun _ => id
  have hscan : ∀ q : ProcId, q.val < i → (s.slot q).parent = some p → (s.slot q).kind ≠ .zombie :=
    fun q hq => h.waiting.scan p q (by rw [hc]; exact hq)
  -- where the scan goes when it has looked at the slots below `k`
  have hnext : ∀ c : Ctl, c.child = none → c.exiting = false → (∀ q, c.Scanned q →
      (s.slot q).parent = some p → (s.slot q).kind ≠ .zombie) → s.Next p c := by
    intro c h1 h2 h3
    refine ⟨by simp [h1], ?_, by simp [h2], ?_, fun hw => absurd hw (hwake _), ?_, h3⟩
    · rintro np rfl
      cases h1
    · intro q hq
      simp [hq.exiting] at h2
    · intro r hr
      simp [hr.exiting] at h2
  unfold WaitSys.waitScan
  by_cases hi : i < NPROC
  swap
  · rw [dif_neg hi]
    refine h.goto hrun (hnext _ rfl rfl fun q _ => hscan q ?_) hl.symm
    exact q.isLt.trans_le (not_lt.mp hi)
  rw [dif_pos hi]
  -- a slot that is not a zombie child is passed
  have hpass : ∀ k, ((s.slot ⟨i, hi⟩).parent = some p → (s.slot ⟨i, hi⟩).kind ≠ .zombie) →
      (s.goto p (.waitScan toUser (i + 1) k)).Inv := by
    intro k hno
    refine h.goto hrun (hnext _ rfl rfl fun q hq => ?_) hl.symm
    obtain hlt | heq := Nat.lt_succ_iff_lt_or_eq.mp hq
    · exact hscan q hlt
    · obtain rfl : q = ⟨i, hi⟩ := Fin.ext heq
      exact hno
  generalize hq : (⟨i, hi⟩ : ProcId) = q at hpass
  by_cases hpar : (s.slot q).parent = some p
  swap
  · simp only [if_neg hpar]
    exact hpass _ fun he => absurd he hpar
  simp only [if_pos hpar]
  by_cases hz : (s.slot q).state = .zombie
  swap
  · simp only [if_neg hz]
    exact hpass _ fun _ he => hz (ProcSlot.kind_eq_zombie.mp he)
  split_ifs
  · exact h.release hl (.of_plain rfl rfl (fun _ => id) hwake) rfl
  · refine h.reap hc hpar (ProcSlot.kind_eq_zombie.mpr hz) ⟨setSlot_self .., ?_, goto_ctl_self _,
      ?_, rfl⟩ rfl rfl rfl rfl
    · exact fun r hr => setSlot_of_ne _ hr
    · exact fun e he => goto_ctl_of_ne _ he

theorem Inv.advance (h : s.Inv) (hrun : (s.slot p).state = .running) (ok : Bool) :
    (s.advance p ok).Inv := by
  unfold WaitSys.advance
  cases hc : s.ctl p with
  | user ret | gone => exact h
  | sleepOther =>
    exact h.goto hrun (.of_plain rfl rfl (fun _ => id) (by rw [hc]; exact fun _ => id))
      (by rw [hc]; rfl)
  | forkScan i => exact h.forkScan hrun hc ok
  | forkParent np => exact h.forkParent hrun hc
  | forkRunnable np => exact h.forkRunnable hrun hc
  | exitReparent i status =>
    have hl : (s.ctl p).locked = true := by rw [hc]; rfl
    have hinit : p ≠ s.initproc := h.family.exiting p (by rw [hc]; rfl)
    have hpass : ∀ q : ProcId, q.val < i → (s.slot q).parent ≠ some p :=
      fun q hq => h.family.passed p q (by rw [hc]; exact hq)
    have hwake : ∀ r, ¬ (s.ctl p).WakingInit r := by
      rw [hc]
      exact fun _ => id
    simp only [WaitSys.exitReparent]
    split_ifs with hi hpar
    · refine h.exitReparent (q := ⟨i, hi⟩) hc hpar ⟨setSlot_self .., ?_, goto_ctl_self _, ?_, rfl⟩
        rfl rfl rfl rfl
      · exact fun r hr => setSlot_of_ne _ hr
      · exact fun e he => goto_ctl_of_ne _ he
    · refine h.goto hrun ⟨nofun, nofun, fun _ => hinit, ?_, fun hw => absurd hw (hwake _),
        fun _ => False.elim, fun _ => False.elim⟩ hl.symm
      intro q hq
      obtain hlt | heq := Nat.lt_succ_iff_lt_or_eq.mp hq
      · exact hpass q hlt
      · obtain rfl : q = ⟨i, hi⟩ := Fin.ext heq
        exact hpar
    · refine h.goto hrun ⟨nofun, nofun, fun _ => hinit, ?_, fun hw => absurd hw (hwake _),
        fun r hr => absurd hr (Nat.not_lt_zero _), fun _ => False.elim⟩ hl.symm
      exact fun q _ => hpass q (q.isLt.trans_le (not_lt.mp hi))
  | exitWakeInit i j status => exact h.exitWakeInit hc
  | exitWakeParent j status => exact h.exitWakeParent hc
  | exitZombie status =>
    refine h.exitZombie hc ⟨setSlot_self .., ?_, goto_ctl_self _, ?_, rfl⟩ rfl rfl rfl rfl
    · exact fun r hr => setSlot_of_ne _ hr
    · exact fun e he => goto_ctl_of_ne _ he
  | waitScan toUser i havekids => exact h.waitScan hc ok
  | waitDecide toUser havekids =>
    have hl : (s.ctl p).locked = true := by rw [hc]; rfl
    have hwake : ∀ r, ¬ (s.ctl p).WakingInit r := by
      rw [hc]
      exact fun _ => id
    simp only
    split_ifs
    · exact h.release hl (.of_plain rfl rfl (fun _ => id) hwake) rfl
    · refine h.goto hrun ⟨nofun, nofun, nofun, fun _ => False.elim, fun hw => absurd hw (hwake _),
        fun _ => False.elim, ?_⟩ hl.symm
      exact fun q _ => h.waiting.scan p q (by rw [hc]; trivial)
  | waitSleep toUser => exact h.waitSleep hc
  | waitAsleep toUser =>
    refine h.acquire hrun (.of_plain rfl rfl (fun _ hq => absurd hq (Nat.not_lt_zero _)) ?_) rfl
    rw [hc]
    exact fun _ => id

theorem Inv.step {a : WaitAct} (h : s.Inv) (hs : waitStep s a = .ok t) : t.Inv := by
  cases a with
  | fork p =>
    simp only [waitStep] at hs
    split at hs <;> obtain rfl := Except.ok.inj hs
    · rename_i hrun hc
      exact h.goto hrun (.of_plain rfl rfl (fun _ => id) (by rw [hc]; exact fun _ => id))
        (by rw [hc]; rfl)
    · exact h
  | exit p status =>
    simp only [waitStep] at hs
    split at hs
    · rename_i hrun hc
      split_ifs at hs with hp
      obtain rfl := Except.ok.inj hs
      refine h.acquire hrun ⟨by rintro _ ⟨⟩, by rintro _ ⟨⟩, fun _ => hp,
        fun q hq => absurd hq (Nat.not_lt_zero _), ?_, fun _ => False.elim, fun _ => False.elim⟩ rfl
      intro hw
      rw [hc] at hw
      exact hw.elim
    · obtain rfl := Except.ok.inj hs
      exact h
  | wait p toUser =>
    simp only [waitStep] at hs
    split at hs <;> obtain rfl := Except.ok.inj hs
    · rename_i hrun hc
      refine h.acquire hrun (.of_plain rfl rfl (fun _ hq => absurd hq (Nat.not_lt_zero _)) ?_) rfl
      rw [hc]
      exact fun _ => id
    · exact h
  | advance p ok =>
    obtain rfl := Except.ok.inj hs
    split_ifs with hrun
    · exact h.advance hrun ok
    · exact h
  | kill q pid =>
    obtain rfl := Except.ok.inj hs
    split_ifs
    · apply h.setSlot (ProcSlot.kill_keeps _)
      · exact fun _ hst => absurd hst (ProcSlot.kill_state_ne _)
      · intro hl
        simp [ProcSlot.kill, h.waiting.runs q hl]
    · exact h
  | setkilled p =>
    obtain rfl := Except.ok.inj hs
    split_ifs
    · exact h.setSlot ⟨rfl, rfl, rfl, rfl⟩ (fun _ hst => ⟨hst, rfl⟩) (h.waiting.runs p)
    · exact h
  | dispatch p =>
    obtain rfl := Except.ok.inj hs
    split_ifs with hst
    · exact h.setSlot ⟨by simp [ProcSlot.kind, hst], rfl, rfl, rfl⟩ (by rintro _ ⟨⟩) fun _ => rfl
    · exact h
  | yield p =>
    obtain rfl := Except.ok.inj hs
    split_ifs with hst
    · refine h.setSlot ⟨by simp [ProcSlot.kind, hst.1], rfl, rfl, rfl⟩ (by rintro _ ⟨⟩) ?_
      intro hl
      simp [hst.2] at hl
    · exact h
  | sleep p n =>
    simp only [waitStep] at hs
    split at hs <;> obtain rfl := Except.ok.inj hs
    · rename_i hrun hc
      have hg : (s.goto p .sleepOther).Inv :=
        h.goto hrun (.of_plain rfl rfl (fun _ => id) (by rw [hc]; exact fun _ => id))
          (by rw [hc]; rfl)
      have hctl : (s.goto p .sleepOther).ctl p = .sleepOther := goto_ctl_self _
      have hset : ((s.goto p .sleepOther).setSlot p
          { s.slot p with state := .sleeping, chan := some (.other n) }).Inv := by
        refine hg.setSlot ⟨by simp [ProcSlot.kind, WaitSys.goto, hrun], rfl, rfl, rfl⟩ ?_ ?_
        · rintro ⟨u, hu⟩
          rw [hctl] at hu
          cases hu
        · intro hl
          rw [hctl] at hl
          cases hl
      exact hset
    · exact h
  | wakeup q n =>
    obtain rfl := Except.ok.inj hs
    exact h.wake q _

theorem boot_inv : boot.Inv := by
  have hslot : ∀ q, boot.slot q = .free ∨
      (q = 0 ∧ boot.slot q = { ProcSlot.free.alloc 1 with state := .runnable }) := by
    intro q
    by_cases hq : q = 0
    · exact .inr ⟨hq, by simp [boot, hq]⟩
    · exact .inl (by simp [boot, hq])
  have hzombie : ∀ q, (boot.slot q).kind ≠ .zombie := by
    intro q
    obtain he | ⟨-, he⟩ := hslot q <;> rw [he] <;> exact nofun
  constructor
  · refine ⟨rfl, ?_, nofun, nofun, nofun, nofun, fun _ _ => False.elim,
      fun q hq => absurd hq (hzombie q), List.nodup_nil, nofun⟩
    intro q hq hk
    obtain he | ⟨h0, -⟩ := hslot q
    · rw [he] at hk
      rcases hk with hk | hk <;> cases hk
    · exact absurd h0 hq
  · have hasleep : ∀ p, ¬ boot.Asleep p := by
      rintro p ⟨⟨u, hu⟩, -⟩
      cases hu
    exact ⟨fun _ => iff_of_false nofun nofun, nofun, fun p hp => absurd hp (hasleep p),
      fun p hp => absurd hp (hasleep p), fun _ _ => False.elim, fun _ _ => False.elim⟩

/-- What the state says about parents, about zombies and about those who wait for them. -/
structure Reaped (s : WaitSys) : Prop where
  parent : s.waitLock = none → ∀ q, q ≠ s.initproc →
    (s.slot q).state ∈ [RunState.sleeping, .runnable, .running, .zombie] →
    ∃ r, (s.slot q).parent = some r ∧ (s.slot r).state ≠ .unused ∧ (s.slot r).state ≠ .zombie
  asleep : s.waitLock = none → ∀ p, s.Asleep p → ∀ q, (s.slot q).parent = some p →
    (s.slot q).state ≠ .zombie
  once : (s.reaps.map ReapRec.exit).Nodup
  reaped : ∀ r ∈ s.reaps, r.parent = some r.waiter ∧
    ∃ q, s.exits[r.exit]? = some ⟨q, r.pid, r.status⟩
  /-- A `wait` whose `copyout` fails returns -1 and leaves every slot as it is. -/
  notCopied : ∀ p (q : ProcId) havekids, s.ctl p = .waitScan true q havekids →
    (s.slot q).parent = some p → (s.slot q).state = .zombie →
    ∃ t, waitStep s (.advance p false) = .ok t ∧ t.slot = s.slot ∧ t.reaps = s.reaps ∧
      t.ctl p = .user (-1) ∧ t.waitLock = none

theorem Inv.reaped (h : s.Inv) : s.Reaped := by
  refine ⟨?_, ?_, h.family.once, h.family.reaped, ?_⟩
  · intro _ q hq hst
    have hk : (s.slot q).kind = .live ∨ (s.slot q).kind = .zombie := by
      simp only [List.mem_cons, List.not_mem_nil, or_false] at hst
      rcases hst with hst | hst | hst | hst <;> simp [ProcSlot.kind, hst]
    obtain ⟨r, hr, hlive⟩ := h.family.parent q hq hk
    refine ⟨r, hr, ?_, ?_⟩ <;> intro hst <;> simp [ProcSlot.kind, hst] at hlive
  · intro hfree p hp q hq hz
    obtain hno | ⟨-, e, he⟩ := h.waiting.noZombie p hp
    · exact hno q hq (ProcSlot.kind_eq_zombie.mpr hz)
    · have hl := (h.waiting.lock e).mp he.locked
      rw [hfree] at hl
      cases hl
  · intro p q havekids hc hpar hz
    have hrun := h.waiting.runs p (by rw [hc]; rfl)
    refine ⟨s.release p (.user (-1)), ?_, rfl, rfl, goto_ctl_self _, rfl⟩
    simp [waitStep, hrun, WaitSys.advance, hc, WaitSys.waitScan, hpar, hz]

end WaitSys

/-- In every state of every run, live processes and zombies have a live parent, nobody
sleeps in `wait` past a zombie child, and every exit is reaped at most once, by the parent. -/
theorem exits_reaped_once (as : List WaitAct) (s : WaitSys)
    (h : run waitStep WaitSys.boot as = .ok s) : s.Reaped :=
  WaitSys.Inv.reaped (run_inv (fun _ _ _ hi hs => hi.step hs) WaitSys.boot_inv h)

/-- `init` forks and sleeps in `wait`, the child exits with status 7, and `wait` returns it. -/
def forkAndWait : List WaitAct :=
  [.dispatch 0, .fork 0, .advance 0 true, .advance 0 true, .advance 0 true, .advance 0 true,
    .wait 0 false] ++ List.replicate 67 (.advance 0 true) ++ [.dispatch 1, .exit 1 7] ++
    List.replicate 131 (.advance 1 true) ++ .dispatch 0 :: List.replicate 3 (.advance 0 true)

theorem exits_reaped_once_forkAndWait : ∃ s, run waitStep WaitSys.boot forkAndWait = .ok s ∧
    s.exits = [⟨1, 2, 7⟩] ∧ s.reaps = [⟨0, 0, 2, 7, some 0⟩] ∧ s.ctl 0 = .user 2 ∧ s.Reaped := by
  obtain ⟨s, hrun, hexits, hreaps, hret⟩ := Ends.exists_ok (r := run waitStep WaitSys.boot forkAndWait)
    (P := fun s => s.exits = [⟨1, 2, 7⟩] ∧ s.reaps = [⟨0, 0, 2, 7, some 0⟩] ∧ s.ctl 0 = .user 2)
    (by decide +kernel)
  exact ⟨s, hrun, hexits, hreaps, hret, exits_reaped_once forkAndWait s hrun⟩

end Xv6
