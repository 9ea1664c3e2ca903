import Xv6.Sched

/-! `sleep` and `wakeup` lose no wakeup. The window of `sleep` between `release(lk)` and
`p->state = SLEEPING` is covered by `p->lock`: a process is either found asleep by
`wakeup`, or still holds the lock that `wakeup` needs to pass it. -/

namespace Xv6

open Function

variable {N : Nat} {K C : Type*} {chan : K} {me : Fin N}

section Locks

def SleepAt.own : SleepAt → Bool
  | acquire | reacquire => false
  | _ => true

def Point.Holds (me : Fin N) (l : LockId N) : Point K → Prop
  | outside => False
  | critical _ _ => l = .lk
  | sleep o pos =>
    (pos.own = true ∧ l = .proc me) ∨ (o = none ∧ (pos = .acquire ∨ pos = .releaseLk) ∧ l = .lk)
  | wakeup ret _ i pos =>
    (ret.isSome = true ∧ l = .lk) ∨ (pos ≠ .next ∧ ∃ p : Fin N, p = i ∧ l = .proc p)
  | kill i pos => pos ≠ .next ∧ ∃ p : Fin N, p = i ∧ l = .proc p
  | yield pos _ => pos ≠ .acquire ∧ l = .proc me

def CpuPoint.Holds (l : LockId N) : CpuPoint N → Prop
  | scan _ | running _ => False
  | test p | found p | switch p | back p | release p => l = .proc p

def Access.After (held : LockId N → Prop) (l : LockId N) : Access N K → Prop
  | acquire l' => l = l' ∨ held l
  | release l' => l ≠ l' ∧ held l
  | _ => held l

theorem Interruptible.holds (b : Interruptible K) (l : LockId N) : ¬ b.point.Holds me l := by
  cases b <;> simp [point, Point.Holds, SleepAt.own]

theorem SchedText.holds {x y : CpuPoint N} {a : Access N K} (h : SchedText x a y)
    (l : LockId N) : y.Holds l ↔ a.After (fun l => x.Holds l) l := by
  cases h <;> simp [Access.After, CpuPoint.Holds]

theorem SchedText.not_running {x y : CpuPoint N} {a : Access N K} (h : SchedText x a y)
    (p : Fin N) : x ≠ .running p ∧ y ≠ .running p := by
  cases h <;> exact ⟨nofun, nofun⟩

variable {p : Fin N} {st : RunState}

theorem SchedText.setState {x y : CpuPoint N} (h : SchedText x (.setState p st : Access N K) y) :
    x.Holds (.proc p) ∧ st = .running := by
  cases h
  exact ⟨rfl, rfl⟩

theorem SchedText.frame {x y : CpuPoint N} {a : Access N K} (h : SchedText x a y) :
    (∀ b, a ≠ .setCond b) ∧ ∀ p ch, a ≠ .setChan p ch := by
  cases h <;> exact ⟨nofun, nofun⟩

variable [DecidableEq K] {x y : Point K}

theorem Access.Does.locks_self {a : Access N K} {c : C} {m m' : SharedMem N K C}
    (h : a.Does c m m') (l : LockId N) :
    m'.locks l = some c ↔ a.After (fun l => m.locks l = some c) l := by
  cases a with
  | acquire k =>
    obtain ⟨-, rfl⟩ := h
    by_cases hl : l = k <;> simp [After, hl]
  | release k =>
    obtain ⟨-, rfl⟩ := h
    by_cases hl : l = k <;> simp [After, hl]
  | isState p st b | isChan p ch b | isCond b =>
    obtain ⟨-, rfl⟩ := h
    exact Iff.rfl
  | setState p st | setChan p ch | setCond b | nop =>
    obtain rfl := h
    exact Iff.rfl

theorem Access.Does.locks_other {a : Access N K} {c d : C} {m m' : SharedMem N K C}
    (h : a.Does c m m') (hd : d ≠ c) (l : LockId N) :
    m'.locks l = some d ↔ m.locks l = some d := by
  cases a with
  | acquire k =>
    obtain ⟨hfree, rfl⟩ := h
    by_cases hl : l = k <;> simp [hl, hfree, hd.symm]
  | release k =>
    obtain ⟨hheld, rfl⟩ := h
    by_cases hl : l = k <;> simp [hl, hheld, hd.symm]
  | isState p st b | isChan p ch b | isCond b => rw [h.2]
  | setState p st | setChan p ch | setCond b | nop => rw [h]

theorem Access.Does.locks {a : Access N K} {c : C} {m m' : SharedMem N K C}
    {H H' : C → LockId N → Prop} (h : a.Does c m m')
    (hm : ∀ d l, m.locks l = some d ↔ H d l) (hc : ∀ l, H' c l ↔ a.After (H c) l)
    (ho : ∀ d, d ≠ c → ∀ l, H' d l ↔ H d l) (d : C) (l : LockId N) :
    m'.locks l = some d ↔ H' d l := by
  by_cases hd : d = c
  · subst d
    simp only [h.locks_self, hc, hm]
  · rw [h.locks_other hd, ho d hd, hm]

theorem Text.holds {a : Access N K} (h : Text chan me x a y) (l : LockId N) :
    y.Holds me l ↔ a.After (fun l => x.Holds me l) l := by
  cases h with
  | interrupt b => exact iff_of_false (fun hy => hy.1 rfl) (b.holds l)
  | yieldRelease b => exact iff_of_false (b.holds l) fun hx => hx.1 hx.2.2
  | _ => simp [Access.After, Point.Holds, SleepAt.own, Fin.val_inj] <;> grind

theorem Text.holds_of_setState (h : Text chan me x (.setState p st) y) : x.Holds me (.proc p) := by
  cases h <;> simp [Point.Holds, SleepAt.own]

theorem Text.eq_of_setSleeping (h : Text chan me x (.setState p .sleeping) y) : p = me := by
  cases h
  rfl

theorem Text.eq_of_setChan {ch : Option K} (h : Text chan me x (.setChan p ch) y) : p = me := by
  cases h <;> rfl

theorem Text.holds_of_setCond {b : Bool} (h : Text chan me x (.setCond b) y) : x.Holds me .lk := by
  cases h <;> rfl

variable {c : C} {m m' : SharedMem N K C} {a : Access N K}

theorem Access.Does.state_eq (h : a.Does c m m') (p : Fin N) :
    m'.state p = m.state p ∨ ∃ st, a = .setState p st ∧ m'.state p = st := by
  cases a with
  | setState q st =>
    obtain rfl := h
    by_cases hp : p = q
    · subst q
      exact .inr ⟨st, rfl, update_self ..⟩
    · exact .inl (update_of_ne hp ..)
  | acquire l | release l | isState q st b | isChan q ch b | isCond b => exact .inl (by rw [h.2])
  | setChan q ch | setCond b | nop => exact .inl (by rw [h])

theorem Access.Does.chan_eq (h : a.Does c m m') (p : Fin N) :
    m'.chan p = m.chan p ∨ ∃ ch, a = .setChan p ch ∧ m'.chan p = ch := by
  cases a with
  | setChan q ch =>
    obtain rfl := h
    by_cases hp : p = q
    · subst q
      exact .inr ⟨ch, rfl, update_self ..⟩
    · exact .inl (update_of_ne hp ..)
  | acquire l | release l | isState q st b | isChan q ch b | isCond b => exact .inl (by rw [h.2])
  | setState q st | setCond b | nop => exact .inl (by rw [h])

theorem Access.Does.cond_eq (h : a.Does c m m') :
    m'.cond = m.cond ∨ ∃ b, a = .setCond b ∧ m'.cond = b := by
  cases a with
  | setCond b => exact .inr ⟨b, rfl, by rw [h]⟩
  | acquire l | release l | isState q st b | isChan q ch b | isCond b => exact .inl (by rw [h.2])
  | setState q st | setChan q ch | nop => exact .inl (by rw [h])

end Locks

section Points

/-- The thread waits for its CPU's `swtch` to come back; it holds its own lock. -/
def Point.Parked : Point K → Prop
  | sleep _ .clearChan | yield .release _ => True
  | _ => False

def Point.Finds (i : Fin N) : Point K → Prop
  | wakeup _ _ j .testChan | wakeup _ _ j .set | kill j .set => i.val = j
  | _ => False

def Point.BeforeSleep : Point K → Prop
  | sleep none .acquire | sleep none .releaseLk => True
  | _ => False

def Point.Chosen : Point K → Prop
  | sleep none .setState | sleep none .sched | sleep none .clearChan => True
  | _ => False

/-- Inside `sleep(chan, lk)`, past the release of `lk`, and not woken up since. -/
def Point.Sleeper (st : RunState) : Point K → Prop
  | sleep none .setChan | sleep none .setState => True
  | sleep none .sched | sleep none .clearChan => st = .sleeping
  | _ => False

def Point.Cleared (chan : K) (p : Fin N) : Point K → Prop
  | critical _ woke => woke = true
  | wakeup ret ch i pos =>
    ret.any Prod.snd = true ∨
      ret.isSome = true ∧ ch = chan ∧ (p.val < i ∨ p.val = i ∧ pos = .release)
  | _ => False

def Point.Made : Point K → Prop
  | critical made _ => made = true
  | wakeup ret _ _ _ => ret.any Prod.fst = true
  | _ => False

variable {x y : Point K} {st : RunState} {p i : Fin N}

theorem Point.Parked.holds (h : x.Parked) (l : LockId N) : x.Holds me l ↔ l = .proc me := by
  cases x with
  | sleep o pos => cases pos <;> simp_all [Parked, Holds, SleepAt.own]
  | yield pos b => cases pos <;> simp_all [Parked, Holds]
  | _ => exact h.elim

structure Point.Idle (x : Point K) : Prop where
  beforeSleep : ¬ x.BeforeSleep
  finds : ∀ (N : Nat) (i : Fin N), ¬ x.Finds i
  cleared : ∀ (N : Nat) (chan : K) (p : Fin N), ¬ x.Cleared chan p
  made : ¬ x.Made

theorem Point.Parked.idle (h : x.Parked) : x.Idle := by
  cases x with
  | sleep o pos =>
    cases o <;> cases pos <;>
      first | exact h.elim | exact ⟨id, fun _ _ => id, fun _ _ _ => id, id⟩
  | yield pos b => exact ⟨id, fun _ _ => id, fun _ _ _ => id, id⟩
  | _ => exact h.elim

theorem Point.Cleared.holds (h : x.Cleared chan p) : x.Holds me .lk := by
  cases x with
  | critical made woke => rfl
  | wakeup ret ch i pos =>
    cases ret with
    | none => simp [Cleared] at h
    | some mw => exact .inl ⟨rfl, rfl⟩
  | _ => exact h.elim

theorem Point.Made.holds (h : x.Made) : x.Holds me .lk := by
  cases x with
  | critical made woke => rfl
  | wakeup ret ch i pos =>
    cases ret with
    | none => simp [Made] at h
    | some mw => exact .inl ⟨rfl, rfl⟩
  | _ => exact h.elim

theorem Point.Finds.holds (h : x.Finds i) : x.Holds me (.proc i) := by
  cases x with
  | wakeup ret ch j pos =>
    cases pos <;> first | exact h.elim | exact .inr ⟨nofun, i, h, rfl⟩
  | kill j pos =>
    cases pos <;> first | exact h.elim | exact ⟨nofun, i, h, rfl⟩
  | _ => exact h.elim

theorem Point.BeforeSleep.holds (h : x.BeforeSleep) : x.Holds me .lk := by
  cases x with
  | sleep o pos =>
    cases o with
    | none => cases pos <;> first | exact h.elim | exact .inr ⟨rfl, by simp, rfl⟩
    | some ch => exact h.elim
  | _ => exact h.elim

theorem Point.Sleeper.of_ne {st' : RunState} (h : x.Sleeper st) (hst : st ≠ .sleeping) :
    x.Sleeper st' := by
  cases x with
  | sleep o pos =>
    cases o with
    | none => cases pos <;> trivial
    | some ch => exact h.elim
  | _ => exact h.elim

theorem Point.afterSched_eq_some (h : x.afterSched = some y) :
    (∃ o, x = .sleep o .sched ∧ y = .sleep o .clearChan) ∨
      ∃ b, x = .yield .sched b ∧ y = .yield .release b := by
  cases x with
  | sleep o pos =>
    cases pos <;> simp only [afterSched, reduceCtorEq, Option.some.injEq] at h
    exact .inl ⟨o, rfl, h.symm⟩
  | yield pos b =>
    cases pos <;> simp only [afterSched, reduceCtorEq, Option.some.injEq] at h
    exact .inr ⟨b, rfl, h.symm⟩
  | _ => simp [afterSched] at h

theorem Interruptible.idle (b : Interruptible K) : b.point.Idle := by
  cases b with
  | reacquire ch => cases ch <;> exact ⟨id, fun _ _ => id, fun _ _ _ => id, id⟩
  | waking ch i =>
    exact ⟨id, fun _ _ => id, fun _ _ _ => by simp [point, Point.Cleared], nofun⟩
  | _ => exact ⟨id, fun _ _ => id, fun _ _ _ => id, id⟩

theorem Interruptible.awake (b : Interruptible K) :
    b.point.afterSched = none ∧ ¬ b.point.Chosen ∧ ∀ st, ¬ b.point.Sleeper st := by
  cases b with
  | reacquire ch => cases ch <;> exact ⟨rfl, id, fun _ => id⟩
  | _ => exact ⟨rfl, id, fun _ => id⟩

variable {a : Access N K} [DecidableEq K]

theorem Text.chosen (h : Text chan me x a y) (hy : y.Chosen) :
    (x.Chosen ∧ ∀ ch, a ≠ .setChan me ch) ∨ a = .setChan me (some chan) := by
  cases h with
  | setChan o =>
    cases o with
    | none => exact .inr rfl
    | some ch => exact hy.elim
  | setSleeping o =>
    cases o with
    | none => exact .inl ⟨trivial, nofun⟩
    | some ch => exact hy.elim
  | yieldRelease b => exact absurd hy b.awake.2.1
  | sleepAcquire o | clearChan o | sleepRelease o => cases o <;> exact hy.elim
  | _ => exact hy.elim

theorem Text.sleeper (h : Text chan me x a y) (hy : y.Sleeper st) :
    (∀ st, x.Sleeper st) ∨ (x = .sleep none .releaseLk ∧ a = .release .lk) := by
  cases h with
  | releaseLk => exact .inr ⟨rfl, rfl⟩
  | setChan o =>
    cases o with
    | none => exact .inl fun _ => trivial
    | some ch => exact hy.elim
  | setSleeping o =>
    cases o with
    | none => exact .inl fun _ => trivial
    | some ch => exact hy.elim
  | yieldRelease b => exact absurd hy (b.awake.2.2 st)
  | sleepAcquire o | clearChan o | sleepRelease o => cases o <;> exact hy.elim
  | _ => exact hy.elim

/-- `wakeup(chan)` passes a process by waking it, by finding that it does not sleep on
`chan`, or because it is its own. -/
theorem Text.cleared (h : Text chan me x a y) (hy : y.Cleared chan p) :
    x.Cleared chan p ∨ p = me ∨ x.Holds me (.proc p) ∧
      (a = .isState p .sleeping false ∨ a = .isChan p chan false ∨
        a = .setState p .runnable) := by
  cases h with
  | yieldRelease b => exact absurd hy (b.idle.cleared N chan p)
  | makeTrue made woke | makeFalse made woke => exact .inl hy
  | callWakeup made woke ch | wakeReturn made woke ch =>
    simp [Point.Cleared] at hy ⊢
    tauto
  | wakeSelf r ch | wakeAcquire r ch i | wakeAsleep r ch i | wakeNotAsleep r ch i =>
    simp only [Point.Cleared, Point.Holds, reduceCtorEq, and_false, or_false] at hy ⊢
    grind
  | wakeChan r ch i | wakeOtherChan r ch i | wakeSet r ch i | wakeRelease r ch i =>
    simp only [Point.Cleared, Point.Holds, reduceCtorEq, and_false, or_false] at hy ⊢
    grind
  | enter | reacquireLk | callWakeupOutside ch => simp [Point.Cleared] at hy
  | _ => exact hy.elim

theorem Text.made (h : Text chan me x a y) (hx : x.Made) (p : Fin N) :
    y.Made ∨ x.Cleared chan p := by
  cases h with
  | leave made woke hw => exact .inr (hw hx)
  | callSleep made woke hw => exact .inr (hw hx)
  | interrupt b => exact absurd hx b.idle.made
  | makeTrue made woke => exact .inl rfl
  | wakeReturnOutside ch => cases hx
  | makeFalse made woke | callWakeup made woke ch | wakeReturn made woke ch => exact .inl hx
  | wakeSelf r ch | wakeAcquire r ch i | wakeAsleep r ch i | wakeNotAsleep r ch i => exact .inl hx
  | wakeChan r ch i | wakeOtherChan r ch i | wakeSet r ch i | wakeRelease r ch i => exact .inl hx
  | _ => exact hx.elim

theorem Text.made_of_setCond {b : Bool} (h : Text chan me x (.setCond b) y) (hb : b = true) :
    y.Made := by
  cases h with
  | makeTrue made woke => rfl
  | makeFalse made woke => cases hb

theorem Text.afterSched (h : Text chan me x a y) : x.afterSched = none := by
  cases h with
  | interrupt b => exact b.awake.1
  | _ => rfl

variable {c : C} {m m' : SharedMem N K C}

theorem Text.running (h : Text chan me x a y) (hd : a.Does c m m')
    (hrun : m.state me = .running) (hfind : ∀ i : Fin N, x.Finds i → m.state i = .sleeping)
    (hy : y.afterSched = none) : m'.state me = .running := by
  obtain he | ⟨st, rfl, -⟩ := hd.state_eq me
  · rw [he, hrun]
  · -- a thread changes its own state on its way to `sched` only
    cases h with
    | setSleeping o => simp [Point.afterSched] at hy
    | yieldRunnable b => simp [Point.afterSched] at hy
    | wakeSet r ch => simp [hfind me rfl] at hrun
    | killSet => simp [hfind me rfl] at hrun

theorem Text.setState_finds {q : Fin N} (h : Text chan me x (.setState q st) y) (hq : q ≠ me) :
    x.Finds q := by
  cases h with
  | setSleeping o | yieldRunnable b => exact absurd rfl hq
  | wakeSet r ch | killSet => rfl

theorem Text.finds (h : Text chan me x a y) (hd : a.Does c m m')
    (hfind : ∀ i : Fin N, x.Finds i → m.state i = .sleeping) (hy : y.Finds i) :
    m'.state i = .sleeping := by
  cases h with
  | wakeAsleep r ch j =>
    obtain rfl : i = j := Fin.ext hy
    rw [hd.2]
    exact of_decide_eq_true hd.1
  | killAsleep j =>
    obtain rfl : i = j := Fin.ext hy
    rw [hd.2]
    exact of_decide_eq_true hd.1
  | wakeChan r ch j =>
    rw [hd.2]
    exact hfind i hy
  | yieldRelease b => exact absurd hy (b.idle.finds N i)
  | _ => exact hy.elim

theorem Text.beforeSleep (h : Text chan me x a y) (hd : a.Does c m m')
    (hbefore : x.BeforeSleep → m.cond = false) (hy : y.BeforeSleep) : m'.cond = false := by
  cases h with
  | callSleep made woke hw => exact hd.2 ▸ hd.1
  | sleepAcquire o =>
    cases o with
    | none => exact hd.2 ▸ hbefore trivial
    | some ch => exact hy.elim
  | yieldRelease b => exact absurd hy b.idle.beforeSleep
  | setChan o | setSleeping o | clearChan o | sleepRelease o => cases o <;> exact hy.elim
  | _ => exact hy.elim

end Points

namespace Machine

def Holds (s : Machine N K C) (c : C) (l : LockId N) : Prop :=
  match s.cpu c with
  | .running p => (s.point p).Holds p l
  | x => x.Holds l

def Facts (s : Machine N K C) (c : C) : Prop :=
  match s.cpu c with
  | .found p => s.mem.state p = .runnable ∧ ∀ d, s.cpu d ≠ .running p
  | .switch p => s.mem.state p = .running ∧ ∀ d, s.cpu d ≠ .running p
  | .running p =>
    ((s.point p).afterSched = none → s.mem.state p = .running) ∧
    (∀ i, (s.point p).Finds i → s.mem.state i = .sleeping) ∧
    ((s.point p).BeforeSleep → s.mem.cond = false)
  | _ => True

def Sleeper (s : Machine N K C) (p : Fin N) : Prop := (s.point p).Sleeper (s.mem.state p)

structure Inv (chan : K) (s : Machine N K C) : Prop where
  locks : ∀ c l, s.mem.locks l = some c ↔ s.Holds c l
  single : ∀ c d p, s.cpu c = .running p → s.cpu d = .running p → c = d
  parked : ∀ p, (∀ c, s.cpu c ≠ .running p) → (s.point p).Parked
  facts : ∀ c, s.Facts c
  chosen : ∀ p, (s.point p).Chosen → s.mem.chan p = some chan
  cleared : ∀ p c w, s.Sleeper p → s.cpu c = .running w → ¬ (s.point w).Cleared chan p
  made : ∀ p, s.Sleeper p → s.mem.cond = true → ∃ c w, s.cpu c = .running w ∧ (s.point w).Made

variable {s : Machine N K C} {d : C}

theorem Inv.eq_of_holds (h : s.Inv chan) {c : C} {l : LockId N} (hc : s.Holds c l) (hd : s.Holds d l) :
    c = d := by
  have hl := (h.locks c l).mpr hc
  rw [(h.locks d l).mpr hd] at hl
  exact (Option.some.inj hl).symm

theorem holds_running {c : C} {p : Fin N} (hc : s.cpu c = .running p) (l : LockId N) :
    s.Holds c l ↔ (s.point p).Holds p l := by
  simp [Holds, hc]

theorem Inv.sleeping_of_holds (h : s.Inv chan) {c : C} {w p : Fin N} (hp : s.Sleeper p)
    (hc : s.cpu c = .running w) (hw : p ≠ w) (hl : (s.point w).Holds w (.proc p)) :
    s.mem.state p = .sleeping ∧ s.mem.chan p = some chan ∧
      ∀ st, (s.point p).Sleeper st → st = .sleeping := by
  have hch := h.chosen p
  unfold Sleeper at hp
  cases hpt : s.point p with
  | sleep o pos =>
    rw [hpt] at hp hch
    cases o with
    | some ch => exact hp.elim
    | none =>
      -- at the other points of `sleep`, `p` runs on another CPU with `p->lock` held
      have habs : (s.point p).Holds p (.proc p) → ¬ (s.point p).Parked → False := by
        intro hown hpark
        obtain ⟨d, hd⟩ : ∃ d, s.cpu d = .running p := by
          by_contra hnone
          exact hpark (h.parked p (not_exists.mp hnone))
        have heq := h.eq_of_holds ((holds_running hd _).mpr hown) ((holds_running hc _).mpr hl)
        rw [heq, hc] at hd
        exact hw (CpuPoint.running.inj hd).symm
      cases pos with
      | setChan => exact (habs (by rw [hpt]; exact .inl ⟨rfl, rfl⟩) (by rw [hpt]; exact id)).elim
      | setState => exact (habs (by rw [hpt]; exact .inl ⟨rfl, rfl⟩) (by rw [hpt]; exact id)).elim
      | sched => exact ⟨hp, hch trivial, fun _ => id⟩
      | clearChan => exact ⟨hp, hch trivial, fun _ => id⟩
      | _ => exact hp.elim
  | _ =>
    rw [hpt] at hp
    exact hp.elim

theorem Facts.stable {t : Machine N K C} (h : s.Facts d) (hcpu : t.cpu d = s.cpu d)
    (hpt : ∀ q, s.cpu d = .running q → t.point q = s.point q)
    (hst : ∀ q, s.Holds d (.proc q) → t.mem.state q = s.mem.state q)
    (hrun : ∀ q, s.cpu d = .running q → s.mem.state q = .running → t.mem.state q = .running)
    (hcond : s.Holds d .lk → t.mem.cond = s.mem.cond)
    (hnone : ∀ q, s.Holds d (.proc q) → (∀ e, s.cpu e ≠ .running q) → ∀ e, t.cpu e ≠ .running q) :
    t.Facts d := by
  unfold Facts at h ⊢
  rw [hcpu]
  cases hd : s.cpu d with
  | found q =>
    rw [hd] at h
    have hl : s.Holds d (.proc q) := by simp [Holds, hd, CpuPoint.Holds]
    exact ⟨(hst q hl).trans h.1, hnone q hl h.2⟩
  | switch q =>
    rw [hd] at h
    have hl : s.Holds d (.proc q) := by simp [Holds, hd, CpuPoint.Holds]
    exact ⟨(hst q hl).trans h.1, hnone q hl h.2⟩
  | running q =>
    rw [hd] at h
    have hl := holds_running hd
    simp only [hpt q hd]
    refine ⟨fun hs => hrun q hd (h.1 hs), ?_, ?_⟩
    · intro i hi
      rw [hst i ((hl _).mpr hi.holds)]
      exact h.2.1 i hi
    · intro hb
      rw [hcond ((hl _).mpr hb.holds)]
      exact h.2.2 hb
  | _ => trivial

theorem holds_congr {t : Machine N K C} (hcpu : t.cpu d = s.cpu d)
    (hpt : ∀ q, s.cpu d = .running q → t.point q = s.point q) (l : LockId N) :
    t.Holds d l ↔ s.Holds d l := by
  unfold Holds
  rw [hcpu]
  cases hd : s.cpu d with
  | running q => simp only [hpt q hd]
  | _ => exact Iff.rfl

section Thread

variable [DecidableEq K] {t : Machine N K C} {c d : C} {p q : Fin N} {a : Access N K} {x : Point K}

structure ThreadStep (chan : K) (s t : Machine N K C) (c : C) (p : Fin N) (a : Access N K)
    (x : Point K) : Prop where
  running : s.cpu c = .running p
  text : Text chan p (s.point p) a x
  does : a.Does c s.mem t.mem
  cpu : t.cpu = s.cpu
  self : t.point p = x
  other : ∀ q, q ≠ p → t.point q = s.point q

theorem ThreadStep.point_of_ne (h : s.Inv chan) (hs : ThreadStep chan s t c p a x) (hd : d ≠ c)
    (hq : s.cpu d = .running q) : t.point q = s.point q := by
  apply hs.other
  rintro rfl
  exact hd (h.single d c q hq hs.running)

theorem ThreadStep.locks (h : s.Inv chan) (hs : ThreadStep chan s t c p a x) (d : C)
    (l : LockId N) : t.mem.locks l = some d ↔ t.Holds d l := by
  apply hs.does.locks h.locks
  · intro l
    rw [holds_running (hs.cpu ▸ hs.running), hs.self, hs.text.holds]
    have he : (fun l => (s.point p).Holds p l) = s.Holds c :=
      funext fun l => propext (holds_running hs.running l).symm
    rw [he]
  · intro d hd
    exact holds_congr (by rw [hs.cpu]) fun q hq => hs.point_of_ne h hd hq

theorem ThreadStep.facts (h : s.Inv chan) (hs : ThreadStep chan s t c p a x) (d : C) :
    t.Facts d := by
  have hf := h.facts c
  simp only [Facts, hs.running] at hf
  have hrunp := hf.1 hs.text.afterSched
  by_cases hd : d = c
  · subst d
    simp only [Facts, hs.cpu, hs.running, hs.self]
    exact ⟨hs.text.running hs.does hrunp hf.2.1, fun i => hs.text.finds hs.does hf.2.1,
      hs.text.beforeSleep hs.does hf.2.2⟩
  · apply (h.facts d).stable (by rw [hs.cpu]) fun q hq => hs.point_of_ne h hd hq
    · intro q hq
      obtain he | ⟨st, rfl, -⟩ := hs.does.state_eq q
      · exact he
      · exact absurd (h.eq_of_holds hq
          ((holds_running hs.running _).mpr hs.text.holds_of_setState)) hd
    · intro q hq hrun
      obtain he | ⟨st, rfl, -⟩ := hs.does.state_eq q
      · rw [he, hrun]
      · -- only a process found asleep is made runnable by another
        have hne : q ≠ p := by
          rintro rfl
          exact hd (h.single d c q hq hs.running)
        rw [hf.2.1 q (hs.text.setState_finds hne)] at hrun
        cases hrun
    · intro hlk
      obtain he | ⟨b, rfl, -⟩ := hs.does.cond_eq
      · exact he
      · exact absurd (h.eq_of_holds hlk
          ((holds_running hs.running _).mpr hs.text.holds_of_setCond)) hd
    · intro q _ hnone
      rwa [hs.cpu]

theorem ThreadStep.chosen (h : s.Inv chan) (hs : ThreadStep chan s t c p a x) (q : Fin N)
    (hq : (t.point q).Chosen) : t.mem.chan q = some chan := by
  by_cases hp : q = p
  · subst q
    rw [hs.self] at hq
    obtain he | ⟨ch, rfl, he⟩ := hs.does.chan_eq p
    · obtain ⟨hx, -⟩ | rfl := hs.text.chosen hq
      · rw [he]
        exact h.chosen p hx
      · rw [hs.does]
        exact update_self ..
    · obtain ⟨-, hno⟩ | hset := hs.text.chosen hq
      · exact absurd rfl (hno ch)
      · rw [he, (Access.setChan.inj hset).2]
  · rw [hs.other q hp] at hq
    obtain he | ⟨ch, rfl, -⟩ := hs.does.chan_eq q
    · rw [he]
      exact h.chosen q hq
    · exact absurd hs.text.eq_of_setChan hp

theorem ThreadStep.sleeper_of_ne (hs : ThreadStep chan s t c p a x) (hq : q ≠ p) (ht : t.Sleeper q) :
    s.Sleeper q := by
  unfold Sleeper at ht ⊢
  rw [hs.other q hq] at ht
  obtain he | ⟨st, rfl, he⟩ := hs.does.state_eq q
  · rwa [he] at ht
  · rw [he] at ht
    apply ht.of_ne
    rintro rfl
    exact hq hs.text.eq_of_setSleeping

theorem ThreadStep.sleeper (hs : ThreadStep chan s t c p a x) (ht : t.Sleeper q) :
    s.Sleeper q ∨ (q = p ∧ s.point p = .sleep none .releaseLk ∧ a = .release .lk) := by
  by_cases hq : q = p
  · subst q
    unfold Sleeper at ht
    rw [hs.self] at ht
    obtain hx | hx := hs.text.sleeper ht
    · exact .inl (hx _)
    · exact .inr ⟨rfl, hx⟩
  · exact .inl (hs.sleeper_of_ne hq ht)

theorem ThreadStep.cleared (h : s.Inv chan) (hs : ThreadStep chan s t c p a x) {w : Fin N}
    (ht : t.Sleeper q) (hd : t.cpu d = .running w) : ¬ (t.point w).Cleared chan q := by
  intro hcl
  rw [hs.cpu] at hd
  by_cases hw : w = p
  · subst w
    rw [hs.self] at hcl
    have hq : q ≠ p := by
      rintro rfl
      unfold Sleeper at ht
      rw [hs.self] at ht
      cases x <;> first | exact ht | exact hcl
    have hsq := hs.sleeper_of_ne hq ht
    obtain hx | hx | ⟨hl, hx⟩ := hs.text.cleared hcl
    · exact h.cleared q d p hsq hd hx
    · exact hq hx
    · obtain ⟨hst, hch, honly⟩ := h.sleeping_of_holds hsq hd hq hl
      obtain rfl | rfl | rfl := hx
      · simpa [hst] using hs.does.1
      · simpa [hch] using hs.does.1
      · have hrun : t.mem.state q = .runnable := by
          rw [hs.does]
          exact update_self ..
        unfold Sleeper at ht
        rw [hs.other q hq, hrun] at ht
        cases honly _ ht
  · rw [hs.other w hw] at hcl
    obtain hsq | ⟨rfl, hpt, -⟩ := hs.sleeper ht
    · exact h.cleared q d w hsq hd hcl
    · -- two processes would hold `lk`
      have hlq : s.Holds c .lk := (holds_running hs.running _).mpr (by
        rw [hpt]
        exact .inr ⟨rfl, .inr rfl, rfl⟩)
      have heq := h.eq_of_holds hlq ((holds_running hd _).mpr hcl.holds)
      rw [← heq, hs.running] at hd
      exact hw (CpuPoint.running.inj hd).symm

theorem ThreadStep.made (h : s.Inv chan) (hs : ThreadStep chan s t c p a x) (ht : t.Sleeper q)
    (hcond : t.mem.cond = true) : ∃ d w, t.cpu d = .running w ∧ (t.point w).Made := by
  rw [hs.cpu]
  obtain hsq | ⟨rfl, hpt, rfl⟩ := hs.sleeper ht
  · obtain he | ⟨b, rfl, he⟩ := hs.does.cond_eq
    · rw [he] at hcond
      obtain ⟨d, w, hd, hmade⟩ := h.made q hsq hcond
      by_cases hw : w = p
      · subst w
        refine ⟨c, p, hs.running, ?_⟩
        rw [hs.self]
        exact (hs.text.made hmade q).resolve_right (h.cleared q d p hsq hd)
      · exact ⟨d, w, hd, by rwa [hs.other w hw]⟩
    · -- this step makes `C` true
      refine ⟨c, p, hs.running, ?_⟩
      rw [hs.self]
      rw [he] at hcond
      exact hs.text.made_of_setCond hcond
  · have hf := h.facts c
    simp only [Facts, hs.running, hpt] at hf
    rw [hs.does.2, hf.2.2 trivial] at hcond
    cases hcond

theorem ThreadStep.inv (h : s.Inv chan) (hs : ThreadStep chan s t c p a x) : t.Inv chan where
  locks := hs.locks h
  single := hs.cpu ▸ h.single
  parked := by
    intro q hq
    rw [hs.cpu] at hq
    rw [hs.other q]
    · exact h.parked q hq
    · rintro rfl
      exact hq c hs.running
  facts := hs.facts h
  chosen := hs.chosen h
  cleared _ _ _ := hs.cleared h
  made _ := hs.made h

end Thread

theorem holds_scheduler {c : C} (hc : ∀ p, s.cpu c ≠ .running p) (l : LockId N) :
    s.Holds c l ↔ (s.cpu c).Holds l := by
  unfold Holds
  cases hx : s.cpu c with
  | running p => exact absurd hx (hc p)
  | _ => exact Iff.rfl

theorem Inv.not_runnable (h : s.Inv chan) {c : C} {p : Fin N} (hc : s.Holds c (.proc p))
    (hd : s.cpu d = .running p) (hne : d ≠ c) : s.mem.state p = .running := by
  have hf := h.facts d
  simp only [Facts, hd] at hf
  apply hf.1
  cases hx : (s.point p).afterSched with
  | none => rfl
  | some y =>
    have hown : (s.point p).Holds p (.proc p) := by
      obtain ⟨o, he, -⟩ | ⟨b, he, -⟩ := Point.afterSched_eq_some hx <;> rw [he]
      · exact .inl ⟨rfl, rfl⟩
      · exact ⟨nofun, rfl⟩
    exact absurd (h.eq_of_holds ((holds_running hd _).mpr hown) hc) hne

section Scheduler

variable [DecidableEq K] {t : Machine N K C} {c : C} {a : Access N K}

structure SchedStep (s t : Machine N K C) (c : C) (a : Access N K) : Prop where
  text : SchedText (s.cpu c) a (t.cpu c)
  does : a.Does c s.mem t.mem
  cpu : ∀ d, d ≠ c → t.cpu d = s.cpu d
  point : t.point = s.point

theorem SchedStep.running_iff (hs : SchedStep s t c a) (d : C) (p : Fin N) :
    t.cpu d = .running p ↔ s.cpu d = .running p := by
  by_cases hd : d = c
  · subst d
    exact iff_of_false (SchedText.not_running hs.text p).2 (SchedText.not_running hs.text p).1
  · rw [hs.cpu d hd]

theorem SchedStep.cond (hs : SchedStep s t c a) : t.mem.cond = s.mem.cond := by
  obtain he | ⟨b, rfl, -⟩ := hs.does.cond_eq
  · exact he
  · exact absurd rfl (hs.text.frame.1 b)

theorem SchedStep.locks (h : s.Inv chan) (hs : SchedStep s t c a) (d : C) (l : LockId N) :
    t.mem.locks l = some d ↔ t.Holds d l := by
  have hnot := SchedText.not_running hs.text
  apply hs.does.locks h.locks
  · intro l
    have he : (fun l => (s.cpu c).Holds l) = s.Holds c :=
      funext fun l => propext (holds_scheduler (fun p => (hnot p).1) l).symm
    rw [holds_scheduler fun p => (hnot p).2, hs.text.holds, he]
  · intro d hd
    exact holds_congr (hs.cpu d hd) fun q _ => by rw [hs.point]

theorem SchedStep.state (hs : SchedStep s t c a) (q : Fin N) :
    t.mem.state q = s.mem.state q ∨ (s.Holds c (.proc q) ∧ t.mem.state q = .running) := by
  obtain he | ⟨st, rfl, he⟩ := hs.does.state_eq q
  · exact .inl he
  · obtain ⟨hl, rfl⟩ := SchedText.setState hs.text
    exact .inr ⟨(holds_scheduler (fun p => (SchedText.not_running hs.text p).1) _).mpr hl, he⟩

theorem SchedStep.facts (h : s.Inv chan) (hs : SchedStep s t c a) (d : C) : t.Facts d := by
  by_cases hd : d = c
  · subst d
    have hf := h.facts c
    have hl := holds_scheduler fun p => (SchedText.not_running hs.text p).1
    have ht := hs.text
    have hdoes := hs.does
    unfold Facts at hf ⊢
    generalize hx : s.cpu c = x at ht hf hl
    generalize hy : t.cpu c = y at ht ⊢
    cases ht with
    | runnable p =>
      have hst : s.mem.state p = .runnable := of_decide_eq_true hdoes.1
      refine ⟨by rw [hdoes.2, hst], ?_⟩
      intro e he
      rw [hs.running_iff] at he
      have hne : e ≠ c := by
        rintro rfl
        rw [hx] at he
        cases he
      rw [h.not_runnable ((hl _).mpr rfl) he hne] at hst
      cases hst
    | setRunning p =>
      refine ⟨?_, fun e he => hf.2 e ((hs.running_iff e p).mp he)⟩
      rw [hdoes]
      exact update_self ..
    | _ => trivial
  · apply (h.facts d).stable (hs.cpu d hd) fun q _ => by rw [hs.point]
    · intro q hq
      obtain he | ⟨hl, -⟩ := hs.state q
      · exact he
      · exact absurd (h.eq_of_holds hq hl) hd
    · intro q _ hrun
      obtain he | ⟨-, he⟩ := hs.state q
      · rw [he, hrun]
      · exact he
    · exact fun _ => hs.cond
    · intro q _ hnone e he
      exact hnone e ((hs.running_iff e q).mp he)

theorem SchedStep.sleeper (hs : SchedStep s t c a) {q : Fin N} (ht : t.Sleeper q) :
    s.Sleeper q := by
  unfold Sleeper at ht ⊢
  rw [hs.point] at ht
  obtain he | ⟨-, he⟩ := hs.state q <;> rw [he] at ht
  · exact ht
  · exact ht.of_ne nofun

theorem SchedStep.inv (h : s.Inv chan) (hs : SchedStep s t c a) : t.Inv chan where
  locks := hs.locks h
  single d e p hd he := h.single d e p ((hs.running_iff d p).mp hd) ((hs.running_iff e p).mp he)
  parked p hp := by
    rw [hs.point]
    exact h.parked p fun d hd => hp d ((hs.running_iff d p).mpr hd)
  facts := hs.facts h
  chosen p hp := by
    rw [hs.point] at hp
    obtain he | ⟨ch, rfl, -⟩ := hs.does.chan_eq p
    · rw [he]
      exact h.chosen p hp
    · exact absurd rfl (hs.text.frame.2 p ch)
  cleared p d w hp hd := by
    rw [hs.point]
    exact h.cleared p d w (hs.sleeper hp) ((hs.running_iff d w).mp hd)
  made p hp hcond := by
    obtain ⟨d, w, hd, hm⟩ := h.made p (hs.sleeper hp) (hs.cond ▸ hcond)
    exact ⟨d, w, (hs.running_iff d w).mpr hd, by rwa [hs.point]⟩

end Scheduler

section Swtch

variable {t : Machine N K C} {c : C} {p : Fin N}

theorem Inv.swtchTo (h : s.Inv chan) (hc : s.cpu c = .switch p) (hmem : t.mem = s.mem)
    (hpoint : t.point = s.point) (hself : t.cpu c = .running p)
    (hother : ∀ d, d ≠ c → t.cpu d = s.cpu d) : t.Inv chan := by
  have hf := h.facts c
  simp only [Facts, hc] at hf
  have hpark := h.parked p hf.2
  have hnew : ∀ d q, t.cpu d = .running q → (d = c ∧ q = p) ∨ (d ≠ c ∧ s.cpu d = .running q) := by
    intro d q hd
    by_cases hdc : d = c
    · subst d
      rw [hself] at hd
      exact .inl ⟨rfl, (CpuPoint.running.inj hd).symm⟩
    · rw [hother d hdc] at hd
      exact .inr ⟨hdc, hd⟩
  have hold : ∀ d q, s.cpu d = .running q → t.cpu d = .running q := by
    intro d q hd
    rw [hother d, hd]
    rintro rfl
    rw [hc] at hd
    cases hd
  have hsleep : ∀ q, t.Sleeper q ↔ s.Sleeper q := by
    intro q
    unfold Sleeper
    rw [hpoint, hmem]
  refine ⟨?_, ?_, ?_, ?_, ?_, ?_, ?_⟩
  · intro d l
    rw [hmem, h.locks]
    by_cases hd : d = c
    · subst d
      rw [holds_running hself, hpoint, hpark.holds]
      simp [Holds, hc, CpuPoint.Holds]
    · exact (holds_congr (hother d hd) (fun q _ => by rw [hpoint]) l).symm
  · intro d e q hd he
    obtain ⟨rfl, rfl⟩ | ⟨-, hd⟩ := hnew d q hd <;> obtain ⟨rfl, he'⟩ | ⟨-, he⟩ := hnew e q he
    · rfl
    · exact absurd he (hf.2 e)
    · exact absurd (he' ▸ hd) (hf.2 d)
    · exact h.single d e q hd he
  · intro q hq
    rw [hpoint]
    exact h.parked q fun d hd => hq d (hold d q hd)
  · intro d
    by_cases hd : d = c
    · subst d
      unfold Facts
      simp only [hself, hpoint, hmem]
      exact ⟨fun _ => hf.1, fun i hi => absurd hi (hpark.idle.finds N i),
        fun hb => absurd hb hpark.idle.beforeSleep⟩
    · apply (h.facts d).stable (hother d hd) fun q _ => by rw [hpoint]
      · exact fun q _ => by rw [hmem]
      · exact fun q _ hrun => by rw [hmem, hrun]
      · exact fun _ => by rw [hmem]
      · intro q hq hnone e he
        obtain ⟨rfl, rfl⟩ | ⟨-, he⟩ := hnew e q he
        · have hl : s.Holds e (.proc q) := by simp [Holds, hc, CpuPoint.Holds]
          exact hd (h.eq_of_holds hq hl)
        · exact hnone e he
  · rw [hpoint, hmem]
    exact h.chosen
  · intro q d w hq hd
    rw [hpoint]
    obtain ⟨rfl, rfl⟩ | ⟨-, hd⟩ := hnew d w hd
    · exact hpark.idle.cleared N chan q
    · exact h.cleared q d w ((hsleep q).mp hq) hd
  · intro q hq hcond
    rw [hmem] at hcond
    obtain ⟨d, w, hd, hm⟩ := h.made q ((hsleep q).mp hq) hcond
    exact ⟨d, w, hold d w hd, by rwa [hpoint]⟩

theorem Inv.swtchBack {y : Point K} (h : s.Inv chan) (hc : s.cpu c = .running p)
    (hy : (s.point p).afterSched = some y) (hmem : t.mem = s.mem) (hp : t.point p = y)
    (hpoint : ∀ q, q ≠ p → t.point q = s.point q) (hself : t.cpu c = .back p)
    (hother : ∀ d, d ≠ c → t.cpu d = s.cpu d) : t.Inv chan := by
  have hiff : ∀ d q, t.cpu d = .running q ↔ d ≠ c ∧ s.cpu d = .running q := by
    intro d q
    by_cases hd : d = c
    · subst d
      simp [hself]
    · simp [hd, hother d hd]
  have hne : ∀ d q, d ≠ c → s.cpu d = .running q → q ≠ p := by
    rintro d q hd hq rfl
    exact hd (h.single d c q hq hc)
  have hpt : ∀ d, d ≠ c → ∀ q, s.cpu d = .running q → t.point q = s.point q :=
    fun d hd q hq => hpoint q (hne d q hd hq)
  -- the two points differ in nothing that the invariant speaks of
  have hxy : (∀ l, (s.point p).Holds p l ↔ l = .proc p) ∧ y.Parked ∧
      (∀ st, y.Sleeper st ↔ (s.point p).Sleeper st) ∧ (y.Chosen ↔ (s.point p).Chosen) ∧
      ¬ (s.point p).Made := by
    obtain ⟨o, hx, rfl⟩ | ⟨b, hx, rfl⟩ := Point.afterSched_eq_some hy <;> rw [hx]
    · cases o <;> exact ⟨fun l => by simp [Point.Holds, SleepAt.own], trivial, fun _ => Iff.rfl,
        Iff.rfl, id⟩
    · exact ⟨fun l => by simp [Point.Holds], trivial, fun _ => Iff.rfl, Iff.rfl, id⟩
  obtain ⟨hholds, hpark, hsl, hch, hmade⟩ := hxy
  have hsleep : ∀ q, t.Sleeper q ↔ s.Sleeper q := by
    intro q
    unfold Sleeper
    rw [hmem]
    by_cases hq : q = p
    · rw [hq, hp]
      exact hsl _
    · rw [hpoint q hq]
  refine ⟨?_, ?_, ?_, ?_, ?_, ?_, ?_⟩
  · intro d l
    rw [hmem, h.locks]
    by_cases hd : d = c
    · subst d
      rw [holds_running hc, hholds]
      simp [Holds, hself, CpuPoint.Holds]
    · exact (holds_congr (hother d hd) (hpt d hd) l).symm
  · intro d e q hd he
    exact h.single d e q ((hiff d q).mp hd).2 ((hiff e q).mp he).2
  · intro q hq
    by_cases hqp : q = p
    · rw [hqp, hp]
      exact hpark
    · rw [hpoint q hqp]
      apply h.parked
      intro d hd
      refine hq d ((hiff d q).mpr ⟨?_, hd⟩)
      rintro rfl
      rw [hc] at hd
      exact hqp (CpuPoint.running.inj hd).symm
  · intro d
    by_cases hd : d = c
    · subst d
      simp only [Facts, hself]
    · apply (h.facts d).stable (hother d hd) (hpt d hd)
      · exact fun q _ => by rw [hmem]
      · exact fun q _ hrun => by rw [hmem, hrun]
      · exact fun _ => by rw [hmem]
      · exact fun q _ hnone e he => hnone e ((hiff e q).mp he).2
  · intro q hq
    rw [hmem]
    apply h.chosen
    by_cases hqp : q = p
    · rw [hqp, hp] at hq
      rw [hqp]
      exact hch.mp hq
    · rwa [hpoint q hqp] at hq
  · intro q d w hq hd
    obtain ⟨hdc, hd⟩ := (hiff d w).mp hd
    rw [hpt d hdc w hd]
    exact h.cleared q d w ((hsleep q).mp hq) hd
  · intro q hq hcond
    rw [hmem] at hcond
    obtain ⟨d, w, hd, hm⟩ := h.made q ((hsleep q).mp hq) hcond
    have hdc : d ≠ c := by
      rintro rfl
      rw [hc] at hd
      obtain rfl := CpuPoint.running.inj hd
      exact hmade hm
    exact ⟨d, w, (hiff d w).mpr ⟨hdc, hd⟩, by rwa [hpt d hdc w hd]⟩

end Swtch

theorem Start.inv (h : s.Start) : s.Inv chan := by
  have hnot : ∀ c p, s.cpu c ≠ .running p := by
    intro c p hc
    obtain ⟨q, hq⟩ := h.cpu c
    rw [hq] at hc
    cases hc
  have hsleep : ∀ p, ¬ s.Sleeper p := by
    intro p hp
    unfold Sleeper at hp
    rw [h.point p] at hp
    exact hp
  refine ⟨?_, ?_, ?_, ?_, ?_, ?_, ?_⟩
  · intro c l
    rw [h.locks l, holds_scheduler (hnot c)]
    obtain ⟨q, hq⟩ := h.cpu c
    simp [hq, CpuPoint.Holds]
  · exact fun c _ p hc => absurd hc (hnot c p)
  · intro p _
    rw [h.point p]
    trivial
  · intro c
    obtain ⟨q, hq⟩ := h.cpu c
    simp only [Facts, hq]
  · intro p hp
    rw [h.point p] at hp
    exact hp.elim
  · exact fun p _ _ hp => absurd hp (hsleep p)
  · exact fun p hp => absurd hp (hsleep p)

variable [DecidableEq K] [DecidableEq C]

theorem Inv.step {t : Machine N K C} (h : s.Inv chan) (hst : MachineStep chan s t) :
    t.Inv chan := by
  cases hst with
  | scheduler ht ha =>
    apply SchedStep.inv h
    exact ⟨by simpa using ht, ha, fun d hd => update_of_ne hd .., rfl⟩
  | thread hc ht ha =>
    apply ThreadStep.inv h
    exact ⟨hc, ht, ha, rfl, update_self .., fun q hq => update_of_ne hq ..⟩
  | swtchTo hc =>
    exact h.swtchTo hc rfl rfl (update_self ..) fun d hd => update_of_ne hd ..
  | swtchBack hc hx =>
    exact h.swtchBack hc hx rfl (update_self ..) (fun q hq => update_of_ne hq ..)
      (update_self ..) fun d hd => update_of_ne hd ..

theorem Inv.reaches {t : Machine N K C} (h : s.Inv chan) (hr : Reaches chan s t) : t.Inv chan := by
  induction hr with
  | refl => exact h
  | tail _ hst ih => exact ih.step hst

end Machine

/-- In every reachable state in which `lk` is free and `C` is true, no process inside
`sleep(chan, lk)` is SLEEPING on `chan`. -/
theorem sleep_loses_no_wakeup [DecidableEq K] [DecidableEq C] (chan : K) (s t : Machine N K C)
    (hs : s.Start) (hr : Machine.Reaches chan s t) (hfree : t.mem.locks .lk = none)
    (hcond : t.mem.cond = true) (p : Fin N) (pos : SleepAt) (hp : t.point p = .sleep none pos) :
    ¬ (t.mem.state p = .sleeping ∧ t.mem.chan p = some chan) := by
  rintro ⟨hst, -⟩
  have h : t.Inv chan := hs.inv.reaches hr
  have hno : ¬ t.Sleeper p := by
    intro hsl
    obtain ⟨d, w, hd, hm⟩ := h.made p hsl hcond
    have hl := (h.locks d .lk).mpr ((Machine.holds_running hd _).mpr hm.holds)
    rw [hfree] at hl
    cases hl
  unfold Machine.Sleeper at hno
  rw [hp] at hno
  -- at its other points the thread runs, and its state is RUNNING
  have hrun : ¬ (t.point p).Parked → (t.point p).afterSched = none → False := by
    intro hpark hafter
    obtain ⟨d, hd⟩ : ∃ d, t.cpu d = .running p := by
      by_contra hnone
      exact hpark (h.parked p (not_exists.mp hnone))
    have hf := h.facts d
    simp only [Machine.Facts, hd] at hf
    rw [hf.1 hafter] at hst
    cases hst
  rw [hp] at hrun
  cases pos with
  | sched | clearChan => exact hno hst
  | _ => exact hrun id rfl

def twoProcs : Machine 2 Unit Unit where
  mem := ⟨fun _ => none, fun _ => .runnable, fun _ => none, false⟩
  point _ := .yield .release .outside
  cpu _ := .scan ⟨0, Nat.zero_lt_two⟩

theorem twoProcs_start : twoProcs.Start :=
  ⟨fun _ => rfl, fun _ => ⟨nofun, nofun⟩, fun _ => rfl, fun _ => ⟨0, rfl⟩⟩

theorem Machine.reaches_cons [DecidableEq K] [DecidableEq C] {s u : Machine N K C}
    {Q : Machine N K C → Prop} (h : MachineStep chan s u) (hu : ∃ t, Reaches chan u t ∧ Q t) :
    ∃ t, Reaches chan s t ∧ Q t := by
  obtain ⟨t, hr, hq⟩ := hu
  exact ⟨t, .head h hr, hq⟩

open Machine MachineStep in
theorem twoProcs_wakes :
    ∃ t, Reaches () twoProcs t ∧ t.mem.locks .lk = none ∧ t.mem.cond = true ∧
      t.mem.state 0 = .runnable ∧ t.point 0 = .sleep none .clearChan := by
  refine reaches_cons (scheduler (c := ()) (.acquire 0) ⟨rfl, rfl⟩) ?_
  refine reaches_cons (scheduler (c := ()) (.runnable 0) ⟨rfl, rfl⟩) ?_
  refine reaches_cons (scheduler (c := ()) (.setRunning 0) rfl) ?_
  refine reaches_cons (swtchTo (c := ()) (p := 0) rfl) ?_
  refine reaches_cons (thread (c := ()) (p := 0) rfl (.yieldRelease .outside) ⟨rfl, rfl⟩) ?_
  refine reaches_cons (thread (c := ()) (p := 0) rfl .enter ⟨rfl, rfl⟩) ?_
  refine reaches_cons (thread (c := ()) (p := 0) rfl (.callSleep false false nofun) ⟨rfl, rfl⟩) ?_
  refine reaches_cons (thread (c := ()) (p := 0) rfl (.sleepAcquire none) ⟨rfl, rfl⟩) ?_
  refine reaches_cons (thread (c := ()) (p := 0) rfl .releaseLk ⟨rfl, rfl⟩) ?_
  refine reaches_cons (thread (c := ()) (p := 0) rfl (.setChan none) rfl) ?_
  refine reaches_cons (thread (c := ()) (p := 0) rfl (.setSleeping none) rfl) ?_
  refine reaches_cons (swtchBack (c := ()) (p := 0) rfl rfl) ?_
  refine reaches_cons (scheduler (c := ()) (.clearProc 0) rfl) ?_
  refine reaches_cons (scheduler (c := ()) (.release 0) ⟨rfl, rfl⟩) ?_
  refine reaches_cons (scheduler (c := ()) (.acquire 1) ⟨rfl, rfl⟩) ?_
  refine reaches_cons (scheduler (c := ()) (.runnable 1) ⟨rfl, rfl⟩) ?_
  refine reaches_cons (scheduler (c := ()) (.setRunning 1) rfl) ?_
  refine reaches_cons (swtchTo (c := ()) (p := 1) rfl) ?_
  refine reaches_cons (thread (c := ()) (p := 1) rfl (.yieldRelease .outside) ⟨rfl, rfl⟩) ?_
  refine reaches_cons (thread (c := ()) (p := 1) rfl .enter ⟨rfl, rfl⟩) ?_
  refine reaches_cons (thread (c := ()) (p := 1) rfl (.makeTrue false false) rfl) ?_
  refine reaches_cons (thread (c := ()) (p := 1) rfl (.callWakeup true false ()) rfl) ?_
  refine reaches_cons (thread (c := ()) (p := 1) rfl (.wakeAcquire _ () 0 nofun) ⟨rfl, rfl⟩) ?_
  refine reaches_cons (thread (c := ()) (p := 1) rfl (.wakeAsleep _ () 0) ⟨rfl, rfl⟩) ?_
  refine reaches_cons (thread (c := ()) (p := 1) rfl (.wakeChan _ () 0) ⟨rfl, rfl⟩) ?_
  refine reaches_cons (thread (c := ()) (p := 1) rfl (.wakeSet _ () 0) rfl) ?_
  refine reaches_cons (thread (c := ()) (p := 1) rfl (.wakeRelease _ () 0) ⟨rfl, rfl⟩) ?_
  refine reaches_cons (thread (c := ()) (p := 1) rfl (.wakeSelf _ ()) rfl) ?_
  refine reaches_cons (thread (c := ()) (p := 1) rfl (.wakeReturn true false ()) rfl) ?_
  refine reaches_cons (thread (c := ()) (p := 1) rfl (.leave true true fun _ => rfl) ⟨rfl, rfl⟩) ?_
  exact ⟨_, .refl, rfl, rfl, rfl, rfl⟩

theorem sleep_loses_no_wakeup_twoProcs :
    ∃ t, Machine.Reaches () twoProcs t ∧ t.mem.locks .lk = none ∧ t.mem.cond = true ∧
      t.point 0 = .sleep none .clearChan ∧
      ¬ (t.mem.state 0 = .sleeping ∧ t.mem.chan 0 = some ()) := by
  obtain ⟨t, hr, hfree, hcond, -, hp⟩ := twoProcs_wakes
  exact ⟨t, hr, hfree, hcond, hp,
    sleep_loses_no_wakeup () twoProcs t twoProcs_start hr hfree hcond 0 .clearChan hp⟩

end Xv6
