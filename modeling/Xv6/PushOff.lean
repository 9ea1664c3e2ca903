import Mathlib.Logic.Function.Basic
import Xv6.ActionRun

/-! `push_off`, `pop_off` and `sched`: kernel threads that nest them and change CPUs. `noff` and
`intena` belong to a CPU, what they stand for to the thread that runs on it. -/

namespace Xv6

open Function

namespace PushOff

open ActionRun

/-- `intr` is the SIE bit. `noff` is an `int` in the source: every level of nesting is a call that has
not ended, on a kernel stack of one page, which keeps it far below `2 ^ 31`. -/
structure Cpu where
  noff : Nat
  intena : Bool
  intr : Bool

/-- A kernel thread: how deep it is in `push_off`, whether interrupts were on when it began the
outermost one (`none` if the scheduler did that for it), the variable `old` of a `push_off` that
has called `intr_get`, those of the ones that have been interrupted there, and its spinlocks. -/
structure Thread (Lk : Type) where
  depth : Nat
  outer : Option Bool
  old : Option Bool
  traps : List (Option Bool)
  locks : List Lk

inductive Panic where
  | popOffInterruptible
  | popOff
  | schedLocks
  | schedInterruptible

/-- Steps of a thread on its CPU. `acquire` is `intrGet`, `pushOff` and `take`, `release` is `drop`
and `popOff`. A trap ends with `sret`, which enables interrupts again. -/
inductive Op (Lk : Type) where
  | intrGet
  | pushOff
  | popOff
  | take (l : Lk)
  | drop (l : Lk)
  | intrOn
  | intrOff
  | trap
  | sret

variable {C P Lk : Type} [DecidableEq C] [DecidableEq P] [DecidableEq Lk]

/-- `push_off` from `intr_off` on. -/
def Cpu.pushOff (u : Cpu) (old : Bool) : Cpu where
  noff := u.noff + 1
  intena := if u.noff = 0 then old else u.intena
  intr := false

def Cpu.popOff (u : Cpu) : Except Panic Cpu :=
  if u.intr then .error .popOffInterruptible
  else if u.noff < 1 then .error .popOff
  else .ok { u with noff := u.noff - 1, intr := u.noff - 1 = 0 && u.intena }

/-- One step; what a properly nested thread does not do changes nothing. -/
def Thread.step (locked : Lk → Bool) (u : Cpu) (t : Thread Lk) :
    Op Lk → Except Panic (Cpu × Thread Lk × (Lk → Bool))
  | .intrGet => .ok (u, if t.old = none then { t with old := some u.intr } else t, locked)
  | .pushOff =>
    match t.old with
    | none => .ok (u, t, locked)
    | some old =>
      .ok (u.pushOff old, { t with
        depth := t.depth + 1
        outer := if t.depth = 0 then some old else t.outer
        old := none }, locked)
  | .popOff =>
    if t.old = none ∧ t.locks.length < t.depth then
      u.popOff.map fun u' => (u', { t with depth := t.depth - 1 }, locked)
    else .ok (u, t, locked)
  | .take l =>
    if t.old = none ∧ t.locks.length < t.depth ∧ locked l = false then
      .ok (u, { t with locks := l :: t.locks }, update locked l true)
    else .ok (u, t, locked)
  | .drop l =>
    if t.old = none ∧ l ∈ t.locks then
      .ok (u, { t with locks := t.locks.erase l }, update locked l false)
    else .ok (u, t, locked)
  | .intrOn => .ok (if t.old = none ∧ t.depth = 0 then { u with intr := true } else u, t, locked)
  | .intrOff => .ok (if t.old = none ∧ t.depth = 0 then { u with intr := false } else u, t, locked)
  | .trap =>
    if u.intr then .ok ({ u with intr := false }, { t with old := none, traps := t.old :: t.traps },
      locked)
    else .ok (u, t, locked)
  | .sret =>
    match t.traps with
    | [] => .ok (u, t, locked)
    | old :: traps =>
      if t.old = none ∧ t.depth = 0 then
        .ok ({ u with intr := true }, { t with old := old, traps := traps }, locked)
      else .ok (u, t, locked)

/-- Where the thread of a process is: in the `swtch` of `sched`, with the variable `intena` (a new
one is about to start in `forkret`, and has none), or on a CPU. -/
inductive Place (C : Type) where
  | unused
  | parked (intena : Option Bool)
  | on (c : C)

/-- `cur c` is `c->proc`; without it the scheduler of the CPU runs. -/
structure Sys (C P Lk : Type) where
  cpu : C → Cpu
  cur : C → Option P
  sch : C → Thread Lk
  proc : P → Thread Lk
  place : P → Place C
  locked : Lk → Bool

inductive Act (P Lk : Type) where
  | op (o : Op Lk)
  /-- The process that runs calls `sched`. -/
  | sched
  /-- The scheduler has found `p` runnable. -/
  | swtch (p : P)
  | allocproc (p : P)
  | freeproc (p : P)

namespace Sys

def thread (s : Sys C P Lk) (c : C) : Thread Lk :=
  match s.cur c with
  | some p => s.proc p
  | none => s.sch c

def setThread (s : Sys C P Lk) (c : C) (u : Cpu) (t : Thread Lk) : Sys C P Lk :=
  match s.cur c with
  | some p => { s with cpu := update s.cpu c u, proc := update s.proc p t }
  | none => { s with cpu := update s.cpu c u, sch := update s.sch c t }

variable (plock : P → Lk)

def sched (s : Sys C P Lk) (c : C) (p : P) : Except Panic (Sys C P Lk) :=
  if (s.proc p).old = none ∧ (s.proc p).depth = 1 ∧ (s.proc p).locks = [plock p] then
    if (s.cpu c).noff ≠ 1 then .error .schedLocks
    else if (s.cpu c).intr then .error .schedInterruptible
    else .ok { s with
      cur := update s.cur c none
      place := update s.place p (.parked (some (s.cpu c).intena)) }
  else .ok s

/-- The scheduler enters `p`, which goes on in `sched` or in `forkret`. Nothing is said of the
scheduler's own `pop_off`: it finds the `intena` that the process leaves. -/
def swtch (s : Sys C P Lk) (c : C) (p : P) (intena : Option Bool) : Sys C P Lk :=
  if (s.sch c).old = none ∧ (s.sch c).depth = 1 ∧ (s.sch c).locks = [plock p] then
    { s with
      cpu := update s.cpu c { s.cpu c with intena := intena.getD (s.cpu c).intena }
      cur := update s.cur c (some p)
      sch := update s.sch c { s.sch c with outer := none }
      place := update s.place p (.on c) }
  else s

/-- A step on CPU `c`. -/
def step (s : Sys C P Lk) : C × Act P Lk → Except Panic (Sys C P Lk)
  | (c, .op o) => do
    let (u, t, locked) ← (s.thread c).step s.locked (s.cpu c) o
    pure { s.setThread c u t with locked := locked }
  | (c, .sched) =>
    match s.cur c with
    | some p => s.sched plock c p
    | none => .ok s
  | (c, .swtch p) =>
    match s.cur c, s.place p with
    | none, .parked intena => .ok (s.swtch plock c p intena)
    | _, _ => .ok s
  | (_, .allocproc p) =>
    match s.place p with
    | .unused => .ok { s with
        proc := update s.proc p ⟨1, none, none, [], [plock p]⟩
        place := update s.place p (.parked none) }
    | _ => .ok s
  | (_, .freeproc p) =>
    match s.place p with
    | .parked _ => .ok { s with place := update s.place p .unused }
    | _ => .ok s

/-- The CPUs enter `scheduler` with interrupts off. -/
def boot (intena : C → Bool) : Sys C P Lk where
  cpu c := ⟨0, intena c, false⟩
  cur _ := none
  sch _ := ⟨0, none, none, [], []⟩
  proc _ := ⟨0, none, none, [], []⟩
  place _ := .unused
  locked _ := false

end Sys

/-- The CPU shows the state of the thread that runs on it. -/
structure Thread.Fits (u : Cpu) (t : Thread Lk) : Prop where
  noff : u.noff = t.depth
  off : 0 < t.depth → u.intr = false
  old : ∀ b, t.old = some b → u.intr = b
  traps : some false ∉ t.traps
  locks : t.locks.length ≤ t.depth
  outer : 0 < t.depth → ∀ b, t.outer = some b → u.intena = b

/-- A thread that has left its CPU with the lock `l`, and `intena` in a variable. -/
structure Thread.Waits (l : Lk) (intena : Option Bool) (t : Thread Lk) : Prop where
  depth : t.depth = 1
  old : t.old = none
  locks : t.locks = [l]
  traps : some false ∉ t.traps
  outer : ∀ b, t.outer = some b → intena = some b

variable {u u' : Cpu} {t t' : Thread Lk}

omit [DecidableEq Lk] in
theorem Thread.Waits.fits {l : Lk} {intena : Option Bool} (h : t.Waits l intena)
    (hnoff : u.noff = 1) (hoff : u.intr = false) (hout : ∀ b, intena = some b → u.intena = b) :
    t.Fits u where
  noff := hnoff.trans h.depth.symm
  off _ := hoff
  old b hb := by
    rw [h.old] at hb
    cases hb
  traps := h.traps
  locks := by rw [h.locks, h.depth, List.length_singleton]
  outer _ b hb := hout b (h.outer b hb)

omit [DecidableEq Lk] in
/-- A `pop_off` of a nested thread does not panic, and the outermost one restores what the
outermost `push_off` has found. -/
theorem Thread.Fits.popOff (h : t.Fits u) (hd : 0 < t.depth) :
    ∃ u', u.popOff = .ok u' ∧ u'.noff = t.depth - 1 ∧ u'.intena = u.intena ∧
      u'.intr = (t.depth - 1 = 0 && u.intena) := by
  have hn := h.noff
  refine ⟨{ u with noff := u.noff - 1, intr := u.noff - 1 = 0 && u.intena }, ?_, ?_, rfl, ?_⟩
  · rw [Cpu.popOff, h.off hd, if_neg (by decide), if_neg (by omega)]
  · exact congrArg (· - 1) hn
  · dsimp only
    rw [hn]

theorem Thread.Fits.step (h : t.Fits u) (locked : Lk → Bool) (o : Op Lk) :
    ∃ u' t' locked', t.step locked u o = .ok (u', t', locked') ∧ t'.Fits u' := by
  cases o with
  | intrGet =>
    refine ⟨_, _, _, rfl, ?_⟩
    split
    · exact { h with old := fun b hb => Option.some.inj hb }
    · exact h
  | pushOff =>
    rw [Thread.step]
    split
    · exact ⟨_, _, _, rfl, h⟩
    · rename_i old hold
      refine ⟨_, _, _, rfl, ?_, fun _ => rfl, (fun _ hb => by cases hb), h.traps, ?_, ?_⟩
      · exact congrArg (· + 1) h.noff
      · exact h.locks.trans (Nat.le_succ _)
      · intro _ b hb
        simp only [Cpu.pushOff, h.noff]
        by_cases hd : t.depth = 0
        · rw [if_pos hd] at hb ⊢
          exact Option.some.inj hb
        · rw [if_neg hd] at hb ⊢
          exact h.outer (by omega) b hb
  | popOff =>
    rw [Thread.step]
    split
    · rename_i hok
      obtain ⟨u', hpop, hnoff, hintena, hintr⟩ := h.popOff (by omega)
      rw [hpop]
      refine ⟨u', _, _, rfl, hnoff, fun hd => ?_, (fun b hb => ?_), h.traps, ?_, fun hd b hb => ?_⟩
      · dsimp only at hd
        rw [hintr, decide_eq_false (by omega), Bool.false_and]
      · rw [hok.1] at hb
        cases hb
      · dsimp only
        omega
      · dsimp only at hd
        exact hintena.trans (h.outer (by omega) b hb)
    · exact ⟨_, _, _, rfl, h⟩
  | take l =>
    rw [Thread.step]
    split
    · rename_i hok
      exact ⟨_, _, _, rfl, { h with locks := hok.2.1 }⟩
    · exact ⟨_, _, _, rfl, h⟩
  | drop l =>
    rw [Thread.step]
    split
    · exact ⟨_, _, _, rfl, { h with locks := (List.length_erase_le ..).trans h.locks }⟩
    · exact ⟨_, _, _, rfl, h⟩
  | intrOn | intrOff =>
    refine ⟨_, _, _, rfl, ?_⟩
    split
    · rename_i hok
      refine { h with off := (fun hd => absurd hok.2 hd.ne'), old := (fun b hb => ?_) }
      rw [hok.1] at hb
      cases hb
    · exact h
  | trap =>
    rw [Thread.step]
    split
    · rename_i hon
      refine ⟨_, _, _, rfl, { h with off := fun _ => rfl, old := (fun _ hb => by cases hb), traps := ?_ }⟩
      intro hmem
      rcases List.mem_cons.mp hmem with ho | hmem
      · rw [h.old false ho.symm] at hon
        cases hon
      · exact h.traps hmem
    · exact ⟨_, _, _, rfl, h⟩
  | sret =>
    rw [Thread.step]
    split
    · exact ⟨_, _, _, rfl, h⟩
    · rename_i old traps htraps
      have hin := h.traps
      rw [htraps, List.mem_cons, not_or] at hin
      split
      · rename_i hok
        refine ⟨_, _, _, rfl, { h with
          off := (fun hd => absurd hok.2 hd.ne'), old := (fun b hb => ?_), traps := hin.2 }⟩
        cases b
        · exact absurd hb.symm hin.1
        · rfl
      · exact ⟨_, _, _, rfl, h⟩

namespace Sys

variable {plock : P → Lk} {s s' : Sys C P Lk} {c : C} {p : P}

structure Inv (plock : P → Lk) (s : Sys C P Lk) : Prop where
  fits : ∀ c, (s.thread c).Fits (s.cpu c)
  cur : ∀ c p, s.cur c = some p → s.place p = .on c
  behind : ∀ c p, s.cur c = some p → (s.sch c).Waits (plock p) none
  parked : ∀ p intena, s.place p = .parked intena → (s.proc p).Waits (plock p) intena

omit [DecidableEq C] [DecidableEq P] [DecidableEq Lk] in
theorem thread_of_cur (h : s.cur c = some p) : s.thread c = s.proc p := by rw [thread, h]

omit [DecidableEq C] [DecidableEq P] [DecidableEq Lk] in
theorem thread_of_idle (h : s.cur c = none) : s.thread c = s.sch c := by rw [thread, h]

omit [DecidableEq C] [DecidableEq P] [DecidableEq Lk] in
theorem Inv.cur_inj (h : s.Inv plock) {d : C} (hc : s.cur c = some p) (hd : s.cur d = some p) :
    c = d := by
  have he := (h.cur c p hc).symm.trans (h.cur d p hd)
  cases he
  rfl

omit [DecidableEq Lk] in
theorem Inv.setThread (h : s.Inv plock) (ht : t.Fits u) (locked : Lk → Bool) :
    Inv plock { s.setThread c u t with locked := locked } := by
  cases hc : s.cur c with
  | none =>
    simp only [Sys.setThread, hc]
    refine ⟨fun d => ?_, h.cur, fun d p hd => ?_, h.parked⟩
    · by_cases he : d = c
      · subst d
        simpa [thread, hc] using ht
      · have hd := h.fits d
        simp only [thread, update_of_ne he] at hd ⊢
        exact hd
    · have he : d ≠ c := fun he => by
        rw [he, hc] at hd
        cases hd
      dsimp only
      rw [update_of_ne he]
      exact h.behind d p hd
  | some p =>
    simp only [Sys.setThread, hc]
    refine ⟨fun d => ?_, h.cur, h.behind, fun q intena hq => ?_⟩
    · by_cases he : d = c
      · subst d
        simpa [thread, hc] using ht
      · have hd := h.fits d
        cases hcd : s.cur d with
        | none =>
          simp only [thread, hcd, update_of_ne he] at hd ⊢
          exact hd
        | some q =>
          have hne : q ≠ p := fun hqp => he (h.cur_inj (hqp ▸ hcd) hc)
          simp only [thread, hcd, update_of_ne he, update_of_ne hne] at hd ⊢
          exact hd
    · have hne : q ≠ p := fun hqp => by
        have hon := h.cur c p hc
        rw [← hqp, hq] at hon
        cases hon
      dsimp only
      rw [update_of_ne hne]
      exact h.parked q intena hq

theorem Inv.sched (h : s.Inv plock) (hc : s.cur c = some p) :
    ∃ s', s.sched plock c p = .ok s' ∧ s'.Inv plock := by
  rw [Sys.sched]
  split
  swap
  · exact ⟨s, rfl, h⟩
  rename_i hok
  obtain ⟨hold, hdepth, hlocks⟩ := hok
  have hf := h.fits c
  rw [thread_of_cur hc] at hf
  have hnoff : (s.cpu c).noff = 1 := hf.noff.trans hdepth
  have hoff : (s.cpu c).intr = false := hf.off (by omega)
  rw [if_neg (by simp [hnoff]), hoff, if_neg (by decide)]
  have hnext : ∀ d q, update s.cur c none d = some q → d ≠ c ∧ s.cur d = some q ∧ q ≠ p := by
    intro d q hd
    by_cases he : d = c
    · rw [he, update_self] at hd
      cases hd
    · rw [update_of_ne he] at hd
      exact ⟨he, hd, fun hqp => he (h.cur_inj (hqp ▸ hd) hc)⟩
  refine ⟨_, rfl, fun d => ?_, fun d q hd => ?_, fun d q hd => ?_, fun q intena hq => ?_⟩
  · by_cases he : d = c
    · subst d
      simp only [thread, update_self]
      exact (h.behind c p hc).fits hnoff hoff fun b hb => by cases hb
    · have hd := h.fits d
      simp only [thread, update_of_ne he] at hd ⊢
      exact hd
  · obtain ⟨-, hd, hne⟩ := hnext d q hd
    dsimp only
    rw [update_of_ne hne]
    exact h.cur d q hd
  · exact h.behind d q (hnext d q hd).2.1
  · dsimp only at hq
    by_cases hqp : q = p
    · subst q
      rw [update_self] at hq
      cases hq
      exact ⟨hdepth, hold, hlocks, hf.traps,
        fun b hb => congrArg some (hf.outer (by omega) b hb)⟩
    · rw [update_of_ne hqp] at hq
      exact h.parked q intena hq

theorem Inv.swtch {intena : Option Bool} (h : s.Inv plock) (hc : s.cur c = none)
    (hp : s.place p = .parked intena) : (s.swtch plock c p intena).Inv plock := by
  rw [Sys.swtch]
  split
  swap
  · exact h
  rename_i hok
  obtain ⟨hold, hdepth, hlocks⟩ := hok
  have hf := h.fits c
  rw [thread_of_idle hc] at hf
  have hne : ∀ d q, s.cur d = some q → d ≠ c ∧ q ≠ p := by
    intro d q hd
    refine ⟨fun he => ?_, fun he => ?_⟩
    · rw [he, hc] at hd
      cases hd
    · have hon := h.cur d q hd
      rw [he, hp] at hon
      cases hon
  refine ⟨fun d => ?_, fun d q hd => ?_, fun d q hd => ?_, fun q v hq => ?_⟩
  · by_cases he : d = c
    · subst d
      simp only [thread, update_self]
      refine (h.parked p intena hp).fits (hf.noff.trans hdepth) (hf.off (by omega)) fun b hb => ?_
      rw [hb]
      rfl
    · have hd := h.fits d
      simp only [thread, update_of_ne he] at hd ⊢
      exact hd
  · by_cases he : d = c
    · subst d
      simp only [update_self, Option.some.injEq] at hd ⊢
      subst q
      rw [update_self]
    · simp only [update_of_ne he] at hd
      dsimp only
      rw [update_of_ne (hne d q hd).2]
      exact h.cur d q hd
  · by_cases he : d = c
    · subst d
      simp only [update_self, Option.some.injEq] at hd ⊢
      subst q
      exact ⟨hdepth, hold, hlocks, hf.traps, fun b hb => by cases hb⟩
    · simp only [update_of_ne he] at hd ⊢
      exact h.behind d q hd
  · dsimp only at hq
    by_cases hqp : q = p
    · subst q
      rw [update_self] at hq
      cases hq
    · rw [update_of_ne hqp] at hq
      exact h.parked q v hq

omit [DecidableEq C] [DecidableEq Lk] in
theorem Inv.setPlace (h : s.Inv plock) (hp : ∀ d, s.place p ≠ .on d) {x : Place C}
    (hx : ∀ intena, x = .parked intena → t.Waits (plock p) intena) :
    Inv plock { s with
      proc := update s.proc p t
      place := update s.place p x } := by
  have hne : ∀ d q, s.cur d = some q → q ≠ p := by
    rintro d q hd rfl
    exact hp d (h.cur d q hd)
  refine ⟨fun d => ?_, fun d q hd => ?_, h.behind, fun q intena hq => ?_⟩
  · have hd := h.fits d
    cases hcd : s.cur d with
    | none =>
      simp only [thread, hcd] at hd ⊢
      exact hd
    | some q =>
      simp only [thread, hcd, update_of_ne (hne d q hcd)] at hd ⊢
      exact hd
  · dsimp only
    rw [update_of_ne (hne d q hd)]
    exact h.cur d q hd
  · by_cases hqp : q = p
    · subst q
      simp only [update_self] at hq ⊢
      exact hx intena hq
    · simp only [update_of_ne hqp] at hq ⊢
      exact h.parked q intena hq

/-- No step panics. -/
theorem Inv.step (h : s.Inv plock) (a : C × Act P Lk) :
    ∃ s', s.step plock a = .ok s' ∧ s'.Inv plock := by
  obtain ⟨c, a⟩ := a
  cases a with
  | op o =>
    obtain ⟨u, t, locked, hstep, hfits⟩ := (h.fits c).step s.locked o
    refine ⟨{ s.setThread c u t with locked := locked }, ?_, h.setThread hfits locked⟩
    rw [Sys.step, hstep]
    rfl
  | sched =>
    rw [Sys.step]
    split
    · rename_i p hc
      exact h.sched hc
    · exact ⟨s, rfl, h⟩
  | swtch p =>
    rw [Sys.step]
    split
    · rename_i intena hc hp
      exact ⟨_, rfl, h.swtch hc hp⟩
    · exact ⟨s, rfl, h⟩
  | allocproc p =>
    rw [Sys.step]
    split
    · rename_i hp
      refine ⟨_, rfl, h.setPlace (fun d hd => ?_) (fun intena hx => ?_)⟩
      · rw [hp] at hd
        cases hd
      · exact ⟨rfl, rfl, rfl, by simp, fun b hb => by cases hb⟩
    · exact ⟨s, rfl, h⟩
  | freeproc p =>
    rw [Sys.step]
    split
    · rename_i intena hp
      have hset := h.setPlace (p := p) (t := s.proc p) (x := .unused) (fun d hd => ?_)
        (fun intena hx => by cases hx)
      · rw [update_eq_self] at hset
        exact ⟨_, rfl, hset⟩
      · rw [hp] at hd
        cases hd
    · exact ⟨s, rfl, h⟩

omit [DecidableEq C] [DecidableEq P] [DecidableEq Lk] in
theorem boot_inv (plock : P → Lk) (intena : C → Bool) : (boot intena : Sys C P Lk).Inv plock where
  fits _ := ⟨rfl, fun hd => absurd hd (Nat.lt_irrefl 0), (fun _ hb => by cases hb),
    List.not_mem_nil, Nat.zero_le _, fun hd => absurd hd (Nat.lt_irrefl 0)⟩
  cur _ _ h := by cases h
  behind _ _ h := by cases h
  parked _ _ h := by cases h

/-- The interrupt state belongs to the thread: a thread with a lock has interrupts off and its
depth in `noff`, and the outermost `pop_off` of a process leaves interrupts as its outermost
`push_off` has found them. -/
structure Kept (plock : P → Lk) (s : Sys C P Lk) : Prop where
  off : ∀ c, (s.thread c).locks ≠ [] → (s.cpu c).intr = false
  noff : ∀ c, (s.cpu c).noff = (s.thread c).depth
  outermost : ∀ c p b s', s.cur c = some p → (s.proc p).depth = 1 → (s.proc p).outer = some b →
    s.step plock (c, .op .popOff) = .ok s' → (s'.proc p).depth = 0 → (s'.cpu c).intr = b

theorem Inv.kept (h : s.Inv plock) : s.Kept plock where
  off c hl := by
    have hlen := (h.fits c).locks
    exact (h.fits c).off (by have := List.length_pos_iff.mpr hl; omega)
  noff c := (h.fits c).noff
  outermost c p b s' hc hd hb hs hd' := by
    have hf := h.fits c
    rw [thread_of_cur hc] at hf
    obtain ⟨u, hpop, -, -, hintr⟩ := hf.popOff (by omega)
    rw [hd, hf.outer (by omega) b hb] at hintr
    simp only [Sys.step, thread_of_cur hc, Thread.step] at hs
    split at hs
    · rw [hpop] at hs
      cases hs
      simpa [Sys.setThread, hc] using hintr
    · cases hs
      simp [Sys.setThread, hc, hd] at hd'

/-- Interrupts, `noff` and `intena` under every interleaving on any number of CPUs. No run panics. -/
theorem interrupt_state_kept (plock : P → Lk) (intena : C → Bool) (as : List (C × Act P Lk)) :
    ∃ s, run (step plock) (boot intena : Sys C P Lk) as = .ok s ∧ s.Kept plock := by
  suffices hrun : ∀ s : Sys C P Lk, s.Inv plock → ∃ s', run (step plock) s as = .ok s' ∧
      s'.Inv plock by
    obtain ⟨s, hs, hinv⟩ := hrun _ (boot_inv plock intena)
    exact ⟨s, hs, hinv.kept⟩
  induction as with
  | nil => exact fun s h => ⟨s, rfl, h⟩
  | cons a as ih =>
    intro s h
    obtain ⟨t, ht, hinv⟩ := h.step a
    obtain ⟨s', hs, hinv'⟩ := ih t hinv
    exact ⟨s', by rw [run, ht]; exact hs, hinv'⟩

/-- A process takes its lock on one CPU with interrupts on and gives it back on another one, which
has had them off. -/
example : ((run (step id) (boot fun _ => false : Sys Bool Unit Unit)
    ((false, .allocproc ()) :: [.op .intrOn, .op .intrGet, .op .pushOff, .op (.take ()), .swtch (),
        .op (.drop ()), .op .popOff, .op .intrGet, .op .pushOff, .op (.take ()), .sched,
        .op (.drop ()), .op .popOff].map (Prod.mk false) ++
      [.op .intrGet, .op .pushOff, .op (.take ()), .swtch (), .op (.drop ()), .op .popOff].map
        (Prod.mk true))).toOption.map fun s => (s.cpu true).intr) = some true := by
  decide

end Sys

end PushOff

end Xv6
