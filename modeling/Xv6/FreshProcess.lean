import Mathlib.Data.List.FinRange
import Xv6.ActionRun
import Xv6.Sched

/-! Where a process's `killed` flag comes from. Runs of whole system calls: `fork`, `kill`,
`exit` and `wait` by any process, and traps, in which a process is marked by `setkilled`
for a fault or finds itself killed and exits. -/

namespace Xv6

open ActionRun Function

inductive ProcPanic where
  | initExiting
  deriving DecidableEq

/-- The process table, with the number of calls made so far and, for each slot, when its
process was created and when its `killed` flag was last set. -/
structure ProcTab where
  slot : ProcId → ProcSlot
  nextpid : Int
  initproc : ProcId
  now : Nat
  born : ProcId → Nat
  marked : ProcId → Nat

inductive ProcCall where
  /-- `fork` by `p`; `mem` tells whether the allocations it makes succeed. -/
  | fork (p : ProcId) (mem : Bool)
  | kill (p : ProcId) (pid : Int)
  | exit (p : ProcId) (status : Int)
  /-- `wait` by `p`; `copied` tells whether the status can be copied out. -/
  | wait (p : ProcId) (copied : Bool)
  | setkilled (p : ProcId)
  /-- `p` is about to return to user space, and exits if it has been killed. -/
  | usertrap (p : ProcId)

namespace ProcTab

def setSlot (s : ProcTab) (q : ProcId) (x : ProcSlot) : ProcTab :=
  { s with slot := update s.slot q x }

def first (s : ProcTab) (f : ProcSlot → Bool) : Option ProcId :=
  (List.finRange NPROC).find? fun q => f (s.slot q)

def fork (s : ProcTab) (p : ProcId) (mem : Bool) : ProcTab :=
  match s.first fun q => q.state = .unused with
  | none => s
  | some np =>
    if mem then
      { s.setSlot np { (s.slot np).alloc s.nextpid with parent := some p, state := .runnable } with
        nextpid := succPid s.nextpid
        born := update s.born np s.now }
    else { s.setSlot np .free with nextpid := succPid s.nextpid }

def mark (s : ProcTab) (q : ProcId) (x : ProcSlot) : ProcTab :=
  { s.setSlot q x with marked := update s.marked q s.now }

def kill (s : ProcTab) (pid : Int) : ProcTab :=
  match s.first fun q => q.pid = pid with
  | none => s
  | some q => s.mark q (s.slot q).kill

def setkilled (s : ProcTab) (p : ProcId) : ProcTab := s.mark p (s.slot p).setkilled

def reparent (s : ProcTab) (p : ProcId) : ProcTab :=
  { s with slot := fun q =>
      if (s.slot q).parent = some p then { s.slot q with parent := some s.initproc }
      else s.slot q }

def exit (s : ProcTab) (p : ProcId) (status : Int) : Except ProcPanic ProcTab :=
  if p = s.initproc then .error .initExiting
  else
    let s := s.reparent p
    .ok (s.setSlot p { s.slot p with xstate := status, state := .zombie })

/-- A `wait` that finds no exited child, or cannot copy the status out, changes nothing. -/
def wait (s : ProcTab) (p : ProcId) (copied : Bool) : ProcTab :=
  match s.first fun q => q.parent = some p ∧ q.state = .zombie with
  | none => s
  | some q => if copied then s.setSlot q .free else s

def call (s : ProcTab) : ProcCall → Except ProcPanic ProcTab
  | .fork p mem => .ok (if (s.slot p).live then s.fork p mem else s)
  | .kill p pid => .ok (if (s.slot p).live then s.kill pid else s)
  | .exit p status => if (s.slot p).live then s.exit p status else .ok s
  | .wait p copied => .ok (if (s.slot p).live then s.wait p copied else s)
  | .setkilled p => .ok (if (s.slot p).live then s.setkilled p else s)
  | .usertrap p => if (s.slot p).live ∧ (s.slot p).killed then s.exit p (-1) else .ok s

end ProcTab

def procStep (s : ProcTab) (a : ProcCall) : Except ProcPanic ProcTab :=
  match s.call a with
  | .ok t => .ok { t with now := s.now + 1 }
  | .error e => .error e

def ProcTab.boot : ProcTab where
  slot := update (fun _ => .free) 0 { ProcSlot.free.alloc 1 with state := .runnable }
  nextpid := 2
  initproc := 0
  now := 1
  born _ := 0
  marked _ := 0

namespace ProcTab

variable {s t : ProcTab} {a : ProcCall} {q p : ProcId}

def KillsProcess (s : ProcTab) (a : ProcCall) : Prop :=
  ∀ p, a = .kill p 0 → (s.slot p).live = true →
    ∀ q, (s.first fun x => x.pid = 0) = some q → (s.slot q).state ≠ .unused

/-- No slot is marked without a process in it, and no process for what was done before
it was created. -/
structure Fresh (s : ProcTab) : Prop where
  unused : ∀ q, (s.slot q).state = .unused → (s.slot q).killed = false
  since : ∀ q, (s.slot q).state ≠ .unused → (s.slot q).killed = true → s.born q ≤ s.marked q

/-- A flag that becomes nonzero is that of a process in its slot, set by a `kill` of its
pid or by its own `setkilled`; and a new process is not marked. -/
structure Justified (s t : ProcTab) (a : ProcCall) : Prop where
  marks : ∀ q, (s.slot q).killed = false → (t.slot q).killed = true →
    (s.slot q).state ≠ .unused ∧ ((∃ p, a = .kill p (s.slot q).pid) ∨ a = .setkilled q)
  alloc : ∀ q, (s.slot q).state = .unused → (t.slot q).state ≠ .unused →
    (t.slot q).killed = false

theorem first_some {f : ProcSlot → Bool} (h : s.first f = some q) : f (s.slot q) = true :=
  List.find?_some (p := fun q => f (s.slot q)) h

/-- Everything a call can do to the slot `q` and to its times `b` and `m`. -/
inductive SlotStep (s : ProcTab) (a : ProcCall) (q : ProcId) (x : ProcSlot) (b m : Nat) : Prop
  | same (parent) (h : x = { s.slot q with parent }) (hb : b = s.born q)
      (hm : m = s.marked q)
  | freed (h : x = .free) (hb : b = s.born q) (hm : m = s.marked q)
  | created (pid parent) (hu : (s.slot q).state = .unused)
      (h : x = { (s.slot q).alloc pid with parent, state := .runnable })
      (hb : b = s.now) (hm : m = s.marked q)
  | exited (parent xstate) (hl : (s.slot q).live = true)
      (h : x = { s.slot q with parent, xstate, state := .zombie })
      (hb : b = s.born q) (hm : m = s.marked q)
  | killed (p pid) (ha : a = .kill p pid) (hl : (s.slot p).live = true)
      (hf : (s.first fun x => x.pid = pid) = some q) (h : x = (s.slot q).kill)
      (hb : b = s.born q) (hm : m = s.now)
  | setkilled (ha : a = .setkilled q) (hl : (s.slot q).live = true)
      (h : x = (s.slot q).setkilled) (hb : b = s.born q) (hm : m = s.now)

theorem SlotStep.refl (s : ProcTab) (a : ProcCall) (q : ProcId) :
    SlotStep s a q (s.slot q) (s.born q) (s.marked q) :=
  .same _ rfl rfl rfl

def SlotOf (s t : ProcTab) (a : ProcCall) (q : ProcId) : Prop :=
  SlotStep s a q (t.slot q) (t.born q) (t.marked q)

theorem fork_slot (p : ProcId) (mem : Bool) (a : ProcCall) (q : ProcId) :
    SlotOf s (s.fork p mem) a q := by
  unfold fork
  cases hf : s.first fun q => q.state = .unused with
  | none => exact .refl s a q
  | some np =>
    have hu : (s.slot np).state = .unused := of_decide_eq_true (first_some hf)
    by_cases hq : q = np
    · subst np
      cases mem with
      | true => exact .created s.nextpid (some p) hu (by simp [setSlot]) (by simp) rfl
      | false => exact .freed (by simp [setSlot]) rfl rfl
    · cases mem with
      | true => exact .same _ (by simp [setSlot, hq]; rfl) (by simp [hq]) rfl
      | false => exact .same _ (by simp [setSlot, hq]; rfl) rfl rfl

theorem mark_slot_of_ne {r : ProcId} (x : ProcSlot) (a : ProcCall) (hq : q ≠ r) :
    SlotOf s (s.mark r x) a q :=
  .same _ (by simp [mark, setSlot, hq]; rfl) rfl (by simp [mark, setSlot, hq])

theorem exit_slot {status : Int} (hl : (s.slot p).live = true) (h : s.exit p status = .ok t)
    (a : ProcCall) (q : ProcId) : SlotOf s t a q := by
  unfold exit at h
  split_ifs at h
  obtain rfl := Except.ok.inj h
  have hpar : ∃ parent, (s.reparent p).slot q = { s.slot q with parent } := by
    unfold reparent
    simp only
    split_ifs
    · exact ⟨_, rfl⟩
    · exact ⟨(s.slot q).parent, rfl⟩
  obtain ⟨parent, hpar⟩ := hpar
  by_cases hq : q = p
  · subst q
    exact .exited parent status hl (by simp [setSlot, hpar]) rfl rfl
  · exact .same parent (by simp [setSlot, hq, hpar]) rfl rfl

theorem wait_slot (p : ProcId) (copied : Bool) (a : ProcCall) (q : ProcId) :
    SlotOf s (s.wait p copied) a q := by
  unfold wait
  cases hf : s.first fun q => q.parent = some p ∧ q.state = .zombie with
  | none => exact .refl s a q
  | some r =>
    cases copied with
    | false => exact .refl s a q
    | true =>
      by_cases hq : q = r
      · exact .freed (by simp [setSlot, hq]) rfl rfl
      · exact .same _ (by simp [setSlot, hq]; rfl) rfl rfl

theorem call_slot (h : s.call a = .ok t) (q : ProcId) : SlotOf s t a q := by
  cases a with
  | fork p mem =>
    obtain rfl := Except.ok.inj h
    split_ifs
    · exact fork_slot p mem _ q
    · exact .refl s _ q
  | kill p pid =>
    obtain rfl := Except.ok.inj h
    split_ifs with hl
    · unfold kill
      cases hf : s.first fun q => q.pid = pid with
      | none => exact .refl s _ q
      | some r =>
        by_cases hq : q = r
        · subst r
          exact .killed p pid rfl hl hf (by simp [mark, setSlot]) rfl (by simp [mark])
        · exact mark_slot_of_ne _ _ hq
    · exact .refl s _ q
  | exit p status =>
    simp only [call] at h
    split_ifs at h with hl
    · exact exit_slot hl h _ q
    · obtain rfl := Except.ok.inj h
      exact .refl s _ q
  | wait p copied =>
    obtain rfl := Except.ok.inj h
    split_ifs
    · exact wait_slot p copied _ q
    · exact .refl s _ q
  | setkilled p =>
    obtain rfl := Except.ok.inj h
    split_ifs with hl
    · by_cases hq : q = p
      · subst q
        exact .setkilled rfl hl (by simp [ProcTab.setkilled, mark, setSlot]) rfl
          (by simp [ProcTab.setkilled, mark])
      · exact mark_slot_of_ne _ _ hq
    · exact .refl s _ q
  | usertrap p =>
    simp only [call] at h
    split_ifs at h with hl
    · exact exit_slot hl.1 h _ q
    · obtain rfl := Except.ok.inj h
      exact .refl s _ q

structure Inv (s : ProcTab) : Prop extends s.Fresh where
  pid : ∀ q, (s.slot q).state = .unused → (s.slot q).pid = 0
  born : ∀ q, s.born q ≤ s.now

theorem live_ne_unused {x : ProcSlot} (h : x.live = true) : x.state ≠ .unused := by
  intro hx
  simp [ProcSlot.live, hx] at h

theorem Inv.found (h : s.Inv) (hk : s.KillsProcess a) {pid : Int} (ha : a = .kill p pid)
    (hl : (s.slot p).live = true) (hf : (s.first fun x => x.pid = pid) = some q) :
    (s.slot q).state ≠ .unused := by
  intro hu
  have hpid : (s.slot q).pid = pid := of_decide_eq_true (first_some hf)
  rw [h.pid q hu] at hpid
  subst pid
  exact hk p ha hl q hf hu

theorem Inv.unused_slot (h : s.Inv) (hk : s.KillsProcess a) (hs : SlotOf s t a q)
    (hq : (t.slot q).state = .unused) :
    t.slot q = .free ∨
      (s.slot q).state = .unused ∧ ∃ parent, t.slot q = { s.slot q with parent } := by
  cases hs with
  | same parent he =>
    rw [he] at hq
    exact .inr ⟨hq, parent, he⟩
  | freed he => exact .inl he
  | created _ _ _ he => simp [he] at hq
  | exited _ _ _ he => simp [he] at hq
  | killed p pid ha hl hf he =>
    have hne := h.found hk ha hl hf
    rw [he] at hq
    simp only [ProcSlot.kill] at hq
    split_ifs at hq
    exact absurd hq hne
  | setkilled _ hl he =>
    rw [he] at hq
    exact absurd hq (live_ne_unused hl)

theorem Inv.call (h : s.Inv) (hk : s.KillsProcess a) (hslot : ∀ q, SlotOf s t a q)
    (hn : s.now ≤ t.now) : t.Inv := by
  refine ⟨⟨?_, ?_⟩, ?_, ?_⟩
  · intro q hq
    obtain he | ⟨hu, _, he⟩ := h.unused_slot hk (hslot q) hq <;> rw [he]
    · rfl
    · exact h.unused q hu
  · intro q hq hkd
    cases hslot q with
    | same _ he hb hm =>
      rw [he] at hq hkd
      rw [hb, hm]
      exact h.since q hq hkd
    | freed he => simp [he, ProcSlot.free] at hq
    | created _ _ hu he =>
      have hkq : (s.slot q).killed = true := by simpa [he, ProcSlot.alloc] using hkd
      simp [h.unused q hu] at hkq
    | exited _ _ hl he hb hm =>
      rw [hb, hm]
      exact h.since q (live_ne_unused hl) (by simpa [he] using hkd)
    | killed _ _ _ _ _ _ hb hm | setkilled _ _ _ hb hm =>
      rw [hb, hm]
      exact h.born q
  · intro q hq
    obtain he | ⟨hu, _, he⟩ := h.unused_slot hk (hslot q) hq <;> rw [he]
    · rfl
    · exact h.pid q hu
  · intro q
    have hb := h.born q
    cases hslot q <;> omega

theorem Inv.justified (h : s.Inv) (hk : s.KillsProcess a) (hc : s.call a = .ok t) :
    Justified s t a := by
  have hslot := call_slot hc
  constructor
  · intro q hs ht
    cases hslot q with
    | same _ he => simp [he, hs] at ht
    | freed he => simp [he, ProcSlot.free] at ht
    | created _ _ _ he => simp [he, ProcSlot.alloc, hs] at ht
    | exited _ _ _ he => simp [he, hs] at ht
    | killed p pid ha hl hf =>
      have hpid : (s.slot q).pid = pid := of_decide_eq_true (first_some hf)
      exact ⟨h.found hk ha hl hf, .inl ⟨p, hpid ▸ ha⟩⟩
    | setkilled ha hl => exact ⟨live_ne_unused hl, .inr ha⟩
  · intro q hs ht
    have hkq := h.unused q hs
    cases hslot q with
    | same _ he | created _ _ _ he | exited _ _ _ he => simpa [he, ProcSlot.alloc] using hkq
    | freed he => simp [he, ProcSlot.free]
    | killed p pid ha hl hf => exact absurd hs (h.found hk ha hl hf)
    | setkilled _ hl => exact absurd hs (live_ne_unused hl)

theorem Inv.not_justified (h : s.Inv) (hk : ¬ s.KillsProcess a) (hc : s.call a = .ok t) :
    ¬ Justified s t a := by
  simp only [KillsProcess, not_forall, not_not] at hk
  obtain ⟨p, rfl, hl, q, hf, hu⟩ := hk
  simp only [ProcTab.call, if_pos hl, ProcTab.kill, hf, Except.ok.injEq] at hc
  subst t
  intro hj
  exact (hj.marks q (h.unused q hu) (by simp [mark, setSlot, ProcSlot.kill])).1 hu

theorem boot_inv : boot.Inv := by
  have hslot : ∀ q, boot.slot q = .free ∨
      boot.slot q = { ProcSlot.free.alloc 1 with state := .runnable } := by
    intro q
    by_cases hq : q = 0
    · exact .inr (by simp [boot, hq])
    · exact .inl (by simp [boot, hq])
  refine ⟨⟨?_, fun _ _ _ => le_refl 0⟩, ?_, fun _ => Nat.zero_le 1⟩
  · intro q _
    obtain he | he := hslot q <;> rw [he] <;> rfl
  · intro q hq
    obtain he | he := hslot q <;> rw [he] at hq ⊢
    · rfl
    · cases hq

theorem procStep_ok (h : procStep s a = .ok t) :
    ∃ u, s.call a = .ok u ∧ t = { u with now := s.now + 1 } := by
  unfold procStep at h
  cases hc : s.call a with
  | error e => simp [hc] at h
  | ok u =>
    simp only [hc, Except.ok.injEq] at h
    exact ⟨u, rfl, h.symm⟩

theorem Inv.step (h : s.Inv) (hk : s.KillsProcess a) (hs : procStep s a = .ok t) : t.Inv := by
  obtain ⟨u, hc, rfl⟩ := procStep_ok hs
  have hslot : ∀ q, SlotOf s u a q := call_slot hc
  exact h.call hk (fun q => hslot q) (Nat.le_succ _)

end ProcTab

/-- As long as no `kill(0)` finds an UNUSED slot, no process is marked for what was done
before it was created, and every call marks only the process it names and creates only
unmarked processes; and every `kill(0)` that does find one breaks that. -/
theorem fresh_process_iff_kills_process (as : List ProcCall) (s : ProcTab)
    (hal : Along procStep ProcTab.KillsProcess ProcTab.boot as)
    (h : run procStep ProcTab.boot as = .ok s) :
    s.Fresh ∧ ∀ a t, procStep s a = .ok t → (s.Justified t a ↔ s.KillsProcess a) := by
  have hinv : s.Inv := run_inv_along (fun _ _ _ hi hk hs => hi.step hk hs) ProcTab.boot_inv hal h
  refine ⟨hinv.toFresh, ?_⟩
  intro a t hs
  obtain ⟨u, hc, rfl⟩ := ProcTab.procStep_ok hs
  constructor
  · intro hj
    by_contra hk
    exact hinv.not_justified hk hc ⟨hj.marks, hj.alloc⟩
  · intro hk
    have hj := hinv.justified hk hc
    exact ⟨hj.marks, hj.alloc⟩

theorem fresh_process_after_fork :
    ∃ s, run procStep ProcTab.boot [.fork 0 true] = .ok s ∧ (s.slot 1).state = .runnable ∧
      s.Fresh ∧ ∀ a t, procStep s a = .ok t → (s.Justified t a ↔ s.KillsProcess a) :=
  ⟨_, rfl, by decide, fresh_process_iff_kills_process [.fork 0 true] _ ⟨nofun, by simp [Along]⟩ rfl⟩

/-- A child forked after a `kill(0)` is born killed and exits on its first trap. -/
theorem kill_zero_marks_next_child :
    ∃ s t, run procStep ProcTab.boot [.kill 0 0, .fork 0 true] = .ok s ∧
      (s.slot 1).state = .runnable ∧ (s.slot 1).killed = true ∧
      procStep s (.usertrap 1) = .ok t ∧ (t.slot 1).state = .zombie ∧ (t.slot 1).xstate = -1 :=
  ⟨_, _, rfl, by decide, by decide, rfl, by decide, by decide⟩

end Xv6
