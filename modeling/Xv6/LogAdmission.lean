import Mathlib.Data.List.Dedup
import Xv6.CommitIsolation

/-! The space `begin_op` reserves against the space the on-disk log has. `begin_op`
counts `LOGSIZE` data blocks, while a log of `nlog` blocks has one less, and
`log_write` refuses even a block that is already listed once the log is full. -/

namespace Xv6

open Function

def nlog : Nat := LOGSIZE

def OpPc.room : OpPc → Nat
  | .inOp bs => MAXOPBLOCKS - bs.dedup.length
  | _ => 0

namespace LogSystem

variable {P : Type}

def ActBounded (s : LogSystem P) : LogAct P → Prop
  | .logWrite p b _ => (b :: (s.proc p).logged).dedup.length ≤ MAXOPBLOCKS
  | _ => True

instance (s : LogSystem P) (a : LogAct P) : Decidable (s.ActBounded a) :=
  match a with
  | .logWrite _ _ _ => inferInstanceAs (Decidable (_ ≤ _))
  | .beginOp _ | .endOp _ | .commit _ => inferInstanceAs (Decidable True)

/-- The blocks in the log with all that the running operations may still add. -/
def reserved [Fintype P] (s : LogSystem P) : Nat :=
  s.machine.log.lh.n + ∑ p, (s.proc p).room

/-- An operation is admitted only while the reservations stay below the number of
data blocks on disk, which is `nlog - 1`. -/
def RoomToAdmit [Fintype P] (s : LogSystem P) : LogAct P → Prop
  | .beginOp p => s.proc p = .outside ∨ s.proc p = .woken →
      (Xv6.beginOp s.machine.log).isSome → s.reserved + MAXOPBLOCKS < nlog - 1
  | _ => True

instance [Fintype P] (s : LogSystem P) (a : LogAct P) : Decidable (s.RoomToAdmit a) :=
  match a with
  | .beginOp _ => inferInstanceAs (Decidable (_ → _ → _))
  | .logWrite _ _ _ | .endOp _ | .commit _ => inferInstanceAs (Decidable True)

end LogSystem

structure AdmissionInv {P : Type} [Fintype P] (s : LogSystem P) : Prop where
  sys : SysInv s
  size : s.machine.log.size = nlog
  bounded : ∀ p, (s.proc p).logged.dedup.length ≤ MAXOPBLOCKS

namespace LogSystem

variable {P : Type} [Fintype P] [DecidableEq P] {s t : LogSystem P}

theorem sum_room_update (proc : P → OpPc) (p : P) (x : OpPc) :
    ∑ q, (update proc p x q).room + (proc p).room = ∑ q, (proc q).room + x.room :=
  ActionRun.sum_update_add OpPc.room proc p x

omit [Fintype P] [DecidableEq P] in
theorem advance_n_le (h : GroupInv s.machine.log.lh s.group s.last s.machine.pc)
    (hr : s.machine.pc ≠ .run) : s.machine.advance.log.lh.n ≤ s.machine.log.lh.n := by
  by_cases hf : s.machine.pc = .finish
  · simp [LogMachine.advance, hf]
  · rcases (LogMachine.advance_commit h hf hr).2.2.2.1 with he | he
    · rw [he]
    · omega

end LogSystem

theorem LogMachine.advance_size (m : LogMachine) : m.advance.log.size = m.log.size := by
  cases hpc : m.pc <;> simp only [LogMachine.advance, hpc] <;> try split
  all_goals rfl

namespace AdmissionInv

variable {P : Type} [Fintype P] [DecidableEq P] {s t : LogSystem P} {l : Log} {p : P}

theorem of_update (h : AdmissionInv s) (hsys : SysInv t)
    (hsize : t.machine.log.size = s.machine.log.size) {n : Nat}
    (hn : t.machine.log.lh.n = n) (p : P) (x : OpPc)
    (hproc : ∀ {α : Type} (f : OpPc → α), f .woken = f .asleep →
      ∀ q, f (t.proc q) = f (update s.proc p x q))
    (hx : x.logged.dedup.length ≤ MAXOPBLOCKS) :
    AdmissionInv t ∧ t.reserved + (s.proc p).room + s.machine.log.lh.n =
      s.reserved + x.room + n := by
  refine ⟨⟨hsys, hsize.trans h.size, ?_⟩, ?_⟩
  · intro q
    rw [hproc OpPc.logged rfl]
    by_cases hq : q = p
    · subst q; simpa using hx
    · rw [update_of_ne hq]; exact h.bounded q
  · have hsum := LogSystem.sum_room_update s.proc p x
    simp only [LogSystem.reserved, hproc OpPc.room rfl, hn]
    omega

/-- Logging a block trades one unit of the operation's room for one log entry, if
the block is new, and never needs more. -/
theorem log (h : AdmissionInv s) (hsys : SysInv t) {b : Nat} {logged : List Nat} {new : Bool}
    (hp : s.proc p = .inOp logged) (hlen : (b :: logged).dedup.length ≤ MAXOPBLOCKS)
    (hw : logWrite s.machine.log b = .ok (l, new)) (htl : t.machine.log = l)
    (htp : t.proc = update s.proc p (.inOp (b :: logged))) :
    AdmissionInv t ∧ t.reserved ≤ s.reserved ∧
      (b ∉ s.machine.log.lh.blocks → t.reserved = s.reserved ∧ l.lh.n = s.machine.log.lh.n + 1) := by
  obtain ⟨_, _, _, hl, hcase⟩ := logWrite_ok hw
  obtain ⟨hi, hr⟩ := h.of_update (n := l.lh.n) hsys (by rw [htl, hl]) (by rw [htl]) p
    (.inOp (b :: logged)) (fun f _ q => by rw [htp]) hlen
  have hroom : (s.proc p).room = MAXOPBLOCKS - logged.dedup.length := by simp [hp, OpPc.room]
  have hx : (OpPc.inOp (b :: logged)).room = MAXOPBLOCKS - (b :: logged).dedup.length := rfl
  refine ⟨hi, ?_⟩
  rcases hcase with ⟨_, hnew, he⟩ | ⟨_, hmem, he⟩
  · have hg := h.sys.group
    simp only [(h.sys.of_inOp hp).2.1, GroupInv] at hg
    have hb : b ∉ logged := by
      intro hm
      exact hnew ((hg b).mp (h.sys.logged p b (by simpa [hp, OpPc.logged] using hm)))
    have hn : l.lh.n = s.machine.log.lh.n + 1 := by
      rw [← l.lh.length_blocks, he]
      simp [LogHeader.length_blocks]
    rw [List.dedup_cons_of_notMem hb, List.length_cons] at hx hlen
    exact ⟨by omega, fun _ => ⟨by omega, hn⟩⟩
  · have hle : logged.dedup.length ≤ (b :: logged).dedup.length := by
      by_cases hb : b ∈ logged
      · rw [List.dedup_cons_of_mem hb]
      · rw [List.dedup_cons_of_notMem hb]; simp
    rw [he] at hr
    exact ⟨by omega, fun hnew => absurd hmem hnew⟩

theorem enter (h : AdmissionInv s) (hsys : SysInv t) (hp : s.proc p = .outside ∨ s.proc p = .woken)
    (hb : beginOp s.machine.log = some l) (htl : t.machine.log = l)
    (htp : t.proc = update s.proc p (.inOp [])) :
    AdmissionInv t ∧ t.reserved = s.reserved + MAXOPBLOCKS := by
  obtain ⟨_, _, rfl⟩ := beginOp_some hb
  obtain ⟨hi, hr⟩ := h.of_update (n := s.machine.log.lh.n) hsys (by rw [htl]) (by rw [htl]) p
    (.inOp []) (fun f _ q => by rw [htp]) (by simp [OpPc.logged])
  have hroom : (s.proc p).room = 0 := by rcases hp with hp | hp <;> simp [hp, OpPc.room]
  have hx : (OpPc.inOp []).room = MAXOPBLOCKS := by simp [OpPc.room]
  exact ⟨hi, by omega⟩

theorem step (h : AdmissionInv s) {a : LogAct P} (hb : s.ActBounded a)
    (hs : s.step a = .ok t) :
    AdmissionInv t ∧ (t.reserved ≤ s.reserved ∨
      ∃ p, a = .beginOp p ∧ (s.proc p = .outside ∨ s.proc p = .woken) ∧
        (beginOp s.machine.log).isSome ∧ t.reserved = s.reserved + MAXOPBLOCKS) := by
  have htr := LogSystem.step_trans hs
  have hsys := h.sys.trans htr
  cases htr with
  | stutter => exact ⟨h, .inl (Nat.le_refl _)⟩
  | sleep p hp hbn =>
    obtain ⟨hi, hr⟩ := h.of_update (n := s.machine.log.lh.n) hsys rfl rfl p .asleep
      (fun f _ q => rfl) (by simp [OpPc.logged])
    have hx : OpPc.asleep.room = 0 := rfl
    exact ⟨hi, .inl (by omega)⟩
  | enter p l hp hbs =>
    obtain ⟨hi, hr⟩ := h.enter hsys hp hbs rfl rfl
    exact ⟨hi, .inr ⟨p, rfl, hp, by simp [hbs], hr⟩⟩
  | log p b data logged l new hp hw =>
    have hlen : (b :: logged).dedup.length ≤ MAXOPBLOCKS := by
      simpa [LogSystem.ActBounded, hp, OpPc.logged] using hb
    obtain ⟨hi, hle, _⟩ := h.log hsys hp hlen hw rfl rfl
    exact ⟨hi, .inl hle⟩
  | commitStart p logged l hp he =>
    obtain ⟨_, ⟨_, _, rfl⟩ | ⟨hh, _⟩⟩ := endOp_ok he
    swap
    · cases hh
    obtain ⟨hi, hr⟩ := h.of_update (n := s.machine.log.lh.n) hsys rfl rfl p (.inCommit logged)
      (fun f _ q => rfl)
      (by simpa [hp, OpPc.logged] using h.bounded p)
    have hx : (OpPc.inCommit logged).room = 0 := rfl
    exact ⟨hi, .inl (by omega)⟩
  | leave p logged l hp he =>
    obtain ⟨_, ⟨hh, _⟩ | ⟨_, _, rfl⟩⟩ := endOp_ok he
    · cases hh
    obtain ⟨hi, hr⟩ := h.of_update (n := s.machine.log.lh.n) hsys rfl rfl p .outside
      (fun f hf q => LogSystem.wakeupLog_congr f hf _ q) (by simp [OpPc.logged])
    have hx : OpPc.outside.room = 0 := rfl
    exact ⟨hi, .inl (by omega)⟩
  | finish p logged hp hpc =>
    obtain ⟨hi, hr⟩ := h.of_update (n := s.machine.advance.log.lh.n) hsys
      (LogMachine.advance_size _) rfl p .outside
      (fun f hf q => LogSystem.wakeupLog_congr f hf _ q) (by simp [OpPc.logged])
    have hx : OpPc.outside.room = 0 := rfl
    have hle := LogSystem.advance_n_le h.sys.group (by simp [hpc])
    exact ⟨hi, .inl (by omega)⟩
  | head p logged hp hpc =>
    obtain ⟨hi, hr⟩ := h.of_update (n := s.machine.advance.log.lh.n) hsys
      (LogMachine.advance_size _) rfl p (s.proc p)
      (fun f _ q => by simp) (h.bounded p)
    have hle := LogSystem.advance_n_le h.sys.group (by simp [hpc])
    exact ⟨hi, .inl (by omega)⟩
  | progress p logged hp hpc =>
    obtain ⟨hi, hr⟩ := h.of_update (n := s.machine.advance.log.lh.n) hsys
      (LogMachine.advance_size _) rfl p (s.proc p)
      (fun f _ q => by simp) (h.bounded p)
    have hle := LogSystem.advance_n_le h.sys.group
      (h.sys.busy p (by simp [hp, OpPc.isInCommit]))
    exact ⟨hi, .inl (by omega)⟩

omit [DecidableEq P] in
theorem init (start : Nat) (disk : Nat → Buffer) (stale : Nat → Nat) :
    AdmissionInv (LogSystem.init start nlog disk stale : LogSystem P) :=
  ⟨LogSystem.init_inv start nlog disk stale, rfl, fun _ => by simp [LogSystem.init, OpPc.logged]⟩

/-- Reservations that reach the number of data blocks on disk can be used up, by
calls of `log_write` alone, until one of them panics. -/
theorem overflow {p₀ : P} {bs₀ : List Nat} {k : Nat} (h : AdmissionInv s)
    (hp₀ : s.proc p₀ = .inOp bs₀) (hres : nlog - 1 ≤ s.reserved)
    (hn : s.machine.log.lh.n + k = nlog - 1) :
    ∃ more, ActionRun.Along LogSystem.step LogSystem.ActBounded s more ∧
      ActionRun.run LogSystem.step s more = .error .tooBig := by
  induction k generalizing s bs₀ with
  | zero =>
    have hfull : logWrite s.machine.log (bs₀.headD 0) = .error .tooBig := by
      have hc : s.machine.log.lh.n ≥ LOGSIZE ∨ (s.machine.log.lh.n : Int) ≥
          s.machine.log.size - 1 := by
        rw [h.size]
        omega
      simp only [logWrite, hc, if_true]
    have hstep : s.step (.logWrite p₀ (bs₀.headD 0) (fun _ => 0)) = .error .tooBig := by
      simp only [LogSystem.step, hp₀, hfull]
    have hbound : (bs₀.headD 0 :: bs₀).dedup.length ≤ MAXOPBLOCKS := by
      have hb := h.bounded p₀
      cases bs₀ with
      | nil => simp
      | cons b bs => simpa [hp₀, OpPc.logged] using hb
    refine ⟨[.logWrite p₀ (bs₀.headD 0) (fun _ => 0)], ⟨?_, fun _ _ => trivial⟩, ?_⟩
    · simpa [LogSystem.ActBounded, hp₀, OpPc.logged] using hbound
    · simp only [ActionRun.run, hstep]
  | succ k ih =>
    have hpos : ∑ p, (s.proc p).room ≠ 0 := by
      simp only [LogSystem.reserved] at hres
      omega
    obtain ⟨p, _, hp⟩ := Finset.exists_ne_zero_of_sum_ne_zero hpos
    obtain ⟨bs, hbs⟩ : ∃ bs, s.proc p = .inOp bs := by
      cases hq : s.proc p <;> simp [hq, OpPc.room] at hp ⊢
    obtain ⟨b, hfresh⟩ := Infinite.exists_notMem_finset s.machine.log.lh.blocks.toFinset
    have hnew : b ∉ s.machine.log.lh.blocks := by simpa using hfresh
    have hrun := (h.sys.of_inOp hbs).2.1
    have hg := h.sys.group
    simp only [hrun, GroupInv] at hg
    have hb : b ∉ bs := by
      intro hm
      exact hnew ((hg b).mp (h.sys.logged p b (by simpa [hbs, OpPc.logged] using hm)))
    have hlen : (b :: bs).dedup.length ≤ MAXOPBLOCKS := by
      rw [List.dedup_cons_of_notMem hb, List.length_cons]
      simp only [hbs, OpPc.room] at hp
      omega
    have hout : 1 ≤ s.machine.log.outstanding :=
      h.sys.op.one_le_of_inOp (p := p) (by simp [hbs, OpPc.kind])
    obtain ⟨l, new, hw⟩ := logWrite_of_room (l := s.machine.log) b
      (by simp only [nlog] at hn; omega)
      (by rw [h.size]; simp only [nlog, LOGSIZE, MAXOPBLOCKS] at hn ⊢; omega) hout
    let a : LogAct P := .logWrite p b fun _ => 0
    obtain ⟨t, ht⟩ : ∃ t, s.step a = .ok t := by
      simp only [a, LogSystem.step, hbs, hw]
      exact ⟨_, rfl⟩
    have hact : s.ActBounded a := by
      simpa [a, LogSystem.ActBounded, hbs, OpPc.logged] using hlen
    have hsys := h.sys.trans (LogSystem.step_trans ht)
    have hform := ht
    simp only [a, LogSystem.step, hbs, hw, Except.ok.injEq] at hform
    obtain ⟨hi, _, heq⟩ := h.log hsys hbs hlen hw (by rw [← hform]) (by rw [← hform])
    obtain ⟨hreq, hnl⟩ := heq hnew
    have hin : ∃ bs₁, t.proc p₀ = .inOp bs₁ := by
      rw [← hform]
      by_cases he : p₀ = p
      · subst he; exact ⟨b :: bs, by simp⟩
      · exact ⟨bs₀, by simpa [update_of_ne he] using hp₀⟩
    obtain ⟨bs₁, hbs₁⟩ := hin
    have htn : t.machine.log.lh.n = s.machine.log.lh.n + 1 := by rw [← hform]; exact hnl
    obtain ⟨more, hal, hmore⟩ := ih hi hbs₁ (by omega) (by omega)
    refine ⟨a :: more, ⟨hact, fun u hu => ?_⟩, ?_⟩
    · rw [ht, Except.ok.injEq] at hu
      exact hu ▸ hal
    · simp only [ActionRun.run, ht, hmore]

end AdmissionInv

section Admission

variable {P : Type} [Fintype P] [DecidableEq P] (start : Nat) (disk : Nat → Buffer)
  (stale : Nat → Nat)

/-- With the log `mkfs` makes and operations of at most `MAXOPBLOCKS` blocks each,
`log_write` never runs out of space as long as every admission keeps the
reservations below the number of data blocks on disk; after the first admission
that does not, calls of `log_write` alone can bring the panic about. -/
theorem logWrite_fits_while_room :
    (∀ acts : List (LogAct P), ActionRun.Along LogSystem.step
        (fun s a => s.ActBounded a ∧ s.RoomToAdmit a) (LogSystem.init start nlog disk stale) acts →
      ActionRun.run LogSystem.step (LogSystem.init start nlog disk stale) acts ≠
        .error .tooBig) ∧
    ∀ (acts : List (LogAct P)) (s : LogSystem P) (a : LogAct P), ActionRun.Along LogSystem.step
        (fun s a => s.ActBounded a ∧ s.RoomToAdmit a) (LogSystem.init start nlog disk stale) acts →
      ActionRun.run LogSystem.step (LogSystem.init start nlog disk stale) acts = .ok s →
      ¬ s.RoomToAdmit a → ∃ more, ActionRun.Along LogSystem.step LogSystem.ActBounded s (a :: more) ∧
        ActionRun.run LogSystem.step s (a :: more) = .error .tooBig := by
  let Good : LogSystem P → Prop := fun s => AdmissionInv s ∧ s.reserved < nlog - 1
  have h0 : Good (LogSystem.init start nlog disk stale) := by
    refine ⟨AdmissionInv.init start disk stale, ?_⟩
    simp [LogSystem.reserved, LogSystem.init, OpPc.room, nlog, LOGSIZE, MAXOPBLOCKS]
  have hstep : ∀ (s : LogSystem P) a t, Good s → s.ActBounded a ∧ s.RoomToAdmit a →
      s.step a = .ok t → Good t := by
    intro s a t hg hok hs
    obtain ⟨hi, hle | ⟨p, rfl, hp, hsome, hr⟩⟩ := hg.1.step hok.1 hs
    · exact ⟨hi, Nat.lt_of_le_of_lt hle hg.2⟩
    · have hroom := hok.2 hp hsome
      exact ⟨hi, by omega⟩
  constructor
  · intro acts hal he
    obtain ⟨t, a, hg, _, herr⟩ := ActionRun.run_error_along hstep h0 hal he
    have hle : t.machine.log.lh.n ≤ t.reserved := Nat.le_add_right _ _
    have hlt := hg.2
    rcases LogSystem.step_error herr with ⟨p, b, data, bs, _, _, hw⟩ | ⟨p, bs, _, _, hw⟩
    · rcases logWrite_error hw with ⟨_, hbig⟩ | ⟨hh, _⟩
      · rw [hg.1.size] at hbig
        simp only [nlog] at hbig hlt
        omega
      · cases hh
    · cases (endOp_error hw).1
  · intro acts s a hal hrun hno
    obtain ⟨hi, hres⟩ := ActionRun.run_inv_along hstep h0 hal hrun
    cases a with
    | beginOp p =>
      simp only [LogSystem.RoomToAdmit, Classical.not_imp, not_lt] at hno
      obtain ⟨hp, hsome, hroom⟩ := hno
      obtain ⟨l, hl⟩ := Option.isSome_iff_exists.mp hsome
      obtain ⟨t, ht⟩ : ∃ t, s.step (.beginOp p) = .ok t := by
        simp only [LogSystem.step, hp, if_true, hl]
        exact ⟨_, rfl⟩
      obtain ⟨_, hn, _⟩ := beginOp_some hl
      have hout : 0 ≤ s.machine.log.outstanding := hi.sys.op.outstanding_nonneg
      have hform := ht
      simp only [LogSystem.step, hp, if_true, hl, Except.ok.injEq] at hform
      obtain ⟨hti, hres⟩ := hi.enter (hi.sys.trans (LogSystem.step_trans ht)) hp hl
        (by rw [← hform]) (by rw [← hform])
      have htp : t.proc p = .inOp [] := by rw [← hform]; simp
      have hlh : t.machine.log.lh = s.machine.log.lh := by
        rw [← hform, (beginOp_some hl).2.2]
      obtain ⟨more, hal', hmore⟩ := hti.overflow (k := nlog - 1 - t.machine.log.lh.n) htp
        (by omega) (by rw [hlh]; simp only [nlog, LOGSIZE, MAXOPBLOCKS] at hn ⊢; omega)
      refine ⟨more, ⟨trivial, fun u hu => ?_⟩, ?_⟩
      · rw [ht, Except.ok.injEq] at hu
        exact hu ▸ hal'
      · simp only [ActionRun.run, ht, hmore]
    | logWrite p b data => simp [LogSystem.RoomToAdmit] at hno
    | endOp p => simp [LogSystem.RoomToAdmit] at hno
    | commit p => simp [LogSystem.RoomToAdmit] at hno

end Admission

/-- Two operations side by side stay within the log. -/
theorem logWrite_fits_two_ops :
    ActionRun.run LogSystem.step (LogSystem.init 2 nlog (fun _ _ => 0) (fun _ => 0))
      [LogAct.beginOp (0 : Fin 3), .beginOp 1, .logWrite 0 100 (fun _ => 0),
        .logWrite 1 101 (fun _ => 0)] ≠ .error .tooBig :=
  (logWrite_fits_while_room 2 (fun _ _ => 0) (fun _ => 0)).1 _ (by decide +kernel)

def threeFullOps : List (LogAct (Fin 3)) :=
  [.beginOp 0, .beginOp 1, .beginOp 2] ++
    (List.finRange 3).flatMap (fun p => (List.range MAXOPBLOCKS).map
      (fun i => .logWrite p (100 + MAXOPBLOCKS * p + i) (fun _ => 0)))

theorem logWrite_panics_on_three_full_ops :
    ActionRun.Along LogSystem.step LogSystem.ActBounded
      (LogSystem.init 2 nlog (fun _ _ => 0) (fun _ => 0)) threeFullOps ∧
    ActionRun.run LogSystem.step
      (LogSystem.init 2 nlog (fun _ _ => 0) (fun _ => 0)) threeFullOps = .error .tooBig :=
  ⟨by decide +kernel, rfl⟩

end Xv6
