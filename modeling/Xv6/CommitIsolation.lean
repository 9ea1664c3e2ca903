import Xv6.GroupCommit

/-! The invariant of group commit is kept by every action, and what it says about
any interleaving of operations. -/

namespace Xv6

open Function

/-- `commit` moves through its phases without touching the counters, and empties
the header only after the header write has recorded the group. -/
theorem LogMachine.advance_commit {m : LogMachine} {group last : List Nat}
    (h : GroupInv m.log.lh group last m.pc) (hf : m.pc ≠ .finish) (hr : m.pc ≠ .run) :
    m.advance.log.committing = m.log.committing ∧
    m.advance.log.outstanding = m.log.outstanding ∧ m.advance.pc ≠ .run ∧
    (m.advance.log.lh = m.log.lh ∨ m.advance.log.lh.n = 0) ∧
    GroupInv m.advance.log.lh group
      (if m.pc = .commitHead then m.log.lh.blocks else last) m.advance.pc := by
  cases hpc : m.pc with
  | run => exact absurd hpc hr
  | finish => exact absurd hpc hf
  | commit =>
    simp only [GroupInv, hpc] at h
    simp only [LogMachine.advance, hpc]
    split
    · simpa [GroupInv] using h
    · rename_i hn
      have hempty : m.log.lh.blocks = [] := by
        simp [LogHeader.blocks, Nat.eq_zero_of_not_pos hn]
      refine ⟨rfl, rfl, by simp, .inl rfl, Nat.eq_zero_of_not_pos hn, ?_⟩
      intro b hb
      have hm := (h b).mp hb
      simp [hempty] at hm
  | writeLog tail =>
    simp only [GroupInv, hpc] at h
    simp only [LogMachine.advance, hpc]
    split
    · simpa [GroupInv, LogMachine.writeLog, LogMachine.bwrite] using h
    · simpa [GroupInv] using h
  | commitHead =>
    simp only [GroupInv, hpc] at h
    simp only [LogMachine.advance, hpc, LogMachine.writeHead, LogMachine.bwrite]
    refine ⟨trivial, trivial, by simp, by simp, ?_⟩
    intro b hb
    simpa using (h b).mp hb
  | install tail =>
    simp only [GroupInv, hpc] at h
    simp only [LogMachine.advance, hpc]
    split
    · simpa [GroupInv, LogMachine.install, LogMachine.bwrite] using h
    · simpa [GroupInv, LogMachine.setN] using h
  | clearHead =>
    simpa [LogMachine.advance, hpc, GroupInv, LogMachine.writeHead, LogMachine.bwrite] using h
  | _ => simp [GroupInv, hpc] at h

namespace SysInv

variable {P : Type} [Fintype P] [DecidableEq P] {s t : LogSystem P} {logged : List Nat} {p : P}
  {l : Log}

theorem sleep (h : SysInv s) (hp : s.proc p = .outside ∨ s.proc p = .woken)
    (hb : beginOp s.machine.log = none) : SysInv { s with proc := update s.proc p .asleep } := by
  have hc : (s.proc p).isInCommit = false := by
    rcases hp with hp | hp <;> simp [hp, OpPc.isInCommit]
  have hupd : ∀ q, (update s.proc p .asleep q).isInCommit = (s.proc q).isInCommit := by
    intro q
    by_cases hq : q = p
    · subst q
      rw [update_self, hc]
      rfl
    · rw [update_of_ne hq]
  constructor
  · rw [OpPc.kind_update]
    refine h.op.sleep ?_ hb
    rcases hp with hp | hp <;> simp [hp, OpPc.kind]
  · intro hno
    exact h.idle fun q => (hupd q).symm.trans (hno q)
  · intro q hq
    exact h.busy q ((hupd q).symm.trans hq)
  · intro q b hm
    by_cases hq : q = p
    · subst q; simp [OpPc.logged] at hm
    · change b ∈ (update s.proc p .asleep q).logged at hm
      rw [update_of_ne hq] at hm
      exact h.logged q b hm
  · exact h.group
  · exact h.nodup

/-- What remains to show when a process outside a commit moves to another such
point and the header is as before. -/
theorem move (h : SysInv s) {x : OpPc} {proc : P → OpPc} (hno : ∀ q, (s.proc q).isInCommit = false)
    (hx : x.isInCommit = false) (hl : l.lh = s.machine.log.lh) (hlog : x.logged = [])
    (hproc : ∀ {α : Type} (f : OpPc → α), f .woken = f .asleep →
      ∀ q, f (proc q) = f (update s.proc p x q)) (hop : OpInv l (fun q => (proc q).kind)) :
    SysInv { s with machine := { s.machine with log := l }, proc := proc } := by
  have hupd : ∀ q, (proc q).isInCommit = false := by
    intro q
    rw [hproc OpPc.isInCommit rfl]
    by_cases hq : q = p
    · subst q; simpa using hx
    · rw [update_of_ne hq]; exact hno q
  constructor
  · exact hop
  · intro _; exact h.idle hno
  · intro q hq; simp [hupd q] at hq
  · intro q b hm
    simp only [hproc OpPc.logged rfl] at hm
    by_cases hq : q = p
    · subst q; simp [hlog] at hm
    · rw [update_of_ne hq] at hm
      exact h.logged q b hm
  · simpa only [hl] using h.group
  · simpa only [hl] using h.nodup

theorem enter (h : SysInv s) (hp : s.proc p = .outside ∨ s.proc p = .woken)
    (hb : beginOp s.machine.log = some l) :
    SysInv { s with machine := { s.machine with log := l },
                    proc := update s.proc p (.inOp []) } := by
  obtain ⟨hc, _, hl⟩ := beginOp_some hb
  have hlh : l.lh = s.machine.log.lh := by rw [hl]
  refine h.move (p := p) (x := .inOp []) (h.of_free hc).2 rfl hlh rfl (fun f _ q => rfl) ?_
  rw [OpPc.kind_update]
  refine h.op.enter ?_ hb
  rcases hp with hp | hp <;> simp [hp, OpPc.kind]

theorem leave (h : SysInv s) (hp : s.proc p = .inOp logged)
    (he : endOp s.machine.log = .ok (l, false)) :
    SysInv { s with machine := { s.machine with log := l },
                    proc := wakeupLog (update s.proc p .outside) } := by
  obtain ⟨_, ⟨hh, _⟩ | ⟨_, _, hl⟩⟩ := endOp_ok he
  · cases hh
  have hlh : l.lh = s.machine.log.lh := by rw [hl]
  refine h.move (p := p) (x := .outside) (h.of_inOp hp).2.2 rfl hlh rfl
    (fun f hf q => LogSystem.wakeupLog_congr f hf _ q) ?_
  rw [LogSystem.wakeupLog_kind]
  exact h.op.leave (by simp [hp, OpPc.kind]) he

theorem log (h : SysInv s) {b : Nat} {data : Buffer} {new : Bool} (hp : s.proc p = .inOp logged)
    (hw : logWrite s.machine.log b = .ok (l, new)) :
    SysInv { s with
      machine := { s.machine with bufs := update s.machine.bufs b data, log := l }
      proc := update s.proc p (.inOp (b :: logged))
      group := b :: s.group } := by
  obtain ⟨_, _, _, hl, hcase⟩ := logWrite_ok hw
  obtain ⟨_, hrun, hno⟩ := h.of_inOp hp
  have hcom : l.committing = s.machine.log.committing := by rw [hl]
  have hout : l.outstanding = s.machine.log.outstanding := by rw [hl]
  have hblocks : ∀ c, c ∈ l.lh.blocks ↔ c = b ∨ c ∈ s.machine.log.lh.blocks := by
    intro c
    rcases hcase with ⟨_, _, he⟩ | ⟨_, hm, he⟩
    · simp only [he, List.mem_append, List.mem_singleton, or_comm]
    · rw [he]
      exact ⟨.inr, fun hh => hh.elim (fun hcb => hcb ▸ hm) id⟩
  have hle : s.machine.log.lh.n ≤ l.lh.n := by
    rcases hcase with ⟨_, _, he⟩ | ⟨_, _, he⟩
    · rw [← l.lh.length_blocks, he]
      simp [LogHeader.length_blocks]
    · rw [he]
  have hupd : ∀ q, (update s.proc p (.inOp (b :: logged)) q).isInCommit = false := by
    intro q
    by_cases hq : q = p
    · subst q; simp [OpPc.isInCommit]
    · rw [update_of_ne hq]; exact hno q
  have hkind : (OpPc.inOp (b :: logged)).kind = (s.proc p).kind := by rw [hp]; rfl
  constructor
  · rw [OpPc.kind_update, hkind, update_eq_self]
    exact h.op.header hout hcom (.inr hle)
  · intro _; exact hrun
  · intro q hq; simp [hupd q] at hq
  · intro q c hm
    change c ∈ (update s.proc p (.inOp (b :: logged)) q).logged at hm
    by_cases hq : q = p
    · subst q
      simp only [update_self, OpPc.logged, List.mem_cons] at hm
      rcases hm with rfl | hm
      · simp
      · exact List.mem_cons_of_mem _ (h.logged p c (by simpa [hp, OpPc.logged] using hm))
    · rw [update_of_ne hq] at hm
      exact List.mem_cons_of_mem _ (h.logged q c hm)
  · have hg := h.group
    simp only [hrun, GroupInv] at hg ⊢
    intro c
    rw [hblocks, ← hg c]
    simp
  · exact logWrite_nodup hw h.nodup

theorem commitStart (h : SysInv s) (hp : s.proc p = .inOp logged)
    (he : endOp s.machine.log = .ok (l, true)) :
    SysInv { s with
      machine := { s.machine with log := l, pc := .commit }
      proc := update s.proc p (.inCommit logged)
      last := [] } := by
  have hlh : l.lh = s.machine.log.lh := by
    obtain ⟨_, ⟨_, _, hl⟩ | ⟨hh, _⟩⟩ := endOp_ok he
    · rw [hl]
    · cases hh
  have hrun := (h.of_inOp hp).2.1
  constructor
  · rw [OpPc.kind_update]
    exact h.op.commitStart (by simp [hp, OpPc.kind]) he
  · intro hall
    have hh := hall p
    simp [OpPc.isInCommit] at hh
  · intro q _; simp
  · intro q c hm
    change c ∈ (update s.proc p (.inCommit logged) q).logged at hm
    by_cases hq : q = p
    · subst q
      exact h.logged p c (by simpa [hp, OpPc.logged] using hm)
    · rw [update_of_ne hq] at hm
      exact h.logged q c hm
  · have hg := h.group
    simp only [hrun, GroupInv, hlh] at hg ⊢
    exact hg
  · simpa only [hlh] using h.nodup

theorem finish (h : SysInv s) (hp : s.proc p = .inCommit logged) (hpc : s.machine.pc = .finish) :
    SysInv { s with
      machine := s.machine.advance
      proc := wakeupLog (update s.proc p .outside)
      group := [] } := by
  have hcommit : (s.proc p).isInCommit = true := by simp [hp, OpPc.isInCommit]
  have honly := (h.committing hcommit).2.2
  have hempty : s.machine.log.lh.n = 0 := by
    have hg := h.group
    simp only [hpc, GroupInv] at hg
    exact hg.1
  have hnone : ∀ q, (wakeupLog (update s.proc p .outside) q).isInCommit = false := by
    intro q
    rw [LogSystem.wakeupLog_congr OpPc.isInCommit rfl]
    by_cases hq : q = p
    · subst q; simp [OpPc.isInCommit]
    · rw [update_of_ne hq]
      by_contra hh
      exact hq (honly q (by simpa using hh))
  have hadv : s.machine.advance =
      { s.machine with log := { s.machine.log with committing := false }, pc := .run } := by
    simp [LogMachine.advance, hpc]
  rw [hadv]
  constructor
  · rw [LogSystem.wakeupLog_kind]
    exact h.op.finish (by simp [hp, OpPc.kind])
  · intro _; rfl
  · intro q hq; simp [hnone q] at hq
  · intro q c hm
    rw [LogSystem.wakeupLog_congr OpPc.logged rfl] at hm
    by_cases hq : q = p
    · subst q; simp [OpPc.logged] at hm
    · rw [update_of_ne hq] at hm
      exfalso
      cases hr : s.proc q with
      | inOp bs => exact h.no_op_of_commit hcommit q bs hr
      | inCommit bs => exact hq (honly q (by simp [hr, OpPc.isInCommit]))
      | _ => simp [hr, OpPc.logged] at hm
  · simp [GroupInv, LogHeader.blocks, hempty]
  · simp [LogHeader.blocks, hempty]

omit [DecidableEq P] in
theorem advance (h : SysInv s) (hp : s.proc p = .inCommit logged) (hpc : s.machine.pc ≠ .finish) :
    SysInv { s with
      machine := s.machine.advance
      last := if s.machine.pc = .commitHead then s.machine.log.lh.blocks else s.last } := by
  have hcommit : (s.proc p).isInCommit = true := by simp [hp, OpPc.isInCommit]
  have hc := (h.committing hcommit).1
  obtain ⟨hc', ho', hpc', hlh, hg'⟩ := LogMachine.advance_commit h.group hpc (h.busy p hcommit)
  constructor
  · exact h.op.header ho' hc' (.inl hc)
  · intro hall
    have hh := hall p
    simp [hp, OpPc.isInCommit] at hh
  · intro q _; exact hpc'
  · exact h.logged
  · exact hg'
  · rcases hlh with he | he
    · change s.machine.advance.log.lh.blocks.Nodup
      rw [he]
      exact h.nodup
    · simp [LogHeader.blocks, he]

theorem trans (h : SysInv s) {a : LogAct P} (ht : LogSystem.Trans s a t) : SysInv t := by
  cases ht with
  | stutter => exact h
  | sleep p hp hb => exact h.sleep hp hb
  | enter p l hp hb => exact h.enter hp hb
  | log p b data logged l new hp hw => exact h.log hp hw
  | commitStart p logged l hp he => exact h.commitStart hp he
  | leave p logged l hp he => exact h.leave hp he
  | finish p logged hp hpc => exact h.finish hp hpc
  | head p logged hp hpc => simpa [hpc] using h.advance hp (by simp [hpc])
  | progress p logged hp hpc => simpa [hpc.2] using h.advance hp hpc.1

end SysInv

section Isolation

variable {P : Type} [Fintype P] [DecidableEq P] {start size : Nat} {disk : Nat → Buffer}
  {stale : Nat → Nat} {acts : List (LogAct P)} {s t : LogSystem P} {p : P}

theorem LogSystem.run_sysInv
    (h : ActionRun.run LogSystem.step (LogSystem.init start size disk stale) acts = .ok s) :
    SysInv s :=
  ActionRun.run_inv (fun _ _ _ hi hs => hi.trans (LogSystem.step_trans hs))
    (LogSystem.init_inv start size disk stale) h

theorem LogSystem.step_header_of_commit {a : LogAct P} (h : SysInv s)
    (hp : (s.proc p).isInCommit = true) (ha : a ≠ .commit p) (hs : s.step a = .ok t) :
    t.machine.log.lh = s.machine.log.lh := by
  obtain ⟨hc, _, honly⟩ := h.committing hp
  have hno := h.no_op_of_commit hp
  cases a with
  | beginOp q =>
    have hb : Xv6.beginOp s.machine.log = none := by simp [Xv6.beginOp, hc]
    simp only [LogSystem.step, hb] at hs
    split at hs <;> cases hs <;> rfl
  | logWrite q b data =>
    cases hq : s.proc q with
    | inOp bs => exact absurd hq (hno q bs)
    | _ => simp only [LogSystem.step, hq] at hs; cases hs; rfl
  | endOp q =>
    cases hq : s.proc q with
    | inOp bs => exact absurd hq (hno q bs)
    | _ => simp only [LogSystem.step, hq] at hs; cases hs; rfl
  | commit q =>
    have hqp : q ≠ p := fun he => ha (he ▸ rfl)
    cases hq : s.proc q with
    | inCommit bs => exact absurd (honly q (by simp [hq, OpPc.isInCommit])) hqp
    | _ => simp only [LogSystem.step, hq] at hs; cases hs; rfl

theorem LogSystem.step_ne_committing (h : SysInv s) (a : LogAct P) :
    s.step a ≠ .error .committing := by
  intro hs
  rcases LogSystem.step_error hs with ⟨p, b, data, bs, _, _, hw⟩ | ⟨p, bs, _, hp, he⟩
  · rcases logWrite_error hw with ⟨hh, _⟩ | ⟨hh, _⟩ <;> cases hh
  · have hc := (h.of_inOp hp).1
    simp [(endOp_error he).2] at hc

/-- The operation that commits, and every operation of its group, finds all it has
logged in the transaction committed when its `end_op` returns. -/
theorem LogSystem.logged_mem_last (h : SysInv s) {bs : List Nat} (hp : s.proc p = .inCommit bs)
    (hs : s.step (.commit p) = .ok t) (hret : t.proc p = .outside) :
    (∀ b ∈ bs, b ∈ t.last) ∧ ∀ b ∈ s.group, b ∈ t.last := by
  simp only [LogSystem.step, hp] at hs
  have hg := h.group
  split at hs
  · rename_i hpc
    simp only [hpc, GroupInv] at hg
    cases hs
    have hmem := hg.2
    exact ⟨fun b hb => hmem b (h.logged p b (by simpa [hp, OpPc.logged] using hb)), hmem⟩
  · cases hs; simp [hp] at hret
  · cases hs; simp [hp] at hret

omit [DecidableEq P] in
theorem LogSystem.outstanding_eq_card (h : SysInv s) :
    s.machine.log.outstanding =
      (Finset.univ.filter (fun p => (s.proc p).isInOp)).card := by
  rw [h.op.outstanding_eq_card]
  simp only [OpPc.kind_eq_inOp]

/-- Group commit under every interleaving of operations: `commit` runs alone and
owns the header, an operation's blocks are in the transaction its committing
`end_op` wrote, `outstanding` counts the operations, the panic of `end_op` is
unreachable, and nobody sleeps in `begin_op` without a reason. -/
theorem group_commit_isolation
    (h : ActionRun.run LogSystem.step (LogSystem.init start size disk stale) acts = .ok s) :
    (∀ p, (s.proc p).isInCommit = true → (∀ q bs, s.proc q ≠ .inOp bs) ∧
      ∀ a t, a ≠ .commit p → s.step a = .ok t → t.machine.log.lh = s.machine.log.lh) ∧
    (∀ p bs t, s.proc p = .inCommit bs → s.step (.commit p) = .ok t → t.proc p = .outside →
      (∀ b ∈ bs, b ∈ t.last) ∧ ∀ b ∈ s.group, b ∈ t.last) ∧
    s.machine.log.outstanding =
      (Finset.univ.filter (fun p => (s.proc p).isInOp)).card ∧
    (∀ a, s.step a ≠ .error .committing) ∧
    ∀ p, s.proc p = .asleep → s.machine.log.committing = true ∨
      s.machine.log.lh.n + (s.machine.log.outstanding + 1) * MAXOPBLOCKS > LOGSIZE := by
  have hi := LogSystem.run_sysInv h
  refine ⟨fun p hp => ⟨hi.no_op_of_commit hp, ?_⟩, ?_, ?_, ?_, ?_⟩
  · intro a t ha hs
    exact LogSystem.step_header_of_commit hi hp ha hs
  · intro p bs t hp hs hret
    exact LogSystem.logged_mem_last hi hp hs hret
  · exact LogSystem.outstanding_eq_card hi
  · exact LogSystem.step_ne_committing hi
  · intro p hp
    exact hi.op.asleep p (by simp [hp, OpPc.kind])

end Isolation

/-- A second process asks for an operation while the first one commits. -/
theorem group_commit_isolation_sleeper : ∃ s : LogSystem (Fin 2),
    ActionRun.run LogSystem.step (LogSystem.init 2 30 (fun _ _ => 0) (fun _ => 0))
      [.beginOp 0, .logWrite 0 50 (fun _ => 7), .endOp 0, .beginOp 1] = .ok s ∧
    s.proc 1 = .asleep ∧ (s.machine.log.committing = true ∨
      s.machine.log.lh.n + (s.machine.log.outstanding + 1) * MAXOPBLOCKS > LOGSIZE) := by
  obtain ⟨s, hs, hp⟩ : ∃ s : LogSystem (Fin 2),
      ActionRun.run LogSystem.step (LogSystem.init 2 30 (fun _ _ => 0) (fun _ => 0))
        [.beginOp 0, .logWrite 0 50 (fun _ => 7), .endOp 0, .beginOp 1] = .ok s ∧
      s.proc 1 = .asleep := ⟨_, rfl, rfl⟩
  exact ⟨s, hs, hp, (group_commit_isolation hs).2.2.2.2 1 hp⟩

end Xv6
