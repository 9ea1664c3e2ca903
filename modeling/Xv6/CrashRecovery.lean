import Xv6.CrashAtomicity

/-! Every run of the log, crashes included, keeps the disk recoverable to the
transactions whose header write has happened, and nothing else. -/

namespace Xv6

open Function

variable {home d : Nat → Buffer} {m m' : LogMachine} {start size : Nat} {ts : List Txn}

/-- The commit point: one header write turns the pending transaction from absent
to complete, whatever the log blocks and header entries held before. -/
theorem Fresh.commitHead (hs : m.log.start = start) (hd : Durable start size m.disk home)
    (h : Fresh start size m)
    (hlog : ∀ i < m.log.lh.n, m.disk (start + i + 1) = m.bufs (m.log.lh.block i)) :
    Durable start size m.writeHead.disk (installTxn home m.pending) ∧
      Installing start (installTxn home m.pending) 0 m.writeHead := by
  have hn : m.log.lh.n < 256 ^ 4 := by
    have hc := h.header.count
    simp only [LOGSIZE, MAXOPBLOCKS] at hc
    omega
  have hget := headBlock_get (m.bufs start) hn h.header.small
  have hstart : m.writeHead.disk start = headBlock m.log.lh (m.bufs start) := by
    simp [LogMachine.writeHead, LogMachine.bwrite, hs]
  have hother : ∀ b, b ≠ start → m.writeHead.disk b = m.disk b := by
    intro b hb
    simp [LogMachine.writeHead, LogMachine.bwrite, hs, update_of_ne hb]
  constructor
  · constructor
    · rw [hstart, hget.1]; exact h.header.count
    · rw [hstart, hget.1]; exact h.header.room
    · rw [hstart, hget.1]
      intro i hi
      rw [hget.2 i hi]
      exact h.header.home i hi
    · rw [hstart, hget.1]
      intro i hi
      rw [hget.2 i hi, hother _ (by omega), hlog i hi]
      exact (LogMachine.installTxn_pending h.header.nodup home hi).symm
    · rw [hstart, hget.1]
      intro b hb hne
      have hmem : b ∉ m.log.lh.blocks := by
        intro hm
        obtain ⟨i, hi, he⟩ := LogHeader.mem_blocks.mp hm
        exact hne i hi ((hget.2 i hi).trans he)
      rw [hother b hb.ne_start, LogMachine.installTxn_pending_ne home hmem]
      exact hd.home_eq h.empty hb
  · constructor
    · rw [hstart]; exact hget.1
    · rw [hstart]; exact hget.2
    · exact Nat.zero_le _
    · intro i hi; omega
    · intro b hb
      have hmem : b ∉ m.log.lh.blocks := by
        intro hm
        obtain ⟨i, hi, he⟩ := LogHeader.mem_blocks.mp hm
        exact hb i hi (Nat.zero_le _) he
      by_cases he : b = start
      · simp [LogMachine.writeHead, LogMachine.bwrite, hs, he]
      · rw [hother b he, ← h.clean b hmem]
        simp [LogMachine.writeHead, LogMachine.bwrite, hs, update_of_ne he]

theorem Fresh.writeLog {tail : Nat} (hs : m.log.start = start) (hd : Durable start size m.disk home)
    (h : Fresh start size m) (ht : tail < m.log.lh.n)
    (hlog : ∀ i < tail, m.disk (start + i + 1) = m.bufs (m.log.lh.block i)) :
    Durable start size (m.writeLog tail).disk home ∧ Fresh start size (m.writeLog tail) ∧
      ∀ i < tail + 1, (m.writeLog tail).disk (start + i + 1) =
        (m.writeLog tail).bufs (m.log.lh.block i) := by
  have hroom := h.header.room_succ ht
  have hdisk : (m.writeLog tail).disk =
      update m.disk (start + tail + 1) (m.bufs (m.log.lh.block tail)) := by
    simp [LogMachine.writeLog, LogMachine.bwrite, hs]
  have hbufs : (m.writeLog tail).bufs =
      update m.bufs (start + tail + 1) (m.bufs (m.log.lh.block tail)) := by
    simp [LogMachine.writeLog, LogMachine.bwrite, hs]
  refine ⟨hdisk ▸ hd.writeLog h.empty hroom, ⟨?_, h.header, ?_⟩, ?_⟩
  · rw [hdisk, update_of_ne (by omega)]
    exact h.empty
  · intro b hb
    rw [hdisk, hbufs]
    by_cases he : b = start + tail + 1
    · simp [he]
    · rw [update_of_ne he, update_of_ne he]
      exact h.clean b hb
  · intro i hi
    have hne : m.log.lh.block i ≠ start + tail + 1 :=
      (h.header.home i (by omega)).ne_log hroom
    rw [hdisk, hbufs, update_of_ne hne]
    by_cases he : i = tail
    · subst i; simp
    · rw [update_of_ne (by omega)]
      exact hlog i (by omega)

theorem LogInv.boot (h : Durable start size d home) :
    LogInv start size home (LogMachine.boot start size d) :=
  ⟨rfl, rfl, h, ⟨rfl, rfl⟩, rfl⟩

/-- A step of `commit` or of recovery keeps the invariant; the header write of
`commit` moves it to the disk with the pending transaction. -/
theorem LogInv.advance (h : LogInv start size home m) :
    LogInv start size
      (replay home (if m.pc = .commitHead then [m.pending] else [])) m.advance := by
  obtain ⟨hs, hz, hd, hp⟩ := h
  cases hpc : m.pc with
  | run =>
    simp only [LogMachine.advance, hpc, if_neg, reduceCtorEq, not_false_eq_true]
    exact ⟨hs, hz, hd, hp⟩
  | commit =>
    simp only [PcInv, hpc] at hp
    simp only [LogMachine.advance, hpc, if_neg, reduceCtorEq, not_false_eq_true]
    split
    · exact ⟨hs, hz, hd, hp.1, ⟨hp.2.empty, hp.2.header, hp.2.clean⟩, Nat.zero_le _,
        fun i hi => absurd hi (Nat.not_lt_zero i)⟩
    · exact ⟨hs, hz, hd, hp.1, hp.2.empty, hp.2.header, hp.2.clean⟩
  | writeLog tail =>
    simp only [PcInv, hpc] at hp
    obtain ⟨hc, hf, hle, hlog⟩ := hp
    simp only [LogMachine.advance, hpc, if_neg, reduceCtorEq, not_false_eq_true]
    split
    · rename_i ht
      obtain ⟨hd', hf', hlog'⟩ := hf.writeLog hs hd ht hlog
      exact ⟨hs, hz, hd', hc, ⟨hf'.empty, hf'.header, hf'.clean⟩, ht, hlog'⟩
    · rename_i ht
      exact ⟨hs, hz, hd, hc, ⟨hf.empty, hf.header, hf.clean⟩, fun i (hi : i < m.log.lh.n) => hlog i (by omega)⟩
  | commitHead =>
    simp only [PcInv, hpc] at hp
    obtain ⟨hc, hf, hlog⟩ := hp
    obtain ⟨hd', hi⟩ := hf.commitHead hs hd hlog
    simp only [LogMachine.advance, hpc, if_true]
    exact ⟨hs, hz, hd', hc, hi.count, hi.entries, hi.bound, hi.done, hi.clean⟩
  | install tail =>
    simp only [PcInv, hpc] at hp
    simp only [LogMachine.advance, hpc, if_neg, reduceCtorEq, not_false_eq_true]
    split
    · rename_i ht
      obtain ⟨hd', hi⟩ := hp.2.next hs hd ht
      exact ⟨hs, hz, hd', hp.1, hi.count, hi.entries, hi.bound, hi.done, hi.clean⟩
    · rename_i ht
      have hi := hp.2.complete hd ht
      exact ⟨hs, hz, hd, hp.1, hi.empty, hi.clean, hi.home_eq⟩
  | clearHead =>
    simp only [PcInv, hpc] at hp
    obtain ⟨hd', hf⟩ := hp.2.writeHead hs
    simp only [LogMachine.advance, hpc, if_neg, reduceCtorEq, not_false_eq_true]
    exact ⟨hs, hz, hd', hp.1, hf.empty, hf.header, hf.clean⟩
  | finish =>
    simp only [PcInv, hpc] at hp
    simp only [LogMachine.advance, hpc, if_neg, reduceCtorEq, not_false_eq_true]
    exact ⟨hs, hz, hd, rfl, hp.2.empty, hp.2.header, hp.2.clean⟩
  | readHead =>
    simp only [PcInv, hpc] at hp
    simp only [LogMachine.advance, hpc, if_neg, reduceCtorEq, not_false_eq_true]
    refine ⟨hs, hz, hd, hp.1, ?_, ?_, Nat.zero_le _, ?_, ?_⟩
    · simp [readHead, hp.2, hs]
    · intro i hi
      have hlt : i < (m.disk start).getLE 0 4 := by simpa [readHead, hp.2, hs] using hi
      simp [readHead, hp.2, hs, hlt]
    · intro i hi; omega
    · intro b _; exact congrFun hp.2 b
  | reinstall tail =>
    simp only [PcInv, hpc] at hp
    simp only [LogMachine.advance, hpc, if_neg, reduceCtorEq, not_false_eq_true]
    split
    · rename_i ht
      obtain ⟨hd', hi⟩ := hp.2.next hs hd ht
      exact ⟨hs, hz, hd', hp.1, hi.count, hi.entries, hi.bound, hi.done, hi.clean⟩
    · rename_i ht
      have hi := hp.2.complete hd ht
      exact ⟨hs, hz, hd, hp.1, hi.empty, hi.clean, hi.home_eq⟩
  | recoverHead =>
    simp only [PcInv, hpc] at hp
    obtain ⟨hd', hf⟩ := hp.2.writeHead hs
    simp only [LogMachine.advance, hpc, if_neg, reduceCtorEq, not_false_eq_true]
    exact ⟨hs, hz, hd', hp.1.1, hf.empty, hf.header, hf.clean⟩

-- `begin_op`, `log_write` and `end_op` succeed only while no commit runs, and
-- nothing calls them during recovery.
theorem LogInv.running (h : LogInv start size home m) (hr : m.pc.recovering = false)
    (hfree : m.log.committing = false ∨ 1 ≤ m.log.outstanding) :
    m.pc = .run ∧ m.log.committing = false ∧ Fresh start size m := by
  have hp := h.pc
  cases hpc : m.pc <;> simp only [PcInv, hpc, Committing] at hp <;>
    simp only [LogPc.recovering, hpc, reduceCtorEq] at hr
  · exact ⟨rfl, hp⟩
  all_goals
    exfalso
    rcases hfree with hf | hf
    · simp [hp.1.1] at hf
    · simp [hp.1.2] at hf

theorem LogInv.step {us : List Txn} (h : LogInv start size home m) (hs : LogStep m us m') :
    LogInv start size (replay home us) m' := by
  cases hs with
  | beginOp hpc he =>
    obtain ⟨hc, _, rfl⟩ := beginOp_some he
    obtain ⟨hrun, _, hf⟩ := h.running hpc (.inl hc)
    refine ⟨h.start_eq, h.size_eq, h.durable, ?_⟩
    simp only [PcInv, hrun]
    exact ⟨hc, hf.empty, hf.header, hf.clean⟩
  | @logWrite b data l new hpc hb hhome he =>
    obtain ⟨_, _, hout, hl, hcase⟩ := logWrite_ok he
    obtain ⟨hrun, hc, hf⟩ := h.running hpc (.inr hout)
    have hheader := HeaderOk.logWrite (by rw [h.start_eq, h.size_eq]; exact hf.header) hb hhome he
    rw [h.start_eq, h.size_eq] at hheader
    have hsub : ∀ c, c ∉ l.lh.blocks → c ≠ b ∧ c ∉ m.log.lh.blocks := by
      intro c hcl
      rcases hcase with ⟨_, _, he⟩ | ⟨_, hmem, he⟩
      · rw [he] at hcl
        simp only [List.mem_append, List.mem_singleton, not_or] at hcl
        exact ⟨hcl.2, hcl.1⟩
      · rw [he] at hcl
        exact ⟨fun hh => hcl (hh ▸ hmem), hcl⟩
    refine ⟨by rw [hl]; exact h.start_eq, by rw [hl]; exact h.size_eq, h.durable, ?_⟩
    simp only [PcInv, hrun]
    refine ⟨by rw [hl]; exact hc, hf.empty, hheader, ?_⟩
    intro c hcl
    obtain ⟨hne, hmem⟩ := hsub c hcl
    change update m.bufs b data c = m.disk c
    rw [update_of_ne hne]
    exact hf.clean c hmem
  | endOp hpc _ he =>
    obtain ⟨hc, hcase⟩ := endOp_ok he
    obtain ⟨hrun, _, hf⟩ := h.running hpc (.inl hc)
    rcases hcase with ⟨rfl, _, rfl⟩ | ⟨rfl, _, rfl⟩
    · exact ⟨h.start_eq, h.size_eq, h.durable, ⟨rfl, rfl⟩, hf.empty, hf.header, hf.clean⟩
    · refine ⟨h.start_eq, h.size_eq, h.durable, ?_⟩
      simp only [PcInv, hrun]
      exact ⟨hc, hf.empty, hf.header, hf.clean⟩
  | advance => exact h.advance
  | crash =>
    rw [h.start_eq, h.size_eq]
    exact LogInv.boot h.durable

theorem LogRun.inv (h0 : (d start).getLE 0 4 = 0) (h : LogRun start size d ts m) :
    LogInv start size (replay d ts) m := by
  induction h with
  | boot => exact LogInv.boot (Durable.of_empty h0 (fun _ _ => rfl))
  | step _ hs ih =>
    rw [replay_append]
    exact ih.step hs

inductive RecoveryStep : LogMachine → LogMachine → Prop where
  | advance {m : LogMachine} (h : m.pc.recovering = true) : RecoveryStep m m.advance
  | crash (m : LogMachine) : RecoveryStep m (LogMachine.boot m.log.start m.log.size m.disk)

theorem RecoveryStep.logStep (h : RecoveryStep m m') : LogStep m [] m' := by
  cases h with
  | advance hr =>
    have hne : m.pc ≠ .commitHead := by rintro he; simp [he, LogPc.recovering] at hr
    simpa [hne] using LogStep.advance m
  | crash => exact LogStep.crash m

theorem LogRun.recovery (h : LogRun start size d ts m) (hr : Relation.ReflTransGen RecoveryStep m m') :
    LogRun start size d ts m' := by
  induction hr with
  | refl => exact h
  | tail _ hs ih => simpa using ih.step hs.logStep

/-- Whenever a recovery (or a commit) has completed, the home area holds the whole
of every transaction whose header write reached the disk and nothing of any
other; recovering once more, however often that is interrupted, changes nothing. -/
theorem recovered_home_eq_committed {start size : Nat} {d : Nat → Buffer}
    (h0 : (d start).getLE 0 4 = 0) {ts : List Txn} {m : LogMachine}
    (h : LogRun start size d ts m) :
    (m.pc = .run → ∀ b, Home start size b → m.disk b = replay d ts b) ∧
    ∀ m', Relation.ReflTransGen RecoveryStep m m' → m'.pc = .run →
      ∀ b, Home start size b → m'.disk b = replay d ts b := by
  have hdone : ∀ m, LogRun start size d ts m → m.pc = .run →
      ∀ b, Home start size b → m.disk b = replay d ts b := by
    intro m hm hpc b hb
    have hinv := hm.inv h0
    have hp := hinv.pc
    simp only [PcInv, hpc] at hp
    exact hinv.durable.home_eq hp.2.empty hb
  exact ⟨hdone m h, fun m' hr hpc => hdone m' (h.recovery hr) hpc⟩

-- An operation that logs one block and ends, on a blank disk after boot.
def oneBlockLogged : LogMachine :=
  let m := (LogMachine.boot 2 30 (fun _ _ => 0)).advance.advance.advance
  { m with
    bufs := update m.bufs 50 fun _ => 7
    log := { m.log with outstanding := 1, lh := ⟨1, update m.log.lh.block 0 50⟩ } }

-- Its `end_op`, and `commit` up to and including the header write.
def oneBlockCommitted : LogMachine :=
  let m : LogMachine := { oneBlockLogged with
    log := { oneBlockLogged.log with outstanding := 0, committing := true }, pc := .commit }
  m.advance.advance.advance.advance

theorem oneBlockCommitted_run :
    LogRun 2 30 (fun _ _ => 0) [[(50, fun _ => 7)]] oneBlockCommitted := by
  have h₁ := ((@LogRun.boot 2 30 (fun _ _ => 0)).step
    (LogStep.advance _)).step (LogStep.advance _) |>.step (LogStep.advance _)
  have h₂ := h₁.step (LogStep.beginOp rfl rfl)
  have h₃ : LogRun 2 30 (fun _ _ => 0) [] oneBlockLogged :=
    h₂.step (LogStep.logWrite rfl (by decide) (by decide) rfl)
  have h₄ := h₃.step (@LogStep.endOp oneBlockLogged _ true rfl (Int.le_refl 1) rfl)
  exact (((h₄.step (LogStep.advance _)).step (LogStep.advance _)).step (LogStep.advance _)).step
    (LogStep.advance _)

/-- Power is lost right after the header write of a one-block transaction. -/
theorem recovered_home_eq_committed_crash :
    (LogMachine.boot 2 30 oneBlockCommitted.disk).advance.advance.advance.advance.disk 50 =
      fun _ => 7 := by
  have hrec : Relation.ReflTransGen RecoveryStep oneBlockCommitted
      (LogMachine.boot 2 30 oneBlockCommitted.disk).advance.advance.advance.advance :=
    ((((Relation.ReflTransGen.single (RecoveryStep.crash _)).tail
      (RecoveryStep.advance (by decide +kernel))).tail
      (RecoveryStep.advance (by decide +kernel))).tail
      (RecoveryStep.advance (by decide +kernel))).tail
      (RecoveryStep.advance (by decide +kernel))
  exact (recovered_home_eq_committed rfl oneBlockCommitted_run).2 _ hrec
    (by decide +kernel) 50 (by decide)

end Xv6
