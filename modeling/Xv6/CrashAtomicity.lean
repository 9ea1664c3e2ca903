import Xv6.LogMachine

/-! Crash atomicity of the redo log. The disk alone determines the outcome of
recovery at every moment, and it changes only at the header write of `commit`. -/

namespace Xv6

open Function

/-- Recovery from `d` would leave the home area equal to `home`: the header lists
blocks whose logged copies and all other blocks in place agree with it. -/
structure Durable (start size : Nat) (d home : Nat → Buffer) : Prop where
  count : (d start).getLE 0 4 ≤ LOGSIZE
  room : (d start).getLE 0 4 = 0 ∨ (d start).getLE 0 4 < size
  entry : ∀ i < (d start).getLE 0 4, Home start size ((d start).getLE (4 + 4 * i) 4)
  copy : ∀ i < (d start).getLE 0 4,
    d (start + i + 1) = home ((d start).getLE (4 + 4 * i) 4)
  inPlace : ∀ b, Home start size b →
    (∀ i < (d start).getLE 0 4, (d start).getLE (4 + 4 * i) 4 ≠ b) → d b = home b

structure HeaderOk (start size : Nat) (lh : LogHeader) : Prop where
  count : lh.n ≤ LOGSIZE
  room : lh.n = 0 ∨ lh.n < size
  home : ∀ i < lh.n, Home start size (lh.block i)
  small : ∀ i < lh.n, lh.block i < 256 ^ 4
  nodup : lh.blocks.Nodup

variable {start size b i tail : Nat} {d : Nat → Buffer} {m : LogMachine} {lh : LogHeader} {t : Txn}

theorem Home.ne_start (h : Home start size b) : b ≠ start := by
  unfold Home at h; omega

theorem Home.ne_log (h : Home start size b) (hi : i + 1 < size) : b ≠ start + i + 1 := by
  unfold Home at h; omega

variable {home : Nat → Buffer}

theorem Durable.of_empty (h0 : (d start).getLE 0 4 = 0) (h : ∀ b, Home start size b → d b = home b) :
    Durable start size d home := by
  constructor
  · simp [h0]
  · exact .inl h0
  · intro i hi; omega
  · intro i hi; omega
  · intro b hb _; exact h b hb

theorem Durable.home_eq (h : Durable start size d home) (h0 : (d start).getLE 0 4 = 0)
    (hb : Home start size b) : d b = home b :=
  h.inPlace b hb fun i hi => by omega

theorem Durable.install (h : Durable start size d home) (hb : Home start size b) :
    Durable start size (update d b (home b)) home := by
  have hs : update d b (home b) start = d start :=
    update_of_ne hb.ne_start.symm _ _
  constructor
  · simpa only [hs] using h.count
  · simpa only [hs] using h.room
  · simpa only [hs] using h.entry
  · rw [hs]
    intro i hi
    have hi' : i + 1 < size := by have := h.room; omega
    rw [update_of_ne (hb.ne_log hi').symm]
    exact h.copy i hi
  · rw [hs]
    intro c hc hne
    by_cases he : c = b
    · subst c; simp
    · rw [update_of_ne he]
      exact h.inPlace c hc hne

theorem Durable.writeLog {data : Buffer} (h : Durable start size d home) (h0 : (d start).getLE 0 4 = 0)
    (hi : i + 1 < size) : Durable start size (update d (start + i + 1) data) home := by
  have hs : update d (start + i + 1) data start = d start :=
    update_of_ne (by omega) _ _
  refine Durable.of_empty (by rw [hs]; exact h0) fun b hb => ?_
  rw [update_of_ne (hb.ne_log hi)]
  exact h.home_eq h0 hb

theorem installTxn_of_not_mem (h : ∀ w ∈ t, w.1 ≠ b) : installTxn d t b = d b := by
  induction t generalizing d with
  | nil => rfl
  | cons w t ih =>
    have hw : b ≠ w.1 := (h w (by simp)).symm
    change installTxn (update d w.1 w.2) t b = d b
    rw [ih (fun v hv => h v (by simp [hv])), update_of_ne hw]

theorem installTxn_of_mem (hnd : (t.map Prod.fst).Nodup) {w : Nat × Buffer} (hw : w ∈ t) :
    installTxn d t w.1 = w.2 := by
  induction t generalizing d with
  | nil => simp at hw
  | cons v t ih =>
    have hnd' := List.nodup_cons.mp hnd
    change installTxn (update d v.1 v.2) t w.1 = w.2
    rcases List.mem_cons.mp hw with rfl | hw
    · rw [installTxn_of_not_mem, update_self]
      intro u hu he
      exact hnd'.1 (he ▸ List.mem_map_of_mem hu)
    · exact ih hnd'.2 hw

theorem replay_append (d : Nat → Buffer) (ts us : List Txn) :
    replay d (ts ++ us) = replay (replay d ts) us := by
  simp [replay, List.foldl_append]

theorem LogMachine.pending_fst (m : LogMachine) :
    m.pending.map Prod.fst = m.log.lh.blocks := by
  simp [pending, Function.comp_def]

theorem LogMachine.installTxn_pending (hnd : m.log.lh.blocks.Nodup) (d : Nat → Buffer)
    (hi : i < m.log.lh.n) : installTxn d m.pending (m.log.lh.block i) = m.bufs (m.log.lh.block i) := by
  have hm : (m.log.lh.block i, m.bufs (m.log.lh.block i)) ∈ m.pending :=
    List.mem_map_of_mem (LogHeader.mem_blocks.mpr ⟨i, hi, rfl⟩)
  exact installTxn_of_mem (by rwa [m.pending_fst]) hm

theorem LogMachine.installTxn_pending_ne (d : Nat → Buffer) (hb : b ∉ m.log.lh.blocks) :
    installTxn d m.pending b = d b := by
  apply installTxn_of_not_mem
  intro w hw he
  apply hb
  rw [← he, ← m.pending_fst]
  exact List.mem_map_of_mem hw

-- Before the header write: the header on disk is empty and only blocks in the
-- in-memory header may differ from the disk.
structure Fresh (start size : Nat) (m : LogMachine) : Prop where
  empty : (m.disk start).getLE 0 4 = 0
  header : HeaderOk start size m.log.lh
  clean : ∀ b, b ∉ m.log.lh.blocks → m.bufs b = m.disk b

-- After it: `tail` blocks are installed, and the others are still to be.
structure Installing (start : Nat) (home : Nat → Buffer) (tail : Nat) (m : LogMachine) :
    Prop where
  count : (m.disk start).getLE 0 4 = m.log.lh.n
  entries : ∀ i < m.log.lh.n, (m.disk start).getLE (4 + 4 * i) 4 = m.log.lh.block i
  bound : tail ≤ m.log.lh.n
  done : ∀ i < tail, m.disk (m.log.lh.block i) = home (m.log.lh.block i)
  clean : ∀ b, (∀ i < m.log.lh.n, tail ≤ i → m.log.lh.block i ≠ b) → m.bufs b = m.disk b

-- All installed; the header on disk may still list the transaction.
structure Installed (start size : Nat) (home : Nat → Buffer) (m : LogMachine) : Prop where
  empty : m.log.lh.n = 0
  clean : m.bufs = m.disk
  home_eq : ∀ b, Home start size b → m.disk b = home b

def Idle (m : LogMachine) : Prop := m.log.committing = false ∧ m.log.outstanding = 0

def Committing (m : LogMachine) : Prop := m.log.committing = true ∧ m.log.outstanding = 0

def PcInv (start size : Nat) (home : Nat → Buffer) (m : LogMachine) : Prop :=
  match m.pc with
  | .run => m.log.committing = false ∧ Fresh start size m
  | .commit => Committing m ∧ Fresh start size m
  | .writeLog tail => Committing m ∧ Fresh start size m ∧ tail ≤ m.log.lh.n ∧
      ∀ i < tail, m.disk (start + i + 1) = m.bufs (m.log.lh.block i)
  | .commitHead => Committing m ∧ Fresh start size m ∧
      ∀ i < m.log.lh.n, m.disk (start + i + 1) = m.bufs (m.log.lh.block i)
  | .install tail => Committing m ∧ Installing start home tail m
  | .clearHead => Committing m ∧ Installed start size home m
  | .finish => Committing m ∧ Fresh start size m
  | .readHead => Idle m ∧ m.bufs = m.disk
  | .reinstall tail => Idle m ∧ Installing start home tail m
  | .recoverHead => Idle m ∧ Installed start size home m

structure LogInv (start size : Nat) (home : Nat → Buffer) (m : LogMachine) : Prop where
  start_eq : m.log.start = start
  size_eq : m.log.size = size
  durable : Durable start size m.disk home
  pc : PcInv start size home m

theorem HeaderOk.empty (start size : Nat) (h : lh.n = 0) : HeaderOk start size lh := by
  constructor
  · omega
  · exact .inl h
  · intro i hi; omega
  · intro i hi; omega
  · simp [LogHeader.blocks, h]

theorem HeaderOk.room_succ (h : HeaderOk start size lh) (hi : i < lh.n) : i + 1 < size := by
  have := h.room
  omega

theorem HeaderOk.logWrite {l l' : Log} {new : Bool} (h : HeaderOk l.start l.size l.lh)
    (hb : b < 256 ^ 4) (hhome : Home l.start l.size b) (he : logWrite l b = .ok (l', new)) :
    HeaderOk l.start l.size l'.lh := by
  obtain ⟨hn, hsize, _, _, hcase⟩ := logWrite_ok he
  rcases hcase with ⟨_, _, hblocks⟩ | ⟨_, _, hlh⟩
  · have hlen : l'.lh.n = l.lh.n + 1 := by
      rw [← l'.lh.length_blocks, hblocks]
      simp [LogHeader.length_blocks]
    have hmem : ∀ i < l'.lh.n, l'.lh.block i ∈ l.lh.blocks ∨ l'.lh.block i = b := by
      intro i hi
      have hm : l'.lh.block i ∈ l'.lh.blocks := LogHeader.mem_blocks.mpr ⟨i, hi, rfl⟩
      simpa [hblocks] using hm
    constructor
    · omega
    · omega
    · intro i hi
      rcases hmem i hi with hm | hm
      · obtain ⟨j, hj, hje⟩ := LogHeader.mem_blocks.mp hm
        exact hje ▸ h.home j hj
      · rwa [hm]
    · intro i hi
      rcases hmem i hi with hm | hm
      · obtain ⟨j, hj, hje⟩ := LogHeader.mem_blocks.mp hm
        exact hje ▸ h.small j hj
      · rwa [hm]
    · exact logWrite_nodup he h.nodup
  · rwa [hlh]

theorem Installing.next (hs : m.log.start = start) (hd : Durable start size m.disk home)
    (h : Installing start home tail m) (ht : tail < m.log.lh.n) :
    Durable start size (m.install tail).disk home ∧
      Installing start home (tail + 1) (m.install tail) := by
  have hroom : tail + 1 < size := by have := hd.room; have := h.count; omega
  have hhome : ∀ i < m.log.lh.n, Home start size (m.log.lh.block i) := by
    intro i hi
    rw [← h.entries i hi]
    exact hd.entry i (h.count ▸ hi)
  have hdata : m.bufs (start + tail + 1) = home (m.log.lh.block tail) := by
    rw [h.clean _ (fun i hi _ => (hhome i hi).ne_log hroom), ← h.entries tail ht]
    exact hd.copy tail (h.count ▸ ht)
  have hdisk : (m.install tail).disk =
      update m.disk (m.log.lh.block tail) (home (m.log.lh.block tail)) := by
    simp [LogMachine.install, LogMachine.bwrite, hs, hdata]
  have hbufs : (m.install tail).bufs =
      update m.bufs (m.log.lh.block tail) (home (m.log.lh.block tail)) := by
    simp [LogMachine.install, LogMachine.bwrite, hs, hdata]
  have hhead : (m.install tail).disk start = m.disk start := by
    rw [hdisk, update_of_ne (hhome tail ht).ne_start.symm]
  refine ⟨hdisk ▸ hd.install (hhome tail ht), ?_⟩
  constructor
  · rw [hhead]; exact h.count
  · rw [hhead]; exact h.entries
  · exact ht
  · intro i hi
    change (m.install tail).disk (m.log.lh.block i) = home (m.log.lh.block i)
    rw [hdisk]
    by_cases he : m.log.lh.block i = m.log.lh.block tail
    · simp [he]
    · rw [update_of_ne he]
      exact h.done i (by have : i ≠ tail := fun hh => he (hh ▸ rfl); omega)
  · intro b hb
    rw [hdisk, hbufs]
    by_cases he : b = m.log.lh.block tail
    · simp [he]
    · rw [update_of_ne he, update_of_ne he]
      refine h.clean b fun i hi hti => ?_
      by_cases hit : i = tail
      · subst i; exact fun hh => he hh.symm
      · exact hb i hi (by omega)

theorem Installing.complete (hd : Durable start size m.disk home) (h : Installing start home tail m)
    (ht : ¬ tail < m.log.lh.n) : Installed start size home (m.setN 0) := by
  have hn : tail = m.log.lh.n := Nat.le_antisymm h.bound (Nat.not_lt.mp ht)
  refine ⟨rfl, ?_, ?_⟩
  · funext b
    exact h.clean b fun i hi hti => by omega
  · intro b hb
    by_cases he : ∃ i < m.log.lh.n, m.log.lh.block i = b
    · obtain ⟨i, hi, rfl⟩ := he
      exact h.done i (by omega)
    · refine hd.inPlace b hb fun i hi hh => he ⟨i, ?_, ?_⟩
      · rw [← h.count]; exact hi
      · rw [← h.entries i (h.count ▸ hi)]; exact hh

theorem Installed.writeHead (hs : m.log.start = start) (h : Installed start size home m) :
    Durable start size m.writeHead.disk home ∧ Fresh start size m.writeHead := by
  have hget : (m.writeHead.disk start).getLE 0 4 = 0 := by
    have hh := (@headBlock_get m.log.lh (m.bufs start) (by simp [h.empty])
      (fun i hi => by have := h.empty; omega)).1
    simpa [LogMachine.writeHead, LogMachine.bwrite, hs, h.empty] using hh
  refine ⟨Durable.of_empty hget (fun b hb => ?_), hget, HeaderOk.empty _ _ h.empty, ?_⟩
  · rw [← h.home_eq b hb]
    simp [LogMachine.writeHead, LogMachine.bwrite, hs, update_of_ne hb.ne_start]
  · intro b _
    simp [LogMachine.writeHead, LogMachine.bwrite, h.clean]

end Xv6
