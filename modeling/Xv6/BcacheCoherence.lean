import Xv6.BcacheSteps

/-! Coherence of the buffer cache under every interleaving of the processes. -/

namespace Xv6

open Function RingList

namespace BioInv

variable {P : Type} [Fintype P] [DecidableEq P] {s t : BioSystem P} {p : P} {b : BufId}

theorem bget (h : BioInv s) {k : Nat} (hs : s.step (.bget p k) = .ok t) : BioInv t := by
  simp only [BioSystem.step] at hs
  split at hs
  swap
  · cases hs; exact h
  rename_i hp
  cases hg : s.cache.bget p ROOTDEV k with
  | error e => simp [hg] at hs
  | ok r =>
    simp only [hg, Except.ok.injEq] at hs
    subst hs
    obtain ⟨_, hl, hd⟩ := Bcache.bget_io hg
    refine h.cacheStep (fun pins hc => ⟨hc.bget hp.1 hg, ?_⟩) hl hd
    intro r a j _ ho
    exact ho.bget hc.lru (hc.owned ho) hp.1 hg

theorem brelse (h : BioInv s) (hs : s.step (.brelse p b) = .ok t) : BioInv t := by
  simp only [BioSystem.step] at hs
  split at hs
  swap
  · cases hs; exact h
  rename_i hp
  obtain ⟨hio, hcom, hdirty⟩ := hp
  cases hr : s.cache.releasesleep p b with
  | error e => simp [hr] at hs
  | ok c =>
    simp only [hr, Except.ok.injEq] at hs
    subst hs
    have hmod : ¬ (s.pc p).mods b := by
      cases hx : s.pc p <;> simp_all [FsPc.mods, FsPc.dirty, FsPc.isInCommit]
    have hform := (Bcache.releasesleep_ok hr).2
    refine h.cacheStep (fun pins hc => ⟨hc.release hio hmod hr, ?_⟩) (by rw [hform]; rfl)
      (by rw [hform]; rfl)
    intro r a j hrc ho
    refine ho.release hio (.inl ?_) hr
    rintro rfl
    simp [hcom] at hrc

theorem store (h : BioInv s) {data : Buffer} (hs : s.step (.store p b data) = .ok t) :
    BioInv t := by
  simp only [BioSystem.step] at hs
  split at hs
  swap
  · cases hs; exact h
  rename_i dirty hp
  split at hs
  swap
  · cases hs; exact h
  rename_i hh
  cases hs
  obtain ⟨⟨hio, hlock⟩, _⟩ := hh
  have hno := h.noCommit hp
  have hkind : (fun q => (update s.pc p (.inOp (b :: dirty)) q).kind) =
      fun q => (s.pc q).kind := by
    rw [FsPc.kind_update, show (FsPc.inOp (b :: dirty)).kind = (s.pc p).kind by rw [hp]; rfl]
    exact update_eq_self p _
  refine ⟨?_, h.nodup, h.home, h.room, ?_, ?_⟩
  · simp only [BioSystem.setPc, hkind]
    exact h.op
  · intro _
    refine (h.idle hno).store data hio hlock fun q a => ?_
    by_cases hq : q = p
    · subst q
      simp only [BioSystem.setPc, update_self, hp, FsPc.mods, List.mem_cons, true_and]
      exact or_comm
    · simp [BioSystem.setPc, hq]
  · intro q x hx
    exact absurd (by rw [← congrFun hkind q]; exact congrArg FsPc.kind hx) (hno q)

theorem logWrite (h : BioInv s) (hs : s.step (.logWrite p b) = .ok t) : BioInv t := by
  simp only [BioSystem.step] at hs
  split at hs
  swap
  · cases hs; exact h
  rename_i dirty hp
  split at hs
  swap
  · cases hs; exact h
  rename_i hh
  obtain ⟨⟨hio, hlock⟩, hhome⟩ := hh
  cases hw : Xv6.logWrite s.log (s.cache.buf b).blockno with
  | error e => simp [hw] at hs
  | ok r =>
    obtain ⟨l, new⟩ := r
    simp only [hw, Except.ok.injEq] at hs
    subst hs
    obtain ⟨_, hsize, _, hl, hcase⟩ := logWrite_ok hw
    have hno := h.noCommit hp
    have hcache := h.idle hno
    have hkind : (fun q => (update s.pc p (.inOp (dirty.filter (· ≠ b))) q).kind) =
        fun q => (s.pc q).kind := by
      rw [FsPc.kind_update,
        show (FsPc.inOp (dirty.filter (· ≠ b))).kind = (s.pc p).kind by rw [hp]; rfl]
      exact update_eq_self p _
    have hmod : ∀ q a, (update s.pc p (.inOp (dirty.filter (· ≠ b))) q).mods a ↔
        (s.pc q).mods a ∧ ¬ (q = p ∧ a = b) := by
      intro q a
      by_cases hq : q = p
      · subst q; simp [hp, FsPc.mods]
      · simp [hq]
    have hmem : ∀ k, k ∈ l.lh.blocks ↔ k ∈ s.log.lh.blocks ∨ k = (s.cache.buf b).blockno := by
      intro k
      rcases hcase with ⟨_, _, he⟩ | ⟨_, hm, he⟩
      · simp [he]
      · rw [he]
        exact ⟨.inl, fun hk => hk.elim id (fun hkb => hkb ▸ hm)⟩
    have hlen : l.lh.n ≤ s.log.lh.n + 1 := by
      rcases hcase with ⟨_, _, he⟩ | ⟨_, _, he⟩
      · rw [← l.lh.length_blocks, he]
        simp [LogHeader.length_blocks]
      · rw [he]; omega
    have hge : s.log.lh.n ≤ l.lh.n := by
      rcases hcase with ⟨_, _, he⟩ | ⟨_, _, he⟩
      · rw [← l.lh.length_blocks, he]
        simp [LogHeader.length_blocks]
      · rw [he]
    have hstart : l.start = s.log.start := by rw [hl]
    have hsz : l.size = s.log.size := by rw [hl]
    refine ⟨?_, logWrite_nodup hw h.nodup, ?_, .inr ?_, ?_, ?_⟩
    · simp only [BioSystem.setPc, hkind]
      exact h.op.header (by rw [hl]) (by rw [hl]) (.inr hge)
    · intro i hi
      change Home l.start l.size (l.lh.block i)
      rw [hstart, hsz]
      rcases (hmem _).mp (LogHeader.mem_blocks.mpr ⟨i, hi, rfl⟩) with hm | hm
      · obtain ⟨j, hj, he⟩ := LogHeader.mem_blocks.mp hm
        exact he ▸ h.home j hj
      · rw [hm]; exact hhome
    · change l.lh.n < l.size
      omega
    · intro _
      rcases hcase with ⟨rfl, hnew, _⟩ | ⟨rfl, hm, heq⟩
      · exact hcache.pin hio hlock hnew hmem hmod
      · have hdev := hcache.ref.dev b (hcache.ref.refcnt_pos_of_lock hlock)
        refine ⟨hcache.lru, ?_, hcache.data.pin hdev hlock (by simp [hio]) hmem hmod⟩
        simpa only [BioSystem.setPc, heq, Bool.false_eq_true, if_false] using hcache.ref
    · intro q x hx
      exact absurd (by rw [← congrFun hkind q]; exact congrArg FsPc.kind hx) (hno q)

theorem step (h : BioInv s) {a : BioAct P} (hs : s.step a = .ok t) : BioInv t := by
  cases a with
  | bget p k => exact h.bget hs
  | acquiresleep p =>
    cases hs
    refine h.cacheStep (fun pins hc => ⟨hc.acquire p, fun r a j _ ho => ho.acquire p⟩) ?_ ?_
    all_goals
      unfold Bcache.acquiresleep
      split
      · split <;> rfl
      · rfl
  | fill p =>
    cases hs
    refine h.cacheStep (fun pins hc => ⟨hc.fill p, fun r a j _ ho => ho.fill p⟩) ?_ ?_
    all_goals
      unfold Bcache.fill
      split
      · split <;> rfl
      · rfl
  | store p b data => exact h.store hs
  | logWrite p b => exact h.logWrite hs
  | brelse p b => exact h.brelse hs
  | drop p =>
    cases hs
    refine h.cacheStep (fun pins hc => ⟨hc.drop p, fun r a j _ ho => ho.drop p⟩) ?_ ?_
    all_goals
      unfold Bcache.drop
      split
      · simp only
        split <;> rfl
      · rfl
  | beginOp p => exact h.beginOp hs
  | endOp p => exact h.endOp hs
  | commit p =>
    simp only [BioSystem.step] at hs
    split at hs
    · rename_i x hp
      split at hs
      · rename_i hio
        exact h.commitStep hp hio hs
      · cases hs; exact h
    · cases hs; exact h

omit [DecidableEq P] in
theorem init (start size : Nat) (disk : Nat → Buffer) (stale : Nat → Nat) :
    BioInv (BioSystem.init start size disk stale : BioSystem P) := by
  have hring : Ring Bcache.binitLinks none ((List.finRange NBUF).reverse.map some) := by
    have hbase : Ring (⟨fun _ => none, fun _ => none⟩ : Links (Option BufId)) none [] :=
      ⟨by simp, rfl, rfl⟩
    have hnd : (none :: ((List.finRange NBUF).map some ++ [])).Nodup := by
      have hmap := (List.nodup_finRange NBUF).map (Option.some_injective _)
      simpa using hmap
    have hh := hbase.foldl_insertFront hnd
    exact hh
  have hcache : CacheInv (Bcache.binit disk : Bcache P) [] (fun _ _ => False) := by
    refine ⟨⟨⟨_, ?_, hring, ?_⟩, fun _ => Nat.le_refl _, fun _ _ => rfl⟩, ⟨?_, ?_, ?_⟩, ?_⟩
    · intro b; simp
    · exact List.pairwise_of_forall fun _ _ => Nat.le_refl _
    · intro b hb; simp [Bcache.binit] at hb
    · intro a b ha; simp [Bcache.binit] at ha
    · intro b; simp [Bcache.binit, Io.refs]
    · constructor
      · intro p b hb; simp [Bcache.binit] at hb
      · intro p b hb; simp [Bcache.binit] at hb
      · intro b hb; simp [Bcache.binit] at hb
      · intro k hk; simp at hk
      · intro p b hb; exact hb.elim
      · intro k; exact .inl rfl
      · intro k; exact .inl rfl
  refine ⟨OpInv.init start size stale, ?_, ?_, .inl rfl, ?_, ?_⟩
  · simp [BioSystem.init, LogHeader.blocks]
  · intro i hi; simp [BioSystem.init] at hi
  · intro _
    exact hcache
  · intro p x hp; simp [BioSystem.init] at hp

end BioInv

namespace BioSystem

variable {P : Type} [DecidableEq P] {s t : BioSystem P} {p : P} {b : BufId}

def bufId (s : BioSystem P) (b : BufId) : Nat × Nat :=
  ((s.cache.buf b).dev, (s.cache.buf b).blockno)

omit [DecidableEq P] in
theorem bufId_update (b a : BufId) (y : Buf P) (hdev : y.dev = (s.cache.buf a).dev)
    (hno : y.blockno = (s.cache.buf a).blockno) :
    ((update s.cache.buf a y b).dev, (update s.cache.buf a y b).blockno) =
      s.bufId b := by
  by_cases he : b = a
  · subst b; simp [bufId, hdev, hno]
  · simp [bufId, update_of_ne he]

theorem commitStep_bufId (h : LruInv s.cache) {x : CommitPc} (hb : 0 < (s.cache.buf b).refcnt)
    (hs : s.commitStep p x = .ok t) : t.bufId b = s.bufId b := by
  have hget : ∀ {k : Nat} {f : BufId → CommitPc}, s.getAndGoto p k f = .ok t →
      t.bufId b = s.bufId b := by
    intro k f hk
    obtain ⟨c, a, hg, rfl⟩ := getAndGoto_ok hk
    obtain ⟨h1, h2, _⟩ := Bcache.bget_keeps h hg hb
    exact Prod.ext h1 h2
  have hrel : ∀ {a : BufId} {y : CommitPc}, s.andGoto p (s.cache.releasesleep p a) y = .ok t →
      t.bufId b = s.bufId b := by
    intro a y hk
    obtain ⟨c, hr, rfl⟩ := andGoto_ok hk
    obtain ⟨_, rfl⟩ := Bcache.releasesleep_ok hr
    exact bufId_update b a _ rfl rfl
  have hwrite : ∀ {a : BufId} {y : CommitPc}, s.andGoto p (s.cache.bwrite p a) y = .ok t →
      t.bufId b = s.bufId b := by
    intro a y hk
    obtain ⟨c, hr, rfl⟩ := andGoto_ok hk
    unfold Bcache.bwrite at hr
    split at hr <;> cases hr
    rfl
  cases x with
  | commit => cases hs; rfl
  | logTo m =>
    simp only [commitStep] at hs
    split at hs
    · exact hget hs
    · cases hs; rfl
  | logFrom m dst => exact hget hs
  | logCopy m dst src => cases hs; exact bufId_update b dst _ rfl rfl
  | logWrite m dst src => exact hwrite hs
  | logDropFrom m dst src => exact hrel hs
  | logDropTo m dst => exact hrel hs
  | headRead clear => exact hget hs
  | headEdit clear hd => cases hs; exact bufId_update b hd _ rfl rfl
  | headWrite clear hb => exact hwrite hs
  | headDrop clear hb => exact hrel hs
  | instLog m =>
    simp only [commitStep] at hs
    split at hs
    · exact hget hs
    · cases hs; rfl
  | instDst m lbuf => exact hget hs
  | instCopy m lbuf dbuf => cases hs; exact bufId_update b dbuf _ rfl rfl
  | instWrite m lbuf dbuf => exact hwrite hs
  | instUnpin m lbuf dbuf => cases hs; exact bufId_update b dbuf _ rfl rfl
  | instDropLog m lbuf dbuf => exact hrel hs
  | instDropDst m dbuf => exact hrel hs
  | finish => cases hs; rfl

theorem step_bufId (h : LruInv s.cache) {a : BioAct P} (hb : 0 < (s.cache.buf b).refcnt)
    (hs : s.step a = .ok t) : t.bufId b = s.bufId b := by
  cases a with
  | bget p k =>
    simp only [step] at hs
    split at hs
    swap
    · cases hs; rfl
    cases hg : s.cache.bget p ROOTDEV k with
    | error e => simp [hg] at hs
    | ok r =>
      simp only [hg, Except.ok.injEq] at hs
      subst hs
      obtain ⟨h1, h2, _⟩ := Bcache.bget_keeps h hg hb
      exact Prod.ext h1 h2
  | acquiresleep p =>
    cases hs
    simp only [bufId, Bcache.acquiresleep]
    split
    · split
      · exact bufId_update b _ _ rfl rfl
      · rfl
    · rfl
  | fill p =>
    cases hs
    obtain ⟨h1, h2, _⟩ := Bcache.fill_keeps s.cache p b
    exact Prod.ext h1 h2
  | store p a data =>
    simp only [step] at hs
    split at hs
    · split at hs
      · cases hs; exact bufId_update b a _ rfl rfl
      · cases hs; rfl
    · cases hs; rfl
  | logWrite p a =>
    simp only [step] at hs
    split at hs
    swap
    · cases hs; rfl
    split at hs
    swap
    · cases hs; rfl
    split at hs
    swap
    · cases hs
    rename_i l new _
    cases hs
    cases new with
    | true => exact bufId_update b a _ rfl rfl
    | false => rfl
  | brelse p a =>
    simp only [step] at hs
    split at hs
    swap
    · cases hs; rfl
    cases hr : s.cache.releasesleep p a with
    | error e => simp [hr] at hs
    | ok c =>
      simp only [hr, Except.ok.injEq] at hs
      subst hs
      obtain ⟨_, rfl⟩ := Bcache.releasesleep_ok hr
      exact bufId_update b a _ rfl rfl
  | drop p =>
    cases hs
    obtain ⟨h1, h2, _⟩ := Bcache.drop_keeps s.cache p b
    exact Prod.ext h1 h2
  | beginOp p =>
    simp only [step] at hs
    split at hs
    · split at hs <;> cases hs <;> rfl
    · cases hs; rfl
  | endOp p =>
    simp only [step] at hs
    split at hs
    · split at hs <;> cases hs <;> rfl
    · cases hs; rfl
  | commit p =>
    simp only [step] at hs
    split at hs
    · split at hs
      · exact commitStep_bufId h hb hs
      · cases hs; rfl
    · cases hs; rfl

end BioSystem

theorem BioInv.cache_inv {P : Type} [Fintype P] {s : BioSystem P} (h : BioInv s) :
    ∃ pins, CacheInv s.cache pins (fun p => (s.pc p).mods) := by
  by_cases hno : ∀ p, (s.pc p).kind ≠ .inCommit
  · exact ⟨_, h.idle hno⟩
  · obtain ⟨p, hp⟩ := not_forall.mp hno
    cases hx : s.pc p with
    | inCommit x => exact ⟨_, (h.commit p x hx).1⟩
    | _ => simp [hx, FsPc.kind] at hp

/-- The buffer cache under every interleaving: the list stays one ring through all the
buffers, a block has one buffer, a buffer in use keeps its block, the buffer recycled
is the unused one released longest ago, and a finished `bread` shows what the last
holder of the block left. -/
theorem bcache_coherent {P : Type} [Fintype P] [DecidableEq P] {start size : Nat}
    {disk : Nat → Buffer} {stale : Nat → Nat} {acts : List (BioAct P)} {s : BioSystem P}
    (h : ActionRun.run BioSystem.step (BioSystem.init start size disk stale) acts = .ok s) :
    (∃ l : List BufId, (∀ b, b ∈ l) ∧ Ring s.cache.links none (l.map some)) ∧
    (∀ a b, (s.cache.buf a).dev = ROOTDEV → (s.cache.buf b).dev = ROOTDEV →
      (s.cache.buf a).blockno = (s.cache.buf b).blockno → a = b) ∧
    (∀ a t b, s.step a = .ok t → 0 < (s.cache.buf b).refcnt → t.bufId b = s.bufId b) ∧
    (∀ p k c b, s.cache.bget p ROOTDEV k = .ok (c, b) → (∀ a, s.bufId a ≠ (ROOTDEV, k)) →
      (s.cache.buf b).refcnt = 0 ∧
      ∀ a, (s.cache.buf a).refcnt = 0 → s.cache.released b ≤ s.cache.released a) ∧
    ∀ p b t, s.cache.io p = .filling b → s.step (.fill p) = .ok t →
      t.cache.io p = .idle ∧ (t.cache.buf b).lock = some p ∧
      (t.cache.buf b).data = s.cache.left (s.cache.buf b).blockno := by
  have hinv : BioInv s :=
    ActionRun.run_inv (fun _ _ _ hi hs => hi.step hs) (BioInv.init start size disk stale) h
  obtain ⟨pins, hc⟩ := hinv.cache_inv
  refine ⟨?_, hc.ref.uniq, ?_, ?_, ?_⟩
  · obtain ⟨l, hall, hr, _⟩ := hc.lru.ring
    exact ⟨l, hall, hr⟩
  · intro a t b hs hb
    exact BioSystem.step_bufId hc.lru hb hs
  · intro p k c b hg hnone
    rcases Bcache.bget_ok hg with ⟨hf, _⟩ | ⟨_, hu, _⟩
    · obtain ⟨h1, h2⟩ := hc.lru.findCached_some hf
      exact absurd (Prod.ext h1 h2) (hnone b)
    · exact hc.lru.findUnused_some hu
  · intro p b t hio hs
    cases hs
    have hlock := hc.data.filling p b hio
    have hleft := hc.data.fill_left hc.ref hio
    simp only [hc.data.fill_eq hc.ref hio, Bcache.setIo, Bcache.setBuf, update_self]
    exact ⟨trivial, hlock, hleft.symm⟩

/-- One process changes block 40, logs it and lets it go; another one reads it. -/
def sharedBlock : List (BioAct (Fin 2)) :=
  [.beginOp 0, .bget 0 40, .acquiresleep 0, .fill 0, .store 0 0 (fun _ => 7), .logWrite 0 0,
    .bget 1 40, .brelse 0 0, .drop 0, .acquiresleep 1]

theorem bcache_coherent_shared : ∃ s : BioSystem (Fin 2),
    ActionRun.run BioSystem.step (BioSystem.init 2 30 (fun _ _ => 0) (fun _ => 0)) sharedBlock =
      .ok s ∧ s.cache.io 1 = .filling 0 ∧ (s.cache.buf 0).refcnt = 2 ∧
    ∀ t, s.step (.fill 1) = .ok t →
      (t.cache.buf 0).data = s.cache.left (s.cache.buf 0).blockno := by
  have hrun : (match ActionRun.run BioSystem.step
      (BioSystem.init 2 30 (fun _ _ => 0) (fun _ => 0)) sharedBlock with
    | .ok s => decide (s.cache.io 1 = .filling 0 ∧ (s.cache.buf 0).refcnt = 2)
    | .error _ => false) = true := by decide +kernel
  cases hs : ActionRun.run BioSystem.step
      (BioSystem.init 2 30 (fun _ _ => 0) (fun _ => 0)) sharedBlock with
  | error e => simp [hs] at hrun
  | ok s =>
    simp only [hs, decide_eq_true_eq] at hrun
    refine ⟨s, rfl, hrun.1, hrun.2, fun t ht => ?_⟩
    exact ((bcache_coherent hs).2.2.2.2 1 0 t hrun.1 ht).2.2

end Xv6
