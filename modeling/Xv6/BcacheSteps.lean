import Xv6.BcacheFrame

/-! Every step of `commit`, `begin_op` and `end_op` keeps the invariant. -/

namespace Xv6

open Function

theorem Copied.update {P : Type} {c c' : Bcache P} {l : Log} {m k : Nat} {data : Buffer}
    (hc : Copied c l m) (hl : c'.latest = update c.latest k data)
    (hlog : ∀ i < m, l.start + i + 1 ≠ k) (hhome : ∀ i < m, l.lh.block i ≠ k) :
    Copied c' l m := by
  intro i hi
  rw [hl, update_of_ne (hlog i hi), update_of_ne (hhome i hi)]
  exact hc i hi

namespace BioSystem

variable {P : Type} [DecidableEq P] {s t : BioSystem P} {p : P}

theorem andGoto_ok {r : Except BioPanic (Bcache P)} {y : CommitPc}
    (h : s.andGoto p r y = .ok t) : ∃ c, r = .ok c ∧ t = { s with cache := c }.goto p y := by
  cases r with
  | ok c =>
    simp only [andGoto, Except.ok.injEq] at h
    exact ⟨c, rfl, h.symm⟩
  | error e => simp [andGoto] at h

theorem getAndGoto_ok {k : Nat} {y : BufId → CommitPc} (h : s.getAndGoto p k y = .ok t) :
    ∃ c b, s.cache.bget p ROOTDEV k = .ok (c, b) ∧ t = { s with cache := c }.goto p (y b) := by
  unfold getAndGoto at h
  cases hg : s.cache.bget p ROOTDEV k with
  | ok r =>
    obtain ⟨c, b⟩ := r
    simp only [hg, Except.ok.injEq] at h
    exact ⟨c, b, rfl, h.symm⟩
  | error e => simp [hg] at h

end BioSystem

namespace BioInv

variable {P : Type} [Fintype P] {s t : BioSystem P} {p : P} {x y : CommitPc} {b : BufId} {c : Bcache P}
  {k : Nat}

theorem not_mods (h : BioInv s) (hp : s.pc p = .inCommit x) {q : P} (hq : q ≠ p) (b : BufId) :
    ¬ (s.pc q).mods b := by
  have hkind : (s.pc p).kind = .inCommit := by rw [hp]; rfl
  cases hr : s.pc q with
  | inOp dirty =>
    exact absurd (by rw [hr]; rfl) (h.op.no_op_of_commit hkind q)
  | inCommit z =>
    exact absurd ((h.op.busy p hkind).2.2 q (by rw [hr]; rfl)) hq
  | _ => simp [FsPc.mods]

theorem commitCache (h : BioInv s) (hp : s.pc p = .inCommit x) :
    CacheInv s.cache (x.pins s.log.lh.blocks) (fun q b => q = p ∧ x.mods = some b) := by
  refine (h.commit p x hp).1.mod_congr fun q b => ?_
  by_cases hq : q = p
  · subst q; simp [hp, FsPc.mods]
  · simp [hq, h.not_mods hp hq b]

theorem log_ne_home (h : BioInv s) {i j : Nat} (hi : i < s.log.lh.n) (hj : j < s.log.lh.n) :
    s.log.lh.block i ≠ s.log.start + j + 1 := by
  have hroom := h.room
  exact (h.home i hi).ne_log (by omega)

theorem cacheStep (h : BioInv s) (hc : ∀ pins, CacheInv s.cache pins (fun p => (s.pc p).mods) →
      CacheInv c pins (fun p => (s.pc p).mods) ∧
      ∀ r a j, (s.pc r).isInCommit = true → s.cache.Owns r a j → c.Owns r a j)
    (hl : c.latest = s.cache.latest) (hd : c.disk = s.cache.disk) : BioInv { s with cache := c } := by
  refine ⟨h.op, h.nodup, h.home, h.room, ?_, ?_⟩
  · intro hno
    exact (hc _ (h.idle hno)).1
  · intro q x hq
    obtain ⟨hinv, hcom⟩ := h.commit q x hq
    obtain ⟨hinv', hown⟩ := hc _ hinv
    exact ⟨hinv', hcom.frame (fun b k => hown q b k (by rw [hq]; rfl)) hl hd⟩

theorem opStep (h : BioInv s) {o : Int} {cm : Bool} {pc : P → FsPc}
    (hop : OpInv { s.log with outstanding := o, committing := cm } (fun q => (pc q).kind))
    (hmod : ∀ q b, (pc q).mods b ↔ (s.pc q).mods b)
    (hidle : (∀ q, (pc q).kind ≠ .inCommit) → ∀ q, (s.pc q).kind ≠ .inCommit)
    (hcom : ∀ q x, pc q = .inCommit x → s.pc q = .inCommit x ∨
      (∀ q, (s.pc q).kind ≠ .inCommit) ∧ x = .commit) :
    BioInv { s with log := { s.log with outstanding := o, committing := cm }, pc := pc } := by
  refine ⟨hop, h.nodup, h.home, h.room, ?_, ?_⟩
  · intro hno
    exact (h.idle (hidle hno)).mod_congr hmod
  · intro q x hq
    rcases hcom q x hq with hold | ⟨hno, rfl⟩
    · obtain ⟨hc, hx⟩ := h.commit q x hold
      exact ⟨hc.mod_congr hmod, by cases x <;> exact hx⟩
    · exact ⟨(h.idle hno).mod_congr hmod, trivial⟩

theorem noCommit (h : BioInv s) {dirty : List BufId} (hp : s.pc p = .inOp dirty) (q : P) :
    (s.pc q).kind ≠ .inCommit :=
  (h.op.of_inOp (p := p) (by rw [hp]; rfl)).2 q

variable [DecidableEq P]

theorem commitMove (h : BioInv s) (hp : s.pc p = .inCommit x) {lh : LogHeader}
    (hlh : lh = s.log.lh ∨ lh.n = 0)
    (hc : CacheInv c (y.pins lh.blocks) (fun q b => q = p ∧ y.mods = some b))
    (hcom : CommitInv c { s.log with lh := lh } p y) :
    BioInv ({ cache := c, log := { s.log with lh := lh }, pc := s.pc : BioSystem P }.goto p y) := by
  have hkind : (s.pc p).kind = .inCommit := by rw [hp]; rfl
  have hsame : (fun q => (update s.pc p (.inCommit y) q).kind) =
      fun q => (s.pc q).kind := by
    rw [FsPc.kind_update, show (FsPc.inCommit y).kind = (s.pc p).kind from hkind.symm]
    exact update_eq_self p _
  have hmod : ∀ q b, (update s.pc p (.inCommit y) q).mods b ↔
      q = p ∧ y.mods = some b := by
    intro q b
    by_cases hq : q = p
    · subst q; simp [FsPc.mods]
    · simp [hq, h.not_mods hp hq b]
  simp only [BioSystem.goto, BioSystem.setPc]
  refine ⟨?_, ?_, ?_, ?_, ?_, ?_⟩
  · simp only [hsame]
    exact h.op.header rfl rfl (.inl (h.op.busy p hkind).1)
  · rcases hlh with rfl | hn
    · exact h.nodup
    · simp [LogHeader.blocks, hn]
  · rcases hlh with rfl | hn
    · exact h.home
    · intro i hi; simp [hn] at hi
  · rcases hlh with rfl | hn
    · exact h.room
    · exact .inl hn
  · intro hno
    exact absurd (by simp [FsPc.kind]) (hno p)
  · intro q z hz
    change update s.pc p (.inCommit y) q = .inCommit z at hz
    have hq : q = p := by
      by_contra hq
      rw [update_of_ne hq] at hz
      exact hq ((h.op.busy p hkind).2.2 q (by rw [hz]; rfl))
    subst q
    rw [update_self, FsPc.inCommit.injEq] at hz
    subst hz
    exact ⟨hc.mod_congr hmod, hcom⟩

theorem commitGoto (h : BioInv s) (hp : s.pc p = .inCommit x) (hx : x.mods = none)
    (hy : y.mods = none) (hpins : y.pins s.log.lh.blocks = x.pins s.log.lh.blocks)
    (hcom : CommitInv s.cache s.log p y) : BioInv (s.goto p y) := by
  have hc := h.commitCache hp
  rw [← hpins] at hc
  exact h.commitMove hp (.inl rfl) (hc.mod_congr (by simp [hx, hy])) hcom

theorem commitGet (h : BioInv s) (hp : s.pc p = .inCommit x) (hio : s.cache.io p = .idle)
    {f : BufId → CommitPc} (hs : s.getAndGoto p k f = .ok t) (hx : x.mods = none)
    (hf : ∀ b, (f b).mods = none ∧ (f b).pins s.log.lh.blocks = x.pins s.log.lh.blocks)
    (hcom : ∀ c b, (∀ a j, s.cache.Owns p a j → c.Owns p a j) → c.Owns p b k →
      c.latest = s.cache.latest → CommitInv c s.log p (f b)) : BioInv t := by
  obtain ⟨c, b, hg, rfl⟩ := BioSystem.getAndGoto_ok hs
  have hc := h.commitCache hp
  obtain ⟨_, hl, _⟩ := Bcache.bget_io hg
  refine h.commitMove hp (.inl rfl) ?_ (hcom c b ?_ (Bcache.bget_owns hc.lru hg) hl)
  · rw [(hf b).2]
    exact (hc.bget hio hg).mod_congr (by simp [hx, (hf b).1])
  · intro a j ho
    exact ho.bget hc.lru (hc.owned ho) hio hg

theorem commitStore (h : BioInv s) (hp : s.pc p = .inCommit x) (hio : s.cache.io p = .idle)
    (data : Buffer) (ho : s.cache.Owns p b k) (hx : x.mods = none) (hy : y.mods = some b)
    (hpins : y.pins s.log.lh.blocks = x.pins s.log.lh.blocks)
    (hcom : ∀ c, (∀ a j, s.cache.Owns p a j → c.Owns p a j) →
      c.latest = update s.cache.latest k data → CommitInv c s.log p y) :
    BioInv ({ s with cache := s.cache.store b data }.goto p y) := by
  have hc := h.commitCache hp
  have hlock := (hc.owned_data ho hio).1
  refine h.commitMove hp (.inl rfl) ?_ (hcom _ ?_ ?_)
  · rw [hpins]
    refine hc.store data hio hlock fun q a => ?_
    simp only [hx, hy, Option.some.injEq, reduceCtorEq, and_false, false_or]
    exact and_congr_right fun _ => eq_comm
  · intro a j hh
    exact hh.setBuf b _ rfl rfl rfl
  · simp [Bcache.store, Bcache.setBuf, ho.2.1]

theorem commitWrite (h : BioInv s) (hp : s.pc p = .inCommit x) (hio : s.cache.io p = .idle)
    (ho : s.cache.Owns p b k) (hs : s.andGoto p (s.cache.bwrite p b) y = .ok t) (hx : x.mods = some b)
    (hy : y.mods = none) (hpins : y.pins s.log.lh.blocks = x.pins s.log.lh.blocks)
    (hcom : ∀ c, (∀ a j, s.cache.Owns p a j → c.Owns p a j) → c.latest = s.cache.latest →
      c.disk k = s.cache.latest k → CommitInv c s.log p y) : BioInv t := by
  obtain ⟨c, hw, rfl⟩ := BioSystem.andGoto_ok hs
  have hc := h.commitCache hp
  obtain ⟨hlock, hdata⟩ := hc.owned_data ho hio
  have hform : c = { s.cache with
      disk := update s.cache.disk (s.cache.buf b).blockno (s.cache.buf b).data } := by
    simpa [Bcache.bwrite, hlock, eq_comm] using hw
  refine h.commitMove hp (.inl rfl) ?_ (hcom c ?_ ?_ ?_)
  · rw [hpins]
    refine hc.bwrite hio hw fun q a => ?_
    simp only [hx, hy, Option.some.injEq, reduceCtorEq, and_false, false_iff, not_and]
    rintro ⟨rfl, rfl⟩
    simp
  · intro a j hh
    rw [hform]
    exact hh
  · rw [hform]
  · simp [hform, ho.2.1, hdata]

theorem commitDrop (h : BioInv s) (hp : s.pc p = .inCommit x) (hio : s.cache.io p = .idle)
    (hs : s.andGoto p (s.cache.releasesleep p b) y = .ok t) (hx : x.mods = none) (hy : y.mods = none)
    (hpins : y.pins s.log.lh.blocks = x.pins s.log.lh.blocks)
    (hcom : ∀ c, (∀ a j, a ≠ b → s.cache.Owns p a j → c.Owns p a j) →
      c.latest = s.cache.latest → CommitInv c s.log p y) : BioInv t := by
  obtain ⟨c, hr, rfl⟩ := BioSystem.andGoto_ok hs
  have hc := h.commitCache hp
  have hform := (Bcache.releasesleep_ok hr).2
  refine h.commitMove hp (.inl rfl) ?_ (hcom c ?_ ?_)
  · rw [hpins]
    exact (hc.release hio (by simp [hx]) hr).mod_congr (by simp [hx, hy])
  · intro a j hab hh
    exact hh.release hio (.inr hab) hr
  · rw [hform]
    rfl

theorem commitStep (h : BioInv s) (hp : s.pc p = .inCommit x) (hio : s.cache.io p = .idle)
    (hs : s.commitStep p x = .ok t) : BioInv t := by
  have hc := h.commitCache hp
  have hcom := (h.commit p x hp).2
  cases x with
  | commit =>
    simp only [BioSystem.commitStep, Except.ok.injEq] at hs
    subst hs
    by_cases hn : 0 < s.log.lh.n
    · rw [if_pos hn]
      exact h.commitGoto hp rfl rfl rfl ⟨Nat.zero_le _, fun i hi => absurd hi (Nat.not_lt_zero i)⟩
    · rw [if_neg hn]
      exact h.commitGoto hp rfl rfl rfl (Nat.eq_zero_of_not_pos hn)
  | logTo m =>
    simp only [BioSystem.commitStep] at hs
    obtain ⟨hle, hcop⟩ := hcom
    split at hs
    · rename_i hlt
      refine h.commitGet hp hio hs rfl (fun b => ⟨rfl, rfl⟩) fun c b _ ho hl => ?_
      exact ⟨hlt, by simpa only [Copied, hl] using hcop, ho⟩
    · rename_i hge
      cases hs
      have hm : m = s.log.lh.n := by omega
      exact h.commitGoto hp rfl rfl rfl (by simpa [CommitInv, hm] using hcop)
  | logFrom m dst =>
    obtain ⟨hlt, hcop, hdst⟩ := hcom
    refine h.commitGet hp hio hs rfl (fun b => ⟨rfl, rfl⟩) fun c b hkeep ho hl => ?_
    exact ⟨hlt, by simpa only [Copied, hl] using hcop, hkeep _ _ hdst, ho⟩
  | logCopy m dst src =>
    obtain ⟨hlt, hcop, hdst, hsrc⟩ := hcom
    cases hs
    refine h.commitStore hp hio _ hdst rfl rfl rfl fun c hkeep hl => ?_
    refine ⟨hlt, ?_, hkeep _ _ hdst, hkeep _ _ hsrc⟩
    have hold : Copied c s.log m := by
      refine hcop.update hl ?_ ?_
      · intro i hi; omega
      · intro i hi; exact h.log_ne_home (by omega) hlt
    intro i hi
    by_cases him : i = m
    · subst i
      rw [hl, update_self, update_of_ne (h.log_ne_home hlt hlt)]
      exact (hc.owned_data hsrc hio).2
    · exact hold i (by omega)
  | logWrite m dst src =>
    obtain ⟨hlt, hcop, hdst, hsrc⟩ := hcom
    refine h.commitWrite hp hio hdst hs rfl rfl rfl fun c hkeep hl _ => ?_
    exact ⟨hlt, by simpa only [Copied, hl] using hcop, hkeep _ _ hdst, hkeep _ _ hsrc⟩
  | logDropFrom m dst src =>
    obtain ⟨hlt, hcop, hdst, hsrc⟩ := hcom
    refine h.commitDrop hp hio hs rfl rfl rfl fun c hkeep hl => ?_
    refine ⟨hlt, by simpa only [Copied, hl] using hcop, hkeep _ _ ?_ hdst⟩
    rintro rfl
    exact h.log_ne_home hlt hlt (hsrc.2.1.symm.trans hdst.2.1)
  | logDropTo m dst =>
    obtain ⟨hlt, hcop, _⟩ := hcom
    refine h.commitDrop hp hio hs rfl rfl rfl fun c _ hl => ?_
    exact ⟨hlt, by simpa only [Copied, hl] using hcop⟩
  | headRead clear =>
    refine h.commitGet hp hio hs rfl (fun b => ⟨rfl, rfl⟩) fun c b _ ho hl => ⟨?_, ho⟩
    cases clear with
    | true => exact hcom
    | false => simpa only [CommitInv, Copied, hl] using hcom
  | headEdit clear hb =>
    obtain ⟨hcop, hown⟩ := hcom
    cases hs
    refine h.commitStore hp hio _ hown rfl rfl rfl fun c hkeep hl => ⟨?_, hkeep _ _ hown⟩
    cases clear with
    | true => exact hcop
    | false =>
      refine Copied.update hcop hl ?_ ?_
      · intro i _; omega
      · intro i hi; exact (h.home i hi).ne_start
  | headWrite clear hb =>
    obtain ⟨hcop, hown⟩ := hcom
    refine h.commitWrite hp hio hown hs rfl rfl rfl fun c hkeep hl _ => ⟨?_, hkeep _ _ hown⟩
    cases clear with
    | true => exact hcop
    | false => simpa only [Copied, hl] using hcop
  | headDrop clear hb =>
    obtain ⟨hcop, _⟩ := hcom
    cases clear with
    | true => exact h.commitDrop hp hio hs rfl rfl rfl fun c _ _ => hcop
    | false =>
      have hall : Copied s.cache s.log s.log.lh.n := hcop
      refine h.commitDrop hp hio hs rfl rfl (by simp [CommitPc.pins]) fun c _ hl => ?_
      exact ⟨Nat.zero_le _, by simpa only [Copied, hl] using hall⟩
  | instLog m =>
    simp only [BioSystem.commitStep] at hs
    obtain ⟨hle, hcop⟩ := hcom
    split at hs
    · rename_i hlt
      refine h.commitGet hp hio hs rfl (fun b => ⟨rfl, rfl⟩) fun c b _ ho hl => ?_
      exact ⟨hlt, by simpa only [Copied, hl] using hcop, ho⟩
    · rename_i hge
      cases hs
      refine h.commitMove hp (.inr rfl) ?_ rfl
      have hempty : CommitPc.pins s.log.lh.blocks (.instLog m) = [] :=
        List.drop_eq_nil_of_le (by rw [LogHeader.length_blocks]; omega)
      rw [hempty] at hc
      exact hc
  | instDst m lbuf =>
    obtain ⟨hlt, hcop, hlog⟩ := hcom
    refine h.commitGet hp hio hs rfl (fun b => ⟨rfl, rfl⟩) fun c b hkeep ho hl => ?_
    exact ⟨hlt, by simpa only [Copied, hl] using hcop, hkeep _ _ hlog, ho⟩
  | instCopy m lbuf dbuf =>
    obtain ⟨hlt, hcop, hlog, hdst⟩ := hcom
    cases hs
    refine h.commitStore hp hio _ hdst rfl rfl rfl fun c hkeep hl => ?_
    have hdata : (s.cache.buf lbuf).data = s.cache.latest (s.log.lh.block m) :=
      (hc.owned_data hlog hio).2.trans (hcop m hlt)
    have hsame : c.latest = s.cache.latest := by rw [hl, hdata, update_eq_self]
    exact ⟨hlt, by simpa only [Copied, hsame] using hcop, hkeep _ _ hlog, hkeep _ _ hdst⟩
  | instWrite m lbuf dbuf =>
    obtain ⟨hlt, hcop, hlog, hdst⟩ := hcom
    refine h.commitWrite hp hio hdst hs rfl rfl rfl fun c hkeep hl hd => ?_
    exact ⟨hlt, by simpa only [Copied, hl] using hcop, hkeep _ _ hlog, hkeep _ _ hdst, by rw [hd, hl]⟩
  | instUnpin m lbuf dbuf =>
    obtain ⟨hlt, hcop, hlog, hdst, hdisk⟩ := hcom
    cases hs
    have hlen : m < s.log.lh.blocks.length := by rwa [LogHeader.length_blocks]
    have hhead : s.log.lh.blocks.drop m = s.log.lh.block m :: s.log.lh.blocks.drop (m + 1) := by
      rw [List.drop_eq_getElem_cons hlen]
      simp [LogHeader.blocks]
    have hnd : (s.log.lh.blocks.drop m).Nodup := h.nodup.sublist (List.drop_sublist _ _)
    rw [hhead] at hnd
    refine h.commitMove hp (.inl rfl) ?_ ?_
    · refine (hc.unpin (hc.owned_data hdst hio).1 ?_ ?_ ?_).mod_congr (by simp [CommitPc.mods])
      · rw [hdst.2.1]; exact hdisk
      · rw [hdst.2.1]; exact (List.nodup_cons.mp hnd).1
      · intro k
        simp only [CommitPc.pins, hhead, hdst.2.1, List.mem_cons, or_comm]
    · exact ⟨hlt, hcop, hlog.setBuf dbuf _ rfl rfl rfl, hdst.setBuf dbuf _ rfl rfl rfl⟩
  | instDropLog m lbuf dbuf =>
    obtain ⟨hlt, hcop, hlog, hdst⟩ := hcom
    refine h.commitDrop hp hio hs rfl rfl rfl fun c hkeep hl => ?_
    refine ⟨hlt, by simpa only [Copied, hl] using hcop, hkeep _ _ ?_ hdst⟩
    rintro rfl
    exact h.log_ne_home hlt hlt (hdst.2.1.symm.trans hlog.2.1)
  | instDropDst m dbuf =>
    obtain ⟨hlt, hcop, _⟩ := hcom
    refine h.commitDrop hp hio hs rfl rfl rfl fun c _ hl => ?_
    exact ⟨hlt, by simpa only [Copied, hl] using hcop⟩
  | finish =>
    cases hs
    have hkind : (s.pc p).kind = .inCommit := by rw [hp]; rfl
    have hop := h.op.finish hkind
    have hk : (fun q => ((update s.pc p .outside q).wake).kind) =
        fun q => (update (fun q => (s.pc q).kind) p .outside q).wake := by
      funext q
      rw [FsPc.kind_wake, ← show FsPc.outside.kind = OpKind.outside from rfl, ← FsPc.kind_update]
    have hnone : ∀ q b, ¬ ((update s.pc p .outside q).wake).mods b := by
      intro q b hm
      by_cases hq : q = p
      · subst q; simp [FsPc.wake, FsPc.mods] at hm
      · rw [update_of_ne hq] at hm
        apply h.not_mods hp hq b
        cases hr : s.pc q <;> simp_all [FsPc.wake, FsPc.mods]
    refine ⟨?_, h.nodup, h.home, h.room, ?_, ?_⟩
    · simp only [hk]
      exact hop
    · intro _
      exact hc.mod_congr fun q b => by simp [hnone q b, CommitPc.mods]
    · intro q z hz
      have hq : ((update s.pc p .outside q).wake).kind = .inCommit := by
        change (update s.pc p .outside q).wake = .inCommit z at hz
        rw [hz]; rfl
      exact absurd (congrFun hk q ▸ hq) (hop.of_free rfl q)

theorem beginOp (h : BioInv s) (hs : s.step (.beginOp p) = .ok t) : BioInv t := by
  simp only [BioSystem.step] at hs
  split at hs
  swap
  · cases hs; exact h
  rename_i hp
  have hkind : (s.pc p).kind = .outside ∨ (s.pc p).kind = .woken := by
    rcases hp with hp | hp <;> simp [hp, FsPc.kind]
  have hnot : ∀ b, ¬ (s.pc p).mods b := by
    intro b
    rcases hp with hp | hp <;> simp [hp, FsPc.mods]
  have hpc : ∀ (x : FsPc), x.kind ≠ .inCommit → ∀ q z,
      update s.pc p x q = .inCommit z → s.pc q = .inCommit z := by
    intro x hx q z hz
    by_cases hq : q = p
    · subst q
      rw [update_self] at hz
      exact absurd (by rw [hz]; rfl) hx
    · rwa [update_of_ne hq] at hz
  have hmod : ∀ (x : FsPc), (∀ b, ¬ x.mods b) → ∀ q b,
      (update s.pc p x q).mods b ↔ (s.pc q).mods b := by
    intro x hx q b
    by_cases hq : q = p
    · subst q; simp [hx b, hnot b]
    · rw [update_of_ne hq]
  have hidle : ∀ (x : FsPc), (∀ q, (update s.pc p x q).kind ≠ .inCommit) →
      ∀ q, (s.pc q).kind ≠ .inCommit := by
    intro x hno q
    by_cases hq : q = p
    · subst q
      rcases hkind with hk | hk <;> simp [hk]
    · have hh := hno q
      rwa [update_of_ne hq] at hh
  cases hb : Xv6.beginOp s.log with
  | none =>
    simp only [hb, Except.ok.injEq] at hs
    subst hs
    refine h.opStep ?_ (hmod .asleep (by simp [FsPc.mods])) (hidle .asleep)
      fun q x hx => .inl (hpc .asleep (by simp [FsPc.kind]) q x hx)
    rw [FsPc.kind_update]
    exact h.op.sleep hkind hb
  | some l =>
    simp only [hb, Except.ok.injEq] at hs
    subst hs
    have hop := h.op.enter hkind hb
    obtain ⟨_, _, rfl⟩ := beginOp_some hb
    refine h.opStep ?_ (hmod (.inOp []) (by simp [FsPc.mods])) (hidle (.inOp []))
      fun q x hx => .inl (hpc (.inOp []) (by simp [FsPc.kind]) q x hx)
    rw [FsPc.kind_update]
    exact hop

theorem endOp (h : BioInv s) (hs : s.step (.endOp p) = .ok t) : BioInv t := by
  simp only [BioSystem.step] at hs
  split at hs
  swap
  · cases hs; exact h
  rename_i hp
  obtain ⟨hp, hio⟩ := hp
  have hkind : (s.pc p).kind = .inOp := by rw [hp]; rfl
  have hno := h.noCommit hp
  cases he : Xv6.endOp s.log with
  | error e => simp [he] at hs
  | ok r =>
    obtain ⟨l, c⟩ := r
    cases c with
    | true =>
      simp only [he, Except.ok.injEq] at hs
      subst hs
      have hop := h.op.commitStart hkind he
      obtain ⟨_, ⟨_, _, rfl⟩ | ⟨hh, _⟩⟩ := endOp_ok he
      swap
      · cases hh
      refine h.opStep ?_ ?_ (fun _ => hno) ?_
      · rw [FsPc.kind_update]
        exact hop
      · intro q b
        by_cases hq : q = p
        · subst q; simp [hp, FsPc.mods, CommitPc.mods]
        · rw [update_of_ne hq]
      · intro q x hx
        by_cases hq : q = p
        · subst q
          rw [update_self, FsPc.inCommit.injEq] at hx
          exact .inr ⟨hno, hx.symm⟩
        · rw [update_of_ne hq] at hx
          exact .inl hx
    | false =>
      simp only [he, Except.ok.injEq] at hs
      subst hs
      have hop := h.op.leave hkind he
      obtain ⟨_, ⟨hh, _⟩ | ⟨_, _, rfl⟩⟩ := endOp_ok he
      · cases hh
      refine h.opStep ?_ ?_ (fun _ => hno) ?_
      · simp only [FsPc.kind_wake]
        rw [← show FsPc.outside.kind = OpKind.outside from rfl, ← FsPc.kind_update] at hop
        exact hop
      · intro q b
        by_cases hq : q = p
        · subst q; simp [hp, FsPc.mods, FsPc.wake]
        · rw [update_of_ne hq]
          cases s.pc q <;> simp [FsPc.wake, FsPc.mods]
      · intro q x hx
        refine absurd ?_ (hno q)
        by_cases hq : q = p
        · subst q; simp [FsPc.wake] at hx
        · rw [update_of_ne hq] at hx
          cases hr : s.pc q <;> simp_all [FsPc.wake, FsPc.kind]

end BioInv

end Xv6
