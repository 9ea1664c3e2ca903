import Xv6.VirtioSteps

/-! Descriptors are taken three at a time and given back, and all runs of driver and device
follow the protocol. -/

namespace Xv6.Virtio.Sys

open ActionRun Function SlotQueue

variable {P B : Type*} {s s₁ : Sys P B} {l got : List Nat} {r : Call B} {c : Chain} {i : Nat}

/-- All descriptors of `l` become free, and nobody sleeps on `disk.free` if there are any. -/
structure Freed (s : Sys P B) (l : List Nat) (s₁ : Sys P B) : Prop where
  frame : s₁ = { s with desc := s₁.desc, free := fun i => decide (i ∈ l) || s.free i, pc := s₁.pc }
  desc : ∀ i, i ∉ l → s₁.desc i = s.desc i
  pc : l = [] ∧ s₁.pc = s.pc ∨ l ≠ [] ∧ s₁.pc = fun p => (s.pc p).wakeFree

theorem freeDesc_ok (hi : i < num) (hf : s.free i = false) :
    s.freeDesc i = .ok { s with
      desc := update s.desc i .zero
      free := update s.free i true
      pc := fun p => (s.pc p).wakeFree } := by
  rw [freeDesc, if_neg (Nat.not_le.mpr hi), if_neg (by simp [hf])]

theorem foldlM_freeDesc (hl : l.Nodup) (hlt : ∀ i ∈ l, i < num) (hf : ∀ i ∈ l, s.free i = false) :
    ∃ s₁, l.foldlM freeDesc s = .ok s₁ ∧ Freed s l s₁ := by
  induction l generalizing s with
  | nil => exact ⟨s, rfl, by simp, fun _ _ => rfl, .inl ⟨rfl, rfl⟩⟩
  | cons i l ih =>
    obtain ⟨hil, hl⟩ := List.nodup_cons.mp hl
    have hstep := freeDesc_ok (hlt i List.mem_cons_self) (hf i List.mem_cons_self)
    rw [List.foldlM_cons, hstep]
    obtain ⟨s₁, hrun, hframe, hdesc, hpc⟩ := ih (s := { s with
      desc := update s.desc i .zero
      free := update s.free i true
      pc := fun p => (s.pc p).wakeFree }) hl (fun j hj => hlt j (List.mem_cons_of_mem _ hj)) (fun j hj => by
        have hji : j ≠ i := by
          rintro rfl
          exact hil hj
        change update s.free i true j = false
        rw [update_of_ne hji]
        exact hf j (List.mem_cons_of_mem _ hj))
    refine ⟨s₁, hrun, ?_, fun j hj => ?_, .inr ⟨by simp, ?_⟩⟩
    · rw [hframe]
      congr 1
      funext j
      by_cases hji : j = i
      · subst hji
        simp
      · simp [hji]
    · rw [List.mem_cons, not_or] at hj
      rw [hdesc j hj.2]
      exact update_of_ne hj.1 ..
    · rcases hpc with ⟨_, hpc⟩ | ⟨_, hpc⟩
      · exact hpc
      · rw [hpc]
        funext p
        dsimp only
        generalize s.pc p = x
        cases x <;> rfl

theorem freeChain_eq (h : s₁.Linked r c) (hs : s.desc = s₁.desc) :
    freeChain (num + 1) s c.i0 = c.descs.foldlM freeDesc s := by
  have hnodup := h.nodup
  simp only [Chain.descs, List.nodup_cons, List.mem_cons, List.not_mem_nil, or_false, not_or] at hnodup
  obtain ⟨⟨h01, h02⟩, h12, _⟩ := hnodup
  have hd {i : Nat} {t t' : Sys P B} {j : Nat} (ht : t.freeDesc i = .ok t') (hj : j ≠ i) :
      t'.desc j = t.desc j := by
    unfold freeDesc at ht
    split at ht
    · cases ht
    · split at ht
      · cases ht
      · cases ht
        exact update_of_ne hj ..
  have hn : fNext &&& fNext ≠ 0 := by decide
  have hn' : ((if r.write then 0 else fWrite) ||| fNext) &&& fNext ≠ 0 := by cases r.write <;> decide
  have hw : ¬ (fWrite &&& fNext ≠ 0) := by decide
  simp only [Chain.descs, List.foldlM_cons, List.foldlM_nil]
  rw [show num + 1 = 8 + 1 from rfl, freeChain, hs, h.d0]
  cases h0 : s.freeDesc c.i0 with
  | error e => rfl
  | ok t =>
    simp only [bind, Except.bind]
    rw [if_pos hn, h.i1_toNat, freeChain, hd h0 (Ne.symm h01), hs, h.d1]
    cases h1 : t.freeDesc c.i1 with
    | error e => rfl
    | ok t' =>
      simp only [bind, Except.bind]
      rw [if_pos hn', h.i2_toNat, freeChain, hd h1 (Ne.symm h12), hd h0 (Ne.symm h02), hs, h.d2]
      cases h2 : t'.freeDesc c.i2 with
      | error e => rfl
      | ok t'' =>
        simp only [bind, Except.bind]
        rfl

def off (free : Nat → Bool) (got : List Nat) (i : Nat) : Bool := free i && !decide (i ∈ got)

structure Takes (s : Sys P B) (got : List Nat) : Prop where
  nodup : got.Nodup
  lt : ∀ i ∈ got, i < num
  free : ∀ i ∈ got, s.free i = true

theorem allocDesc_none (h : s.allocDesc = none) : ∀ i < num, s.free i = false := by
  unfold allocDesc at h
  split at h
  · next hf =>
    intro i hi
    have hi' := List.find?_eq_none.mp hf i (List.mem_range.mpr hi)
    simpa using hi'
  · cases h

theorem allocDesc_some (h : s.allocDesc = some (i, s₁)) :
    i < num ∧ s.free i = true ∧ s₁ = { s with free := update s.free i false } := by
  unfold allocDesc at h
  split at h
  · cases h
  · next hf =>
    cases h
    exact ⟨List.mem_range.mp (List.mem_of_find?_eq_some hf), List.find?_some hf, rfl⟩

theorem freeCount_le (hall : ∀ i < num, off s.free got i = false) :
    s.freeCount ≤ got.length := by
  unfold freeCount
  rw [List.countP_eq_length_filter]
  have hsub : (List.range num).filter s.free ⊆ got := by
    intro i hi
    obtain ⟨hr, hf⟩ := List.mem_filter.mp hi
    have ho := hall i (List.mem_range.mp hr)
    simpa [off, hf] using ho
  exact ((List.nodup_range.filter _).subperm hsub).length_le

theorem allocLoop_spec (n : Nat) (h : Takes s got) :
    (∃ got', allocLoop n got { s with free := off s.free got } =
        .ok ({ s with free := off s.free got' }, some got') ∧ Takes s got' ∧ got'.length = got.length + n) ∨
      s.freeCount < got.length + n ∧ ∃ s₁, allocLoop n got { s with free := off s.free got } = .ok (s₁, none) ∧
        ∃ l, Takes s l ∧ Freed { s with free := off s.free l } l s₁ := by
  induction n generalizing got with
  | zero => exact .inl ⟨got, rfl, h, rfl⟩
  | succ n ih =>
    rw [allocLoop]
    cases ha : allocDesc { s with free := off s.free got } with
    | none =>
      right
      have hle := freeCount_le (allocDesc_none ha)
      obtain ⟨s₁, hrun, hfreed⟩ := foldlM_freeDesc (s := { s with free := off s.free got }) h.nodup h.lt
        fun i hi => by simp [off, hi]
      refine ⟨by omega, s₁, ?_, got, h, hfreed⟩
      simp only [hrun]
      rfl
    | some a =>
      obtain ⟨i, s₁⟩ := a
      obtain ⟨hlt, hfree, rfl⟩ := allocDesc_some ha
      have hfree' : s.free i = true ∧ i ∉ got := by simpa [off] using hfree
      have hoff : update (off s.free got) i false = off s.free (got ++ [i]) := by
        funext j
        by_cases hj : j = i
        · subst hj
          simp [off]
        · simp [off, hj]
      have h' : Takes s (got ++ [i]) := by
        refine ⟨?_, fun j hj => ?_, fun j hj => ?_⟩
        · refine List.nodup_append.mpr ⟨h.nodup, List.nodup_singleton i, fun j hj k hk hjk => ?_⟩
          rw [hjk, List.mem_singleton.mp hk] at hj
          exact hfree'.2 hj
        · rcases List.mem_append.mp hj with hj | hj
          · exact h.lt j hj
          · rw [List.mem_singleton.mp hj]
            exact hlt
        · rcases List.mem_append.mp hj with hj | hj
          · exact h.free j hj
          · rw [List.mem_singleton.mp hj]
            exact hfree'.1
      have hih := ih h'
      rw [List.length_append, List.length_singleton, Nat.add_right_comm, Nat.add_assoc] at hih
      simp only [hoff]
      exact hih

theorem alloc3Desc_spec (s : Sys P B) :
    (∃ c, s.alloc3Desc = .ok ({ s with free := off s.free c.descs }, some c) ∧ Takes s c.descs) ∨
      s.freeCount < 3 ∧ ∃ s₁, s.alloc3Desc = .ok (s₁, none) ∧ ∃ l, Takes s l ∧
        Freed { s with free := off s.free l } l s₁ := by
  have hoff : { s with free := off s.free [] } = s := by
    have hfree : off s.free [] = s.free := by
      funext i
      simp [off]
    rw [hfree]
  have hnone : Takes s [] := ⟨List.nodup_nil, by simp, by simp⟩
  have hspec := allocLoop_spec 3 hnone
  rw [hoff] at hspec
  rcases hspec with ⟨got, hrun, htakes, hlen⟩ | ⟨hcount, s₁, hrun, hl⟩
  · left
    obtain ⟨i0, i1, i2, rfl⟩ : ∃ i0 i1 i2, got = [i0, i1, i2] := List.length_eq_three.mp hlen
    refine ⟨⟨i0, i1, i2⟩, ?_, htakes⟩
    rw [alloc3Desc, hrun]
    rfl
  · right
    refine ⟨hcount, s₁, ?_, hl⟩
    rw [alloc3Desc, hrun]
    rfl

theorem Freed.unwound (hl : Takes s l) (hf : Freed { s with free := off s.free l } l s₁) :
    s₁ = { s with desc := s₁.desc, pc := s₁.pc } := by
  have hfree : (fun i => decide (i ∈ l) || off s.free l i) = s.free := by
    funext i
    by_cases hi : i ∈ l
    · simp [hi, hl.free i hi]
    · simp [off, hi]
  have hframe := hf.frame
  rw [hfree] at hframe
  exact hframe

namespace Inv

variable {pend unread : List Nat} {p q : P} [DecidableEq P]

omit [DecidableEq P] in
theorem not_takes (h : Inv s pend unread) (hl : Takes s l) {r' : Call B} {c' : Chain}
    (hq : (s.pc q).flight = some (r', c')) (hi : i ∈ c'.descs) : i ∉ l := by
  intro hil
  have hlt := (h.chain q r' c' hq).lt i hi
  have hf := (h.free i hlt).mpr ⟨q, r', c', hq, hi⟩
  rw [hl.free i hil] at hf
  cases hf

theorem alloc_fails (h : Inv s pend unread) (hp : s.pc p = .allocating r) (hcount : s.freeCount < 3)
    (hl : Takes s l) (hf : Freed { s with free := off s.free l } l s₁) :
    Inv { s₁.setPc p (.noDesc r) with lock := none } pend unread := by
  have hframe := hf.unwound hl
  have hpc : ∀ q, s₁.pc q = s.pc q ∨ s₁.pc q = (s.pc q).wakeFree := by
    intro q
    rcases hf.pc with ⟨_, he⟩ | ⟨_, he⟩
    · exact .inl (congrFun he q)
    · exact .inr (congrFun he q)
  have hflight : ∀ q, (s₁.pc q).flight = (s.pc q).flight := by
    intro q
    rcases hpc q with he | he <;> simp [he]
  have hdesc : ∀ q r' c', (s.pc q).flight = some (r', c') → ∀ i ∈ c'.descs, s₁.desc i = s.desc i :=
    fun q r' c' hq i hi => hf.desc i (h.not_takes hl hq hi)
  have h₁ : Inv { s with desc := s₁.desc } pend unread := { h with
    chain := fun q r' c' hq => (h.chain q r' c' hq).congr (hdesc q r' c' hq) rfl }
  have h₂ : Inv s₁ pend unread := by
    rw [hframe]
    refine h₁.of_pc hflight (fun q => ?_) (fun q b hq => h.owner q b ?_)
      (fun q hq => h.lock q ?_) (fun _ _ _ => hcount)
    · rcases hpc q with he | he <;> simp [he]
    · rcases hpc q with he | he <;> simpa [he] using hq
    · rcases hpc q with he | he <;> simpa [he] using hq
  have hp₁ : s₁.pc p = .allocating r := by
    rcases hpc p with he | he <;> rw [he, hp]
    rfl
  have hcount₁ : s₁.freeCount < 3 := by
    rw [hframe]
    exact hcount
  refine h₂.release (by rw [hp₁]; rfl) (by rw [hp₁]; rfl) (by rw [hp₁]; rfl) rfl (fun q b hq => ?_)
    (fun _ _ => hcount₁)
  rw [update_same Pc.buf (by rw [hp₁]; rfl)] at hq
  exact h₂.owner q b hq

omit [DecidableEq P] in
theorem fill_linked [DecidableEq P] [DecidableEq B] (hl : Takes s c.descs) (p : P) (r : Call B) :
    (Sys.fill { s with free := off s.free c.descs } p r c).Linked r c := by
  have hnodup := hl.nodup
  simp only [Chain.descs, List.nodup_cons, List.mem_cons, List.not_mem_nil, or_false, not_or] at hnodup
  obtain ⟨⟨h01, h02⟩, h12, _⟩ := hnodup
  refine ⟨hl.nodup, hl.lt, ?_, ?_, update_self .., ?_⟩
  · change update (update (update s.desc _ _) _ _) _ _ _ = _
    rw [update_of_ne h02, update_of_ne h01, update_self]
  · change update (update (update s.desc _ _) _ _) _ _ _ = _
    rw [update_of_ne h12, update_self]
  · change (update s.info _ _ _).b = _
    rw [update_self]

theorem fill [DecidableEq B] (h : Inv s pend unread) (hp : s.pc p = .allocating r) (hl : Takes s c.descs) :
    Inv (Sys.fill { s with free := off s.free c.descs } p r c) pend unread := by
  have hnone : (s.pc p).flight = none := by rw [hp]; rfl
  have hfl : ∀ {q r' c'}, (update s.pc p (.filled r c) q).flight = some (r', c') →
      q = p ∧ r' = r ∧ c' = c ∨ q ≠ p ∧ (s.pc q).flight = some (r', c') := by
    intro q r' c' hq
    by_cases hqp : q = p
    · rw [hqp, update_self] at hq
      cases hq
      exact .inl ⟨hqp, rfl, rfl⟩
    · rw [update_of_ne hqp] at hq
      exact .inr ⟨hqp, hq⟩
  have hself : (update s.pc p (.filled r c) p).flight = some (r, c) := by
    rw [update_self]
    rfl
  have hother : ∀ {q r' c'}, (s.pc q).flight = some (r', c') →
      (update s.pc p (.filled r c) q).flight = some (r', c') := by
    intro q r' c' hq
    rw [update_of_ne]
    · exact hq
    · rintro rfl
      rw [hnone] at hq
      cases hq
  have hpub : ∀ q, (update s.pc p (.filled r c) q).published = (s.pc q).published :=
    update_same Pc.published (by rw [hp]; rfl)
  have hbuf : ∀ q, (update s.pc p (.filled r c) q).buf = (s.pc q).buf :=
    update_same Pc.buf (by rw [hp]; rfl)
  have hlocked : ∀ q, (update s.pc p (.filled r c) q).locked = (s.pc q).locked :=
    update_same Pc.locked (by rw [hp]; rfl)
  -- The requests that are already there use none of the new descriptors.
  have hi0 : ∀ {q r' c'}, (s.pc q).flight = some (r', c') → c'.i0 ≠ c.i0 := by
    intro q r' c' hq he
    exact h.not_takes hl hq (i := c'.i0) (by simp [Chain.descs]) (by simp [Chain.descs, he])
  have hmoving : ∀ i ∈ s.moving pend unread, i ≠ c.i0 := by
    intro i hi
    obtain ⟨q, r', c', hq, rfl⟩ := h.told i hi
    exact hi0 (Pc.flight_of_published hq)
  have hbusy : ∀ {q r' c'}, (s.pc q).flight = some (r', c') → update s.busy r.b true r'.b = s.busy r'.b := by
    intro q r' c' hq
    have hqp : q ≠ p := by
      rintro rfl
      rw [hnone] at hq
      cases hq
    exact update_of_ne (h.buf_ne (by rw [hp]; rfl) hq hqp) ..
  refine ⟨fun q b hq => h.owner q b (hbuf q ▸ hq), fun q hq => h.lock q (hlocked q ▸ hq), fun q r' c' hq => ?_,
    fun q q' r₁ c₁ r₂ c₂ h1 h2 hne i hi hi' => ?_, fun i hi => ?_, h.nodup, fun i hi => ?_, fun q r' c' hq => ?_,
    fun q r' c' hq => ?_, fun q r' c' hq hb => ?_, fun i hi => ?_, fun i hi => ?_, h.avail, h.used, h.availFresh,
    h.usedFresh, fun q r' hq => ?_⟩
  · rcases hfl hq with ⟨_, rfl, rfl⟩ | ⟨_, hq⟩
    · exact fill_linked hl p r'
    · refine (h.chain q r' c' hq).congr (fun i hi => ?_) ?_
      · have hnot := h.not_takes hl hq hi
        simp only [Chain.descs, List.mem_cons, List.not_mem_nil, or_false, not_or] at hnot
        change update (update (update s.desc _ _) _ _) _ _ _ = _
        rw [update_of_ne hnot.2.2, update_of_ne hnot.2.1, update_of_ne hnot.1]
      · exact congrArg Info.b (update_of_ne (hi0 hq) ..)
  · rcases hfl h1 with ⟨hq, rfl, rfl⟩ | ⟨_, hold⟩
    · rcases hfl h2 with ⟨hq', _, _⟩ | ⟨_, hold'⟩
      · exact hne (hq.trans hq'.symm)
      · exact h.not_takes hl hold' hi' hi
    · rcases hfl h2 with ⟨_, rfl, rfl⟩ | ⟨_, hold'⟩
      · exact h.not_takes hl hold hi hi'
      · exact h.apart q q' r₁ c₁ r₂ c₂ hold hold' hne i hi hi'
  · change off s.free c.descs i = false ↔ ∃ q r' c', (update s.pc p (.filled r c) q).flight = _ ∧ _
    constructor
    · intro hoff
      by_cases hic : i ∈ c.descs
      · exact ⟨p, r, c, hself, hic⟩
      · have hf : s.free i = false := by simpa [off, hic] using hoff
        obtain ⟨q, r', c', hq, hiq⟩ := (h.free i hi).mp hf
        exact ⟨q, r', c', hother hq, hiq⟩
    · rintro ⟨q, r', c', hq, hiq⟩
      rcases hfl hq with ⟨_, rfl, rfl⟩ | ⟨_, hq⟩
      · simp [off, hiq]
      · have hf := (h.free i hi).mpr ⟨q, r', c', hq, hiq⟩
        simp [off, hf]
  · change ∃ q r' c', (update s.pc p (.filled r c) q).published = _ ∧ _
    simp only [hpub]
    exact h.told i hi
  · change update s.pc p (.filled r c) q = _ at hq
    change update s.busy r.b true r'.b = true
    by_cases hqp : q = p
    · rw [hqp, update_self] at hq
      cases hq
      exact update_self ..
    · rw [update_of_ne hqp] at hq
      rw [hbusy (by rw [hq]; rfl : (s.pc q).flight = some (r', c'))]
      exact h.filled q r' c' hq
  · have hq' : (s.pc q).published = some (r', c') := hpub q ▸ hq
    change update s.busy r.b true r'.b = true ↔ _
    rw [hbusy (Pc.flight_of_published hq')]
    exact h.busy q r' c' hq'
  · have hq' : (s.pc q).published = some (r', c') := hpub q ▸ hq
    have hfq := Pc.flight_of_published hq'
    change update s.busy r.b true r'.b = false at hb
    rw [hbusy hfq] at hb
    exact (update_of_ne (hi0 hfq) ..).trans (h.done q r' c' hq' hb)
  · have hne : i ≠ c.i0 := by
      refine hmoving i ?_
      simp only [moving, List.mem_append] at hi ⊢
      tauto
    exact (congrArg Info.status (update_of_ne hne ..)).trans (h.status i hi)
  · have hne : i ≠ c.i0 := hmoving i (List.mem_append_right _ hi)
    exact (update_of_ne hne ..).trans (h.completed i hi)
  · refine Nat.lt_of_le_of_lt ?_ (h.sleepers q r' (of_update id hq (by simp)).2)
    refine List.countP_mono_left fun i _ hi => ?_
    exact (Bool.and_eq_true_iff.mp hi).1

theorem finished [DecidableEq B] {desc₁ : Nat → Desc B} (h : Inv s pend unread) (hp : s.pc p = .waiting r c)
    (hb : s.busy r.b = false) (hdesc : ∀ i ∉ c.descs, desc₁ i = s.desc i) :
    Inv { s with
      desc := desc₁
      free := fun i => decide (i ∈ c.descs) || s.free i
      info := update s.info c.i0 { s.info c.i0 with b := none }
      owner := update s.owner r.b none
      lock := none
      pc := update (fun q => (s.pc q).wakeFree) p .outside } pend unread := by
  have hfl : (s.pc p).flight = some (r, c) := by rw [hp]; rfl
  have hpub : (s.pc p).published = some (r, c) := by rw [hp]; rfl
  have hnot : c.i0 ∉ s.moving pend unread := by
    rw [← h.busy p r c hpub, hb]
    simp
  -- What a thread other than `p` is doing has not changed.
  have hpc {β : Type _} {f : Pc B → Option β} {q : P} {x : β} (hf : ∀ pc, f (Pc.wakeFree pc) = f pc)
      (ho : f .outside = none) (hq : f (update (fun q => (s.pc q).wakeFree) p .outside q) = some x) :
      q ≠ p ∧ f (s.pc q) = some x := by
    obtain ⟨hqp, hq⟩ := of_update f hq (by simp [ho])
    exact ⟨hqp, (hf _).symm.trans hq⟩
  have hpc' {q : P} (hqp : q ≠ p) : update (fun q => (s.pc q).wakeFree) p .outside q = (s.pc q).wakeFree :=
    update_of_ne hqp ..
  have happart : ∀ {q r' c'}, q ≠ p → (s.pc q).flight = some (r', c') → ∀ i ∈ c'.descs, i ∉ c.descs :=
    fun hqp hq i hi => h.apart _ p _ _ r c hq hfl hqp i hi
  refine ⟨fun q b hq => ?_, fun q hq => ?_, fun q r' c' hq => ?_, fun q q' r₁ c₁ r₂ c₂ h1 h2 => ?_,
    fun i hi => ?_, h.nodup, fun i hi => ?_, fun q r' c' hq => ?_, fun q r' c' hq => ?_,
    fun q r' c' hq hb' => ?_, fun i hi => ?_, h.completed, h.avail, h.used, h.availFresh, h.usedFresh,
    fun q r' hq => ?_⟩
  · obtain ⟨hqp, hq⟩ := hpc Pc.buf_wakeFree rfl hq
    have ho := h.owner q b hq
    have hne : b ≠ r.b := by
      rintro rfl
      rw [h.owner p r.b (Pc.buf_of_flight hfl)] at ho
      exact hqp (Option.some.inj ho).symm
    exact (update_of_ne hne ..).trans ho
  · dsimp only at hq
    obtain ⟨hqp, hq⟩ := of_update Pc.locked hq (by simp [Pc.locked])
    rw [Pc.locked_wakeFree] at hq
    exact absurd (h.lock_unique (by rw [hp]; rfl) hq) hqp
  · obtain ⟨hqp, hq⟩ := hpc Pc.flight_wakeFree rfl hq
    refine (h.chain q r' c' hq).congr (fun i hi => hdesc i (happart hqp hq i hi)) ?_
    exact congrArg Info.b (update_of_ne (h.head_ne hfl hq hqp) ..)
  · exact h.apart q q' r₁ c₁ r₂ c₂ (hpc Pc.flight_wakeFree rfl h1).2 (hpc Pc.flight_wakeFree rfl h2).2
  · change (decide (i ∈ c.descs) || s.free i) = false ↔
      ∃ q r' c', (update (fun q => (s.pc q).wakeFree) p .outside q).flight = _ ∧ _
    constructor
    · intro hf
      obtain ⟨hic, hf⟩ := Bool.or_eq_false_iff.mp hf
      obtain ⟨q, r', c', hq, hiq⟩ := (h.free i hi).mp hf
      have hqp : q ≠ p := by
        rintro rfl
        rw [hfl] at hq
        cases hq
        exact of_decide_eq_false hic hiq
      exact ⟨q, r', c', by rw [hpc' hqp, Pc.flight_wakeFree, hq], hiq⟩
    · rintro ⟨q, r', c', hq, hiq⟩
      obtain ⟨hqp, hq⟩ := hpc Pc.flight_wakeFree rfl hq
      rw [(h.free i hi).mpr ⟨q, r', c', hq, hiq⟩, decide_eq_false (happart hqp hq i hiq)]
      rfl
  · obtain ⟨q, r', c', hq, rfl⟩ := h.told i hi
    have hqp : q ≠ p := by
      rintro rfl
      rw [hpub] at hq
      cases hq
      exact hnot hi
    exact ⟨q, r', c', (congrArg Pc.published (hpc' hqp)).trans (by rw [Pc.published_wakeFree, hq]), rfl⟩
  · dsimp only at hq
    have hq := (of_update id hq (by simp)).2
    refine h.filled q r' c' ?_
    generalize s.pc q = x at hq
    cases x <;> first | exact hq | cases hq
  · exact h.busy q r' c' (hpc Pc.published_wakeFree rfl hq).2
  · exact h.done q r' c' (hpc Pc.published_wakeFree rfl hq).2 hb'
  · have hne : i ≠ c.i0 := by
      rintro rfl
      refine hnot ?_
      simp only [moving, List.mem_append] at hi ⊢
      tauto
    exact (congrArg Info.status (update_of_ne hne ..)).trans (h.status i hi)
  · dsimp only at hq
    exact absurd (of_update id hq (by simp)).2 (Pc.wakeFree_ne _ r')

theorem finish [DecidableEq B] (h : Inv s pend unread) (hp : s.pc p = .waiting r c) (hb : s.busy r.b = false) :
    ∃ s', s.finish p r c = .ok s' ∧ Inv s' pend unread := by
  have hfl : (s.pc p).flight = some (r, c) := by rw [hp]; rfl
  have hlink := h.chain p r c hfl
  let s₀ : Sys P B := { s with info := update s.info c.i0 { s.info c.i0 with b := none } }
  obtain ⟨s₁, hrun, hfreed⟩ := foldlM_freeDesc (s := s₀) hlink.nodup hlink.lt
    fun i hi => (h.free i (hlink.lt i hi)).mpr ⟨p, r, c, hfl, hi⟩
  have hpc : s₁.pc = fun q => (s.pc q).wakeFree := by
    rcases hfreed.pc with ⟨he, _⟩ | ⟨_, he⟩
    · cases he
    · exact he
  have hfinish : s.finish p r c =
      .ok ({ s₁ with lock := none, owner := update s₁.owner r.b none }.setPc p .outside) := by
    change (freeChain (num + 1) s₀ c.i0 >>= _) = _
    rw [freeChain_eq (s := s₀) hlink rfl, hrun]
    rfl
  refine ⟨_, hfinish, ?_⟩
  have hframe := hfreed.frame
  have hdesc := hfreed.desc
  rw [hpc] at hframe
  generalize s₁.desc = desc₁ at hframe hdesc
  subst hframe
  exact h.finished hp hb hdesc

end Inv

end Xv6.Virtio.Sys
