import Xv6.VirtioDescs

/-! All runs of the driver and the device. -/

namespace Xv6.Virtio.Sys

open ActionRun Function SlotQueue

variable {P B : Type*} [DecidableEq P] [DecidableEq B] {s : Sys P B} {pend unread : List Nat} {p : P}

namespace Inv

omit [DecidableEq B] in
theorem setPc {pc : Pc B} (h : Inv s pend unread) (hflight : pc.flight = (s.pc p).flight)
    (hpub : pc.published = (s.pc p).published) (hbuf : ∀ b, pc.buf = some b → (s.pc p).buf = some b)
    (hlocked : pc.locked = true → (s.pc p).locked = true) (hsleep : ∀ r, pc ≠ .noDesc r) :
    Inv (s.setPc p pc) pend unread := by
  refine h.of_pc (update_same Pc.flight hflight) (update_same Pc.published hpub) (fun q b hq => ?_)
    (fun q hq => ?_) (fun q r hq => ?_)
  · by_cases hqp : q = p
    · rw [hqp, update_self] at hq
      exact hqp ▸ h.owner p b (hbuf b hq)
    · rw [update_of_ne hqp] at hq
      exact h.owner q b hq
  · by_cases hqp : q = p
    · rw [hqp, update_self] at hq
      exact hqp ▸ h.lock p (hlocked hq)
    · rw [update_of_ne hqp] at hq
      exact h.lock q hq
  · exact h.sleepers q r (of_update id hq (hsleep r)).2

omit [DecidableEq B] in
theorem acquire {pc : Pc B} (h : Inv s pend unread) (hflight : pc.flight = (s.pc p).flight)
    (hpub : pc.published = (s.pc p).published) (hbuf : pc.buf = (s.pc p).buf) (hsleep : ∀ r, pc ≠ .noDesc r) :
    Inv (s.acquire p pc) pend unread := by
  unfold Sys.acquire Sys.setPc
  split
  · next hfree =>
    refine h.of_pc (update_same Pc.flight hflight) (update_same Pc.published hpub)
      (fun q b hq => h.owner q b ?_) (fun q hq => ?_) fun q r hq => ?_
    · dsimp only at hq
      rwa [update_same Pc.buf hbuf] at hq
    · dsimp only at hq
      by_cases hqp : q = p
      · rw [hqp]
      · rw [update_of_ne hqp] at hq
        have hl := h.lock q hq
        rw [hfree] at hl
        cases hl
    · exact h.sleepers q r (of_update id hq (hsleep r)).2
  · exact h

theorem advance (h : Inv s pend unread) (p : P) :
    ∃ s' pend' unread', s.advance p = .ok s' ∧ Inv s' pend' unread' := by
  unfold Sys.advance
  split
  · next r hp =>
    exact ⟨_, pend, unread, rfl, h.acquire (by rw [hp]; rfl) (by rw [hp]; rfl) (by rw [hp]; rfl) (by simp)⟩
  · next r hp =>
    exact ⟨_, pend, unread, rfl, h.acquire (by rw [hp]; rfl) (by rw [hp]; rfl) (by rw [hp]; rfl) (by simp)⟩
  · next r hp =>
    rcases s.alloc3Desc_spec with ⟨c, hrun, hl⟩ | ⟨hcount, s₁, hrun, l, hl, hf⟩
    · rw [hrun]
      exact ⟨_, pend, unread, rfl, h.fill hp hl⟩
    · rw [hrun]
      exact ⟨_, pend, unread, rfl, h.alloc_fails hp hcount hl hf⟩
  · next r c hp =>
    obtain ⟨s', hrun, hs'⟩ := h.publish hp
    exact ⟨s', _, unread, hrun, hs'⟩
  · next r c hp =>
    split
    · refine ⟨_, pend, unread, rfl, h.release (p := p) (by rw [hp]; rfl) (by rw [hp]; rfl) (by rw [hp]; rfl) rfl
        (fun q b hq => h.owner q b ?_) (by simp)⟩
      rwa [update_same Pc.buf (by rw [hp]; rfl)] at hq
    · next hb =>
      obtain ⟨s', hrun, hs'⟩ := h.finish hp (by simpa using hb)
      exact ⟨s', pend, unread, hrun, hs'⟩
  · next r c hp =>
    exact ⟨_, pend, unread, rfl, h.acquire (by rw [hp]; rfl) (by rw [hp]; rfl) (by rw [hp]; rfl) (by simp)⟩
  · next hp =>
    exact ⟨_, pend, unread, rfl, h.acquire (by rw [hp]; rfl) (by rw [hp]; rfl) (by rw [hp]; rfl) (by simp)⟩
  · next hp =>
    obtain ⟨s', unread', hrun, hs'⟩ := h.intrRound hp
    exact ⟨s', pend, unread', hrun, hs'⟩
  all_goals exact ⟨s, pend, unread, rfl, h⟩

theorem call {r : Call B} (h : Inv s pend unread) (hp : s.pc p = .outside) (hr : s.owner r.b = none) :
    Inv { s.setPc p (.entering r) with owner := update s.owner r.b (some p) } pend unread := by
  unfold Sys.setPc
  refine h.of_pc (update_same Pc.flight (by rw [hp]; rfl)) (update_same Pc.published (by rw [hp]; rfl))
    (fun q b hq => ?_) (fun q hq => ?_) fun q r' hq => ?_
  · dsimp only at hq ⊢
    by_cases hqp : q = p
    · rw [hqp, update_self] at hq
      cases hq
      rw [hqp, update_self]
    · rw [update_of_ne hqp] at hq
      have ho := h.owner q b hq
      rw [update_of_ne]
      · exact ho
      · rintro rfl
        rw [hr] at ho
        cases ho
  · dsimp only at hq
    rw [update_same Pc.locked (by rw [hp]; rfl)] at hq
    exact h.lock q hq
  · exact h.sleepers q r' (of_update id hq (by simp)).2

theorem step (h : Inv s pend unread) (a : Act P B) :
    ∃ s' pend' unread', s.step a = .ok s' ∧ Inv s' pend' unread' := by
  cases a with
  | call p r =>
    simp only [Sys.step]
    split
    · next hp hr => exact ⟨_, pend, unread, rfl, h.call hp hr⟩
    · exact ⟨s, pend, unread, rfl, h⟩
  | intr p =>
    simp only [Sys.step]
    split
    · next hp =>
      exact ⟨_, pend, unread, rfl, h.setPc (by rw [hp]; rfl) (by rw [hp]; rfl) (by simp [Pc.buf])
        (by simp [Pc.locked]) (by simp)⟩
    · exact ⟨s, pend, unread, rfl, h⟩
  | advance p => exact h.advance p
  | kill p => exact ⟨_, pend, unread, rfl, h.setPc (by simp) (by simp) (by simp) (by simp) (Pc.wake_ne _)⟩
  | take =>
    obtain ⟨pend', h'⟩ := h.take
    exact ⟨_, pend', unread, rfl, h'⟩
  | serve k =>
    obtain ⟨s', hrun, h'⟩ := h.serve k
    exact ⟨s', pend, unread, hrun, h'⟩
  | post k =>
    obtain ⟨s', unread', hrun, h'⟩ := h.post k
    exact ⟨s', pend, unread', hrun, h'⟩

omit [DecidableEq P] [DecidableEq B] in
theorem init (ops : Nat → BlkReq) : Inv (Sys.init ops : Sys P B) [] [] where
  owner _ _ hb := by cases hb
  lock _ hp := by cases hp
  chain _ _ _ hp := by cases hp
  apart _ _ _ _ _ _ hp := by cases hp
  free i _ := ⟨fun hf => (by cases hf), fun ⟨_, _, _, hp, _⟩ => by cases hp⟩
  nodup := List.nodup_nil
  told _ hi := by cases hi
  filled _ _ _ hp := by cases hp
  busy _ _ _ hp := by cases hp
  done _ _ _ hp := by cases hp
  status _ hi := by cases hi
  completed _ hi := by cases hi
  avail := rfl
  used := rfl
  availFresh _ hk := by cases hk
  usedFresh _ hk := by cases hk
  sleepers _ _ hp := by cases hp

theorem run {as : List (Act P B)} (h : Inv s pend unread) :
    ∃ s' pend' unread', ActionRun.run Sys.step s as = .ok s' ∧ Inv s' pend' unread' := by
  induction as generalizing s pend unread with
  | nil => exact ⟨s, pend, unread, rfl, h⟩
  | cons a as ih =>
    obtain ⟨s₁, pend₁, unread₁, hstep, h₁⟩ := h.step a
    obtain ⟨s', pend', unread', hrun, h'⟩ := ih h₁
    refine ⟨s', pend', unread', ?_, h'⟩
    rw [ActionRun.run, hstep]
    exact hrun

end Inv

/-- The thread `p` has a request in flight, with these arguments and descriptors. -/
def InFlight (s : Sys P B) (p : P) (r : Call B) (c : Chain) : Prop := (s.pc p).flight = some (r, c)

/-- Process `p`, in the loop of `virtio_disk_intr`, handles the completion of request `r` of `q`: it
clears the flag of that request's buffer and no other, wakes `q` if it sleeps and nobody else, and
goes on to the next entry of the used ring. -/
structure Handled (s t : Sys P B) (q : P) (r : Call B) (c : Chain) : Prop where
  busy : t.busy = update s.busy r.b false
  next : t.diskUsedIdx = s.diskUsedIdx + 1
  woken : s.pc q = .asleep r c → t.pc q = .woken r c
  others : ∀ p, p ≠ q → t.pc p = s.pc p

structure Protocol (s : Sys P B) : Prop where
  /-- The descriptors that are not free are those of the requests in flight. -/
  used_descs : ∀ i < num, s.free i = false ↔ ∃ p r c, s.InFlight p r c ∧ i ∈ c.descs
  /-- Each request has a chain of three descriptors, linked in memory. -/
  linked : ∀ p r c, s.InFlight p r c → s.Linked r c
  disjoint : ∀ p q r c r' c', s.InFlight p r c → s.InFlight q r' c' → p ≠ q → c.descs.Disjoint c'.descs
  /-- `virtio_disk_rw` leaves its loop only after the device has completed its request. -/
  returns : ∀ p r c, s.pc p = .waiting r c → s.busy r.b = false → s.completed c.i0 = true
  /-- The next entry of the used ring is for one request in flight, whose buffer no other request
  has and is still marked. The round of `virtio_disk_intr` that reads it handles that request. -/
  completion : s.diskUsedIdx ≠ s.usedIdx → ∃ q r c, s.InFlight q r c ∧
    (s.used (slot s.diskUsedIdx)).toNat = c.i0 ∧ (s.info c.i0).b = some r.b ∧ (s.info c.i0).status = 0 ∧
    s.busy r.b = true ∧ s.completed c.i0 = true ∧ (∀ p r' c', s.InFlight p r' c' → r'.b = r.b → p = q) ∧
    ∀ p, s.pc p = .intr → ∃ t, s.step (.advance p) = .ok t ∧ Handled s t q r c
  sleepers : ∀ p r, s.pc p = .noDesc r → s.freeCount < 3

omit [DecidableEq P] in
theorem wakeBuf_of_other {q : P} {r : Call B} (h : ∀ r' c', s.InFlight p r' c' → r'.b = r.b → p = q)
    (hp : p ≠ q) : (s.pc p).wakeBuf r.b = s.pc p := by
  cases hpc : s.pc p with
  | asleep r' c' =>
    refine if_neg fun he => hp (h r' c' ?_ he)
    rw [InFlight, hpc]
    rfl
  | _ => rfl

theorem intrRound_handles {q : P} {r : Call B} {c : Chain} (hp : s.pc p = .intr)
    (hne : s.diskUsedIdx ≠ s.usedIdx) (hc : c.i0 < num) (hid : (s.used (slot s.diskUsedIdx)).toNat = c.i0)
    (hb : (s.info c.i0).b = some r.b) (hst : (s.info c.i0).status = 0)
    (hone : ∀ p r' c', s.InFlight p r' c' → r'.b = r.b → p = q) :
    ∃ t, s.step (.advance p) = .ok t ∧ Handled s t q r c := by
  have hstep : s.step (.advance p) = s.intrRound p := by simp only [step, advance, hp]
  rw [hstep, intrRound, if_pos hne]
  simp only [hid, Nat.not_le.mpr hc, if_false, hst, ne_eq, not_true, hb]
  refine ⟨_, rfl, rfl, rfl, fun hq => ?_, fun p' hp' => wakeBuf_of_other (hone p') hp'⟩
  dsimp only
  rw [hq]
  exact if_pos rfl

theorem Inv.protocol (h : Inv s pend unread) : Protocol s := by
  refine ⟨h.free, h.chain, fun p q r c r' c' hp hq hpq i hi hi' => h.apart p q r c r' c' hp hq hpq i hi hi',
    fun p r c hp => h.done p r c (by rw [hp]; rfl), fun hne => ?_, h.sleepers⟩
  have hempty := h.used.eq_iff spread (by simpa using h.lengths.2)
  cases unread with
  | nil => exact absurd (hempty.mpr rfl) hne
  | cons i unread =>
    have hm : i ∈ s.moving pend (i :: unread) := by simp [moving]
    obtain ⟨q, r, c, hq, rfl⟩ := h.told i hm
    have hfl := Pc.flight_of_published hq
    have hlt := h.moving_lt hm
    have hid : (s.used (slot s.diskUsedIdx)).toNat = c.i0 := by
      rw [h.used.1, UInt32.toNat_ofNat_of_lt' (by unfold num at hlt; exact Nat.lt_trans hlt (by decide))]
    have hinfo := (h.chain q r c hfl).info
    have hst := h.status c.i0 (by simp)
    have hone (p : P) (r' : Call B) (c' : Chain) (hp : s.InFlight p r' c') (he : r'.b = r.b) : p = q :=
      h.eq_of_buf hp hfl he
    exact ⟨q, r, c, hfl, hid, hinfo, hst, (h.busy q r c hq).mpr hm, h.completed _ List.mem_cons_self, hone,
      fun p hp => intrRound_handles hp hne hlt hid hinfo hst hone⟩

/-- Driver and device never go wrong, however their steps are interleaved, and each completion goes
to its own request. -/
theorem virtio_protocol (ops : Nat → BlkReq) (as : List (Act P B)) :
    ∃ s, run step (init ops) as = .ok s ∧ Protocol s := by
  obtain ⟨s, pend, unread, hrun, hs⟩ := (Inv.init (P := P) (B := B) ops).run
  exact ⟨s, hrun, hs.protocol⟩

/-- Process 0 reads a block and sleeps; the device completes the request, and process 1 is about to
handle the interrupt. -/
def readOne : List (Act Bool Unit) :=
  [.call false ⟨(), 5, false⟩, .advance false, .advance false, .advance false, .advance false, .take,
    .serve 0, .post 0, .intr true, .advance true]

theorem virtio_protocol_completes : ∃ s t,
    run step (init fun _ => ⟨0, 0, 0⟩) readOne = .ok s ∧
    s.pc false = .asleep ⟨(), 5, false⟩ ⟨0, 1, 2⟩ ∧ s.busy () = true ∧
    s.step (.advance true) = .ok t ∧ t.busy () = false ∧ t.pc false = .woken ⟨(), 5, false⟩ ⟨0, 1, 2⟩ ∧ t.diskUsedIdx = 1 := by
  obtain ⟨s, hrun, hs⟩ := virtio_protocol (fun _ => ⟨0, 0, 0⟩) readOne
  have hsee : (run step (init fun _ => ⟨0, 0, 0⟩) readOne).map
      (fun s => (s.pc false, s.pc true, s.diskUsedIdx, s.usedIdx, s.busy ())) =
        .ok (.asleep ⟨(), 5, false⟩ ⟨0, 1, 2⟩, .intr, 0, 1, true) := by rfl
  rw [hrun] at hsee
  simp only [Except.map, Except.ok.injEq, Prod.mk.injEq] at hsee
  obtain ⟨h0, h1, hd, hu, hb⟩ := hsee
  obtain ⟨q, r, c, hfl, -, -, -, -, -, -, hstep⟩ := hs.completion (by rw [hd, hu]; decide)
  obtain ⟨t, ht, hh⟩ := hstep true h1
  cases q with
  | true =>
    rw [InFlight, h1] at hfl
    cases hfl
  | false =>
    rw [InFlight, h0] at hfl
    cases hfl
    exact ⟨s, t, hrun, h0, hb, ht, by rw [hh.busy, update_self], hh.woken h0, by rw [hh.next, hd]; rfl⟩

end Xv6.Virtio.Sys
