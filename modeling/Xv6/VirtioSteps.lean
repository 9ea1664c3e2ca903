import Xv6.VirtioInv

/-! Every step of the driver and of the device keeps the invariant. -/

namespace Xv6.Virtio.Sys.Inv

open ActionRun Function SlotQueue

variable {P B : Type*} {s s' : Sys P B} {pend unread pend' unread' : List Nat} {p q : P} {r r' : Call B}
  {c c' : Chain}

section Device

theorem of_perm (h : Inv s pend unread) (hpc : s'.pc = s.pc) (howner : s'.owner = s.owner)
    (hlock : s'.lock = s.lock) (hdesc : s'.desc = s.desc) (hinfo : ∀ i, (s'.info i).b = (s.info i).b)
    (hfree : s'.free = s.free) (hbusy : s'.busy = s.busy)
    (hperm : (s'.moving pend' unread').Perm (s.moving pend unread))
    (hdone : ∀ i, s.completed i = true → s'.completed i = true)
    (hstatus : ∀ i ∈ s'.served ++ unread', (s'.info i).status = 0)
    (hcompleted : ∀ i ∈ unread', s'.completed i = true)
    (havail : Holds next slot s'.avail s'.devIdx (pend'.map UInt16.ofNat) s'.availIdx)
    (hused : Holds next slot s'.used s'.diskUsedIdx (unread'.map UInt32.ofNat) s'.usedIdx)
    (hfa : ∀ k, s'.availFresh k = true → k ∈ slots next slot s'.devIdx pend'.length)
    (hfu : ∀ k, s'.usedFresh k = true → k ∈ slots next slot s'.diskUsedIdx unread'.length) :
    Inv s' pend' unread' := by
  have hmem (i : Nat) : i ∈ s'.moving pend' unread' ↔ i ∈ s.moving pend unread := hperm.mem_iff
  refine ⟨?_, ?_, ?_, ?_, ?_, hperm.nodup_iff.mpr h.nodup, fun i hi => ?_, ?_, ?_, ?_, hstatus, hcompleted,
    havail, hused, hfa, hfu, ?_⟩
  · rw [hpc, howner]
    exact h.owner
  · rw [hpc, hlock]
    exact h.lock
  · rw [hpc]
    exact fun p r c hp => (h.chain p r c hp).congr (fun i _ => by rw [hdesc]) (hinfo _)
  · rw [hpc]
    exact h.apart
  · rw [hpc, hfree]
    exact h.free
  · rw [hpc]
    exact h.told i ((hmem i).mp hi)
  · rw [hpc, hbusy]
    exact h.filled
  · rw [hpc, hbusy]
    intro p r c hp
    rw [hmem]
    exact h.busy p r c hp
  · rw [hpc, hbusy]
    exact fun p r c hp hb => hdone _ (h.done p r c hp hb)
  · rw [hpc]
    unfold freeCount
    rw [hfree]
    exact h.sleepers

theorem moving_lt (h : Inv s pend unread) {i : Nat} (hi : i ∈ s.moving pend unread) : i < num := by
  obtain ⟨p, r, c, hp, rfl⟩ := h.told i hi
  exact (h.chain p r c (Pc.flight_of_published hp)).lt _ (by simp [Chain.descs])

theorem take (h : Inv s pend unread) : ∃ pend', Inv s.take pend' unread := by
  unfold Sys.take
  have hlen := h.lengths
  have hempty := h.avail.eq_iff spread (by simpa using hlen.1)
  split
  · next hne =>
    cases pend with
    | nil => exact absurd (hempty.mpr rfl) hne
    | cons i pend =>
      obtain ⟨hslot, hrest⟩ := h.avail
      have hi : (UInt16.ofNat i).toNat = i := by
        have hlt := h.moving_lt (i := i) (by simp [moving])
        rw [UInt16.toNat_ofNat_of_lt' (Nat.lt_trans hlt (by decide))]
      have hfresh := h.availFresh
      refine ⟨pend, h.of_perm rfl rfl rfl rfl (fun _ => rfl) rfl rfl ?_ (fun _ hi => hi) h.status
        h.completed hrest h.used (fun k hk => ?_) h.usedFresh⟩
      · rw [hslot, hi]
        have hmid : (pend ++ s.taken ++ i :: (s.served ++ unread)).Perm
            (i :: (pend ++ s.taken ++ (s.served ++ unread))) := List.perm_middle
        simpa [moving] using hmid
      · by_cases hks : k = slot s.devIdx
        · subst hks
          simp at hk
        · have hk' : s.availFresh k = true := by simpa [update_of_ne hks] using hk
          rcases List.mem_cons.mp (hfresh k hk') with he | hm
          · exact absurd he hks
          · exact hm
  · exact ⟨pend, h⟩

theorem perm_eraseIdx {l : List Nat} {k i : Nat} (hk : l[k]? = some i) : (i :: l.eraseIdx k).Perm l := by
  obtain ⟨hlt, rfl⟩ := List.getElem?_eq_some_iff.mp hk
  exact List.getElem_cons_eraseIdx_perm hlt

theorem serve (h : Inv s pend unread) (k : Nat) : ∃ s', s.serve k = .ok s' ∧ Inv s' pend unread := by
  unfold Sys.serve
  cases hk : s.taken[k]? with
  | none => exact ⟨s, rfl, h⟩
  | some i =>
    have htaken : i ∈ s.taken := List.mem_of_getElem? hk
    obtain ⟨p, r, c, hp, rfl⟩ := h.told i (by simp [moving, htaken])
    have hlink := h.chain p r c (Pc.flight_of_published hp)
    simp only [hlink.statusOf_eq]
    refine ⟨_, rfl, h.of_perm rfl rfl rfl rfl (fun i => ?_) rfl rfl ?_ (fun _ hi => hi) (fun i hi => ?_)
      h.completed h.avail h.used h.availFresh h.usedFresh⟩
    · dsimp only
      by_cases hi : i = c.i0
      · rw [hi, update_self]
      · rw [update_of_ne hi]
    · refine List.perm_iff_count.mpr fun a => ?_
      have hcount := (perm_eraseIdx hk).count_eq a
      simp only [moving, List.count_append, List.count_cons, List.count_nil] at hcount ⊢
      omega
    · dsimp only at hi ⊢
      by_cases hic : i = c.i0
      · rw [hic, update_self]
      · rw [update_of_ne hic]
        refine h.status i ?_
        simp only [List.mem_append, List.mem_singleton] at hi ⊢
        tauto

theorem post (h : Inv s pend unread) (k : Nat) : ∃ s' unread', s.post k = .ok s' ∧ Inv s' pend unread' := by
  unfold Sys.post
  cases hk : s.served[k]? with
  | none => exact ⟨s, unread, rfl, h⟩
  | some i =>
    have hlen := h.lengths.2
    have hlen' : (unread.map UInt32.ofNat).length < num := by simpa using hlen
    have hslot := h.used.slot_not_mem spread hlen'
    have hnot : s.usedFresh (slot s.usedIdx) = false := by
      by_contra hf
      rw [List.length_map] at hslot
      exact hslot (h.usedFresh _ (by simpa using hf))
    simp only [hnot]
    refine ⟨_, unread ++ [i], rfl, h.of_perm rfl rfl rfl rfl (fun i => rfl) rfl rfl ?_ (fun j hj => ?_)
      (fun j hj => ?_) (fun j hj => ?_) h.avail ?_ h.availFresh (fun j hj => ?_)⟩
    · refine List.perm_iff_count.mpr (fun a => ?_)
      have hcount := (perm_eraseIdx hk).count_eq a
      simp only [moving, List.count_append, List.count_cons, List.count_nil] at hcount ⊢
      omega
    · change update s.completed i true j = true
      by_cases hji : j = i
      · rw [hji, update_self]
      · rw [update_of_ne hji]
        exact hj
    · refine h.status j ?_
      have hmem : j ∈ s.served.eraseIdx k → j ∈ s.served := fun hm =>
        (perm_eraseIdx hk).mem_iff.mp (List.mem_cons_of_mem _ hm)
      have hi : i ∈ s.served := List.mem_of_getElem? hk
      simp only [List.mem_append, List.mem_singleton] at hj ⊢
      rcases hj with hj | hj | rfl
      · exact .inl (hmem hj)
      · exact .inr hj
      · exact .inl hi
    · change update s.completed i true j = true
      by_cases hji : j = i
      · rw [hji, update_self]
      · rw [update_of_ne hji]
        refine h.completed j ?_
        simpa [hji] using hj
    · rw [List.map_append]
      exact h.used.push spread hlen' _
    · have hend := h.used.iterate
      rw [List.length_map] at hend
      rw [List.length_append]
      refine slots_snoc ?_
      change update s.usedFresh (slot s.usedIdx) true j = true at hj
      by_cases hj' : j = slot s.usedIdx
      · rw [hend]
        exact .inr hj'
      · rw [update_of_ne hj'] at hj
        exact .inl (h.usedFresh j hj)

end Device

section Driver

variable [DecidableEq P]

omit [DecidableEq P] in
theorem not_moving (h : Inv s pend unread) (hp : (s.pc p).flight = some (r, c))
    (hn : (s.pc p).published = none) : c.i0 ∉ s.moving pend unread := by
  intro hm
  obtain ⟨q, r', c', hq, he⟩ := h.told c.i0 hm
  have hqp := h.eq_of_head (Pc.flight_of_published hq) hp he
  rw [hqp, hn] at hq
  cases hq

omit [DecidableEq P] in
theorem head_ne (h : Inv s pend unread) (hp : (s.pc p).flight = some (r, c))
    (hq : (s.pc q).flight = some (r', c')) (hpq : q ≠ p) : c'.i0 ≠ c.i0 :=
  fun he => hpq (h.eq_of_head hq hp he)

omit [DecidableEq P] in
theorem buf_ne (h : Inv s pend unread) (hp : (s.pc p).buf = some r.b)
    (hq : (s.pc q).flight = some (r', c')) (hpq : q ≠ p) : r'.b ≠ r.b := by
  intro he
  have h1 := h.owner p _ hp
  have h2 := h.owner q _ (Pc.buf_of_flight hq)
  rw [he, h1] at h2
  exact hpq (Option.some.inj h2).symm

omit [DecidableEq P] in
theorem update_same [DecidableEq P] {β : Type*} (f : Pc B → β) {pc : P → Pc B} {x : Pc B}
    (hx : f x = f (pc p)) (q : P) : f (update pc p x q) = f (pc q) := by
  by_cases hq : q = p
  · rw [hq, update_self, hx]
  · rw [update_of_ne hq]

theorem of_update {β : Type*} (f : Pc B → β) {pc : P → Pc B} {x : Pc B} {v : β}
    (h : f (update pc p x q) = v) (hx : f x ≠ v) : q ≠ p ∧ f (pc q) = v := by
  by_cases hq : q = p
  · rw [hq, update_self] at h
    exact absurd h hx
  · rw [update_of_ne hq] at h
    exact ⟨hq, h⟩

theorem publish (h : Inv s pend unread) (hp : s.pc p = .filled r c) :
    ∃ s', s.publish p r c = .ok s' ∧ Inv s' (pend ++ [c.i0]) unread := by
  have hlen : (pend.map UInt16.ofNat).length < num := by simpa using h.lengths.1
  have hslot := h.avail.slot_not_mem spread hlen
  have hnot : s.availFresh (slot s.availIdx) = false := by
    by_contra hf
    rw [List.length_map] at hslot
    exact hslot (h.availFresh _ (by simpa using hf))
  have hfl : (s.pc p).flight = some (r, c) := by rw [hp]; rfl
  have hnew := h.not_moving hfl (by rw [hp]; rfl)
  have hflight : ∀ q, (update s.pc p (.waiting r c) q).flight = (s.pc q).flight :=
    update_same Pc.flight (by rw [hp]; rfl)
  have hbuf : ∀ q, (update s.pc p (.waiting r c) q).buf = (s.pc q).buf :=
    update_same Pc.buf (by rw [hp]; rfl)
  have hlocked : ∀ q, (update s.pc p (.waiting r c) q).locked = (s.pc q).locked :=
    update_same Pc.locked (by rw [hp]; rfl)
  have hpub : ∀ {q r' c'}, (update s.pc p (.waiting r c) q).published = some (r', c') →
      q = p ∧ r' = r ∧ c' = c ∨ q ≠ p ∧ (s.pc q).published = some (r', c') := by
    intro q r' c' hq
    by_cases hqp : q = p
    · rw [hqp, update_self] at hq
      cases hq
      exact .inl ⟨hqp, rfl, rfl⟩
    · rw [update_of_ne hqp] at hq
      exact .inr ⟨hqp, hq⟩
  unfold Sys.publish
  rw [hnot]
  refine ⟨_, rfl, ?_⟩
  have hmem (i : Nat) : i ∈ (pend ++ [c.i0]) ++ s.taken ++ s.served ++ unread ↔
      i = c.i0 ∨ i ∈ s.moving pend unread := by
    simp only [moving, List.mem_append, List.mem_singleton]
    tauto
  refine ⟨fun q b hq => ?_, fun q hq => ?_, fun q r' c' hq => ?_, fun q q' r₁ c₁ r₂ c₂ h1 h2 => ?_,
    fun i hi => ?_, ?_, fun i hi => ?_, fun q r' c' hq => ?_, fun q r' c' hq => ?_,
    fun q r' c' hq hb => ?_, h.status, h.completed, ?_, h.used, fun k hk => ?_, h.usedFresh,
    fun q r' hq => ?_⟩
  · exact h.owner q b (hbuf q ▸ hq)
  · exact h.lock q (hlocked q ▸ hq)
  · exact (h.chain q r' c' (hflight q ▸ hq)).congr (fun _ _ => rfl) rfl
  · exact h.apart q q' r₁ c₁ r₂ c₂ (hflight q ▸ h1) (hflight q' ▸ h2)
  · change s.free i = false ↔ ∃ q r' c', (update s.pc p (.waiting r c) q).flight = _ ∧ _
    simp only [hflight]
    exact h.free i hi
  · change (pend ++ [c.i0] ++ s.taken ++ s.served ++ unread).Nodup
    have hperm : (pend ++ [c.i0] ++ s.taken ++ s.served ++ unread).Perm (c.i0 :: s.moving pend unread) := by
      refine List.perm_iff_count.mpr fun a => ?_
      simp only [moving, List.count_append, List.count_cons, List.count_nil]
      omega
    exact hperm.nodup_iff.mpr (List.nodup_cons.mpr ⟨hnew, h.nodup⟩)
  · change ∃ q r' c', (update s.pc p (.waiting r c) q).published = _ ∧ _
    rcases (hmem i).mp hi with rfl | hi
    · exact ⟨p, r, c, by rw [update_self]; rfl, rfl⟩
    · obtain ⟨q, r', c', hq, he⟩ := h.told i hi
      refine ⟨q, r', c', ?_, he⟩
      rw [update_of_ne]
      · exact hq
      · rintro rfl
        rw [hp] at hq
        cases hq
  · exact h.filled q r' c' (of_update id hq (by simp)).2
  · change s.busy r'.b = true ↔ c'.i0 ∈ pend ++ [c.i0] ++ s.taken ++ s.served ++ unread
    rw [hmem]
    rcases hpub hq with ⟨_, rfl, rfl⟩ | ⟨hqp, hq⟩
    · simp [h.filled p r' c' hp]
    · have hne := h.head_ne hfl (Pc.flight_of_published hq) hqp
      rw [h.busy q r' c' hq]
      simp [hne]
  · rcases hpub hq with ⟨_, rfl, rfl⟩ | ⟨hqp, hq⟩
    · have hb' := h.filled p r' c' hp
      change s.busy r'.b = false at hb
      rw [hb'] at hb
      cases hb
    · exact h.done q r' c' hq hb
  · rw [List.map_append]
    exact h.avail.push spread hlen _
  · have hend := h.avail.iterate
    rw [List.length_map] at hend
    rw [List.length_append]
    refine slots_snoc ?_
    change update s.availFresh (slot s.availIdx) true k = true at hk
    by_cases hk' : k = slot s.availIdx
    · exact .inr (hend ▸ hk')
    · rw [update_of_ne hk'] at hk
      exact .inl (h.availFresh k hk)
  · exact h.sleepers q r' (of_update id hq (by simp)).2

omit [DecidableEq P] in
theorem lock_unique (h : Inv s pend unread) (hp : (s.pc p).locked = true) (hq : (s.pc q).locked = true) :
    q = p := by
  have h1 := h.lock p hp
  rw [h.lock q hq] at h1
  exact Option.some.inj h1

theorem release {pc : Pc B} {owner' : B → Option P} (h : Inv s pend unread) (hp : (s.pc p).locked = true)
    (hflight : pc.flight = (s.pc p).flight) (hpub : pc.published = (s.pc p).published)
    (hlocked : pc.locked = false) (howner : ∀ q b, (update s.pc p pc q).buf = some b → owner' b = some q)
    (hsleep : ∀ r, pc = .noDesc r → s.freeCount < 3) :
    Inv { s with pc := update s.pc p pc, lock := none, owner := owner' } pend unread := by
  refine h.of_pc (update_same Pc.flight hflight) (update_same Pc.published hpub) howner (fun q hq => ?_)
    (fun q r hq => ?_)
  · obtain ⟨hqp, hq⟩ := of_update Pc.locked hq (by simp [hlocked])
    exact absurd (h.lock_unique hp hq) hqp
  · by_cases hqp : q = p
    · rw [hqp, update_self] at hq
      exact hsleep r hq
    · rw [update_of_ne hqp] at hq
      exact h.sleepers q r hq

variable [DecidableEq B]

theorem intr_pop {i : Nat} (h : Inv s pend (i :: unread)) (hp : (s.pc p).published = some (r, c))
    (hi : c.i0 = i) :
    Inv { s with
      busy := update s.busy r.b false
      pc := fun q => (s.pc q).wakeBuf r.b
      usedFresh := update s.usedFresh (slot s.diskUsedIdx) false
      diskUsedIdx := s.diskUsedIdx + 1 } pend unread := by
  subst hi
  have hfl := Pc.flight_of_published hp
  have hperm : (s.moving pend (c.i0 :: unread)).Perm (c.i0 :: s.moving pend unread) := List.perm_middle
  obtain ⟨hnot, hnodup⟩ := List.nodup_cons.mp (hperm.nodup_iff.mp h.nodup)
  have hmem (j : Nat) : j ∈ s.moving pend (c.i0 :: unread) ↔ j = c.i0 ∨ j ∈ s.moving pend unread := by
    rw [hperm.mem_iff, List.mem_cons]
  refine ⟨fun q b hq => ?_, fun q hq => ?_, fun q r' c' hq => ?_, fun q q' r₁ c₁ r₂ c₂ h1 h2 => ?_,
    fun j hj => ?_, hnodup, fun j hj => ?_, fun q r' c' hq => ?_, fun q r' c' hq => ?_,
    fun q r' c' hq hb => ?_, fun j hj => ?_, fun j hj => h.completed j (List.mem_cons_of_mem _ hj),
    h.avail, h.used.2, h.availFresh, fun k hk => ?_,
    fun q r' hq => ?_⟩
  · exact h.owner q b (by simpa using hq)
  · exact h.lock q (by simpa using hq)
  · exact (h.chain q r' c' (by simpa using hq)).congr (fun _ _ => rfl) rfl
  · exact h.apart q q' r₁ c₁ r₂ c₂ (by simpa using h1) (by simpa using h2)
  · simpa using h.free j hj
  · simpa using h.told j ((hmem j).mpr (.inr hj))
  · have hq' : s.pc q = .filled r' c' := by
      change (s.pc q).wakeBuf r.b = _ at hq
      generalize s.pc q = x at hq
      cases x with
      | asleep r₁ c₁ => by_cases hr : r₁.b = r.b <;> simp [Pc.wakeBuf, hr] at hq
      | _ => exact hq
    have hne : q ≠ p := by
      rintro rfl
      rw [hq'] at hp
      cases hp
    have hb := h.buf_ne (Pc.buf_of_flight hfl) (by rw [hq']; rfl) hne
    change update s.busy r.b false r'.b = true
    rw [update_of_ne hb]
    exact h.filled q r' c' hq'
  · have hq' : (s.pc q).published = some (r', c') := by simpa using hq
    change update s.busy r.b false r'.b = true ↔ c'.i0 ∈ s.moving pend unread
    by_cases hqp : q = p
    · rw [hqp, hp] at hq'
      cases hq'
      simp [hnot]
    · have hfl' := Pc.flight_of_published hq'
      have hne := h.head_ne hfl hfl' hqp
      rw [update_of_ne (h.buf_ne (Pc.buf_of_flight hfl) hfl' hqp), h.busy q r' c' hq', hmem]
      simp [hne]
  · have hq' : (s.pc q).published = some (r', c') := by simpa using hq
    by_cases hqp : q = p
    · rw [hqp, hp] at hq'
      cases hq'
      exact h.completed c.i0 List.mem_cons_self
    · have hfl' := Pc.flight_of_published hq'
      change update s.busy r.b false r'.b = false at hb
      rw [update_of_ne (h.buf_ne (Pc.buf_of_flight hfl) hfl' hqp)] at hb
      exact h.done q r' c' hq' hb
  · refine h.status j ?_
    simp only [List.mem_append, List.mem_cons] at hj ⊢
    tauto
  · change update s.usedFresh (slot s.diskUsedIdx) false k = true at hk
    by_cases hks : k = slot s.diskUsedIdx
    · rw [hks, update_self] at hk
      cases hk
    · rw [update_of_ne hks] at hk
      exact (List.mem_cons.mp (h.usedFresh k hk)).resolve_left hks
  · exact h.sleepers q r' (Pc.wakeBuf_noDesc _ _ hq)

theorem intrRound (h : Inv s pend unread) (hp : s.pc p = .intr) :
    ∃ s' unread', s.intrRound p = .ok s' ∧ Inv s' pend unread' := by
  have hlen : (unread.map UInt32.ofNat).length < num := by simpa using h.lengths.2
  have hempty := h.used.eq_iff spread hlen
  unfold Sys.intrRound
  split
  · next hne =>
    cases unread with
    | nil => exact absurd (hempty.mpr rfl) hne
    | cons i unread =>
      have hm : i ∈ s.moving pend (i :: unread) := by simp [moving]
      obtain ⟨q, r, c, hq, hi⟩ := h.told i hm
      have hlink := h.chain q r c (Pc.flight_of_published hq)
      have hlt := h.moving_lt hm
      have hid : (s.used (slot s.diskUsedIdx)).toNat = i := by
        rw [h.used.1, UInt32.toNat_ofNat_of_lt' (by unfold num at hlt; exact Nat.lt_trans hlt (by decide))]
      have hstatus : (s.info i).status = 0 := h.status i (by simp)
      have hb : (s.info i).b = some r.b := hi ▸ hlink.info
      refine ⟨_, unread, ?_, h.intr_pop hq hi⟩
      rw [hid, if_neg (Nat.not_le.mpr hlt), if_neg (by simp [hstatus]), hb]
  · refine ⟨_, unread, rfl, h.release (p := p) (by rw [hp]; rfl) (by rw [hp]; rfl)
      (by rw [hp]; rfl) rfl (fun q b hq => ?_) (by simp)⟩
    exact h.owner q b (of_update Pc.buf hq (by simp [Pc.buf])).2

end Driver

end Xv6.Virtio.Sys.Inv
