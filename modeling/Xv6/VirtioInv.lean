import Mathlib.Data.List.Perm.Basic
import Xv6.SlotQueue
import Xv6.Virtio

/-! What holds of the driver and the device in every state of a run. -/

namespace Xv6.Virtio

open ActionRun SlotQueue

variable {P B : Type*}

namespace Pc

def flight : Pc B → Option (Call B × Chain)
  | filled r c | waiting r c | asleep r c | woken r c => some (r, c)
  | _ => none

def published : Pc B → Option (Call B × Chain)
  | waiting r c | asleep r c | woken r c => some (r, c)
  | _ => none

def buf : Pc B → Option B
  | entering r | allocating r | noDesc r | retry r => some r.b
  | filled r _ | waiting r _ | asleep r _ | woken r _ => some r.b
  | _ => none

def locked : Pc B → Bool
  | allocating _ | filled _ _ | waiting _ _ | intr => true
  | _ => false

theorem flight_of_published {pc : Pc B} {r : Call B} {c : Chain} (h : pc.published = some (r, c)) :
    pc.flight = some (r, c) := by
  cases pc <;> first | exact h | cases h

theorem buf_of_flight {pc : Pc B} {r : Call B} {c : Chain} (h : pc.flight = some (r, c)) :
    pc.buf = some r.b := by
  cases pc <;> cases h <;> rfl

section Wake

variable (pc : Pc B)

@[simp] theorem flight_wakeFree : pc.wakeFree.flight = pc.flight := by cases pc <;> rfl

@[simp] theorem published_wakeFree : pc.wakeFree.published = pc.published := by cases pc <;> rfl

@[simp] theorem buf_wakeFree : pc.wakeFree.buf = pc.buf := by cases pc <;> rfl

@[simp] theorem locked_wakeFree : pc.wakeFree.locked = pc.locked := by cases pc <;> rfl

theorem wakeFree_ne (r : Call B) : pc.wakeFree ≠ .noDesc r := by cases pc <;> simp [wakeFree]

@[simp] theorem flight_wake : pc.wake.flight = pc.flight := by cases pc <;> rfl

@[simp] theorem published_wake : pc.wake.published = pc.published := by cases pc <;> rfl

@[simp] theorem buf_wake : pc.wake.buf = pc.buf := by cases pc <;> rfl

@[simp] theorem locked_wake : pc.wake.locked = pc.locked := by cases pc <;> rfl

theorem wake_ne (r : Call B) : pc.wake ≠ .noDesc r := by cases pc <;> simp [wake]

variable [DecidableEq B] (b : B)

theorem wakeBuf_cases : pc.wakeBuf b = pc ∨ ∃ r c, pc = .asleep r c ∧ pc.wakeBuf b = .woken r c := by
  cases pc with
  | asleep r c =>
    by_cases hr : r.b = b
    · exact .inr ⟨r, c, rfl, if_pos hr⟩
    · exact .inl (if_neg hr)
  | _ => exact .inl rfl

theorem wakeBuf_keeps {β : Type*} (f : Pc B → β) (h : ∀ r c, f (.woken r c) = f (.asleep r c)) :
    f (pc.wakeBuf b) = f pc := by
  rcases pc.wakeBuf_cases b with he | ⟨r, c, rfl, he⟩
  · rw [he]
  · rw [he, h]

@[simp] theorem flight_wakeBuf : (pc.wakeBuf b).flight = pc.flight :=
  pc.wakeBuf_keeps b flight fun _ _ => rfl

@[simp] theorem published_wakeBuf : (pc.wakeBuf b).published = pc.published :=
  pc.wakeBuf_keeps b published fun _ _ => rfl

@[simp] theorem buf_wakeBuf : (pc.wakeBuf b).buf = pc.buf := pc.wakeBuf_keeps b buf fun _ _ => rfl

@[simp] theorem locked_wakeBuf : (pc.wakeBuf b).locked = pc.locked :=
  pc.wakeBuf_keeps b locked fun _ _ => rfl

theorem wakeBuf_noDesc {r : Call B} (h : pc.wakeBuf b = .noDesc r) : pc = .noDesc r := by
  rcases pc.wakeBuf_cases b with he | ⟨r', c, rfl, he⟩
  · exact he.symm.trans h
  · cases he.symm.trans h

end Wake

end Pc

namespace Sys

def freeCount (s : Sys P B) : Nat := (List.range num).countP s.free

structure Linked (s : Sys P B) (r : Call B) (c : Chain) : Prop where
  nodup : c.descs.Nodup
  lt : ∀ i ∈ c.descs, i < num
  d0 : s.desc c.i0 = ⟨.op c.i0, 16, fNext, UInt16.ofNat c.i1⟩
  d1 : s.desc c.i1 = ⟨.data r.b, 1024, (if r.write then 0 else fWrite) ||| fNext, UInt16.ofNat c.i2⟩
  d2 : s.desc c.i2 = ⟨.status c.i0, 1, fWrite, 0⟩
  info : (s.info c.i0).b = some r.b

/-- Heads of chains the device has been told of and the driver has not seen back: in the
avail ring, inside the device, in the used ring. -/
def moving (s : Sys P B) (pend unread : List Nat) : List Nat := pend ++ s.taken ++ s.served ++ unread

def next (i : UInt16) : UInt16 := i + 1

structure Inv (s : Sys P B) (pend unread : List Nat) : Prop where
  owner : ∀ p b, (s.pc p).buf = some b → s.owner b = some p
  lock : ∀ p, (s.pc p).locked = true → s.lock = some p
  chain : ∀ p r c, (s.pc p).flight = some (r, c) → s.Linked r c
  apart : ∀ p q r c r' c', (s.pc p).flight = some (r, c) → (s.pc q).flight = some (r', c') → p ≠ q →
    ∀ i ∈ c.descs, i ∉ c'.descs
  free : ∀ i < num, s.free i = false ↔ ∃ p r c, (s.pc p).flight = some (r, c) ∧ i ∈ c.descs
  nodup : (s.moving pend unread).Nodup
  told : ∀ h ∈ s.moving pend unread, ∃ p r c, (s.pc p).published = some (r, c) ∧ c.i0 = h
  filled : ∀ p r c, s.pc p = .filled r c → s.busy r.b = true
  busy : ∀ p r c, (s.pc p).published = some (r, c) → (s.busy r.b = true ↔ c.i0 ∈ s.moving pend unread)
  done : ∀ p r c, (s.pc p).published = some (r, c) → s.busy r.b = false → s.completed c.i0 = true
  status : ∀ h ∈ s.served ++ unread, (s.info h).status = 0
  completed : ∀ h ∈ unread, s.completed h = true
  avail : Holds next slot s.avail s.devIdx (pend.map UInt16.ofNat) s.availIdx
  used : Holds next slot s.used s.diskUsedIdx (unread.map UInt32.ofNat) s.usedIdx
  availFresh : ∀ k, s.availFresh k = true → k ∈ slots next slot s.devIdx pend.length
  usedFresh : ∀ k, s.usedFresh k = true → k ∈ slots next slot s.diskUsedIdx unread.length
  sleepers : ∀ p r, s.pc p = .noDesc r → s.freeCount < 3

theorem spread : Spread next slot num := by
  intro c j hj hlt
  have hit : ∀ n, next^[n] c = c + UInt16.ofNat n := by
    intro n
    induction n with
    | zero => simp
    | succ n ih =>
      rw [Function.iterate_succ_apply', ih, next, UInt16.ofNat_add, ← UInt16.add_assoc]
      rfl
  rw [hit]
  unfold slot num at *
  rw [UInt16.toNat_add, UInt16.toNat_ofNat']
  omega

namespace Linked

variable {s : Sys P B} {r : Call B} {c : Chain}

theorem i1_toNat (h : s.Linked r c) : (UInt16.ofNat c.i1).toNat = c.i1 := by
  have hlt := h.lt c.i1 (by simp [Chain.descs])
  rw [UInt16.toNat_ofNat_of_lt' (by unfold num at hlt; exact Nat.lt_trans hlt (by decide))]

theorem i2_toNat (h : s.Linked r c) : (UInt16.ofNat c.i2).toNat = c.i2 := by
  have hlt := h.lt c.i2 (by simp [Chain.descs])
  rw [UInt16.toNat_ofNat_of_lt' (by unfold num at hlt; exact Nat.lt_trans hlt (by decide))]

theorem follow (h : s.Linked r c) :
    [c.i0, (s.desc c.i0).next.toNat, (s.desc (s.desc c.i0).next.toNat).next.toNat] = c.descs := by
  rw [h.d0, h.i1_toNat, h.d1, h.i2_toNat]
  rfl

theorem congr {s' : Sys P B} (h : s.Linked r c) (hd : ∀ i ∈ c.descs, s'.desc i = s.desc i)
    (hi : (s'.info c.i0).b = (s.info c.i0).b) : s'.Linked r c :=
  ⟨h.nodup, h.lt, (hd c.i0 (by simp [Chain.descs])).trans h.d0, (hd c.i1 (by simp [Chain.descs])).trans h.d1,
    (hd c.i2 (by simp [Chain.descs])).trans h.d2, hi.trans h.info⟩

theorem statusOf_eq (h : s.Linked r c) : s.statusOf c.i0 = some c.i0 := by
  have h1 : fNext &&& fNext ≠ 0 := by decide
  have h2 : ((if r.write then 0 else fWrite) ||| fNext) &&& fNext ≠ 0 := by
    cases r.write <;> decide
  have h3 : fWrite &&& fWrite ≠ 0 := by decide
  simp only [statusOf, h.d0, h.i1_toNat, h.d1, h.i2_toNat, h.d2, h1, h2, h3, or_self, if_false]

end Linked

namespace Inv

variable {s : Sys P B} {pend unread : List Nat} {p q : P} {r r' : Call B} {c c' : Chain}

theorem eq_of_head (h : Inv s pend unread) (hp : (s.pc p).flight = some (r, c))
    (hq : (s.pc q).flight = some (r', c')) (he : c.i0 = c'.i0) : p = q := by
  by_contra hne
  exact h.apart p q r c r' c' hp hq hne c.i0 (by simp [Chain.descs]) (by simp [Chain.descs, he])

theorem eq_of_buf (h : Inv s pend unread) (hp : (s.pc p).flight = some (r, c))
    (hq : (s.pc q).flight = some (r', c')) (he : r.b = r'.b) : p = q := by
  have h1 := h.owner p _ (Pc.buf_of_flight hp)
  have h2 := h.owner q _ (Pc.buf_of_flight hq)
  rw [he, h2] at h1
  exact (Option.some.inj h1).symm

theorem moving_length (h : Inv s pend unread) : 3 * (s.moving pend unread).length ≤ num := by
  let f (i : Nat) : List Nat := [i, (s.desc i).next.toNat, (s.desc (s.desc i).next.toNat).next.toNat]
  have hf : ∀ i ∈ s.moving pend unread, ∃ p r c, (s.pc p).flight = some (r, c) ∧ c.i0 = i ∧ f i = c.descs := by
    intro i hi
    obtain ⟨p, r, c, hp, rfl⟩ := h.told i hi
    have hp' := Pc.flight_of_published hp
    exact ⟨p, r, c, hp', rfl, (h.chain p r c hp').follow⟩
  have hnodup : ((s.moving pend unread).flatMap f).Nodup := by
    rw [List.nodup_flatMap]
    refine ⟨fun i hi => ?_, h.nodup.imp_of_mem (fun {i j} hi hj hne => ?_)⟩
    · obtain ⟨p, r, c, hp, _, he⟩ := hf i hi
      rw [he]
      exact (h.chain p r c hp).nodup
    · obtain ⟨p, r, c, hp, rfl, he⟩ := hf i hi
      obtain ⟨q, r', c', hq, rfl, he'⟩ := hf j hj
      have hpq : p ≠ q := by
        rintro rfl
        rw [hp] at hq
        cases hq
        exact hne rfl
      rw [Function.onFun, he, he']
      intro x hx hx'
      exact h.apart p q r c r' c' hp hq hpq x hx hx'
  have hsub : (s.moving pend unread).flatMap f ⊆ List.range num := by
    intro x hx
    obtain ⟨i, hi, hxi⟩ := List.mem_flatMap.mp hx
    obtain ⟨p, r, c, hp, _, he⟩ := hf i hi
    rw [he] at hxi
    exact List.mem_range.mpr ((h.chain p r c hp).lt x hxi)
  have hle := (hnodup.subperm hsub).length_le
  rw [List.length_range, List.length_flatMap] at hle
  have hsum : ((s.moving pend unread).map (fun i => (f i).length)).sum = 3 * (s.moving pend unread).length := by
    rw [show (fun i => (f i).length) = fun _ => 3 from rfl, List.map_const', List.sum_replicate]
    simp [Nat.mul_comm]
  omega

theorem lengths (h : Inv s pend unread) : pend.length < num ∧ unread.length < num := by
  have hl := h.moving_length
  unfold moving at hl
  simp only [List.length_append] at hl
  unfold num at hl ⊢
  omega

theorem of_pc {pc' : P → Pc B} {lock' : Option P} {owner' : B → Option P} (h : Inv s pend unread)
    (hflight : ∀ q, (pc' q).flight = (s.pc q).flight) (hpub : ∀ q, (pc' q).published = (s.pc q).published)
    (howner : ∀ q b, (pc' q).buf = some b → owner' b = some q)
    (hlock : ∀ q, (pc' q).locked = true → lock' = some q)
    (hsleep : ∀ q r, pc' q = .noDesc r → s.freeCount < 3) :
    Inv { s with pc := pc', lock := lock', owner := owner' } pend unread := by
  have hf : ∀ q r c, (pc' q).flight = some (r, c) → (s.pc q).flight = some (r, c) :=
    fun q r c hq => hflight q ▸ hq
  have hp : ∀ q r c, (pc' q).published = some (r, c) → (s.pc q).published = some (r, c) :=
    fun q r c hq => hpub q ▸ hq
  refine ⟨howner, hlock, fun q r c hq => ?_,
    fun p q r c r' c' h1 h2 => h.apart p q r c r' c' (hf _ _ _ h1) (hf _ _ _ h2), fun i hi => ?_, h.nodup,
    fun i hi => ?_, fun q r c hq => ?_, fun q r c hq => h.busy q r c (hp _ _ _ hq),
    fun q r c hq => h.done q r c (hp _ _ _ hq), h.status, h.completed, h.avail, h.used, h.availFresh,
    h.usedFresh, hsleep⟩
  · exact (h.chain q r c (hf q r c hq)).congr (fun _ _ => rfl) rfl
  · simp only [hflight]
    exact h.free i hi
  · simp only [hpub]
    exact h.told i hi
  · refine h.filled q r c ?_
    have h1 := hflight q
    have h2 := hpub q
    change pc' q = _ at hq
    rw [hq] at h1 h2
    generalize s.pc q = x at h1 h2
    cases x <;> cases h1 <;> first | rfl | cases h2

end Inv

end Sys

end Xv6.Virtio
