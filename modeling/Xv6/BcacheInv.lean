import Mathlib.Data.Fintype.Card
import Xv6.ActionRun
import Xv6.Bcache

/-! The invariant of the buffer cache, for a set `pins` of blocks the log keeps in
memory and a relation `mod` that tells which lock holders have changed a buffer and
owe it a `log_write` or a `bwrite`. -/

namespace Xv6

open Function RingList

def Io.refs (b : BufId) : Io → Nat
  | .acquiring b' | .dropping b' => if b' = b then 1 else 0
  | _ => 0

/-- A buffer gives its block back to the list only when its last user lets it go, so
the list is ordered by the time of that. -/
structure LruInv {P : Type} (c : Bcache P) : Prop where
  ring : ∃ l : List BufId, (∀ b, b ∈ l) ∧ Ring c.links none (l.map some) ∧
    l.Pairwise fun a b => c.moved b ≤ c.moved a
  clock : ∀ b, c.moved b ≤ c.clock
  unused : ∀ b, (c.buf b).refcnt = 0 → c.released b = c.moved b

structure RefInv {P : Type} [Fintype P] (c : Bcache P) (pins : List Nat) : Prop where
  dev : ∀ b, 0 < (c.buf b).refcnt → (c.buf b).dev = ROOTDEV
  uniq : ∀ a b, (c.buf a).dev = ROOTDEV → (c.buf b).dev = ROOTDEV →
    (c.buf a).blockno = (c.buf b).blockno → a = b
  refs : ∀ b, (c.buf b).refcnt = ∑ p, (c.io p).refs b +
    (if (c.buf b).lock.isSome then 1 else 0) +
    (if (c.buf b).dev = ROOTDEV ∧ (c.buf b).blockno ∈ pins then 1 else 0)

structure DataInv {P : Type} (c : Bcache P) (pins : List Nat) (mod : P → BufId → Prop) : Prop where
  filling : ∀ p b, c.io p = .filling b → (c.buf b).lock = some p
  held : ∀ p b, (c.buf b).lock = some p → c.io p ≠ .filling b → (c.buf b).valid = true
  data : ∀ b, (c.buf b).dev = ROOTDEV → (c.buf b).valid = true →
    (c.buf b).data = c.latest (c.buf b).blockno
  pinned : ∀ k ∈ pins, ∃ b, (c.buf b).dev = ROOTDEV ∧ (c.buf b).blockno = k ∧
    (c.buf b).valid = true
  mods : ∀ p b, mod p b → (c.buf b).lock = some p ∧ c.io p ≠ .filling b
  clean : ∀ k, c.disk k = c.latest k ∨ k ∈ pins ∨ ∃ p b, mod p b ∧ (c.buf b).blockno = k
  left : ∀ k, c.left k = c.latest k ∨
    ∃ p b, (c.buf b).lock = some p ∧ c.io p ≠ .filling b ∧ (c.buf b).blockno = k

structure CacheInv {P : Type} [Fintype P] (c : Bcache P) (pins : List Nat)
    (mod : P → BufId → Prop) : Prop where
  lru : LruInv c
  ref : RefInv c pins
  data : DataInv c pins mod

namespace Bcache

variable {P : Type} {c : Bcache P} {l : List BufId}

theorem find_of_ring (p : BufId → Bool) :
    (l.map some).find? (fun n => n.elim false p) = (l.find? p).map some := by
  rw [List.find?_map]
  rfl

theorem findCached_eq (hr : Ring c.links none (l.map some)) (dev blockno : Nat) :
    c.findCached dev blockno = l.find? (c.caches dev blockno) := by
  have hnd : l.Nodup := ((List.nodup_cons.mp hr.1).2).of_map _
  have hlen : l.length ≤ NBUF := by simpa using hnd.length_le_card
  rw [findCached, scan_next _ hr (by simpa using Nat.lt_succ_of_le hlen), find_of_ring]
  cases l.find? (c.caches dev blockno) <;> rfl

theorem findUnused_eq (hr : Ring c.links none (l.map some)) :
    c.findUnused = l.reverse.find? (fun b => (c.buf b).refcnt == 0) := by
  have hnd : l.Nodup := ((List.nodup_cons.mp hr.1).2).of_map _
  have hlen : l.length ≤ NBUF := by simpa using hnd.length_le_card
  rw [findUnused, scan_prev _ hr (by simpa using Nat.lt_succ_of_le hlen), ← List.map_reverse,
    find_of_ring]
  cases l.reverse.find? (fun b => (c.buf b).refcnt == 0) <;> rfl

end Bcache

namespace LruInv

variable {P : Type} {c c' : Bcache P} {b : BufId}

theorem congr (h : LruInv c) (hl : c'.links = c.links) (hm : c'.moved = c.moved)
    (hr : c'.released = c.released) (hc : c'.clock = c.clock)
    (hu : ∀ b, (c'.buf b).refcnt = 0 → (c.buf b).refcnt = 0) : LruInv c' := by
  refine ⟨?_, ?_, ?_⟩
  · rw [hl, hm]; exact h.ring
  · rw [hm, hc]; exact h.clock
  · intro b hb
    rw [hr, hm]
    exact h.unused b (hu b hb)

theorem findCached_some (h : LruInv c) {dev k : Nat} (hf : c.findCached dev k = some b) :
    (c.buf b).dev = dev ∧ (c.buf b).blockno = k := by
  obtain ⟨l, hall, hr, _⟩ := h.ring
  rw [Bcache.findCached_eq hr] at hf
  simpa [Bcache.caches] using List.find?_some hf

theorem findCached_none (h : LruInv c) {dev k : Nat} (hf : c.findCached dev k = none)
    (b : BufId) : ¬ ((c.buf b).dev = dev ∧ (c.buf b).blockno = k) := by
  obtain ⟨l, hall, hr, _⟩ := h.ring
  rw [Bcache.findCached_eq hr] at hf
  simpa [Bcache.caches] using List.find?_eq_none.mp hf b (hall b)

theorem findUnused_some (h : LruInv c) (hf : c.findUnused = some b) :
    (c.buf b).refcnt = 0 ∧ ∀ a, (c.buf a).refcnt = 0 → c.released b ≤ c.released a := by
  obtain ⟨l, hall, hr, hord⟩ := h.ring
  rw [Bcache.findUnused_eq hr] at hf
  have hzero : (c.buf b).refcnt = 0 := by simpa using List.find?_some hf
  refine ⟨hzero, ?_⟩
  intro a ha
  rw [h.unused b hzero, h.unused a ha]
  obtain ⟨_, l₁, l₂, hsplit, hbefore⟩ := List.find?_eq_some_iff_append.mp hf
  have ha' : a ∈ l.reverse := List.mem_reverse.mpr (hall a)
  have hord' : l.reverse.Pairwise (fun a b => c.moved a ≤ c.moved b) :=
    List.pairwise_reverse.mpr hord
  rw [hsplit] at ha' hord'
  rcases List.mem_append.mp ha' with hm | hm
  · have hh := hbefore a hm
    simp [ha] at hh
  · rcases List.mem_cons.mp hm with rfl | hm
    · exact Nat.le_refl _
    · exact List.rel_of_pairwise_cons (List.pairwise_append.mp hord').2.1 hm

variable [DecidableEq P]

theorem drop (h : LruInv c) (p : P) : LruInv (c.drop p) := by
  unfold Bcache.drop
  split
  swap
  · exact h
  rename_i b _
  have hclock : ∀ a, update c.moved b (c.clock + 1) a ≤ c.clock + 1 := by
    intro a
    by_cases he : a = b
    · subst a; simp
    · rw [update_of_ne he]
      exact Nat.le_succ_of_le (h.clock a)
  simp only
  split
  · rename_i hzero
    obtain ⟨l, hall, hr, hord⟩ := h.ring
    obtain ⟨l₁, l₂, rfl⟩ := List.append_of_mem (hall b)
    have hnd : (l₁ ++ b :: l₂).Nodup := ((List.nodup_cons.mp hr.1).2).of_map _
    have hnot : b ∉ l₁ ++ l₂ := (List.nodup_cons.mp (List.nodup_middle.mp hnd)).1
    simp only [List.map_append, List.map_cons] at hr
    have hun := hr.unlink
    rw [← List.map_append] at hun
    refine ⟨⟨b :: (l₁ ++ l₂), ?_, ?_, ?_⟩, hclock, ?_⟩
    · intro a
      have ha := hall a
      simp only [List.mem_append, List.mem_cons] at ha ⊢
      tauto
    · exact hun.insertFront (by simpa using hnot)
    · refine List.pairwise_cons.mpr ⟨?_, ?_⟩
      · intro a _
        simpa using hclock a
      · refine (hord.sublist ((List.Sublist.refl l₁).append (List.sublist_cons_self b l₂))).imp_of_mem ?_
        intro x y hx hy hxy
        have hxb : x ≠ b := fun he => hnot (he ▸ hx)
        have hyb : y ≠ b := fun he => hnot (he ▸ hy)
        simpa [update_of_ne hxb, update_of_ne hyb] using hxy
    · intro a ha
      by_cases he : a = b
      · subst a; simp
      · simp only [Bcache.setIo, Bcache.setBuf, update_of_ne he] at ha ⊢
        exact h.unused a ha
  · rename_i hpos
    refine ⟨h.ring, fun a => Nat.le_succ_of_le (h.clock a), ?_⟩
    intro a ha
    by_cases he : a = b
    · subst a
      simp only [Bcache.setIo, Bcache.setBuf, update_self] at ha
      exact absurd ha hpos
    · simp only [Bcache.setIo, Bcache.setBuf, update_of_ne he] at ha ⊢
      exact h.unused a ha

end LruInv

theorem Bcache.bget_ok {P : Type} [DecidableEq P] {c c' : Bcache P} {p : P} {dev k : Nat}
    {b : BufId} (h : c.bget p dev k = .ok (c', b)) :
    (c.findCached dev k = some b ∧
      c' = (c.setBuf b { c.buf b with refcnt := (c.buf b).refcnt + 1 }).setIo p (.acquiring b)) ∨
    (c.findCached dev k = none ∧ c.findUnused = some b ∧
      c' = (c.setBuf b { c.buf b with dev := dev, blockno := k, valid := false,
                                      refcnt := 1 }).setIo p (.acquiring b)) := by
  unfold Bcache.bget at h
  cases hf : c.findCached dev k with
  | some a =>
    simp only [hf, Except.ok.injEq, Prod.mk.injEq] at h
    obtain ⟨rfl, rfl⟩ := h
    exact .inl ⟨rfl, rfl⟩
  | none =>
    cases hu : c.findUnused with
    | some a =>
      simp only [hf, hu, Except.ok.injEq, Prod.mk.injEq] at h
      obtain ⟨rfl, rfl⟩ := h
      exact .inr ⟨rfl, rfl, rfl⟩
    | none => simp [hf, hu] at h

theorem Bcache.bpin_id {P : Type} {c : Bcache P} (b a : BufId) :
    ((c.bpin b).buf a).dev = (c.buf a).dev ∧ ((c.bpin b).buf a).blockno = (c.buf a).blockno := by
  by_cases he : a = b
  · subst a; simp [bpin, setBuf]
  · simp [bpin, setBuf, update_of_ne he]

theorem Bcache.bunpin_id {P : Type} {c : Bcache P} (b a : BufId) :
    ((c.bunpin b).buf a).dev = (c.buf a).dev ∧
      ((c.bunpin b).buf a).blockno = (c.buf a).blockno := by
  by_cases he : a = b
  · subst a; simp [bunpin, setBuf]
  · simp [bunpin, setBuf, update_of_ne he]

namespace RefInv

variable {P : Type} [Fintype P] {c c' : Bcache P} {pins pins' : List Nat} {b : BufId} {p : P}

theorem unlocked (h : RefInv c pins) (hb : (c.buf b).refcnt = 0) :
    (c.buf b).lock = none ∧ (∀ p, (c.io p).refs b = 0) ∧
      ¬ ((c.buf b).dev = ROOTDEV ∧ (c.buf b).blockno ∈ pins) := by
  have hh := h.refs b
  rw [hb] at hh
  refine ⟨?_, ?_, ?_⟩
  · cases hl : (c.buf b).lock with
    | none => rfl
    | some q =>
      simp only [hl, Option.isSome_some, if_true] at hh
      omega
  · intro p
    have hsum : ∑ q, (c.io q).refs b = 0 := by omega
    exact Finset.sum_eq_zero_iff.mp hsum p (Finset.mem_univ p)
  · intro hpin
    simp [hpin] at hh

theorem refcnt_pos_of_lock (h : RefInv c pins) (hl : (c.buf b).lock = some p) :
    0 < (c.buf b).refcnt := by
  by_contra hzero
  have hh := (h.unlocked (Nat.eq_zero_of_not_pos hzero)).1
  simp [hl] at hh

theorem refcnt_pos_of_io (h : RefInv c pins) (hio : (c.io p).refs b = 1) : 0 < (c.buf b).refcnt := by
  by_contra hzero
  have hh := (h.unlocked (Nat.eq_zero_of_not_pos hzero)).2.1 p
  omega

variable [DecidableEq P]

theorem update (h : RefInv c pins) {x : Buf P} {y : Io} (hbuf : c'.buf = update c.buf b x)
    (hio : c'.io = update c.io p y) (hdev : x.dev = (c.buf b).dev) (hno : x.blockno = (c.buf b).blockno)
    (hpos : (c.buf b).dev = ROOTDEV)
    (hcount : x.refcnt + (c.io p).refs b + (if (c.buf b).lock.isSome then 1 else 0) =
      (c.buf b).refcnt + y.refs b + (if x.lock.isSome then 1 else 0))
    (hother : ∀ a, a ≠ b → y.refs a = (c.io p).refs a) : RefInv c' pins := by
  have hid : ∀ a, (c'.buf a).dev = (c.buf a).dev ∧ (c'.buf a).blockno = (c.buf a).blockno := by
    intro a
    by_cases he : a = b
    · subst a; simp [hbuf, hdev, hno]
    · simp [hbuf, update_of_ne he]
  refine ⟨?_, ?_, ?_⟩
  · intro a ha
    rw [(hid a).1]
    by_cases he : a = b
    · subst a; exact hpos
    · rw [hbuf, update_of_ne he] at ha
      exact h.dev a ha
  · intro a a' h1 h2 h3
    rw [(hid a).1] at h1
    rw [(hid a').1] at h2
    rw [(hid a).2, (hid a').2] at h3
    exact h.uniq a a' h1 h2 h3
  · intro a
    have hsum := ActionRun.sum_update_add (Io.refs a) c.io p y
    have href := h.refs a
    rw [(hid a).1, (hid a).2, hio]
    by_cases he : a = b
    · subst a
      rw [hbuf, update_self]
      omega
    · have hoth := hother a he
      rw [hbuf, update_of_ne he]
      omega

theorem hit (h : RefInv c pins) (hp : c.io p = .idle) (hb : (c.buf b).dev = ROOTDEV) :
    RefInv ((c.setBuf b { c.buf b with refcnt := (c.buf b).refcnt + 1 }).setIo p
      (.acquiring b)) pins := by
  refine h.update rfl rfl rfl rfl hb ?_ ?_
  · simp [hp, Io.refs]
  · intro a ha
    simp [hp, Io.refs, ha.symm]

theorem recycle (h : RefInv c pins) {k : Nat} (hp : c.io p = .idle)
    (hk : ∀ a, ¬ ((c.buf a).dev = ROOTDEV ∧ (c.buf a).blockno = k)) (hkp : k ∉ pins)
    (hb : (c.buf b).refcnt = 0) :
    RefInv ((c.setBuf b { c.buf b with dev := ROOTDEV, blockno := k, valid := false,
                                       refcnt := 1 }).setIo p (.acquiring b)) pins := by
  obtain ⟨hlock, hrefs, _⟩ := h.unlocked hb
  refine ⟨?_, ?_, ?_⟩
  · intro a ha
    by_cases he : a = b
    · subst a; simp [Bcache.setIo, Bcache.setBuf]
    · simp only [Bcache.setIo, Bcache.setBuf, update_of_ne he] at ha ⊢
      exact h.dev a ha
  · intro a a' h1 h2 h3
    simp only [Bcache.setIo, Bcache.setBuf] at h1 h2 h3
    by_cases he : a = b <;> by_cases he' : a' = b
    · rw [he, he']
    · subst a
      rw [update_of_ne he'] at h2 h3
      exact absurd ⟨h2, h3.symm.trans (by simp)⟩ (hk a')
    · subst a'
      rw [update_of_ne he] at h1 h3
      exact absurd ⟨h1, h3.trans (by simp)⟩ (hk a)
    · rw [update_of_ne he] at h1 h3
      rw [update_of_ne he'] at h2 h3
      exact h.uniq a a' h1 h2 h3
  · intro a
    have hsum := ActionRun.sum_update_add (Io.refs a) c.io p (.acquiring b)
    have hidle : (c.io p).refs a = 0 := by simp [hp, Io.refs]
    have hacq : (Io.acquiring b).refs a = if b = a then 1 else 0 := rfl
    rw [hidle, Nat.add_zero, hacq] at hsum
    simp only [Bcache.setIo, Bcache.setBuf]
    rw [hsum]
    by_cases he : a = b
    · subst a
      rw [Finset.sum_eq_zero (fun q _ => hrefs q)]
      simp [hlock, hkp]
    · simpa only [update_of_ne he, if_neg (Ne.symm he), Nat.add_zero] using h.refs a

theorem acquire (h : RefInv c pins) (p : P) : RefInv (c.acquiresleep p) pins := by
  unfold Bcache.acquiresleep
  split
  swap
  · exact h
  rename_i b hio
  split
  swap
  · exact h
  rename_i hlock
  have hone : (c.io p).refs b = 1 := by simp [hio, Io.refs]
  refine h.update rfl rfl rfl rfl (h.dev b (h.refcnt_pos_of_io hone)) ?_ ?_
  · simp [hio, Io.refs, hlock]
  · intro a ha
    simp [hio, Io.refs, ha.symm]

theorem fill (h : RefInv c pins) (hf : ∀ b, c.io p = .filling b → (c.buf b).lock = some p) :
    RefInv (c.fill p) pins := by
  unfold Bcache.fill
  split
  swap
  · exact h
  rename_i b hio
  have hdev := h.dev b (h.refcnt_pos_of_lock (hf b hio))
  split
  · refine h.update (x := c.buf b) (update_eq_self b c.buf).symm rfl rfl rfl hdev ?_ ?_
    · simp [hio, Io.refs]
    · intro a _; simp [hio, Io.refs]
  · refine h.update rfl rfl rfl rfl hdev ?_ ?_
    · simp [hio, Io.refs]
    · intro a _; simp [hio, Io.refs]

theorem release (h : RefInv c pins) (hp : c.io p = .idle) (hr : c.releasesleep p b = .ok c') :
    RefInv c' pins := by
  unfold Bcache.releasesleep at hr
  split at hr
  swap
  · cases hr
  rename_i hlock
  cases hr
  refine h.update rfl rfl rfl rfl (h.dev b (h.refcnt_pos_of_lock hlock)) ?_ ?_
  · simp [hp, Io.refs, hlock]
  · intro a ha
    simp [hp, Io.refs, ha.symm]

theorem drop (h : RefInv c pins) (p : P) : RefInv (c.drop p) pins := by
  unfold Bcache.drop
  split
  swap
  · exact h
  rename_i b hio
  have hone : (c.io p).refs b = 1 := by simp [hio, Io.refs]
  have hpos := h.refcnt_pos_of_io hone
  have hcount : (c.buf b).refcnt - 1 + (c.io p).refs b = (c.buf b).refcnt + Io.idle.refs b := by
    have hidle : Io.idle.refs b = 0 := rfl
    omega
  have hother : ∀ a, a ≠ b → Io.idle.refs a = (c.io p).refs a := by
    intro a ha
    simp [hio, Io.refs, ha.symm]
  simp only
  split
  · exact h.update rfl rfl rfl rfl (h.dev b hpos) (by simpa using hcount) hother
  · exact h.update rfl rfl rfl rfl (h.dev b hpos) (by simpa using hcount) hother

omit [DecidableEq P] in
theorem pin (h : RefInv c pins) (hdev : (c.buf b).dev = ROOTDEV) (hnew : (c.buf b).blockno ∉ pins)
    (hpins : ∀ k, k ∈ pins' ↔ k ∈ pins ∨ k = (c.buf b).blockno) : RefInv (c.bpin b) pins' := by
  refine ⟨?_, ?_, ?_⟩
  · intro a ha
    by_cases he : a = b
    · subst a; simpa [Bcache.bpin, Bcache.setBuf] using hdev
    · simp only [Bcache.bpin, Bcache.setBuf, update_of_ne he] at ha ⊢
      exact h.dev a ha
  · intro a a' h1 h2 h3
    refine h.uniq a a' ?_ ?_ ?_
    · rwa [(Bcache.bpin_id b a).1] at h1
    · rwa [(Bcache.bpin_id b a').1] at h2
    · rwa [(Bcache.bpin_id b a).2, (Bcache.bpin_id b a').2] at h3
  · intro a
    have href := h.refs a
    by_cases he : a = b
    · subst a
      have hmem : (c.buf b).blockno ∈ pins' := (hpins _).mpr (.inr rfl)
      simp only [Bcache.bpin, Bcache.setBuf, update_self, hdev, hmem, hnew, and_false,
        and_true, if_true, if_false] at href ⊢
      omega
    · have hiff : ((c.buf a).dev = ROOTDEV ∧ (c.buf a).blockno ∈ pins') ↔
          ((c.buf a).dev = ROOTDEV ∧ (c.buf a).blockno ∈ pins) := by
        refine and_congr_right fun hd => ?_
        rw [hpins]
        exact or_iff_left fun hk => he (h.uniq a b hd hdev hk)
      simpa only [Bcache.bpin, Bcache.setBuf, update_of_ne he, hiff] using href

omit [DecidableEq P] in
theorem unpin (h : RefInv c pins) (hdev : (c.buf b).dev = ROOTDEV) (hold : (c.buf b).blockno ∉ pins')
    (hpins : ∀ k, k ∈ pins ↔ k ∈ pins' ∨ k = (c.buf b).blockno) : RefInv (c.bunpin b) pins' := by
  refine ⟨?_, ?_, ?_⟩
  · intro a ha
    by_cases he : a = b
    · subst a; simpa [Bcache.bunpin, Bcache.setBuf] using hdev
    · simp only [Bcache.bunpin, Bcache.setBuf, update_of_ne he] at ha ⊢
      exact h.dev a ha
  · intro a a' h1 h2 h3
    refine h.uniq a a' ?_ ?_ ?_
    · rwa [(Bcache.bunpin_id b a).1] at h1
    · rwa [(Bcache.bunpin_id b a').1] at h2
    · rwa [(Bcache.bunpin_id b a).2, (Bcache.bunpin_id b a').2] at h3
  · intro a
    have href := h.refs a
    by_cases he : a = b
    · subst a
      have hmem : (c.buf b).blockno ∈ pins := (hpins _).mpr (.inr rfl)
      simp only [Bcache.bunpin, Bcache.setBuf, update_self, hdev, hmem, hold, and_false,
        and_true, if_true, if_false] at href ⊢
      omega
    · have hiff : ((c.buf a).dev = ROOTDEV ∧ (c.buf a).blockno ∈ pins) ↔
          ((c.buf a).dev = ROOTDEV ∧ (c.buf a).blockno ∈ pins') := by
        refine and_congr_right fun hd => ?_
        rw [hpins]
        exact or_iff_left fun hk => he (h.uniq a b hd hdev hk)
      simpa only [Bcache.bunpin, Bcache.setBuf, update_of_ne he, hiff] using href

end RefInv

end Xv6
