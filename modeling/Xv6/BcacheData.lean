import Xv6.BcacheInv

/-! What each step of the buffer cache does to the contents of the blocks. -/

namespace Xv6

open Function

namespace DataInv

variable {P : Type} {c c' : Bcache P} {pins pins' : List Nat} {mod mod' : P → BufId → Prop} {b : BufId}
  {p : P}

theorem mod_congr (h : DataInv c pins mod) (hm : ∀ p b, mod' p b ↔ mod p b) :
    DataInv c pins mod' := by
  have he : mod' = mod := by
    funext p b
    exact propext (hm p b)
  rw [he]
  exact h

/-- Whoever holds a filled buffer goes on holding it, and it is on the same block. -/
theorem of_kept (h : DataInv c pins mod)
    (hfilling : ∀ q a, c'.io q = .filling a → (c'.buf a).lock = some q)
    (hheld : ∀ q a, (c'.buf a).lock = some q → c'.io q ≠ .filling a → (c'.buf a).valid = true)
    (hdata : ∀ a, (c'.buf a).dev = ROOTDEV → (c'.buf a).valid = true →
      (c'.buf a).data = c.latest (c'.buf a).blockno)
    (hpinned : ∀ k ∈ pins, ∃ a, (c'.buf a).dev = ROOTDEV ∧ (c'.buf a).blockno = k ∧
      (c'.buf a).valid = true)
    (hkept : ∀ q a, (c.buf a).lock = some q → c.io q ≠ .filling a → (c'.buf a).lock = some q ∧
      c'.io q ≠ .filling a ∧ (c'.buf a).blockno = (c.buf a).blockno)
    (hd : c'.disk = c.disk) (hl : c'.latest = c.latest) (hleft : c'.left = c.left) :
    DataInv c' pins mod := by
  refine ⟨hfilling, hheld, hl ▸ hdata, hpinned, fun q a hm => ?_, fun k => ?_, fun k => ?_⟩
  · obtain ⟨h1, h2, -⟩ := hkept q a (h.mods q a hm).1 (h.mods q a hm).2
    exact ⟨h1, h2⟩
  · rw [hd, hl]
    refine (h.clean k).imp_right (Or.imp_right ?_)
    rintro ⟨q, a, hm, rfl⟩
    exact ⟨q, a, hm, (hkept q a (h.mods q a hm).1 (h.mods q a hm).2).2.2⟩
  · rw [hleft, hl]
    refine (h.left k).imp_right ?_
    rintro ⟨q, a, h1, h2, rfl⟩
    obtain ⟨h1', h2', hk⟩ := hkept q a h1 h2
    exact ⟨q, a, h1', h2', hk⟩

theorem congr (h : DataInv c pins mod)
    (hbuf : ∀ b, ∃ n, c'.buf b = { c.buf b with refcnt := n })
    (hio : ∀ p b, c'.io p = .filling b ↔ c.io p = .filling b)
    (hd : c'.disk = c.disk) (hl : c'.latest = c.latest) (hleft : c'.left = c.left) :
    DataInv c' pins mod := by
  have hb : ∀ b, (c'.buf b).valid = (c.buf b).valid ∧ (c'.buf b).dev = (c.buf b).dev ∧
      (c'.buf b).blockno = (c.buf b).blockno ∧ (c'.buf b).lock = (c.buf b).lock ∧
      (c'.buf b).data = (c.buf b).data := by
    intro b
    obtain ⟨n, hn⟩ := hbuf b
    simp [hn]
  refine h.of_kept ?_ ?_ ?_ ?_ ?_ hd hl hleft
  all_goals simp only [ne_eq, hio, hb]
  · exact h.filling
  · exact h.held
  · exact h.data
  · exact h.pinned
  · exact fun q a h1 h2 => ⟨h1, h2, trivial⟩

theorem pin (h : DataInv c pins mod) (hdev : (c.buf b).dev = ROOTDEV) (hlock : (c.buf b).lock = some p)
    (hio : c.io p ≠ .filling b) (hpins : ∀ k, k ∈ pins' ↔ k ∈ pins ∨ k = (c.buf b).blockno)
    (hmod : ∀ q a, mod' q a ↔ mod q a ∧ ¬ (q = p ∧ a = b)) : DataInv c pins' mod' := by
  refine ⟨h.filling, h.held, h.data, ?_, ?_, ?_, h.left⟩
  · intro k hk
    rcases (hpins k).mp hk with hk | rfl
    · exact h.pinned k hk
    · exact ⟨b, hdev, rfl, h.held p b hlock hio⟩
  · intro q a hm
    exact h.mods q a ((hmod q a).mp hm).1
  · intro k
    rcases h.clean k with hc | hc | ⟨q, a, hm, hk⟩
    · exact .inl hc
    · exact .inr (.inl ((hpins k).mpr (.inl hc)))
    · by_cases he : q = p ∧ a = b
      · exact .inr (.inl ((hpins k).mpr (.inr (by rw [← hk, he.2]))))
      · exact .inr (.inr ⟨q, a, (hmod q a).mpr ⟨hm, he⟩, hk⟩)

theorem unpin (h : DataInv c pins mod) {j : Nat} (hj : c.disk j = c.latest j)
    (hpins : ∀ k, k ∈ pins ↔ k ∈ pins' ∨ k = j) : DataInv c pins' mod := by
  refine ⟨h.filling, h.held, h.data, ?_, h.mods, ?_, h.left⟩
  · intro k hk
    exact h.pinned k ((hpins k).mpr (.inl hk))
  · intro k
    rcases h.clean k with hc | hc | hc
    · exact .inl hc
    · rcases (hpins k).mp hc with hk | rfl
      · exact .inr (.inl hk)
      · exact .inl hj
    · exact .inr (.inr hc)

variable [DecidableEq P]

theorem recycle [Fintype P] (h : DataInv c pins mod) (href : RefInv c pins) {k : Nat}
    (hp : c.io p = .idle) (hb : (c.buf b).refcnt = 0) :
    DataInv ((c.setBuf b { c.buf b with dev := ROOTDEV, blockno := k, valid := false,
                                        refcnt := 1 }).setIo p (.acquiring b)) pins mod := by
  obtain ⟨hlock, _, hpin⟩ := href.unlocked hb
  have hfill : ∀ q a, update c.io p (.acquiring b) q = .filling a ↔
      c.io q = .filling a := by
    intro q a
    by_cases he : q = p
    · subst q; simp [hp]
    · rw [update_of_ne he]
  have hne : ∀ q a, (c.buf a).lock = some q → a ≠ b := by
    rintro q a ha rfl
    simp [hlock] at ha
  simp only [Bcache.setIo, Bcache.setBuf]
  refine h.of_kept ?_ ?_ ?_ ?_ ?_ rfl rfl rfl
  · intro q a ha
    have hl := h.filling q a ((hfill q a).mp ha)
    simpa [update_of_ne (hne q a hl)] using hl
  · intro q a hl hio
    by_cases he : a = b
    · subst a; simp [hlock] at hl
    · simp only [update_of_ne he] at hl ⊢
      exact h.held q a hl fun hh => hio ((hfill q a).mpr hh)
  · intro a hd hv
    by_cases he : a = b
    · subst a; simp at hv
    · simp only [update_of_ne he] at hd hv ⊢
      exact h.data a hd hv
  · intro j hj
    obtain ⟨a, hd, hno, hv⟩ := h.pinned j hj
    have he : a ≠ b := by
      rintro rfl
      exact hpin ⟨hd, hno ▸ hj⟩
    exact ⟨a, by simpa [update_of_ne he] using ⟨hd, hno, hv⟩⟩
  · intro q a hl hio
    simp only [update_of_ne (hne q a hl)]
    exact ⟨hl, fun hh => hio ((hfill q a).mp hh), trivial⟩

theorem acquire (h : DataInv c pins mod) (p : P) : DataInv (c.acquiresleep p) pins mod := by
  unfold Bcache.acquiresleep
  split
  swap
  · exact h
  rename_i b hio
  split
  swap
  · exact h
  rename_i hlock
  have hne : ∀ q a, (c.buf a).lock = some q → a ≠ b := by
    rintro q a ha rfl
    simp [hlock] at ha
  simp only [Bcache.setIo, Bcache.setBuf]
  refine h.of_kept ?_ ?_ ?_ ?_ ?_ rfl rfl rfl
  · intro q a ha
    by_cases hq : q = p
    · subst q
      simp only [update_self, Io.filling.injEq] at ha
      simp [ha]
    · simp only [update_of_ne hq] at ha
      have hl := h.filling q a ha
      simpa [update_of_ne (hne q a hl)] using hl
  · intro q a hl hq
    by_cases he : a = b
    · subst a
      simp only [update_self, Option.some.injEq] at hl
      subst q
      simp at hq
    · simp only [update_of_ne he] at hl ⊢
      refine h.held q a hl fun hh => ?_
      by_cases hqp : q = p
      · subst q; simp [hio] at hh
      · exact hq (by simpa [update_of_ne hqp] using hh)
  · intro a hd hv
    by_cases he : a = b
    · subst a
      simp only [update_self] at hd hv ⊢
      exact h.data _ hd hv
    · simp only [update_of_ne he] at hd hv ⊢
      exact h.data a hd hv
  · intro k hk
    obtain ⟨a, ha⟩ := h.pinned k hk
    refine ⟨a, ?_⟩
    by_cases he : a = b
    · subst a; simpa using ha
    · simpa [update_of_ne he] using ha
  · intro q a hl hq
    simp only [update_of_ne (hne q a hl)]
    refine ⟨hl, ?_, trivial⟩
    by_cases he : q = p
    · subst q; simpa using (hne p a hl).symm
    · rwa [update_of_ne he]

theorem fill_eq [Fintype P] (h : DataInv c pins mod) (href : RefInv c pins)
    (hio : c.io p = .filling b) :
    c.fill p = (c.setBuf b { c.buf b with data := c.latest (c.buf b).blockno,
                                          valid := true }).setIo p .idle := by
  have hlock := h.filling p b hio
  have hdev := href.dev b (href.refcnt_pos_of_lock hlock)
  cases hv : (c.buf b).valid with
  | true =>
    have hself : c.setBuf b { c.buf b with data := c.latest (c.buf b).blockno, valid := true } =
        c := by
      rw [← h.data b hdev hv, ← hv, Bcache.setBuf, update_eq_self]
    simp [Bcache.fill, hio, hv, hself]
  | false =>
    have hdisk : c.disk (c.buf b).blockno = c.latest (c.buf b).blockno := by
      rcases h.clean (c.buf b).blockno with hc | hc | ⟨q, a, hm, hk⟩
      · exact hc
      · obtain ⟨a, ha, hk, hva⟩ := h.pinned _ hc
        rw [href.uniq a b ha hdev hk, hv] at hva
        cases hva
      · obtain ⟨hl, hq⟩ := h.mods q a hm
        have hab := href.uniq a b (href.dev a (href.refcnt_pos_of_lock hl)) hdev hk
        rw [hab, hlock, Option.some.injEq] at hl
        rw [hab, ← hl] at hq
        exact absurd hio hq
    simp [Bcache.fill, hio, hv, hdisk]

theorem fill [Fintype P] (h : DataInv c pins mod) (href : RefInv c pins) (p : P) :
    DataInv (c.fill p) pins mod := by
  cases hio : c.io p with
  | filling b =>
    have hfill : ∀ q a, update c.io p .idle q = .filling a → c.io q = .filling a := by
      intro q a ha
      by_cases he : q = p
      · subst q; simp at ha
      · rwa [update_of_ne he] at ha
    have hbuf : ∀ a, ∃ d v, update c.buf b
        { c.buf b with data := c.latest (c.buf b).blockno, valid := true } a =
          { c.buf a with data := d, valid := v } ∧ ((c.buf a).valid = true → v = true) := by
      intro a
      by_cases he : a = b
      · subst a; exact ⟨_, _, update_self b _ c.buf, fun _ => rfl⟩
      · exact ⟨_, _, update_of_ne he _ c.buf, id⟩
    rw [h.fill_eq href hio]
    simp only [Bcache.setIo, Bcache.setBuf]
    refine h.of_kept ?_ ?_ ?_ ?_ ?_ rfl rfl rfl
    · intro q a ha
      obtain ⟨d, v, hd, _⟩ := hbuf a
      simpa [hd] using h.filling q a (hfill q a ha)
    · intro q a hl hq
      by_cases he : a = b
      · subst a; simp
      · simp only [update_of_ne he] at hl ⊢
        refine h.held q a hl fun hh => ?_
        by_cases hqp : q = p
        · subst q
          rw [hio, Io.filling.injEq] at hh
          exact he hh.symm
        · exact hq (by simpa [update_of_ne hqp] using hh)
    · intro a hd hv
      by_cases he : a = b
      · subst a; simp
      · simp only [update_of_ne he] at hd hv ⊢
        exact h.data a hd hv
    · intro k hk
      obtain ⟨a, ha, hno, hv⟩ := h.pinned k hk
      obtain ⟨d, v, hd, hvv⟩ := hbuf a
      exact ⟨a, by simpa [hd] using ⟨ha, hno, hvv hv⟩⟩
    · intro q a hl hq
      obtain ⟨d, v, hd, _⟩ := hbuf a
      simp only [hd]
      exact ⟨hl, fun hh => hq (hfill q a hh), trivial⟩
  | _ => simpa [Bcache.fill, hio] using h

omit [DecidableEq P] in
theorem fill_left [Fintype P] (h : DataInv c pins mod) (href : RefInv c pins)
    (hio : c.io p = .filling b) : c.left (c.buf b).blockno = c.latest (c.buf b).blockno := by
  have hlock := h.filling p b hio
  have hdev := href.dev b (href.refcnt_pos_of_lock hlock)
  rcases h.left (c.buf b).blockno with hc | ⟨q, a, hl, hq, hk⟩
  · exact hc
  · have hab := href.uniq a b (href.dev a (href.refcnt_pos_of_lock hl)) hdev hk
    rw [hab, hlock, Option.some.injEq] at hl
    rw [hab, ← hl] at hq
    exact absurd hio hq

theorem release (h : DataInv c pins mod) (hp : c.io p = .idle) (hdev : (c.buf b).dev = ROOTDEV)
    (hmod : ¬ mod p b) (hr : c.releasesleep p b = .ok c') : DataInv c' pins mod := by
  unfold Bcache.releasesleep at hr
  split at hr
  swap
  · cases hr
  rename_i hlock
  cases hr
  have hdata := h.data b hdev (h.held p b hlock (by simp [hp]))
  have hfill : ∀ q a, update c.io p (.dropping b) q = .filling a ↔
      c.io q = .filling a := by
    intro q a
    by_cases he : q = p
    · subst q; simp [hp]
    · rw [update_of_ne he]
  have hne : ∀ q a, mod q a → a ≠ b := by
    rintro q a hm rfl
    have hl := (h.mods q a hm).1
    rw [hlock, Option.some.injEq] at hl
    exact hmod (hl ▸ hm)
  have hbuf : ∀ a, ∃ l, update c.buf b { c.buf b with lock := none } a =
      { c.buf a with lock := l } ∧ (a ≠ b → l = (c.buf a).lock) ∧ (a = b → l = none) := by
    intro a
    by_cases he : a = b
    · subst a
      exact ⟨_, update_self b _ c.buf, fun hh => absurd rfl hh, fun _ => rfl⟩
    · exact ⟨_, update_of_ne he _ c.buf, fun _ => rfl, fun hh => absurd hh he⟩
  simp only [Bcache.setIo, Bcache.setBuf]
  refine ⟨?_, ?_, ?_, ?_, ?_, ?_, ?_⟩
  · intro q a ha
    have hq := (hfill q a).mp ha
    have hl := h.filling q a hq
    have he : a ≠ b := by
      rintro rfl
      rw [hlock, Option.some.injEq] at hl
      rw [← hl, hp] at hq
      cases hq
    simpa [update_of_ne he] using hl
  · intro q a hl hq
    obtain ⟨l, hb, hne', heq⟩ := hbuf a
    simp only [hb] at hl ⊢
    by_cases he : a = b
    · rw [heq he] at hl; cases hl
    · rw [hne' he] at hl
      exact h.held q a hl fun hh => hq ((hfill q a).mpr hh)
  · intro a hd hv
    obtain ⟨l, hb, _⟩ := hbuf a
    simp only [hb] at hd hv ⊢
    exact h.data a hd hv
  · intro k hk
    obtain ⟨a, ha⟩ := h.pinned k hk
    obtain ⟨l, hb, _⟩ := hbuf a
    exact ⟨a, by simpa [hb] using ha⟩
  · intro q a hm
    obtain ⟨hl, hq⟩ := h.mods q a hm
    exact ⟨by simpa [update_of_ne (hne q a hm)] using hl, fun hh => hq ((hfill q a).mp hh)⟩
  · intro k
    rcases h.clean k with hc | hc | ⟨q, a, hm, hk⟩
    · exact .inl hc
    · exact .inr (.inl hc)
    · exact .inr (.inr ⟨q, a, hm, by simpa [update_of_ne (hne q a hm)] using hk⟩)
  · intro k
    by_cases hkb : k = (c.buf b).blockno
    · subst k
      exact .inl (by simpa using hdata)
    · simp only [update_of_ne hkb]
      rcases h.left k with hc | ⟨q, a, hl, hq, hk⟩
      · exact .inl hc
      · have he : a ≠ b := by rintro rfl; exact hkb hk.symm
        exact .inr ⟨q, a, by simpa [update_of_ne he] using hl,
          fun hh => hq ((hfill q a).mp hh), by simpa [update_of_ne he] using hk⟩

omit [DecidableEq P] in
theorem store [Fintype P] (h : DataInv c pins mod) (href : RefInv c pins) (data : Buffer)
    (hlock : (c.buf b).lock = some p) (hp : c.io p ≠ .filling b)
    (hmod : ∀ q a, mod' q a ↔ mod q a ∨ q = p ∧ a = b) : DataInv (c.store b data) pins mod' := by
  have hdev := href.dev b (href.refcnt_pos_of_lock hlock)
  have hbuf : ∀ a, ∃ d, update c.buf b { c.buf b with data := data } a =
      { c.buf a with data := d } ∧ (a ≠ b → d = (c.buf a).data) ∧ (a = b → d = data) := by
    intro a
    by_cases he : a = b
    · subst a
      exact ⟨_, update_self b _ c.buf, fun hh => absurd rfl hh, fun _ => rfl⟩
    · exact ⟨_, update_of_ne he _ c.buf, fun _ => rfl, fun hh => absurd hh he⟩
  simp only [Bcache.store, Bcache.setBuf]
  refine ⟨?_, ?_, ?_, ?_, ?_, ?_, ?_⟩
  · intro q a ha
    obtain ⟨d, hb, _⟩ := hbuf a
    simpa [hb] using h.filling q a ha
  · intro q a hl hq
    obtain ⟨d, hb, _⟩ := hbuf a
    simp only [hb] at hl ⊢
    exact h.held q a hl hq
  · intro a hd hv
    obtain ⟨d, hb, hne, heq⟩ := hbuf a
    simp only [hb] at hd hv ⊢
    by_cases he : a = b
    · subst a; simp [heq rfl]
    · have hk : (c.buf a).blockno ≠ (c.buf b).blockno := fun hh => he (href.uniq a b hd hdev hh)
      rw [hne he, update_of_ne hk]
      exact h.data a hd hv
  · intro k hk
    obtain ⟨a, ha⟩ := h.pinned k hk
    obtain ⟨d, hb, _⟩ := hbuf a
    exact ⟨a, by simpa [hb] using ha⟩
  · intro q a hm
    obtain ⟨d, hb, _⟩ := hbuf a
    simp only [hb]
    rcases (hmod q a).mp hm with hm | ⟨rfl, rfl⟩
    · exact h.mods q a hm
    · exact ⟨hlock, hp⟩
  · intro k
    by_cases hkb : k = (c.buf b).blockno
    · obtain ⟨d, hb, _⟩ := hbuf b
      exact .inr (.inr ⟨p, b, (hmod p b).mpr (.inr ⟨rfl, rfl⟩), by simp [hkb]⟩)
    · simp only [update_of_ne hkb]
      rcases h.clean k with hc | hc | ⟨q, a, hm, hk⟩
      · exact .inl hc
      · exact .inr (.inl hc)
      · obtain ⟨d, hb, _⟩ := hbuf a
        exact .inr (.inr ⟨q, a, (hmod q a).mpr (.inl hm), by simpa [hb] using hk⟩)
  · intro k
    by_cases hkb : k = (c.buf b).blockno
    · exact .inr ⟨p, b, by simpa using hlock, hp, by simp [hkb]⟩
    · simp only [update_of_ne hkb]
      rcases h.left k with hc | ⟨q, a, hl, hq, hk⟩
      · exact .inl hc
      · obtain ⟨d, hb, _⟩ := hbuf a
        exact .inr ⟨q, a, by simpa [hb] using hl, hq, by simpa [hb] using hk⟩

theorem bwrite (h : DataInv c pins mod) (hp : c.io p = .idle) (hdev : (c.buf b).dev = ROOTDEV)
    (hw : c.bwrite p b = .ok c') (hmod : ∀ q a, mod' q a ↔ mod q a ∧ ¬ (q = p ∧ a = b)) :
    DataInv c' pins mod' := by
  unfold Bcache.bwrite at hw
  split at hw
  swap
  · cases hw
  rename_i hlock
  cases hw
  have hdata := h.data b hdev (h.held p b hlock (by simp [hp]))
  refine ⟨h.filling, h.held, h.data, h.pinned, ?_, ?_, h.left⟩
  · intro q a hm
    exact h.mods q a ((hmod q a).mp hm).1
  · intro k
    by_cases hkb : k = (c.buf b).blockno
    · subst k
      exact .inl (by simpa using hdata)
    · simp only [update_of_ne hkb]
      rcases h.clean k with hc | hc | ⟨q, a, hm, hk⟩
      · exact .inl hc
      · exact .inr (.inl hc)
      · have he : ¬ (q = p ∧ a = b) := by
          rintro ⟨_, rfl⟩
          exact hkb hk.symm
        exact .inr (.inr ⟨q, a, (hmod q a).mpr ⟨hm, he⟩, hk⟩)

end DataInv

end Xv6
