import Xv6.BcacheCommit

/-! What the steps of one process leave to the others: the buffers they own. -/

namespace Xv6

open Function

namespace Bcache

variable {P : Type} [DecidableEq P] {c c' : Bcache P} {p r : P} {a b : BufId} {j k : Nat}

omit [DecidableEq P] in
theorem Owns.of_eq (ho : c.Owns r a j) (hdev : (c'.buf a).dev = (c.buf a).dev)
    (hno : (c'.buf a).blockno = (c.buf a).blockno)
    (hlock : (c.buf a).lock = some r → (c'.buf a).lock = some r)
    (hio : c.io r = .acquiring a → c'.io r = .acquiring a ∨ (c'.buf a).lock = some r) :
    c'.Owns r a j := by
  obtain ⟨h1, h2, h3⟩ := ho
  refine ⟨hdev.trans h1, hno.trans h2, ?_⟩
  rcases h3 with h3 | h3
  · exact hio h3
  · exact .inr (hlock h3)

theorem bget_owns (h : LruInv c) (hg : c.bget p ROOTDEV k = .ok (c', b)) : c'.Owns p b k := by
  rcases bget_ok hg with ⟨hf, rfl⟩ | ⟨_, _, rfl⟩
  · obtain ⟨hd, hno⟩ := h.findCached_some hf
    exact ⟨by simpa [setIo, setBuf] using hd, by simpa [setIo, setBuf] using hno,
      .inl (by simp [setIo])⟩
  · exact ⟨by simp [setIo, setBuf], by simp [setIo, setBuf], .inl (by simp [setIo])⟩

theorem bget_keeps (h : LruInv c) (hg : c.bget p ROOTDEV k = .ok (c', b))
    (ha : 0 < (c.buf a).refcnt) : (c'.buf a).dev = (c.buf a).dev ∧
      (c'.buf a).blockno = (c.buf a).blockno ∧ (c'.buf a).lock = (c.buf a).lock := by
  by_cases he : a = b
  · subst a
    rcases bget_ok hg with ⟨_, rfl⟩ | ⟨_, hu, rfl⟩
    · simp [setIo, setBuf]
    · have hz := (h.findUnused_some hu).1
      omega
  · rcases bget_ok hg with ⟨_, rfl⟩ | ⟨_, _, rfl⟩
    · simp [setIo, setBuf, update_of_ne he]
    · simp [setIo, setBuf, update_of_ne he]

theorem bget_io (hg : c.bget p ROOTDEV k = .ok (c', b)) :
    c'.io = update c.io p (.acquiring b) ∧ c'.latest = c.latest ∧ c'.disk = c.disk := by
  rcases bget_ok hg with ⟨_, rfl⟩ | ⟨_, _, rfl⟩ <;> exact ⟨rfl, rfl, rfl⟩

theorem Owns.bget (ho : c.Owns r a j) (h : LruInv c) (hpos : 0 < (c.buf a).refcnt)
    (hp : c.io p = .idle) (hg : c.bget p ROOTDEV k = .ok (c', b)) : c'.Owns r a j := by
  obtain ⟨hdev, hno, hlock⟩ := bget_keeps h hg hpos
  refine ho.of_eq hdev hno (fun hl => hlock.trans hl) fun hio => .inl ?_
  have he : r ≠ p := by
    rintro rfl
    rw [hp] at hio
    cases hio
  rw [(bget_io hg).1, update_of_ne he, hio]

theorem Owns.acquire (ho : c.Owns r a j) (p : P) : (c.acquiresleep p).Owns r a j := by
  unfold Bcache.acquiresleep
  split
  swap
  · exact ho
  rename_i b hio
  split
  swap
  · exact ho
  rename_i hlock
  by_cases he : a = b
  · subst a
    refine ho.of_eq (by simp [setIo, setBuf]) (by simp [setIo, setBuf]) ?_ ?_
    · intro hl; simp [hlock] at hl
    · intro hr
      by_cases hrp : r = p
      · subst r; exact .inr (by simp [setIo, setBuf])
      · exact .inl (by simpa [setIo, setBuf, update_of_ne hrp] using hr)
  · refine ho.of_eq (by simp [setIo, setBuf, update_of_ne he])
      (by simp [setIo, setBuf, update_of_ne he])
      (fun hl => by simpa [setIo, setBuf, update_of_ne he] using hl) fun hr => .inl ?_
    have hrp : r ≠ p := by
      rintro rfl
      rw [hio, Io.acquiring.injEq] at hr
      exact he hr.symm
    simpa [setIo, setBuf, update_of_ne hrp] using hr

theorem fill_keeps (c : Bcache P) (p : P) (a : BufId) :
    ((c.fill p).buf a).dev = (c.buf a).dev ∧ ((c.fill p).buf a).blockno = (c.buf a).blockno ∧
      ((c.fill p).buf a).lock = (c.buf a).lock := by
  unfold Bcache.fill
  split
  · rename_i b _
    split
    · simp [setIo]
    · by_cases he : a = b
      · subst a; simp [setIo, setBuf]
      · simp [setIo, setBuf, update_of_ne he]
  · simp

theorem drop_keeps (c : Bcache P) (p : P) (a : BufId) :
    ((c.drop p).buf a).dev = (c.buf a).dev ∧ ((c.drop p).buf a).blockno = (c.buf a).blockno ∧
      ((c.drop p).buf a).lock = (c.buf a).lock := by
  unfold Bcache.drop
  split
  · rename_i b _
    by_cases he : a = b
    · subst a
      simp only
      split <;> simp [setIo, setBuf]
    · simp only
      split <;> simp [setIo, setBuf, update_of_ne he]
  · simp

theorem Owns.fill (ho : c.Owns r a j) (p : P) : (c.fill p).Owns r a j := by
  obtain ⟨hdev, hno, hlock⟩ := fill_keeps c p a
  refine ho.of_eq hdev hno (fun hl => hlock.trans hl) fun hr => .inl ?_
  unfold Bcache.fill
  split
  · rename_i b hio
    have hrp : r ≠ p := by
      rintro rfl
      rw [hio] at hr
      cases hr
    split <;> simpa [setIo, setBuf, update_of_ne hrp] using hr
  · exact hr

theorem Owns.drop (ho : c.Owns r a j) (p : P) : (c.drop p).Owns r a j := by
  obtain ⟨hdev, hno, hlock⟩ := drop_keeps c p a
  refine ho.of_eq hdev hno (fun hl => hlock.trans hl) fun hr => .inl ?_
  unfold Bcache.drop
  split
  · rename_i b hio
    have hrp : r ≠ p := by
      rintro rfl
      rw [hio] at hr
      cases hr
    simp only
    split <;> simpa [setIo, setBuf, update_of_ne hrp] using hr
  · exact hr

theorem releasesleep_ok (hr : c.releasesleep p b = .ok c') : (c.buf b).lock = some p ∧
    c' = { (c.setBuf b { c.buf b with lock := none }).setIo p (.dropping b) with
      left := update c.left (c.buf b).blockno (c.buf b).data } := by
  unfold Bcache.releasesleep at hr
  split at hr
  · rename_i hl
    cases hr
    exact ⟨hl, rfl⟩
  · cases hr

theorem Owns.release (ho : c.Owns r a j) (hp : c.io p = .idle) (hra : r ≠ p ∨ a ≠ b)
    (hr : c.releasesleep p b = .ok c') : c'.Owns r a j := by
  obtain ⟨hlock, rfl⟩ := releasesleep_ok hr
  have hio : c.io r = .acquiring a → r ≠ p := by
    rintro hh rfl
    rw [hp] at hh
    cases hh
  by_cases he : a = b
  · subst a
    refine ho.of_eq (by simp [setIo, setBuf]) (by simp [setIo, setBuf]) ?_ ?_
    · intro hl
      rw [hlock, Option.some.injEq] at hl
      rcases hra with hra | hra
      · exact absurd hl.symm hra
      · exact absurd rfl hra
    · intro hh
      exact .inl (by simpa [setIo, setBuf, update_of_ne (hio hh)] using hh)
  · refine ho.of_eq (by simp [setIo, setBuf, update_of_ne he])
      (by simp [setIo, setBuf, update_of_ne he])
      (fun hl => by simpa [setIo, setBuf, update_of_ne he] using hl) ?_
    intro hh
    exact .inl (by simpa [setIo, setBuf, update_of_ne (hio hh)] using hh)

omit [DecidableEq P] in
theorem Owns.setBuf (ho : c.Owns r a j) (b : BufId) (x : Buf P) (hdev : x.dev = (c.buf b).dev)
    (hno : x.blockno = (c.buf b).blockno) (hlock : x.lock = (c.buf b).lock) :
    (c.setBuf b x).Owns r a j := by
  by_cases he : a = b
  · subst a
    exact ho.of_eq (by simpa [Bcache.setBuf] using hdev) (by simpa [Bcache.setBuf] using hno)
      (fun hl => by simpa [Bcache.setBuf, hlock] using hl) .inl
  · exact ho.of_eq (by simp [Bcache.setBuf, update_of_ne he])
      (by simp [Bcache.setBuf, update_of_ne he])
      (fun hl => by simpa [Bcache.setBuf, update_of_ne he] using hl) .inl

end Bcache

theorem CommitInv.frame {P : Type} {c c' : Bcache P} {l : Log} {p : P} {x : CommitPc}
    (h : CommitInv c l p x) (ho : ∀ b k, c.Owns p b k → c'.Owns p b k)
    (hl : c'.latest = c.latest) (hd : c'.disk = c.disk) : CommitInv c' l p x := by
  have hc : ∀ m, Copied c l m → Copied c' l m := by
    intro m hm
    simpa only [Copied, hl] using hm
  cases x with
  | commit => trivial
  | finish => exact h
  | logTo t => exact ⟨h.1, hc _ h.2⟩
  | instLog t => exact ⟨h.1, hc _ h.2⟩
  | logFrom t dst => exact ⟨h.1, hc _ h.2.1, ho _ _ h.2.2⟩
  | logDropTo t dst => exact ⟨h.1, hc _ h.2.1, ho _ _ h.2.2⟩
  | instDst t dst => exact ⟨h.1, hc _ h.2.1, ho _ _ h.2.2⟩
  | instDropDst t dst => exact ⟨h.1, hc _ h.2.1, ho _ _ h.2.2⟩
  | instUnpin t lbuf dbuf =>
    obtain ⟨h1, h2, h3, h4, h5⟩ := h
    exact ⟨h1, hc _ h2, ho _ _ h3, ho _ _ h4, by rw [hd, hl]; exact h5⟩
  | headRead clear =>
    cases clear with
    | true => exact h
    | false => exact hc _ h
  | headEdit clear hb | headWrite clear hb | headDrop clear hb =>
    refine ⟨?_, ho _ _ h.2⟩
    cases clear with
    | true => exact h.1
    | false => exact hc _ h.1
  | _ => exact ⟨h.1, hc _ h.2.1, ho _ _ h.2.2.1, ho _ _ h.2.2.2⟩

end Xv6
