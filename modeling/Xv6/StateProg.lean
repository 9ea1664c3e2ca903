import Mathlib.Logic.Basic

/-! Programs that change a state and may stop with an error. `Wp m Q s` says that `m`
started in `s` returns, without an error, a result and a state that satisfy `Q`. -/

namespace StateProg

abbrev Prog (σ ε : Type) := StateT σ (Except ε)

variable {σ ε α β : Type} {m : Prog σ ε α} {f : α → Prog σ ε β} {body : Nat → Prog σ ε (Option β)}
  {P R : α → σ → Prop} {Q : β → σ → Prop} {K : Option β → σ → Prop} {A : ε → Prop} {s s' : σ} {a : α}
  {e : ε} {n i : Nat}

def Wp (m : Prog σ ε α) (Q : α → σ → Prop) (s : σ) : Prop :=
  ∃ a s', m s = .ok (a, s') ∧ Q a s'

/-- Run `body` on `i, i + 1, …` for `n` rounds, or until it returns a result. -/
def loopFrom (body : Nat → Prog σ ε (Option β)) : Nat → Nat → Prog σ ε (Option β)
  | _, 0 => pure none
  | i, n + 1 => do
    match ← body i with
    | some b => pure (some b)
    | none => loopFrom body (i + 1) n

def loop (n : Nat) (body : Nat → Prog σ ε (Option β)) : Prog σ ε (Option β) := loopFrom body 0 n

def WpOr (e : ε) (m : Prog σ ε α) (Q : α → σ → Prop) (s : σ) : Prop := m s = .error e ∨ Wp m Q s

/-- `m` stops with an error that `A` allows, or returns a result and a state that
satisfy `Q`. -/
def WpUpTo (A : ε → Prop) (m : Prog σ ε α) (Q : α → σ → Prop) (s : σ) : Prop :=
  match m s with
  | .ok (a, s') => Q a s'
  | .error e => A e

theorem bind_eq (hm : m s = .ok (a, s')) : (m >>= f) s = f a s' := by
  have hb : (m >>= f) s = (m s >>= fun r => f r.1 r.2) := rfl
  rw [hb, hm]
  rfl

theorem ok_of_bind {r : β × σ} (h : (m >>= f) s = .ok r) : ∃ a s', m s = .ok (a, s') ∧ f a s' = .ok r := by
  have hb : (m >>= f) s = (m s >>= fun r => f r.1 r.2) := rfl
  rw [hb] at h
  cases hm : m s with
  | ok x =>
    rw [hm] at h
    exact ⟨x.1, x.2, rfl, h⟩
  | error e =>
    rw [hm] at h
    cases h

theorem WpUpTo.mono (h : WpUpTo A m P s) (hP : ∀ a s', P a s' → R a s') : WpUpTo A m R s := by
  unfold WpUpTo at h ⊢
  cases hm : m s with
  | ok r => simp only [hm] at h ⊢; exact hP _ _ h
  | error e => simp only [hm] at h ⊢; exact h

theorem upTo_bind (h : WpUpTo A m (fun a s' => WpUpTo A (f a) Q s') s) : WpUpTo A (m >>= f) Q s := by
  have hb : (m >>= f) s = (m s >>= fun r => f r.1 r.2) := rfl
  unfold WpUpTo at h ⊢
  rw [hb]
  cases hm : m s with
  | ok r => rw [hm] at h; exact h
  | error e => rw [hm] at h; exact h

theorem WpUpTo.bind (h : WpUpTo A m P s) (hf : ∀ a s', P a s' → WpUpTo A (f a) Q s') :
    WpUpTo A (m >>= f) Q s :=
  upTo_bind (h.mono hf)

theorem upTo_pure (h : P a s) : WpUpTo A (pure a : Prog σ ε α) P s := h

theorem upTo_get {Q : σ → σ → Prop} (h : Q s s) : WpUpTo A (get : Prog σ ε σ) Q s := h

theorem upTo_modify {f : σ → σ} {Q : PUnit → σ → Prop} (h : Q ⟨⟩ (f s)) :
    WpUpTo A (modify f : Prog σ ε PUnit) Q s := h

theorem upTo_bind_get {f : σ → Prog σ ε β} (h : WpUpTo A (f s) Q s) : WpUpTo A (get >>= f) Q s :=
  upTo_bind (upTo_get h)

theorem upTo_bind_modify {g : σ → σ} {f : PUnit → Prog σ ε β} (h : WpUpTo A (f ⟨⟩) Q (g s)) :
    WpUpTo A (modify g >>= f) Q s := upTo_bind (upTo_modify h)

theorem upTo_throw (h : A e) : WpUpTo A (throw e : Prog σ ε α) P s := h

theorem WpUpTo.ok (h : WpUpTo A m P s) (hm : m s = .ok (a, s')) : P a s' := by
  simpa only [WpUpTo, hm] using h

theorem WpUpTo.error (h : WpUpTo A m P s) (hm : m s = .error e) : A e := by
  simpa only [WpUpTo, hm] using h

theorem upTo_after (h : ∀ a s', WpUpTo (fun _ => True) (f a) Q s') :
    WpUpTo (fun _ => True) (m >>= f) Q s := by
  apply upTo_bind
  unfold WpUpTo
  split
  · exact h _ _
  · trivial

theorem upTo_loopFrom (I : Nat → σ → Prop) (h : I i s)
    (hstep : ∀ j s, i ≤ j → j < i + n → I j s → WpUpTo A (body j) (fun r s' =>
      match r with
      | none => I (j + 1) s'
      | some b => K (some b) s') s) (hend : ∀ s, I (i + n) s → K none s) :
    WpUpTo A (loopFrom body i n) K s := by
  induction n generalizing i s with
  | zero => exact upTo_pure (hend s h)
  | succ n ih =>
    refine (hstep i s (Nat.le_refl i) (by omega) h).bind fun r s' hr => ?_
    cases r with
    | some b => exact upTo_pure hr
    | none =>
      refine ih hr (fun j t hj hlt hI => hstep j t (by omega) (by omega) hI) fun t ht => ?_
      exact hend t (by rw [show i + (n + 1) = i + 1 + n by omega]; exact ht)

theorem upTo_loop (I : Nat → σ → Prop) (h : I 0 s)
    (hstep : ∀ j s, j < n → I j s → WpUpTo A (body j) (fun r s' =>
      match r with
      | none => I (j + 1) s'
      | some b => K (some b) s') s) (hend : ∀ s, I n s → K none s) : WpUpTo A (loop n body) K s := by
  refine upTo_loopFrom I h (fun j t _ hlt hI => hstep j t (by omega) hI) fun t ht => ?_
  exact hend t (by rwa [Nat.zero_add] at ht)

theorem upTo_of_wp (h : Wp m P s) : WpUpTo A m P s := by
  obtain ⟨a, s', hrun, hq⟩ := h
  rw [WpUpTo, hrun]
  exact hq

/-- The rules for programs that cannot fail are those for programs that may stop with no error. -/
theorem wp_of_upTo (h : WpUpTo (fun _ => False) m P s) : Wp m P s := by
  unfold WpUpTo at h
  split at h
  · exact ⟨_, _, ‹_›, h⟩
  · exact h.elim

theorem Wp.mono (h : Wp m P s) (hP : ∀ a s', P a s' → R a s') : Wp m R s :=
  wp_of_upTo ((upTo_of_wp h).mono hP)

theorem wp_pure (h : P a s) : Wp (pure a : Prog σ ε α) P s := ⟨a, s, rfl, h⟩

theorem wp_bind (h : Wp m (fun a s' => Wp (f a) Q s') s) : Wp (m >>= f) Q s :=
  wp_of_upTo ((upTo_of_wp h).bind fun _ _ => upTo_of_wp)

theorem Wp.bind (h : Wp m P s) (hf : ∀ a s', P a s' → Wp (f a) Q s') : Wp (m >>= f) Q s :=
  wp_bind (h.mono hf)

theorem wp_get {Q : σ → σ → Prop} (h : Q s s) : Wp (get : Prog σ ε σ) Q s := ⟨s, s, rfl, h⟩

theorem wp_modify {f : σ → σ} {Q : PUnit → σ → Prop} (h : Q ⟨⟩ (f s)) :
    Wp (modify f : Prog σ ε PUnit) Q s :=
  ⟨⟨⟩, f s, rfl, h⟩

theorem wp_bind_get {f : σ → Prog σ ε β} (h : Wp (f s) Q s) : Wp (get >>= f) Q s := wp_bind (wp_get h)

theorem wp_bind_modify {g : σ → σ} {f : PUnit → Prog σ ε β} (h : Wp (f ⟨⟩) Q (g s)) :
    Wp (modify g >>= f) Q s := wp_bind (wp_modify h)

theorem Wp.ok (h : Wp m P s) (hm : m s = .ok (a, s')) : P a s' :=
  (upTo_of_wp (A := fun _ => False) h).ok hm

theorem wp_loop (I : Nat → σ → Prop) (h : I 0 s) (hstep : ∀ j s, j < n → I j s → Wp (body j) (fun r s' =>
      match r with
      | none => I (j + 1) s'
      | some b => K (some b) s') s) (hend : ∀ s, I n s → K none s) : Wp (loop n body) K s :=
  wp_of_upTo (upTo_loop I h (fun j t hlt hI => upTo_of_wp (hstep j t hlt hI)) hend)

theorem wp_loop_exit (I : Nat → σ → Prop) (E : β → σ → Prop) (h : I 0 s)
    (hstep : ∀ j s, j < n → I j s → Wp (body j) (fun r s' =>
      match r with
      | none => I (j + 1) s'
      | some b => E b s') s) : Wp (loop n body) (fun r s' =>
      match r with
      | none => I n s'
      | some b => E b s') s :=
  wp_loop I h hstep fun _ hI => hI

theorem wpOr_iff_upTo : WpOr e m P s ↔ WpUpTo (· = e) m P s := by
  constructor
  · rintro (h | h)
    · rw [WpUpTo, h]
    · exact upTo_of_wp h
  · intro h
    unfold WpUpTo at h
    split at h
    · exact .inr ⟨_, _, ‹_›, h⟩
    · exact .inl (h ▸ ‹_›)

theorem wpOr_bind (h : Wp m (fun a s' => WpOr e (f a) Q s') s) : WpOr e (m >>= f) Q s :=
  wpOr_iff_upTo.mpr ((upTo_of_wp h).bind fun _ _ => wpOr_iff_upTo.mp)

theorem WpOr.bind (h : WpOr e m (fun a s' => Wp (f a) Q s') s) : WpOr e (m >>= f) Q s :=
  wpOr_iff_upTo.mpr ((wpOr_iff_upTo.mp h).bind fun _ _ => upTo_of_wp)

/-! A program that keeps records beside the state of another program, and what it inherits from
the program without the records. -/

section Erase

variable {τ : Type} {p : σ → τ} {n : Prog τ ε α}

def Erases (p : σ → τ) (m : Prog σ ε α) (n : Prog τ ε α) : Prop :=
  ∀ s, (m s).map (fun r => (r.1, p r.2)) = n (p s)

theorem erases_pure (a : α) : Erases p (pure a : Prog σ ε α) (pure a) := fun _ => rfl

theorem Erases.bind {f : α → Prog σ ε β} {g : α → Prog τ ε β} (h : Erases p m n)
    (hf : ∀ a, Erases p (f a) (g a)) : Erases p (m >>= f) (n >>= g) := by
  intro s
  have hm := h s
  simp only [Bind.bind, StateT.bind, ← hm]
  cases m s with
  | error e => rfl
  | ok r => exact hf r.1 r.2

theorem Erases.ite {c : Prop} [Decidable c] {m' : Prog σ ε α} {n' : Prog τ ε α} (h : Erases p m n)
    (h' : Erases p m' n') : Erases p (if c then m else m') (if c then n else n') := by
  split <;> assumption

theorem Erases.before {m : Prog σ ε PUnit} {f : PUnit → Prog σ ε β} {n : Prog τ ε β}
    (h : Erases p m (pure ⟨⟩)) (hf : Erases p (f ⟨⟩) n) : Erases p (m >>= f) n := by
  have hb : Erases p (m >>= f) ((pure PUnit.unit : Prog τ ε PUnit) >>= fun _ => n) :=
    h.bind fun _ => hf
  simpa only [pure_bind] using hb

theorem Erases.upTo {Q : α → τ → Prop} (h : Erases p m n) (hn : WpUpTo A n Q (p s)) :
    WpUpTo A m (fun a t => Q a (p t)) s := by
  have hm := h s
  unfold WpUpTo at hn ⊢
  rw [← hm] at hn
  cases hr : m s with
  | error e => rwa [hr] at hn
  | ok r => rwa [hr] at hn

theorem WpUpTo.and {Q R : α → σ → Prop} (h : WpUpTo A m Q s) (h' : WpUpTo (fun _ => True) m R s) :
    WpUpTo A m (fun a t => Q a t ∧ R a t) s := by
  unfold WpUpTo at h h' ⊢
  cases hr : m s with
  | error e => rwa [hr] at h
  | ok r =>
    rw [hr] at h h'
    exact ⟨h, h'⟩

end Erase

end StateProg
