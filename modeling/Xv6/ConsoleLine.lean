import Xv6.Console
import Xv6.WrapRing

/-! The console as a line discipline: a queue of committed characters and a line that is
still being edited. The ring of `console.c` behaves like it for all users. -/

namespace Xv6

open Function WrapRing

structure Line where
  committed : List UInt8
  pending : List UInt8

namespace Line

def held (l : Line) : Nat := l.committed.length + l.pending.length

def commit (l : Line) : Line := ⟨l.committed ++ l.pending, []⟩

def append (l : Line) (ch : UInt8) : Line := { l with pending := l.pending ++ [ch] }

def intr (ch : UInt8) (l : Line) : Line × Bool :=
  if ch = ctrl 'U' then ({ l with pending := [] }, false)
  else if ch = ctrl 'H' ∨ ch = 0x7f then ({ l with pending := l.pending.dropLast }, false)
  else if ch = ctrl 'P' ∨ ch = 0 ∨ INPUT_BUF_SIZE ≤ l.held then (l, false)
  else
    let ch := if ch = 13 then newline else ch
    let l := l.append ch
    if ch = newline ∨ ch = ctrl 'D' ∨ l.held = INPUT_BUF_SIZE then (l.commit, true) else (l, false)

/-- A read takes at most `n` more characters. It ends after a newline and at ^D, which it
consumes only if it is the first thing it sees. It waits when nothing is committed. -/
def read (killed : Bool) (target : Nat) (dst : Nat → Bool) :
    Nat → List UInt8 → Line → Line × ReadEnd
  | 0, got, l => (l, .returned got.length got)
  | n + 1, got, l =>
    match l.committed with
    | [] => (l, if killed then .returned (-1) got else .asleep ⟨target, n + 1, got, dst⟩)
    | ch :: rest =>
      if ch = ctrl 'D' then
        (if got = [] then { l with committed := rest } else l, .returned got.length got)
      else if dst got.length = false then ({ l with committed := rest }, .returned got.length got)
      else if ch = newline then
        ({ l with committed := rest }, .returned (got.length + 1) (got ++ [ch]))
      else read killed target dst n (got ++ [ch]) { l with committed := rest }

def ops : ConsoleOps Line := ⟨intr, read⟩

end Line

section Simulation

variable {P β γ : Type} [DecidableEq P] {ops : ConsoleOps β} {spec : ConsoleOps γ} {R : β → γ → Prop}

def ConsoleRead.Exact (call : ConsoleRead) : Prop := call.got.length + call.n = call.target

structure Simulates (ops : ConsoleOps β) (spec : ConsoleOps γ) (R : β → γ → Prop) : Prop where
  intr : ∀ {b a} ch, R b a →
    R (ops.intr ch b).1 (spec.intr ch a).1 ∧ (ops.intr ch b).2 = (spec.intr ch a).2
  read : ∀ {b a} k (call : ConsoleRead), R b a → call.Exact →
    R (ops.read k call.target call.dst call.n call.got b).1
      (spec.read k call.target call.dst call.n call.got a).1 ∧
    (ops.read k call.target call.dst call.n call.got b).2 =
      (spec.read k call.target call.dst call.n call.got a).2 ∧
    ∀ call', (spec.read k call.target call.dst call.n call.got a).2 = .asleep call' → call'.Exact

def Reader.Exact : Reader → Prop
  | .idle => True
  | .asleep call | .woken call => call.Exact

structure Alike (R : β → γ → Prop) (s : Tty P β) (a : Tty P γ) : Prop where
  dev : R s.dev a.dev
  reader : s.reader = a.reader
  killed : s.killed = a.killed
  returned : s.returned = a.returned
  exact : ∀ p, (a.reader p).Exact

theorem Reader.Exact.wakeup {rd : Reader} (h : rd.Exact) : (Tty.wakeup rd).Exact := by
  cases rd with
  | idle => exact h
  | asleep call => exact h
  | woken call => exact h

variable {s : Tty P β} {a : Tty P γ}

theorem Alike.stretch (hs : Simulates ops spec R) (h : Alike R s a) (p : P) {call : ConsoleRead}
    (hc : call.Exact) : Alike R (s.stretch ops p call) (a.stretch spec p call) := by
  obtain ⟨hdev, hres, hexact⟩ := hs.read (s.killed p) call h.dev hc
  unfold Tty.stretch
  rw [← h.killed]
  simp only [hres]
  cases hr : (spec.read (s.killed p) call.target call.dst call.n call.got a.dev).2 with
  | returned ret got =>
    refine ⟨hdev, by simp only [h.reader], rfl, by simp only [h.returned], fun q => ?_⟩
    by_cases hq : q = p
    · subst hq
      simp only [update_self]
      trivial
    · simp only [update_of_ne hq]
      exact h.exact q
  | asleep call' =>
    refine ⟨hdev, by simp only [h.reader], rfl, h.returned, fun q => ?_⟩
    by_cases hq : q = p
    · subst hq
      simp only [update_self]
      exact hexact call' hr
    · simp only [update_of_ne hq]
      exact h.exact q

theorem Alike.step (hs : Simulates ops spec R) (h : Alike R s a) (e : TtyEvent P) :
    Alike R (s.step ops e) (a.step spec e) := by
  cases e with
  | intr ch =>
    obtain ⟨hdev, hwoke⟩ := hs.intr ch h.dev
    simp only [Tty.step, hwoke, h.reader]
    refine ⟨hdev, rfl, h.killed, h.returned, fun p => ?_⟩
    split
    · exact (h.exact p).wakeup
    · exact h.exact p
  | read p n dst =>
    simp only [Tty.step, h.reader]
    cases a.reader p with
    | idle => exact h.stretch hs p (Nat.zero_add _)
    | asleep call => exact h
    | woken call => exact h
  | resume p =>
    have hp := h.exact p
    simp only [Tty.step, h.reader]
    cases hr : a.reader p with
    | idle => exact h
    | asleep call => exact h
    | woken call =>
      rw [hr] at hp
      exact h.stretch hs p hp
  | kill p =>
    refine ⟨h.dev, by simp only [Tty.step, h.reader], by simp only [Tty.step, h.killed], h.returned,
      fun q => ?_⟩
    simp only [Tty.step]
    by_cases hq : q = p
    · subst hq
      rw [update_self]
      exact (h.exact q).wakeup
    · rw [update_of_ne hq]
      exact h.exact q

theorem Alike.run (hs : Simulates ops spec R) (es : List (TtyEvent P)) (h : Alike R s a) :
    Alike R (s.run ops es) (a.run spec es) := by
  induction es generalizing s a with
  | nil => exact h
  | cons e es ih => exact ih (h.step hs e)

end Simulation

/-- The ring holds the two parts one after the other. A full ring has nothing pending, and
a pending line has no newline in it. -/
structure Cons.Holds (c : Cons) (l : Line) : Prop where
  committed : window INPUT_BUF_SIZE c.buf c.r c.w = l.committed
  pending : window INPUT_BUF_SIZE c.buf c.w c.e = l.pending
  held : dist c.r c.w + dist c.w c.e ≤ INPUT_BUF_SIZE
  full : dist c.r c.w + dist c.w c.e = INPUT_BUF_SIZE → c.w = c.e
  line : newline ∉ l.pending

theorem bufSize_dvd : INPUT_BUF_SIZE ∣ 2 ^ 32 := by decide

theorem bufSize_lt : INPUT_BUF_SIZE < 2 ^ 31 := by decide

namespace Cons.Holds

variable {c : Cons} {l : Line}

theorem held_eq (h : c.Holds l) : l.held = dist c.r c.w + dist c.w c.e := by
  rw [Line.held, ← h.committed, ← h.pending, length_window, length_window]

theorem dist_all (h : c.Holds l) : dist c.r c.e = dist c.r c.w + dist c.w c.e := by
  have hb := h.held
  have hs := bufSize_lt
  exact dist_add (by omega)

theorem putc (h : c.Holds l) (ch : Nat) : (c.putc ch).Holds l := by
  unfold Cons.putc
  split
  · exact ⟨h.committed, h.pending, h.held, h.full, h.line⟩
  · exact ⟨h.committed, h.pending, h.held, h.full, h.line⟩

theorem erase (h : c.Holds l) (hne : c.e ≠ c.w) :
    ({ c with e := c.e - 1 } : Cons).Holds { l with pending := l.pending.dropLast } := by
  have hd := dist_pred hne.symm
  have hb := h.held
  refine ⟨h.committed, ?_, ?_, ?_, fun hm => h.line (List.dropLast_subset _ hm)⟩
  · rw [← h.pending, window_pred bufSize_dvd hne.symm, List.dropLast_concat]
  · dsimp only
    omega
  · intro hf
    dsimp only at hf
    omega

theorem pending_eq_nil (h : c.Holds l) : l.pending = [] ↔ c.e = c.w := by
  rw [← List.length_eq_zero_iff, ← h.pending, length_window, dist_eq_zero, eq_comm]

theorem last (h : c.Holds l) (hne : c.e ≠ c.w) :
    c.buf ((c.e - 1).toNat % INPUT_BUF_SIZE) ≠ newline := by
  intro he
  apply h.line
  rw [← h.pending, window_pred bufSize_dvd hne.symm, he]
  simp

theorem killLine (k : Nat) (h : c.Holds l) (hk : dist c.w c.e = k) :
    (c.killLine k).Holds { l with pending := [] } := by
  induction k generalizing c l with
  | zero =>
    have hnil := h.pending_eq_nil.mpr (dist_eq_zero.mp hk).symm
    rw [Cons.killLine, ← hnil]
    exact h
  | succ k ih =>
    have hne : c.e ≠ c.w := by
      intro he
      rw [he, dist_self] at hk
      cases hk
    rw [Cons.killLine, if_pos ⟨hne, h.last hne⟩]
    have hd := dist_pred hne.symm
    have hrec := ih ((h.erase hne).putc BACKSPACE) (by
      change dist c.w (c.e - 1) = k
      omega)
    exact hrec

theorem store (h : c.Holds l) (hroom : l.held < INPUT_BUF_SIZE) (ch : UInt8) :
    window INPUT_BUF_SIZE (c.store ch).buf c.r c.w = l.committed ∧
    window INPUT_BUF_SIZE (c.store ch).buf c.w (c.store ch).e = l.pending ++ [ch] ∧
    dist c.w (c.store ch).e = dist c.w c.e + 1 := by
  rw [h.held_eq] at hroom
  have hs := bufSize_lt
  have hone := dist_one c.e
  refine ⟨?_, ?_, dist_succ (by omega)⟩
  · rw [← h.committed]
    exact window_update bufSize_dvd hroom ch
  · rw [← h.pending]
    change window _ _ c.w (c.e + 1) = _
    rw [window_append bufSize_dvd (b := c.e) (by omega), window_succ]
    congr 1
    · exact window_update bufSize_dvd (by rw [dist_self]; omega) ch
    · simp only [Cons.store, update_self]

theorem held_append (l : Line) (ch : UInt8) : (l.append ch).held = l.held + 1 := by
  simp only [Line.held, Line.append, List.length_append, List.length_singleton]
  omega

theorem sub_toNat (h : c.Holds l) : (c.e - c.r).toNat = l.held := by
  rw [h.held_eq, ← h.dist_all]
  rfl

theorem room_iff (h : c.Holds l) :
    c.e - c.r < UInt32.ofNat INPUT_BUF_SIZE ↔ l.held < INPUT_BUF_SIZE := by
  rw [UInt32.lt_iff_toNat_lt, h.sub_toNat]
  rfl

theorem appended (h : c.Holds l) (hroom : l.held < INPUT_BUF_SIZE) {ch : UInt8} (hch : ch ≠ newline)
    (hfull : l.held + 1 ≠ INPUT_BUF_SIZE) : (c.store ch).Holds (l.append ch) := by
  obtain ⟨hcom, hpend, hdist⟩ := h.store hroom ch
  have heq := h.held_eq
  refine ⟨hcom, hpend, ?_, ?_, ?_⟩
  · change dist c.r c.w + dist c.w (c.store ch).e ≤ _
    omega
  · intro hf
    change dist c.r c.w + dist c.w (c.store ch).e = _ at hf
    omega
  · intro hm
    rcases List.mem_append.mp hm with hm | hm
    · exact h.line hm
    · exact hch (List.mem_singleton.mp hm).symm

theorem ended (h : c.Holds l) (hroom : l.held < INPUT_BUF_SIZE) (ch : UInt8) :
    ({ c.store ch with w := (c.store ch).e } : Cons).Holds (l.append ch).commit := by
  obtain ⟨hcom, hpend, hdist⟩ := h.store hroom ch
  have heq := h.held_eq
  have hs := bufSize_lt
  have hall : dist c.r (c.store ch).e = l.held + 1 := by
    rw [dist_add (b := c.w) (by omega)]
    omega
  refine ⟨?_, window_self, ?_, fun _ => rfl, List.not_mem_nil⟩
  · change window _ _ c.r (c.store ch).e = l.committed ++ (l.pending ++ [ch])
    rw [window_append bufSize_dvd (b := c.w) (by omega), hcom, hpend]
  · change dist c.r (c.store ch).e + dist (c.store ch).e (c.store ch).e ≤ _
    rw [dist_self]
    omega

theorem sub_store (h : c.Holds l) (hroom : l.held < INPUT_BUF_SIZE) (ch : UInt8) :
    (c.store ch).e - (c.store ch).r = UInt32.ofNat INPUT_BUF_SIZE ↔ l.held + 1 = INPUT_BUF_SIZE := by
  have hs := bufSize_lt
  rw [← UInt32.toNat_inj]
  change dist c.r (c.e + 1) = INPUT_BUF_SIZE ↔ _
  rw [dist_succ (by rw [h.dist_all, ← h.held_eq]; omega), h.dist_all, h.held_eq]

theorem intr (h : c.Holds l) (ch : UInt8) :
    (consoleintr ch c).1.Holds (l.intr ch).1 ∧ (consoleintr ch c).2 = (l.intr ch).2 := by
  unfold consoleintr Line.intr
  by_cases hP : ch = ctrl 'P'
  · subst hP
    exact ⟨h, rfl⟩
  rw [if_neg hP]
  by_cases hU : ch = ctrl 'U'
  · rw [if_pos hU, if_pos hU]
    exact ⟨h.killLine _ rfl, rfl⟩
  rw [if_neg hU, if_neg hU]
  by_cases hH : ch = ctrl 'H' ∨ ch = 0x7f
  · rw [if_pos hH, if_pos hH]
    by_cases hne : c.e ≠ c.w
    · rw [if_pos hne]
      exact ⟨(h.erase hne).putc BACKSPACE, rfl⟩
    · rw [if_neg hne]
      have hnil := h.pending_eq_nil.mpr (not_not.mp hne)
      refine ⟨?_, rfl⟩
      rw [hnil, List.dropLast_nil, ← hnil]
      exact h
  rw [if_neg hH, if_neg hH]
  by_cases hroom : ch ≠ 0 ∧ l.held < INPUT_BUF_SIZE
  · have hok : ¬ (ch = ctrl 'P' ∨ ch = 0 ∨ INPUT_BUF_SIZE ≤ l.held) := by
      rintro (hp | hz | hle)
      · exact hP hp
      · exact hroom.1 hz
      · omega
    rw [if_pos ⟨hroom.1, h.room_iff.mpr hroom.2⟩, if_neg hok]
    generalize (if ch = 13 then newline else ch) = ch'
    have hc := h.putc ch'.toNat
    dsimp only
    rw [held_append]
    by_cases hend : ch' = newline ∨ ch' = ctrl 'D' ∨ l.held + 1 = INPUT_BUF_SIZE
    · rw [if_pos (by rw [hc.sub_store hroom.2]; exact hend), if_pos hend]
      exact ⟨hc.ended hroom.2 ch', rfl⟩
    · rw [if_neg (by rw [hc.sub_store hroom.2]; exact hend), if_neg hend]
      rw [not_or, not_or] at hend
      exact ⟨hc.appended hroom.2 hend.1 hend.2.2, rfl⟩
  · have hno : ch = ctrl 'P' ∨ ch = 0 ∨ INPUT_BUF_SIZE ≤ l.held := by
      by_contra hn
      rw [not_or, not_or] at hn
      exact hroom ⟨hn.2.1, by omega⟩
    rw [if_neg (by rw [h.room_iff]; exact hroom), if_pos hno]
    exact ⟨h, rfl⟩

theorem committed_nil (h : c.Holds l) : l.committed = [] ↔ c.r = c.w := by
  rw [← List.length_eq_zero_iff, ← h.committed, length_window, dist_eq_zero]

theorem pop (h : c.Holds l) (hne : c.r ≠ c.w) :
    ∃ rest, l.committed = c.buf (c.r.toNat % INPUT_BUF_SIZE) :: rest ∧
      ({ c with r := c.r + 1 } : Cons).Holds { l with committed := rest } := by
  have hd := dist_next hne
  have hb := h.held
  refine ⟨window INPUT_BUF_SIZE c.buf (c.r + 1) c.w, ?_, rfl, h.pending, ?_, ?_, h.line⟩
  · rw [← h.committed, window_pop bufSize_dvd hne]
  · dsimp only
    omega
  · intro hf
    dsimp only at hf
    omega

theorem read (k : Bool) (target : Nat) (dst : Nat → Bool) (n : Nat) {got : List UInt8} (h : c.Holds l)
    (hgot : got.length + n = target) :
    (consoleread k target dst n got c).1.Holds (l.read k target dst n got).1 ∧
    (consoleread k target dst n got c).2 = (l.read k target dst n got).2 ∧
    ∀ call, (l.read k target dst n got).2 = .asleep call → call.Exact := by
  -- Each round takes the character at `cons.r`, which is the head of the committed queue.
  induction n generalizing got c l with
  | zero =>
    refine ⟨h, ?_, fun call hc => ?_⟩
    · simp only [consoleread, Line.read, ← hgot, Nat.add_zero]
    · cases hc
  | succ n ih =>
    unfold consoleread Line.read
    by_cases hne : c.r = c.w
    · rw [if_pos hne, h.committed_nil.mpr hne]
      cases k with
      | true => exact ⟨h, rfl, fun call hc => by cases hc⟩
      | false =>
        refine ⟨h, rfl, fun call hc => ?_⟩
        cases hc
        exact hgot
    · obtain ⟨rest, hcom, hpop⟩ := h.pop hne
      have hret : (target : Int) - (n + 1 : Nat) = got.length := by omega
      rw [if_neg hne, hcom]
      generalize c.buf (c.r.toNat % INPUT_BUF_SIZE) = ch at hcom
      dsimp only
      rw [hret, show target - (n + 1) = got.length by omega]
      by_cases hD : ch = ctrl 'D'
      · rw [if_pos hD, if_pos hD]
        refine ⟨?_, rfl, fun call hc => by cases hc⟩
        by_cases hnil : got = []
        · rw [if_pos hnil, if_neg (by rw [hnil, List.length_nil] at hgot; omega)]
          exact hpop
        · have hpos := List.length_pos_iff.mpr hnil
          rw [if_neg hnil, if_pos (by omega)]
          simp only [UInt32.add_sub_cancel]
          exact h
      rw [if_neg hD, if_neg hD]
      by_cases hdst : dst got.length = false
      · rw [if_pos hdst, if_pos hdst]
        exact ⟨hpop, rfl, fun call hc => by cases hc⟩
      rw [if_neg hdst, if_neg hdst]
      by_cases hnl : ch = newline
      · rw [if_pos hnl, if_pos hnl, show (target : Int) - n = got.length + 1 by omega]
        exact ⟨hpop, rfl, fun call hc => by cases hc⟩
      · rw [if_neg hnl, if_neg hnl]
        exact ih hpop (by rw [List.length_append, List.length_singleton]; omega)

end Cons.Holds

theorem cons_simulates : Simulates consOps Line.ops Cons.Holds where
  intr ch h := h.intr ch
  read k call h hc := h.read k call.target call.dst call.n hc

theorem Cons.Holds.empty (buf : Nat → UInt8) (uart : List UInt8) :
    (⟨buf, 0, 0, 0, uart⟩ : Cons).Holds ⟨[], []⟩ :=
  ⟨window_self, window_self, (by change WrapRing.dist 0 0 + WrapRing.dist 0 0 ≤ _; decide), fun _ => rfl,
   List.not_mem_nil⟩

variable {P : Type} [DecidableEq P]

/-- Whatever is typed and read, in any order, the indices keep their order and distance, and readers
get what they would get from a list of finished lines with one line that is being edited. -/
theorem console_line_discipline (buf : Nat → UInt8) (es : List (TtyEvent P)) :
    let s := (Tty.start ⟨buf, 0, 0, 0, []⟩).run consOps es
    let a := (Tty.start ⟨[], []⟩).run Line.ops es
    (s.dev.w - s.dev.r ≤ s.dev.e - s.dev.r ∧ s.dev.e - s.dev.r ≤ UInt32.ofNat INPUT_BUF_SIZE ∧
      (s.dev.e - s.dev.r = UInt32.ofNat INPUT_BUF_SIZE → s.dev.w = s.dev.e)) ∧
    s.reader = a.reader ∧ s.returned = a.returned := by
  intro s a
  have h : Alike Cons.Holds s a := Alike.run cons_simulates es
    ⟨Cons.Holds.empty buf [], rfl, rfl, rfl, fun _ => trivial⟩
  have hall := h.dev.dist_all
  have hheld := h.dev.held
  refine ⟨⟨?_, ?_, fun hf => h.dev.full ?_⟩, h.reader, h.returned⟩
  · rw [UInt32.le_iff_toNat_le]
    change dist s.dev.r s.dev.w ≤ dist s.dev.r s.dev.e
    omega
  · rw [UInt32.le_iff_toNat_le]
    change dist s.dev.r s.dev.e ≤ INPUT_BUF_SIZE
    omega
  · rw [← hall]
    change (s.dev.e - s.dev.r).toNat = INPUT_BUF_SIZE
    rw [hf]
    rfl

example : ((Tty.start ⟨fun _ => 0, 0, 0, 0, []⟩ : Tty Unit Cons).run consOps
    [.intr 97, .intr 8, .intr 98, .intr 13, .read () 5 (fun _ => true)]).returned =
    [((), 2, [98, 10])] := by
  decide

end Xv6
