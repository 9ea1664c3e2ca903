import Mathlib.Data.List.Basic
import Mathlib.Logic.Function.Basic

/-! `console.c`: the input buffer of the console, the interrupt handler that fills it and the
readers that empty it. `cons.lock` is held for the whole of `consoleintr` and, in
`consoleread`, from the start or a wakeup up to the next `sleep` or the return, so these
stretches are the steps. -/

namespace Xv6

open Function

def INPUT_BUF_SIZE : Nat := 128

def ctrl (x : Char) : UInt8 := UInt8.ofNat (x.toNat - '@'.toNat)

def newline : UInt8 := 10

def BACKSPACE : Nat := 0x100

structure Cons where
  buf : Nat → UInt8
  r : UInt32
  w : UInt32
  e : UInt32
  uart : List UInt8

namespace Cons

def putc (c : Cons) (ch : Nat) : Cons :=
  if ch = BACKSPACE then { c with uart := c.uart ++ [8, 32, 8] }
  else { c with uart := c.uart ++ [UInt8.ofNat ch] }

def killLine : Nat → Cons → Cons
  | 0, c => c
  | k + 1, c =>
    if c.e ≠ c.w ∧ c.buf ((c.e - 1).toNat % INPUT_BUF_SIZE) ≠ newline then
      killLine k (putc { c with e := c.e - 1 } BACKSPACE)
    else c

def store (c : Cons) (ch : UInt8) : Cons :=
  { c with buf := update c.buf (c.e.toNat % INPUT_BUF_SIZE) ch, e := c.e + 1 }

end Cons

def consoleintr (ch : UInt8) (c : Cons) : Cons × Bool :=
  if ch = ctrl 'P' then (c, false)
  else if ch = ctrl 'U' then (c.killLine (c.e - c.w).toNat, false)
  else if ch = ctrl 'H' ∨ ch = 0x7f then
    if c.e ≠ c.w then (Cons.putc { c with e := c.e - 1 } BACKSPACE, false) else (c, false)
  else if ch ≠ 0 ∧ c.e - c.r < UInt32.ofNat INPUT_BUF_SIZE then
    let ch := if ch = 13 then newline else ch
    let c := (c.putc ch.toNat).store ch
    if ch = newline ∨ ch = ctrl 'D' ∨ c.e - c.r = UInt32.ofNat INPUT_BUF_SIZE then
      ({ c with w := c.e }, true)
    else (c, false)
  else (c, false)

/-- A call of `consoleread` for `target` bytes, of which `n` are missing. `dst i` tells
whether `either_copyout` of the byte with number `i` succeeds. -/
structure ConsoleRead where
  target : Nat
  n : Nat
  got : List UInt8
  dst : Nat → Bool

inductive ReadEnd where
  | returned (ret : Int) (got : List UInt8)
  | asleep (call : ConsoleRead)

def consoleread (killed : Bool) (target : Nat) (dst : Nat → Bool) :
    Nat → List UInt8 → Cons → Cons × ReadEnd
  | 0, got, c => (c, .returned target got)
  | n + 1, got, c =>
    if c.r = c.w then
      if killed then (c, .returned (-1) got) else (c, .asleep ⟨target, n + 1, got, dst⟩)
    else
      let ch := c.buf (c.r.toNat % INPUT_BUF_SIZE)
      let c := { c with r := c.r + 1 }
      if ch = ctrl 'D' then
        -- ^D is saved for the next read if this one has bytes to return.
        let c := if n + 1 < target then { c with r := c.r - 1 } else c
        (c, .returned ((target : Int) - (n + 1 : Nat)) got)
      else if dst (target - (n + 1)) = false then (c, .returned ((target : Int) - (n + 1 : Nat)) got)
      else if ch = newline then (c, .returned ((target : Int) - n) (got ++ [ch]))
      else consoleread killed target dst n (got ++ [ch]) c

structure ConsoleOps (β : Type) where
  intr : UInt8 → β → β × Bool
  read : Bool → Nat → (Nat → Bool) → Nat → List UInt8 → β → β × ReadEnd

def consOps : ConsoleOps Cons := ⟨consoleintr, consoleread⟩

inductive Reader where
  | idle
  | asleep (call : ConsoleRead)
  | woken (call : ConsoleRead)

/-- A console and the processes that use it. `returned` are the reads that have returned,
each with its process, its result and the bytes it delivered. -/
structure Tty (P β : Type) where
  dev : β
  reader : P → Reader
  killed : P → Bool
  returned : List (P × Int × List UInt8)

/-- `read` starts a call for `n` bytes; `resume` runs a reader that has been woken. -/
inductive TtyEvent (P : Type) where
  | intr (ch : UInt8)
  | read (p : P) (n : Int) (dst : Nat → Bool)
  | resume (p : P)
  | kill (p : P)

namespace Tty

variable {P β : Type} [DecidableEq P]

def wakeup : Reader → Reader
  | .asleep call => .woken call
  | rd => rd

def stretch (ops : ConsoleOps β) (s : Tty P β) (p : P) (call : ConsoleRead) : Tty P β :=
  let (dev, res) := ops.read (s.killed p) call.target call.dst call.n call.got s.dev
  match res with
  | .returned ret got =>
    { s with
      dev := dev
      reader := update s.reader p .idle
      returned := s.returned ++ [(p, ret, got)] }
  | .asleep call => { s with dev := dev, reader := update s.reader p (.asleep call) }

def step (ops : ConsoleOps β) (s : Tty P β) : TtyEvent P → Tty P β
  | .intr ch =>
    let (dev, woke) := ops.intr ch s.dev
    { s with dev := dev, reader := if woke then fun p => wakeup (s.reader p) else s.reader }
  | .read p n dst =>
    match s.reader p with
    | .idle => s.stretch ops p ⟨n.toNat, n.toNat, [], dst⟩
    | _ => s
  | .resume p =>
    match s.reader p with
    | .woken call => s.stretch ops p call
    | _ => s
  | .kill p =>
    { s with
      killed := update s.killed p true
      reader := update s.reader p (wakeup (s.reader p)) }

def run (ops : ConsoleOps β) (s : Tty P β) (es : List (TtyEvent P)) : Tty P β := es.foldl (step ops) s

def start (dev : β) : Tty P β := ⟨dev, fun _ => .idle, fun _ => false, []⟩

end Tty

end Xv6
