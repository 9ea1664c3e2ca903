import Xv6.StateProg

/-! The parser of `user/sh.c`. A pointer into the command line is the rest of the line from
there on, so `s < es` says that it is not empty; a recorded pointer is an offset in the line. -/

namespace Xv6.Shell

open StateProg

def MAXARGS : Nat := 10

def O_RDONLY : Nat := 0x000

def O_WRONLY : Nat := 0x001

def O_CREATE : Nat := 0x200

def O_TRUNC : Nat := 0x400

def whitespace : List UInt8 := [32, 9, 13, 10, 11]

def symbols : List UInt8 := [60, 124, 62, 38, 59, 40, 41]

inductive Cmd (α : Type) where
  | exec (argv : List α)
  | redir (cmd : Cmd α) (file : α) (mode fd : Nat)
  | pipe (left right : Cmd α)
  | list (left right : Cmd α)
  | back (cmd : Cmd α)
  deriving DecidableEq, Repr

structure Redir (α : Type) where
  file : α
  mode : Nat
  fd : Nat
  deriving DecidableEq, Repr

def redircmds {α : Type} (cmd : Cmd α) (rs : List (Redir α)) : Cmd α :=
  rs.foldl (fun c r => .redir c r.file r.mode r.fd) cmd

structure Span where
  start : Nat
  stop : Nat
  deriving DecidableEq, Repr

inductive Symbol where
  | bar | lparen | rparen | semi | amp | lt | gt | gtgt
  deriving DecidableEq, Repr

/-- The results `0`, a symbol (`+` for `>>`) and `a` of `gettoken`. -/
inductive Ret where
  | eof
  | sym (x : Symbol)
  | word
  deriving DecidableEq, Repr

inductive Fault where
  | panic (msg : String)
  /-- Not a fault of the code: the bound on the depth of the calls was too small. -/
  | fuel
  deriving DecidableEq, Repr

abbrev Parser := Prog (List UInt8) Fault

def isSpace (c : UInt8) : Bool := whitespace.contains c

def isWordChar (c : UInt8) : Bool := !whitespace.contains c && !symbols.contains c

def skipSpace (s : List UInt8) : List UInt8 := s.dropWhile isSpace

def lexToken : List UInt8 → Ret × List UInt8
  | [] => (.eof, [])
  | c :: s =>
    if c = 124 then (.sym .bar, s)
    else if c = 40 then (.sym .lparen, s)
    else if c = 41 then (.sym .rparen, s)
    else if c = 59 then (.sym .semi, s)
    else if c = 38 then (.sym .amp, s)
    else if c = 60 then (.sym .lt, s)
    else if c = 62 then
      if s.head? = some 62 then (.sym .gtgt, s.tail) else (.sym .gt, s)
    else (.word, (c :: s).dropWhile isWordChar)

def gettoken (es : Nat) : Parser (Ret × Span) := do
  let q := skipSpace (← get)
  let (ret, eq) := lexToken q
  set (skipSpace eq)
  return (ret, ⟨es - q.length, es - eq.length⟩)

def peek (toks : List UInt8) : Parser Bool := do
  let s := skipSpace (← get)
  set s
  return s.head?.any toks.contains

def redirOf (tok : Ret) (file : Span) : List (Redir Span) :=
  match tok with
  | .sym .lt => [⟨file, O_RDONLY, 0⟩]
  | .sym .gt => [⟨file, O_WRONLY ||| O_CREATE ||| O_TRUNC, 1⟩]
  | .sym .gtgt => [⟨file, O_WRONLY ||| O_CREATE, 1⟩]
  | _ => []

/-- The redirections that the source's function puts around its command, in order. They are
returned, since the command of `parseexec` is still being filled while they are read. -/
def parseredirs (es : Nat) : Nat → Parser (List (Redir Span))
  | 0 => throw .fuel
  | n + 1 => do
    if ← peek [60, 62] then
      let (tok, _) ← gettoken es
      let (tok', file) ← gettoken es
      if tok' ≠ .word then
        throw (.panic "missing file for redirection")
      let rs ← parseredirs es n
      return redirOf tok file ++ rs
    else return []

def parseargs (es : Nat) : Nat → List Span → List (Redir Span) → Parser (List Span × List (Redir Span))
  | 0, _, _ => throw .fuel
  | n + 1, argv, rs => do
    if ← peek [124, 41, 38, 59] then
      return (argv, rs)
    match ← gettoken es with
    | (.eof, _) => return (argv, rs)
    | (.sym _, _) => throw (.panic "syntax")
    | (.word, q) =>
      let argv := argv ++ [q]
      if MAXARGS ≤ argv.length then
        throw (.panic "too many args")
      let rs' ← parseredirs es n
      parseargs es n argv (rs ++ rs')

def parsebacks (es : Nat) : Nat → Cmd Span → Parser (Cmd Span)
  | 0, _ => throw .fuel
  | n + 1, cmd => do
    if ← peek [38] then
      let _ ← gettoken es
      parsebacks es n (.back cmd)
    else return cmd

mutual

def parseline (es : Nat) : Nat → Parser (Cmd Span)
  | 0 => throw .fuel
  | n + 1 => do
    let cmd ← parsepipe es n
    let cmd ← parsebacks es n cmd
    if ← peek [59] then
      let _ ← gettoken es
      let right ← parseline es n
      return .list cmd right
    else return cmd

def parsepipe (es : Nat) : Nat → Parser (Cmd Span)
  | 0 => throw .fuel
  | n + 1 => do
    let cmd ← parseexec es n
    if ← peek [124] then
      let _ ← gettoken es
      let right ← parsepipe es n
      return .pipe cmd right
    else return cmd

def parseblock (es : Nat) : Nat → Parser (Cmd Span)
  | 0 => throw .fuel
  | n + 1 => do
    if !(← peek [40]) then
      throw (.panic "parseblock")
    let _ ← gettoken es
    let cmd ← parseline es n
    if !(← peek [41]) then
      throw (.panic "syntax - missing )")
    let _ ← gettoken es
    let rs ← parseredirs es n
    return redircmds cmd rs

def parseexec (es : Nat) : Nat → Parser (Cmd Span)
  | 0 => throw .fuel
  | n + 1 => do
    if ← peek [40] then
      parseblock es n
    else
      let rs ← parseredirs es n
      let (argv, rs) ← parseargs es n [] rs
      return redircmds (.exec argv) rs

end

def parsecmd (str : List UInt8) : Except Fault (Cmd Span) := do
  let es := str.length
  let (cmd, s) ← parseline es (4 * es + 4) str
  if skipSpace s ≠ [] then
    throw (.panic "syntax")
  return cmd

/-- The stores of the tree's pass over the buffer that holds the command line. -/
def nulterminate : Cmd Span → List UInt8 → List UInt8
  | .exec argv, buf => argv.foldl (fun buf q => buf.set q.stop 0) buf
  | .redir cmd file _ _, buf => (nulterminate cmd buf).set file.stop 0
  | .pipe left right, buf => nulterminate right (nulterminate left buf)
  | .list left right, buf => nulterminate right (nulterminate left buf)
  | .back cmd, buf => nulterminate cmd buf

end Xv6.Shell
