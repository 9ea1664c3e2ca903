import Mathlib.Data.List.TakeWhile
import Xv6.Shell

/-! The grammar of command lines, and the parser's two ways of looking at a line in terms of its
tokens. -/

namespace Xv6.Shell

open StateProg

inductive Token where
  | sym (x : Symbol)
  | word (w : List UInt8)
  deriving DecidableEq

def symbolOf (c : UInt8) : Symbol :=
  if c = 124 then .bar
  else if c = 40 then .lparen
  else if c = 41 then .rparen
  else if c = 59 then .semi
  else if c = 38 then .amp
  else if c = 60 then .lt
  else .gt

/-- The tokens of a line: symbols, the longest first, and the maximal runs of characters that are
neither whitespace nor symbols. -/
def tokens : List UInt8 → List Token
  | [] => []
  | c :: s =>
    if isSpace c then tokens s
    else if isWordChar c then .word (c :: s.takeWhile isWordChar) :: tokens (s.dropWhile isWordChar)
    else if c = 62 ∧ s.head? = some 62 then .sym .gtgt :: tokens s.tail
    else .sym (symbolOf c) :: tokens s
termination_by s => s.length
decreasing_by
  all_goals simp only [List.length_cons, List.length_tail]
  · omega
  · exact Nat.lt_succ_of_le (List.length_dropWhile_le _ _)
  all_goals omega

inductive RedirOp where
  | input | output | append
  deriving DecidableEq

namespace RedirOp

def symbol : RedirOp → Symbol
  | input => .lt
  | output => .gt
  | append => .gtgt

def mode : RedirOp → Nat
  | input => O_RDONLY
  | output => O_WRONLY ||| O_CREATE ||| O_TRUNC
  | append => O_WRONLY ||| O_CREATE

def fd : RedirOp → Nat
  | input => 0
  | output => 1
  | append => 1

end RedirOp

abbrev Redirection := RedirOp × List UInt8

def Redirection.tokens (r : Redirection) : List Token := [.sym r.1.symbol, .word r.2]

def Redirection.redir (r : Redirection) : Redir (List UInt8) := ⟨r.2, r.1.mode, r.1.fd⟩

def redirTokens (rs : List Redirection) : List Token := rs.flatMap Redirection.tokens

def redirected (c : Cmd (List UInt8)) (rs : List Redirection) : Cmd (List UInt8) :=
  redircmds c (rs.map Redirection.redir)

abbrev Arg := List UInt8 × List Redirection

def argTokens (as : List Arg) : List Token := as.flatMap fun a => .word a.1 :: redirTokens a.2

def backs : Nat → Cmd (List UInt8) → Cmd (List UInt8)
  | 0, c => c
  | n + 1, c => backs n (.back c)

inductive Nonterminal where
  | line | pipe | exec

/-- The derivations of
`line ::= pipe '&'* [';' line]`, `pipe ::= exec ['|' pipe]` and
`exec ::= '(' line ')' redir* | redir* (word redir*)*`, and their trees. -/
inductive Derives : Nonterminal → List Token → Cmd (List UInt8) → Prop where
  | line {ts : List Token} {c : Cmd (List UInt8)} (n : Nat) :
      Derives .pipe ts c → Derives .line (ts ++ .replicate n (.sym .amp)) (backs n c)
  | list {ts us : List Token} {c d : Cmd (List UInt8)} (n : Nat) :
      Derives .pipe ts c → Derives .line us d →
      Derives .line (ts ++ .replicate n (.sym .amp) ++ .sym .semi :: us) (.list (backs n c) d)
  | exec {ts : List Token} {c : Cmd (List UInt8)} : Derives .exec ts c → Derives .pipe ts c
  | pipe {ts us : List Token} {c d : Cmd (List UInt8)} :
      Derives .exec ts c → Derives .pipe us d → Derives .pipe (ts ++ .sym .bar :: us) (.pipe c d)
  | block {ts : List Token} {c : Cmd (List UInt8)} (rs : List Redirection) :
      Derives .line ts c →
      Derives .exec (.sym .lparen :: ts ++ .sym .rparen :: redirTokens rs) (redirected c rs)
  | words (rs : List Redirection) (as : List Arg) : as.length < MAXARGS →
      Derives .exec (redirTokens rs ++ argTokens as)
        (redirected (.exec (as.map Prod.fst)) (rs ++ as.flatMap Prod.snd))

namespace Cmd

variable {α β : Type}

def map (f : α → β) : Cmd α → Cmd β
  | exec argv => exec (argv.map f)
  | redir c file mode fd => redir (c.map f) (f file) mode fd
  | pipe l r => pipe (l.map f) (r.map f)
  | list l r => list (l.map f) (r.map f)
  | back c => back (c.map f)

def words : Cmd α → List α
  | exec argv => argv
  | redir c file _ _ => c.words ++ [file]
  | pipe l r => l.words ++ r.words
  | list l r => l.words ++ r.words
  | back c => c.words

end Cmd

def Redir.map {α β : Type} (f : α → β) (r : Redir α) : Redir β := ⟨f r.file, r.mode, r.fd⟩

theorem map_redircmds {α β : Type} (f : α → β) (c : Cmd α) (rs : List (Redir α)) :
    (redircmds c rs).map f = redircmds (c.map f) (rs.map (Redir.map f)) := by
  induction rs generalizing c with
  | nil => rfl
  | cons r rs ih => exact ih _

theorem words_redircmds {α : Type} (c : Cmd α) (rs : List (Redir α)) :
    (redircmds c rs).words = c.words ++ rs.map Redir.file := by
  induction rs generalizing c with
  | nil => exact (List.append_nil _).symm
  | cons r rs ih =>
    rw [List.map_cons, List.append_cons]
    exact ih _

variable {str s e toks : List UInt8} {ts : List Token} {c : UInt8}

theorem tokens_space (h : isSpace c = true) (s : List UInt8) : tokens (c :: s) = tokens s := by
  rw [tokens, if_pos h]

theorem tokens_skipSpace (s : List UInt8) : tokens (skipSpace s) = tokens s := by
  induction s with
  | nil => rfl
  | cons c s ih =>
    rw [skipSpace, List.dropWhile_cons]
    split_ifs with h
    · rw [tokens_space h]
      exact ih
    · rfl

theorem head_dropWhile {p : UInt8 → Bool} (h : (s.dropWhile p).head? = some c) : p c = false := by
  have hnot := List.head?_dropWhile_not p s
  rwa [h] at hnot

theorem isSpace_head_skipSpace (s : List UInt8) : ∀ c, (skipSpace s).head? = some c → isSpace c = false :=
  fun _ hc => head_dropWhile hc

theorem mem_symbols (hs : isSpace c = false) (hw : isWordChar c = false) : c ∈ symbols := by
  rw [isWordChar, Bool.and_eq_false_iff, Bool.not_eq_false', Bool.not_eq_false'] at hw
  rcases hw with hw | hw
  · rw [isSpace, hw] at hs
    cases hs
  · exact List.contains_iff_mem.mp hw

theorem not_mem_symbols (hw : isWordChar c = true) : c ∉ symbols := by
  rw [isWordChar, Bool.and_eq_true, Bool.not_eq_true', Bool.not_eq_true'] at hw
  intro h
  rw [List.contains_iff_mem.mpr h] at hw
  cases hw.2

theorem lexToken_word (hw : isWordChar c = true) (s : List UInt8) :
    lexToken (c :: s) = (.word, s.dropWhile isWordChar) := by
  have h := not_mem_symbols hw
  simp only [symbols, List.mem_cons, List.not_mem_nil, or_false, not_or] at h
  obtain ⟨h60, h124, h62, h38, h59, h40, h41⟩ := h
  rw [lexToken, if_neg h124, if_neg h40, if_neg h41, if_neg h59, if_neg h38, if_neg h60, if_neg h62,
    List.dropWhile_cons_of_pos hw]

theorem lexToken_symbol (h : c ∈ symbols) (s : List UInt8) :
    lexToken (c :: s) =
      if c = 62 ∧ s.head? = some 62 then (.sym .gtgt, s.tail) else (.sym (symbolOf c), s) := by
  simp only [symbols, List.mem_cons, List.not_mem_nil, or_false] at h
  rcases h with rfl | rfl | rfl | rfl | rfl | rfl | rfl
  -- only `>` looks at the next character
  case inr.inr.inl => by_cases hs : s.head? = some 62 <;> simp [lexToken, symbolOf, hs]
  all_goals rfl

theorem tokens_eq_lexToken (h : ∀ c, s.head? = some c → isSpace c = false) :
    tokens s = match lexToken s with
      | (.eof, _) => []
      | (.sym x, e) => .sym x :: tokens e
      | (.word, e) => .word (s.takeWhile isWordChar) :: tokens e := by
  cases s with
  | nil => rw [tokens]; rfl
  | cons c s =>
    have hc : isSpace c = false := h c rfl
    rw [tokens, if_neg (by rw [hc]; exact Bool.false_ne_true)]
    by_cases hw : isWordChar c = true
    · rw [if_pos hw, lexToken_word hw, List.takeWhile_cons_of_pos hw]
    · rw [if_neg hw, lexToken_symbol (mem_symbols hc (Bool.eq_false_iff.mpr hw))]
      split_ifs <;> rfl

def Span.text (str : List UInt8) (q : Span) : List UInt8 := (str.drop q.start).take (q.stop - q.start)

structure IsWord (str : List UInt8) (q : Span) : Prop where
  nonempty : q.start < q.stop
  inside : q.stop ≤ str.length
  chars : ∀ c ∈ q.text str, isWordChar c = true
  maximal : ∀ c, str[q.stop]? = some c → isWordChar c = false

structure At (str : List UInt8) (ts : List Token) (s : List UInt8) : Prop where
  suffix : s <:+ str
  tokens : tokens s = ts

theorem skipSpace_suffix (s : List UInt8) : skipSpace s <:+ s := List.dropWhile_suffix _

theorem At.skipSpace (h : At str ts s) : At str ts (skipSpace s) :=
  ⟨(skipSpace_suffix s).trans h.suffix, (tokens_skipSpace s).trans h.tokens⟩

theorem lexToken_suffix (s : List UInt8) : (lexToken s).2 <:+ s := by
  cases s with
  | nil => exact List.suffix_rfl
  | cons c s =>
    rw [lexToken]
    split_ifs
    all_goals first
      | exact List.suffix_cons c s
      | exact (List.tail_suffix s).trans (List.suffix_cons c s)
      | exact List.dropWhile_suffix _

theorem Span.text_of_suffix {w : List UInt8} (h : w ++ e <:+ str) :
    (Span.mk (str.length - (w ++ e).length) (str.length - e.length)).text str = w ∧
      str[str.length - e.length]? = e.head? := by
  obtain ⟨pre, rfl⟩ := h
  have hstart : (pre ++ (w ++ e)).length - (w ++ e).length = pre.length := by simp
  have hstop : (pre ++ (w ++ e)).length - e.length = (pre ++ w).length := by
    rw [← List.append_assoc, List.length_append, Nat.add_sub_cancel]
  constructor
  · rw [Span.text, hstart, hstop, List.drop_left, List.length_append, Nat.add_sub_cancel_left, List.take_left]
  · rw [hstop, ← List.append_assoc, List.getElem?_append_right le_rfl, Nat.sub_self, List.head?_eq_getElem?]

theorem isWord_of_suffix {q : List UInt8} (h : q <:+ str) (hne : q.takeWhile isWordChar ≠ []) :
    let sp := Span.mk (str.length - q.length) (str.length - (q.dropWhile isWordChar).length)
    IsWord str sp ∧ sp.text str = q.takeWhile isWordChar := by
  have hq : q = q.takeWhile isWordChar ++ q.dropWhile isWordChar := List.takeWhile_append_dropWhile.symm
  have hlen := congrArg List.length hq
  rw [List.length_append] at hlen
  have hpos : 0 < (q.takeWhile isWordChar).length := List.length_pos_iff.mpr hne
  have hle := h.length_le
  rw [hq] at h
  obtain ⟨htext, hnext⟩ := Span.text_of_suffix h
  rw [← hq] at htext
  refine ⟨⟨?_, ?_, ?_, ?_⟩, htext⟩
  · dsimp only
    omega
  · exact Nat.sub_le _ _
  · rw [htext]
    exact fun c hc => List.mem_takeWhile_imp hc
  · intro c hc
    rw [hnext] at hc
    exact head_dropWhile hc

theorem lexToken_eof (h : lexToken s = (.eof, e)) : s = [] := by
  cases s with
  | nil => rfl
  | cons c s =>
    rw [lexToken] at h
    split_ifs at h <;> cases h

theorem lexToken_eq_word (hs : ∀ c, s.head? = some c → isSpace c = false)
    (h : lexToken s = (.word, e)) : e = s.dropWhile isWordChar ∧ s.takeWhile isWordChar ≠ [] := by
  cases s with
  | nil => cases h
  | cons c s =>
    by_cases hw : isWordChar c = true
    · rw [lexToken_word hw] at h
      rw [List.dropWhile_cons_of_pos hw, List.takeWhile_cons_of_pos hw]
      exact ⟨(Prod.mk.inj h).2.symm, List.cons_ne_nil _ _⟩
    · rw [lexToken_symbol (mem_symbols (hs c rfl) (Bool.eq_false_iff.mpr hw))] at h
      split_ifs at h <;> cases h

/-- The result of `gettoken` on the tokens, and where the parser stands then. -/
def Taken (str : List UInt8) (r : Ret × Span) (s' : List UInt8) : List Token → Prop
  | [] => r.1 = .eof ∧ At str [] s'
  | .sym x :: us => r.1 = .sym x ∧ At str us s'
  | .word w :: us => r.1 = .word ∧ IsWord str r.2 ∧ r.2.text str = w ∧ At str us s'

theorem gettoken_spec (h : At str ts s) :
    Wp (gettoken str.length) (fun r s' => Taken str r s' ts) s := by
  refine ⟨((lexToken (skipSpace s)).1, ⟨str.length - (skipSpace s).length,
    str.length - (lexToken (skipSpace s)).2.length⟩), skipSpace (lexToken (skipSpace s)).2, rfl, ?_⟩
  have hq := h.skipSpace
  have hspace := isSpace_head_skipSpace s
  have hlex := tokens_eq_lexToken hspace
  have hafter : At str (tokens (lexToken (skipSpace s)).2) (skipSpace (lexToken (skipSpace s)).2) :=
    At.skipSpace ⟨(lexToken_suffix _).trans hq.suffix, rfl⟩
  rw [hq.tokens] at hlex
  rcases hl : lexToken (skipSpace s) with ⟨ret, e⟩
  rw [hl] at hlex hafter
  dsimp only at hlex hafter
  cases ret with
  | eof =>
    subst hlex
    have he : e = [] := by
      rw [lexToken_eof hl] at hl
      exact (Prod.mk.inj hl).2.symm
    rw [he, show tokens [] = [] by rw [tokens]] at hafter
    rw [he]
    exact ⟨rfl, hafter⟩
  | sym x =>
    subst hlex
    exact ⟨rfl, hafter⟩
  | word =>
    subst hlex
    obtain ⟨rfl, hne⟩ := lexToken_eq_word hspace hl
    obtain ⟨hword, htext⟩ := isWord_of_suffix hq.suffix hne
    exact ⟨rfl, hword, htext, hafter⟩

def Symbol.char : Symbol → UInt8
  | bar => 124
  | lparen => 40
  | rparen => 41
  | semi => 59
  | amp => 38
  | lt => 60
  | gt => 62
  | gtgt => 62

theorem char_symbolOf (h : c ∈ symbols) : (symbolOf c).char = c := by
  simp only [symbols, List.mem_cons, List.not_mem_nil, or_false] at h
  rcases h with rfl | rfl | rfl | rfl | rfl | rfl | rfl <;> rfl

def startsIn (toks : List UInt8) : List Token → Bool
  | .sym x :: _ => toks.contains x.char
  | _ => false

theorem startsIn_tokens (htoks : toks ⊆ symbols) (hs : ∀ c, s.head? = some c → isSpace c = false) :
    startsIn toks (tokens s) = s.head?.any toks.contains := by
  cases s with
  | nil => rw [tokens]; rfl
  | cons c s =>
    rw [tokens, if_neg (by rw [hs c rfl]; exact Bool.false_ne_true), List.head?_cons, Option.any_some]
    by_cases hw : isWordChar c = true
    · rw [if_pos hw]
      exact (Bool.eq_false_iff.mpr fun h => not_mem_symbols hw (htoks (List.contains_iff_mem.mp h))).symm
    · rw [if_neg hw]
      split_ifs with hgt
      · rw [startsIn, hgt.1]
        rfl
      · rw [startsIn, char_symbolOf (mem_symbols (hs c rfl) (Bool.eq_false_iff.mpr hw))]

theorem peek_spec (htoks : toks ⊆ symbols) (h : At str ts s) :
    Wp (peek toks) (fun b s' => b = startsIn toks ts ∧ At str ts s') s := by
  refine wp_bind (wp_get (wp_bind (wp_modify (wp_pure ⟨?_, h.skipSpace⟩))))
  rw [← h.skipSpace.tokens]
  exact (startsIn_tokens htoks (isSpace_head_skipSpace s)).symm

end Xv6.Shell
