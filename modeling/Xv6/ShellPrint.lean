import Mathlib.Data.List.Induction
import Xv6.ShellAccepts

/-! Command trees printed as lines of the grammar, and what the parser makes of every line. -/

namespace Xv6.Shell

/-- What a printed command stands in: a whole line, before `&` or `;`, a stage of a pipe, or
before redirections. -/
inductive Place where
  | line | backs | pipe | exec
  deriving DecidableEq

def parenthesized (b : Bool) (ts : List Token) : List Token :=
  if b then .sym .lparen :: ts ++ [.sym .rparen] else ts

def operator (mode : Nat) : RedirOp :=
  if mode = O_RDONLY then .input else if mode = O_WRONLY ||| O_CREATE then .append else .output

def printAt : Place → Cmd (List UInt8) → List Token
  | _, .exec argv => argv.map .word
  | _, .redir c file mode _ => printAt .exec c ++ Redirection.tokens (operator mode, file)
  | p, .pipe l r => parenthesized (p = .exec) (printAt .exec l ++ .sym .bar :: printAt .pipe r)
  | p, .list l r => parenthesized (p ≠ .line) (printAt .backs l ++ .sym .semi :: printAt .line r)
  | p, .back c => parenthesized (p = .exec ∨ p = .pipe) (printAt .backs c ++ [.sym .amp])

def Symbol.text : Symbol → List UInt8
  | bar => [124]
  | lparen => [40]
  | rparen => [41]
  | semi => [59]
  | amp => [38]
  | lt => [60]
  | gt => [62]
  | gtgt => [62, 62]

def Token.text : Token → List UInt8
  | sym x => x.text ++ [32]
  | word w => w ++ [32]

def unparse (c : Cmd (List UInt8)) : List UInt8 := (printAt .line c).flatMap Token.text

def Printable : Cmd (List UInt8) → Prop
  | .exec argv => argv.length < MAXARGS
  | .redir c _ mode fd => Printable c ∧ ∃ op : RedirOp, mode = op.mode ∧ fd = op.fd
  | .pipe l r => Printable l ∧ Printable r
  | .list l r => Printable l ∧ Printable r
  | .back c => Printable c

variable {c : Cmd (List UInt8)} {ts us : List Token} {w str : List UInt8}

theorem operator_mode (op : RedirOp) : operator op.mode = op := by
  cases op <;> rfl

theorem redirected_append (c : Cmd (List UInt8)) (rs : List Redirection) (r : Redirection) :
    redirected c (rs ++ [r]) = .redir (redirected c rs) r.2 r.1.mode r.1.fd := by
  rw [redirected, redircmds, List.map_append, List.foldl_append]
  rfl

theorem printable_redirected (rs : List Redirection) (h : Printable c) : Printable (redirected c rs) := by
  induction rs using List.reverseRecOn with
  | nil => exact h
  | append_singleton rs r ih =>
    rw [redirected_append]
    exact ⟨ih, r.1, rfl, rfl⟩

theorem printable_backs (n : Nat) (h : Printable c) : Printable (backs n c) := by
  induction n generalizing c with
  | zero => exact h
  | succ n ih => exact ih h

theorem Derives.printable {x : Nonterminal} (h : Derives x ts c) : Printable c := by
  induction h with
  | line n _ ih => exact printable_backs n ih
  | list n _ _ ihc ihd => exact ⟨printable_backs n ihc, ihd⟩
  | exec _ ih => exact ih
  | pipe _ _ ihc ihd => exact ⟨ihc, ihd⟩
  | block rs _ ih => exact printable_redirected rs ih
  | words rs as hlen => exact printable_redirected _ (by rwa [Printable, List.length_map])

theorem backs_back (n : Nat) (c : Cmd (List UInt8)) : backs n (.back c) = .back (backs n c) := by
  induction n generalizing c with
  | zero => rfl
  | succ n ih => exact ih _

theorem redirTokens_append (rs : List Redirection) (r : Redirection) :
    redirTokens (rs ++ [r]) = redirTokens rs ++ r.tokens := by
  rw [redirTokens, List.flatMap_append, List.flatMap_singleton, redirTokens]

theorem Derives.redir (h : Derives .exec ts c) (r : Redirection) :
    Derives .exec (ts ++ r.tokens) (.redir c r.2 r.1.mode r.1.fd) := by
  cases h with
  | block rs h =>
    have h := Derives.block (rs ++ [r]) h
    rw [redirTokens_append] at h
    simpa [redirected_append] using h
  | words rs as hlen =>
    rw [← redirected_append]
    cases as using List.reverseRecOn with
    | nil =>
      have h := Derives.words (rs ++ [r]) [] hlen
      rw [redirTokens_append] at h
      simpa [argTokens] using h
    | append_singleton as a =>
      have h := Derives.words rs (as ++ [(a.1, a.2 ++ [r])]) (by simpa using hlen)
      simpa [argTokens, redirTokens_append] using h

theorem Derives.parens (h : Derives .line ts c) : Derives .exec (parenthesized true ts) c := .block [] h

def DerivesBacks (ts : List Token) (c : Cmd (List UInt8)) : Prop :=
  ∃ n us d, ts = us ++ List.replicate n (.sym .amp) ∧ c = backs n d ∧ Derives .pipe us d

theorem DerivesBacks.line (h : DerivesBacks ts c) : Derives .line ts c := by
  obtain ⟨n, us, d, rfl, rfl, h⟩ := h
  exact .line n h

theorem DerivesBacks.list {d : Cmd (List UInt8)} (hc : DerivesBacks ts c) (hd : Derives .line us d) :
    Derives .line (ts ++ .sym .semi :: us) (.list c d) := by
  obtain ⟨n, us, c, rfl, rfl, hc⟩ := hc
  exact .list n hc hd

theorem DerivesBacks.back (h : DerivesBacks ts c) : DerivesBacks (ts ++ [.sym .amp]) (.back c) := by
  obtain ⟨n, us, d, rfl, rfl, h⟩ := h
  refine ⟨n + 1, us, d, ?_, (backs_back n d).symm, h⟩
  rw [List.append_assoc, ← List.replicate_succ']

theorem Derives.toBacks (h : Derives .pipe ts c) : DerivesBacks ts c :=
  ⟨0, ts, c, (List.append_nil _).symm, rfl, h⟩

structure Printed (c : Cmd (List UInt8)) : Prop where
  line : Derives .line (printAt .line c) c
  backs : DerivesBacks (printAt .backs c) c
  pipe : Derives .pipe (printAt .pipe c) c
  exec : Derives .exec (printAt .exec c) c

theorem Printed.of_exec (hp : ∀ p, printAt p c = printAt .exec c) (h : Derives .exec (printAt .exec c) c) :
    Printed c where
  line := by rw [hp]; exact h.exec.toBacks.line
  backs := by rw [hp]; exact h.exec.toBacks
  pipe := by rw [hp]; exact h.exec
  exec := h

theorem derives_words {argv : List (List UInt8)} (h : argv.length < MAXARGS) :
    Derives .exec (argv.map .word) (.exec argv) := by
  have htokens : argTokens (argv.map fun w => (w, [])) = argv.map .word := by
    rw [argTokens, List.flatMap_map]
    exact (List.map_eq_flatMap ..).symm
  have hredirs : (argv.map fun w => (w, ([] : List Redirection))).flatMap Prod.snd = [] := by simp
  have hd := Derives.words [] (argv.map fun w => (w, [])) (by rwa [List.length_map])
  rw [htokens, hredirs, List.map_map] at hd
  simpa [redirTokens, redirected, redircmds, Function.comp_def] using hd

theorem Printable.printed (h : Printable c) : Printed c := by
  induction c with
  | exec argv => exact .of_exec (fun _ => by rw [printAt, printAt]) (derives_words h)
  | redir c file mode fd ih =>
    obtain ⟨hc, op, rfl, rfl⟩ := h
    refine .of_exec (fun _ => by rw [printAt, printAt]) ?_
    rw [printAt, operator_mode]
    exact (ih hc).exec.redir (op, file)
  | pipe l r ihl ihr =>
    have hd := Derives.pipe (ihl h.1).exec (ihr h.2).pipe
    exact ⟨hd.toBacks.line, hd.toBacks, hd, hd.toBacks.line.parens⟩
  | list l r ihl ihr =>
    have hd := (ihl h.1).backs.list (ihr h.2).line
    exact ⟨hd, hd.parens.exec.toBacks, hd.parens.exec, hd.parens⟩
  | back c ih =>
    have hd := (ih h).backs.back
    exact ⟨hd.line, hd, hd.line.parens.exec, hd.line.parens⟩

theorem word_mem_parenthesized {b : Bool} (h : .word w ∈ parenthesized b ts) : .word w ∈ ts := by
  cases b with
  | false => exact h
  | true => simpa [parenthesized] using h

theorem word_mem_printAt {p : Place} (h : .word w ∈ printAt p c) : w ∈ c.words := by
  induction c generalizing p with
  | exec argv => simpa [printAt, Cmd.words] using h
  | redir c file mode fd ih =>
    rw [printAt, List.mem_append] at h
    rcases h with h | h
    · exact List.mem_append_left _ (ih h)
    · refine List.mem_append_right _ ?_
      simpa [Redirection.tokens] using h
  | pipe l r ihl ihr =>
    rw [printAt] at h
    rcases List.mem_append.mp (word_mem_parenthesized h) with h | h
    · exact List.mem_append_left _ (ihl h)
    · exact List.mem_append_right _ (ihr ((List.mem_cons.mp h).resolve_left nofun))
  | list l r ihl ihr =>
    rw [printAt] at h
    rcases List.mem_append.mp (word_mem_parenthesized h) with h | h
    · exact List.mem_append_left _ (ihl h)
    · exact List.mem_append_right _ (ihr ((List.mem_cons.mp h).resolve_left nofun))
  | back c ih =>
    rw [printAt] at h
    rcases List.mem_append.mp (word_mem_parenthesized h) with h | h
    · exact ih h
    · exact absurd (List.mem_singleton.mp h) nofun

def WordText (w : List UInt8) : Prop := w ≠ [] ∧ ∀ c ∈ w, isWordChar c = true

theorem isSpace_of_isWordChar {c : UInt8} (h : isWordChar c = true) : isSpace c = false := by
  rw [isWordChar, Bool.and_eq_true, Bool.not_eq_true'] at h
  exact h.1

theorem tokens_word (h : WordText w) (s : List UInt8) :
    tokens (w ++ 32 :: s) = .word w :: tokens s := by
  match w, h with
  | c :: w, ⟨_, hw⟩ =>
    obtain ⟨hc, hw⟩ := List.forall_mem_cons.mp hw
    rw [List.cons_append, tokens, if_neg (by rw [isSpace_of_isWordChar hc]; exact Bool.false_ne_true), if_pos hc,
      List.takeWhile_append_of_pos hw, List.dropWhile_append_of_pos hw, List.takeWhile_cons_of_neg (by decide),
      List.dropWhile_cons_of_neg (by decide), tokens_space (by decide), List.append_nil]

theorem tokens_symbol (x : Symbol) (s : List UInt8) : tokens (x.text ++ 32 :: s) = .sym x :: tokens s := by
  rw [← tokens_space (show isSpace 32 = true from rfl) s]
  cases x <;> exact tokens.eq_def _

theorem tokens_flatMap_text (h : ∀ w, .word w ∈ ts → WordText w) : tokens (ts.flatMap Token.text) = ts := by
  induction ts with
  | nil => rw [List.flatMap_nil, tokens]
  | cons t ts ih =>
    have ih := ih fun w hw => h w (List.mem_cons_of_mem _ hw)
    rw [List.flatMap_cons]
    cases t with
    | sym x => rw [Token.text, List.append_assoc, List.singleton_append, tokens_symbol, ih]
    | word w =>
      rw [Token.text, List.append_assoc, List.singleton_append, tokens_word (h w List.mem_cons_self), ih]

theorem IsWord.wordText {q : Span} (h : IsWord str q) : WordText (q.text str) := by
  refine ⟨fun he => ?_, h.chars⟩
  have hlen := congrArg List.length he
  rw [Span.text, List.length_take, List.length_drop, List.length_nil] at hlen
  have := h.nonempty
  have := h.inside
  omega

theorem words_map {α β : Type} (f : α → β) (c : Cmd α) : (c.map f).words = c.words.map f := by
  induction c with
  | exec argv => rfl
  | redir c file mode fd ih => rw [Cmd.map, Cmd.words, ih, Cmd.words, List.map_append]; rfl
  | pipe l r ihl ihr => rw [Cmd.map, Cmd.words, ihl, ihr, Cmd.words, List.map_append]
  | list l r ihl ihr => rw [Cmd.map, Cmd.words, ihl, ihr, Cmd.words, List.map_append]
  | back c ih => exact ih

theorem parsecmd_unparse {c : Cmd Span} (hc : Derives .line ts (c.text str)) (hin : c.Within str) :
    ∃ c', parsecmd (unparse (c.text str)) = .ok c' ∧ c'.text (unparse (c.text str)) = c.text str := by
  apply parsecmd_complete
  rw [unparse, tokens_flatMap_text]
  · exact hc.printable.printed.line
  · intro w hw
    have hmem := word_mem_printAt hw
    rw [Cmd.text, words_map, List.mem_map] at hmem
    obtain ⟨q, hq, rfl⟩ := hmem
    exact (hin q hq).wordText

/-- The parser always comes to an end; it returns a tree exactly if the tokens of the line derive
from the grammar, the tree of the derivation; and printing that tree gives a line with the
same tree. -/
theorem parser_accepts_grammar (str : List UInt8) :
    parsecmd str ≠ .error .fuel ∧
      (∀ t, (∃ c, parsecmd str = .ok c ∧ c.text str = t) ↔ Derives .line (tokens str) t) ∧
      ∀ c, parsecmd str = .ok c →
        ∃ c', parsecmd (unparse (c.text str)) = .ok c' ∧ c'.text (unparse (c.text str)) = c.text str := by
  have hsound := parsecmd_sound str
  refine ⟨fun h => ?_, fun t => ⟨?_, parsecmd_complete⟩, fun c h => ?_⟩
  · rw [h] at hsound
    exact hsound rfl
  · rintro ⟨c, h, rfl⟩
    rw [h] at hsound
    exact hsound.1
  · rw [h] at hsound
    exact parsecmd_unparse hsound.1 hsound.2

end Xv6.Shell
