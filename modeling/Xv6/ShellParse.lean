import Xv6.ShellGrammar

/-! The parser accepts exactly the lines of the grammar. -/

namespace Xv6.Shell

open StateProg

variable {str s toks : List UInt8} {ts : List Token} {n : Nat} {rs : List (Redir Span)}
  {argv : List Span} {x : Symbol}

abbrev NoFuel : Fault → Prop := fun e => e ≠ .fuel

def Cmd.text (str : List UInt8) (c : Cmd Span) : Cmd (List UInt8) := c.map (Span.text str)

def Cmd.Within (str : List UInt8) (c : Cmd Span) : Prop := ∀ q ∈ c.words, IsWord str q

theorem exists_of_startsIn (h : startsIn toks ts = true) :
    ∃ x us, ts = .sym x :: us ∧ x.char ∈ toks := by
  match ts, h with
  | .sym x :: us, h => exact ⟨x, us, rfl, List.contains_iff_mem.mp h⟩

theorem skip_spec {us : List Token} (h : At str (.sym x :: us) s) :
    Wp (gettoken str.length) (fun r s' => r.1 = .sym x ∧ At str us s') s :=
  gettoken_spec h

theorem peek_upTo (htoks : toks ⊆ symbols) (h : At str ts s) {α : Type} {f : Bool → Parser α}
    {Q : α → List UInt8 → Prop} (hf : ∀ s', At str ts s' → WpUpTo NoFuel (f (startsIn toks ts)) Q s') :
    WpUpTo NoFuel (peek toks >>= f) Q s := by
  refine upTo_bind (upTo_of_wp ((peek_spec htoks h).mono ?_))
  rintro _ s' ⟨rfl, hs'⟩
  exact hf s' hs'

theorem redirOp_of_char (h : x.char ∈ ([60, 62] : List UInt8)) : ∃ op : RedirOp, x = op.symbol := by
  cases x
  case lt => exact ⟨.input, rfl⟩
  case gt => exact ⟨.output, rfl⟩
  case gtgt => exact ⟨.append, rfl⟩
  all_goals exact absurd h (by decide)

theorem redirOf_symbol (op : RedirOp) (q : Span) : redirOf (.sym op.symbol) q = [⟨q, op.mode, op.fd⟩] := by
  cases op <;> rfl

structure ReadRedirs (str : List UInt8) (ts : List Token) (rs : List (Redir Span)) (s : List UInt8) : Prop where
  read : ∃ us ts', ts = redirTokens us ++ ts' ∧ At str ts' s ∧
    rs.map (Redir.map (Span.text str)) = us.map Redirection.redir
  words : ∀ q ∈ rs.map Redir.file, IsWord str q

theorem parseredirs_sound (h : At str ts s) (hn : ts.length < n) :
    WpUpTo NoFuel (parseredirs str.length n) (ReadRedirs str ts) s := by
  induction n generalizing ts s with
  | zero => exact absurd hn (Nat.not_lt_zero _)
  | succ n ih =>
    rw [parseredirs]
    refine peek_upTo (by decide) h fun s hs => ?_
    split_ifs with hredir
    · obtain ⟨x, us, rfl, hx⟩ := exists_of_startsIn hredir
      obtain ⟨op, rfl⟩ := redirOp_of_char hx
      refine upTo_bind (upTo_of_wp ((skip_spec hs).mono ?_))
      rintro ⟨_, _⟩ s ⟨rfl, hs⟩
      refine upTo_bind (upTo_of_wp ((gettoken_spec hs).mono ?_))
      rintro ⟨tok, q⟩ s hs
      match us, hs, hn with
      | [], ⟨htok, _⟩, _ =>
        dsimp only at htok ⊢
        rw [htok]
        exact upTo_throw nofun
      | .sym y :: us, ⟨htok, _⟩, _ =>
        dsimp only at htok ⊢
        rw [htok]
        exact upTo_throw nofun
      | .word w :: us, ⟨htok, hw, htext, hs⟩, hn =>
        dsimp only at htok hw htext ⊢
        rw [htok]
        refine upTo_bind ((ih hs (by simp only [List.length_cons] at hn; omega)).mono ?_)
        rintro rs s ⟨⟨vs, ts', rfl, hs, hmap⟩, hwords⟩
        refine upTo_pure ⟨⟨(op, w) :: vs, ts', rfl, hs, ?_⟩, ?_⟩
        · rw [redirOf_symbol, List.singleton_append, List.map_cons, List.map_cons, hmap, ← htext]
          rfl
        · rw [redirOf_symbol, List.singleton_append, List.map_cons]
          exact List.forall_mem_cons.mpr ⟨hw, hwords⟩
    · exact upTo_pure ⟨⟨[], ts, rfl, hs, rfl⟩, fun _ hq => absurd hq List.not_mem_nil⟩

/-- What the loop of `parseexec` has read behind the words `argv` and redirections `rs`. -/
structure ReadArgs (str : List UInt8) (ts : List Token) (argv : List Span) (rs : List (Redir Span))
    (r : List Span × List (Redir Span)) (s : List UInt8) : Prop where
  read : ∃ as ts', ts = argTokens as ++ ts' ∧ At str ts' s ∧
    r.1.map (Span.text str) = argv.map (Span.text str) ++ as.map Prod.fst ∧
    r.2.map (Redir.map (Span.text str)) =
      rs.map (Redir.map (Span.text str)) ++ (as.flatMap Prod.snd).map Redirection.redir
  short : r.1.length < MAXARGS
  words : (∀ q ∈ argv ++ rs.map Redir.file, IsWord str q) → ∀ q ∈ r.1 ++ r.2.map Redir.file, IsWord str q

theorem ReadArgs.done (h : At str ts s) (hargv : argv.length < MAXARGS) :
    ReadArgs str ts argv rs (argv, rs) s where
  read := ⟨[], ts, rfl, h, (List.append_nil _).symm, (List.append_nil _).symm⟩
  short := hargv
  words := id

theorem parseargs_sound (h : At str ts s) (hn : ts.length < n) (hargv : argv.length < MAXARGS) :
    WpUpTo NoFuel (parseargs str.length n argv rs) (ReadArgs str ts argv rs) s := by
  induction n generalizing ts s argv rs with
  | zero => exact absurd hn (Nat.not_lt_zero _)
  | succ n ih =>
    rw [parseargs]
    refine peek_upTo (by decide) h fun s hs => ?_
    split_ifs with hstop
    · exact upTo_pure (.done hs hargv)
    · refine upTo_bind (upTo_of_wp ((gettoken_spec hs).mono ?_))
      rintro ⟨tok, q⟩ s htaken
      match ts, htaken, hn with
      | [], ⟨htok, hs⟩, _ =>
        cases htok
        exact upTo_pure (.done hs hargv)
      | .sym y :: us, ⟨htok, _⟩, _ =>
        cases htok
        exact upTo_throw nofun
      | .word w :: us, ⟨htok, hw, htext, hs⟩, hn =>
        cases htok
        rw [List.length_cons] at hn
        dsimp only
        split_ifs with hmany
        · exact upTo_throw nofun
        · refine upTo_bind ((parseredirs_sound hs (by omega)).mono ?_)
          rintro rs' s ⟨⟨vs, ts', rfl, hs, hmap⟩, hwords⟩
          rw [List.length_append] at hn
          refine (ih hs (by omega) (by omega)).mono ?_
          rintro r s ⟨⟨as, ts'', rfl, hs, hargs, hredirs⟩, hshort, hrest⟩
          refine ⟨⟨(w, vs) :: as, ts'', ?_, hs, ?_, ?_⟩, hshort, ?_⟩
          · simp only [argTokens, List.flatMap_cons, List.cons_append, List.append_assoc]
          · rw [hargs, List.map_append, List.append_assoc, ← htext]
            rfl
          · rw [hredirs, List.map_append, hmap, List.flatMap_cons, List.map_append, List.append_assoc]
          · intro hall
            apply hrest
            simp only [List.map_append, List.forall_mem_append, List.forall_mem_singleton] at hall ⊢
            exact ⟨⟨hall.1, hw⟩, hall.2, hwords⟩

theorem parsebacks_sound {c : Cmd Span} (h : At str ts s) (hn : ts.length < n) :
    WpUpTo NoFuel (parsebacks str.length n c) (fun c' s' => ∃ k ts',
      ts = List.replicate k (.sym .amp) ++ ts' ∧ At str ts' s' ∧ c'.text str = backs k (c.text str) ∧
      c'.words = c.words) s := by
  induction n generalizing ts s c with
  | zero => exact absurd hn (Nat.not_lt_zero _)
  | succ n ih =>
    rw [parsebacks]
    refine peek_upTo (by decide) h fun s hs => ?_
    split_ifs with hamp
    · obtain ⟨x, us, rfl, hx⟩ := exists_of_startsIn hamp
      obtain rfl : x = .amp := by revert hx; cases x <;> decide
      refine upTo_bind (upTo_of_wp ((skip_spec hs).mono ?_))
      rintro r s ⟨-, hs⟩
      rw [List.length_cons] at hn
      refine (ih hs (by omega)).mono ?_
      rintro c' s ⟨k, ts', rfl, hs, htext, hwords⟩
      exact ⟨k + 1, ts', rfl, hs, htext, hwords⟩
    · exact upTo_pure ⟨0, ts, rfl, hs, rfl, rfl⟩

namespace Nonterminal

def parser (es : Nat) : Nonterminal → Nat → Parser (Cmd Span)
  | line => parseline es
  | pipe => parsepipe es
  | exec => parseexec es

def depth : Nonterminal → Nat
  | line => 4
  | pipe => 3
  | exec => 2

end Nonterminal

/-- What the parser of a nonterminal has read: a derivation of the tokens it went past. -/
def ReadCmd (str : List UInt8) (ts : List Token) (x : Nonterminal) (c : Cmd Span) (s : List UInt8) : Prop :=
  ∃ us ts', ts = us ++ ts' ∧ At str ts' s ∧ Derives x us (c.text str) ∧ c.Within str

def SoundTo (str : List UInt8) (n : Nat) (x : Nonterminal) : Prop :=
  ∀ ts s, At str ts s → 4 * ts.length + x.depth ≤ n → WpUpTo NoFuel (x.parser str.length n) (ReadCmd str ts x) s

theorem parsepipe_sound (hexec : SoundTo str n .exec) (hpipe : SoundTo str n .pipe) :
    SoundTo str (n + 1) .pipe := by
  intro ts s h hn
  change WpUpTo NoFuel (parsepipe str.length (n + 1)) _ s
  rw [parsepipe]
  refine upTo_bind ((hexec ts s h (by simp only [Nonterminal.depth] at hn ⊢; omega)).mono ?_)
  rintro c s ⟨us, ts, rfl, hs, hc, hin⟩
  refine peek_upTo (by decide) hs fun s hs => ?_
  split_ifs with hbar
  · obtain ⟨x, vs, rfl, hx⟩ := exists_of_startsIn hbar
    obtain rfl : x = .bar := by revert hx; cases x <;> decide
    refine upTo_bind (upTo_of_wp ((skip_spec hs).mono ?_))
    rintro r s ⟨-, hs⟩
    refine upTo_bind ((hpipe vs s hs ?_).mono ?_)
    · simp only [Nonterminal.depth, List.length_append, List.length_cons] at hn ⊢
      omega
    · rintro d s ⟨vs, ts, rfl, hs, hd, hind⟩
      refine upTo_pure ⟨us ++ .sym .bar :: vs, ts, ?_, hs, .pipe hc hd, ?_⟩
      · rw [List.append_assoc, List.cons_append]
      · exact List.forall_mem_append.mpr ⟨hin, hind⟩
  · exact upTo_pure ⟨us, ts, rfl, hs, .exec hc, hin⟩

theorem parseline_sound (hpipe : SoundTo str n .pipe) (hline : SoundTo str n .line) :
    SoundTo str (n + 1) .line := by
  intro ts s h hn
  change WpUpTo NoFuel (parseline str.length (n + 1)) _ s
  rw [parseline]
  refine upTo_bind ((hpipe ts s h (by simp only [Nonterminal.depth] at hn ⊢; omega)).mono ?_)
  rintro c s ⟨us, ts, rfl, hs, hc, hin⟩
  simp only [Nonterminal.depth, List.length_append] at hn
  refine upTo_bind ((parsebacks_sound hs (by omega)).mono ?_)
  rintro b s ⟨k, ts, rfl, hs, hb, hwords⟩
  have hinb : b.Within str := fun q hq => hin q (hwords ▸ hq)
  refine peek_upTo (by decide) hs fun s hs => ?_
  split_ifs with hsemi
  · obtain ⟨x, vs, rfl, hx⟩ := exists_of_startsIn hsemi
    obtain rfl : x = .semi := by revert hx; cases x <;> decide
    refine upTo_bind (upTo_of_wp ((skip_spec hs).mono ?_))
    rintro r s ⟨-, hs⟩
    refine upTo_bind ((hline vs s hs ?_).mono ?_)
    · simp only [Nonterminal.depth, List.length_append, List.length_cons] at hn ⊢
      omega
    · rintro d s ⟨vs, ts, rfl, hs, hd, hind⟩
      refine upTo_pure ⟨us ++ .replicate k (.sym .amp) ++ .sym .semi :: vs, ts, ?_, hs, ?_, ?_⟩
      · simp only [List.append_assoc, List.cons_append]
      · change Derives .line _ (.list (b.text str) (d.text str))
        rw [hb]
        exact .list k hc hd
      · exact List.forall_mem_append.mpr ⟨hinb, hind⟩
  · refine upTo_pure ⟨us ++ .replicate k (.sym .amp), ts, (List.append_assoc ..).symm, hs, ?_, hinb⟩
    rw [hb]
    exact .line k hc

theorem parseblock_sound (hline : SoundTo str n .line) (h : At str ts s) (hn : 4 * ts.length + 1 ≤ n + 1) :
    WpUpTo NoFuel (parseblock str.length (n + 1)) (ReadCmd str ts .exec) s := by
  rw [parseblock]
  refine peek_upTo (by decide) h fun s hs => ?_
  cases hopen : startsIn [40] ts with
  | false => exact upTo_throw nofun
  | true =>
    obtain ⟨x, us, rfl, hx⟩ := exists_of_startsIn hopen
    obtain rfl : x = .lparen := by revert hx; cases x <;> decide
    refine upTo_bind (upTo_of_wp ((skip_spec hs).mono ?_))
    rintro r s ⟨-, hs⟩
    rw [List.length_cons] at hn
    refine upTo_bind ((hline us s hs (by simp only [Nonterminal.depth]; omega)).mono ?_)
    rintro c s ⟨us, ts, rfl, hs, hc, hin⟩
    refine peek_upTo (by decide) hs fun s hs => ?_
    cases hclose : startsIn [41] ts with
    | false => exact upTo_throw nofun
    | true =>
      obtain ⟨x, vs, rfl, hx⟩ := exists_of_startsIn hclose
      obtain rfl : x = .rparen := by revert hx; cases x <;> decide
      refine upTo_bind (upTo_of_wp ((skip_spec hs).mono ?_))
      rintro r s ⟨-, hs⟩
      rw [List.length_append, List.length_cons] at hn
      refine upTo_bind ((parseredirs_sound hs (by omega)).mono ?_)
      rintro rs s ⟨⟨vs, ts, rfl, hs, hmap⟩, hwords⟩
      refine upTo_pure ⟨.sym .lparen :: us ++ .sym .rparen :: redirTokens vs, ts, ?_, hs, ?_, ?_⟩
      · simp only [List.append_assoc, List.cons_append]
      · rw [Cmd.text, map_redircmds, hmap]
        exact .block vs hc
      · rw [Cmd.Within, words_redircmds]
        exact List.forall_mem_append.mpr ⟨hin, hwords⟩

theorem parseexec_sound (hblock : ∀ ts s, At str ts s → 4 * ts.length + 1 ≤ n →
      WpUpTo NoFuel (parseblock str.length n) (ReadCmd str ts .exec) s) :
    SoundTo str (n + 1) .exec := by
  intro ts s h hn
  simp only [Nonterminal.depth] at hn
  change WpUpTo NoFuel (parseexec str.length (n + 1)) _ s
  rw [parseexec]
  refine peek_upTo (by decide) h fun s hs => ?_
  split_ifs with hopen
  · exact hblock ts s hs (by omega)
  · refine upTo_bind ((parseredirs_sound hs (by omega)).mono ?_)
    rintro rs s ⟨⟨us, ts, rfl, hs, hmap⟩, hwords⟩
    rw [List.length_append] at hn
    refine upTo_bind ((parseargs_sound hs (by omega) (by decide)).mono ?_)
    rintro ⟨argv, rs'⟩ s ⟨⟨as, ts, rfl, hs, hargs, hredirs⟩, hshort, hall⟩
    refine upTo_pure ⟨redirTokens us ++ argTokens as, ts, (List.append_assoc ..).symm, hs, ?_, ?_⟩
    · rw [List.map_nil, List.nil_append] at hargs
      have hlen : as.length < MAXARGS := by
        rw [← List.length_map Prod.fst, ← hargs, List.length_map]
        exact hshort
      rw [Cmd.text, map_redircmds, hredirs, hmap, ← List.map_append, Cmd.map, hargs]
      exact .words us as hlen
    · rw [Cmd.Within, words_redircmds]
      exact hall hwords

theorem soundTo (str : List UInt8) (n : Nat) : SoundTo str n .line ∧ SoundTo str n .pipe ∧
    SoundTo str n .exec ∧ ∀ ts s, At str ts s → 4 * ts.length + 1 ≤ n →
      WpUpTo NoFuel (parseblock str.length n) (ReadCmd str ts .exec) s := by
  induction n with
  | zero =>
    refine ⟨?_, ?_, ?_, ?_⟩
    · exact fun ts s _ hn => absurd hn (by simp [Nonterminal.depth])
    · exact fun ts s _ hn => absurd hn (by simp [Nonterminal.depth])
    · exact fun ts s _ hn => absurd hn (by simp [Nonterminal.depth])
    · exact fun ts s _ hn => absurd hn (by simp)
  | succ n ih =>
    obtain ⟨hline, hpipe, hexec, hblock⟩ := ih
    exact ⟨parseline_sound hpipe hline, parsepipe_sound hexec hpipe, parseexec_sound hblock,
      fun ts s h hn => parseblock_sound hline h hn⟩

end Xv6.Shell
