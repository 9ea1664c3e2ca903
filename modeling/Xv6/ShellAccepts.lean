import Xv6.ShellParse

/-! Every line of the grammar is accepted, with the tree of its derivation. -/

namespace Xv6.Shell

open StateProg

variable {str s toks' : List UInt8} {ts : List Token} {n : Nat} {toks : List UInt8} {α : Type}
  {Q : α → List UInt8 → Prop}

theorem peek_wp (htoks : toks ⊆ symbols) (h : At str ts s) {f : Bool → Parser α}
    (hf : ∀ s', At str ts s' → Wp (f (startsIn toks ts)) Q s') : Wp (peek toks >>= f) Q s := by
  refine wp_bind ((peek_spec htoks h).mono ?_)
  rintro _ s' ⟨rfl, hs'⟩
  exact hf s' hs'

/-- The line ends here, or a symbol that starts with one of the characters follows. -/
def Stop (toks : List UInt8) (ts : List Token) : Prop := ts = [] ∨ startsIn toks ts = true

theorem Stop.startsIn_eq_false (h : Stop toks ts) (hd : toks.all (fun c => !toks'.contains c) = true) :
    startsIn toks' ts = false := by
  rcases h with rfl | h
  · rfl
  · obtain ⟨x, us, rfl, hx⟩ := exists_of_startsIn h
    have hx' := List.all_eq_true.mp hd _ hx
    rwa [Bool.not_eq_true'] at hx'

theorem Stop.mono (h : Stop toks ts) (hsub : toks ⊆ toks') : Stop toks' ts := by
  refine h.imp_right fun h => ?_
  obtain ⟨x, us, rfl, hx⟩ := exists_of_startsIn h
  exact List.contains_iff_mem.mpr (hsub hx)

theorem parseredirs_complete (us : List Redirection) (h : At str (redirTokens us ++ ts) s)
    (hstop : startsIn [60, 62] ts = false) (hn : us.length < n) :
    Wp (parseredirs str.length n) (fun rs s' => At str ts s' ∧
      rs.map (Redir.map (Span.text str)) = us.map Redirection.redir) s := by
  induction us generalizing n s with
  | nil =>
    obtain ⟨n, rfl⟩ := Nat.exists_eq_add_one_of_ne_zero (Nat.ne_of_gt (Nat.zero_lt_of_lt hn))
    rw [parseredirs]
    refine peek_wp (by decide) h fun s hs => ?_
    rw [show redirTokens [] ++ ts = ts from rfl] at hs ⊢
    rw [hstop]
    exact wp_pure ⟨hs, rfl⟩
  | cons u us ih =>
    obtain ⟨n, rfl⟩ := Nat.exists_eq_add_one_of_ne_zero (Nat.ne_of_gt (Nat.zero_lt_of_lt hn))
    obtain ⟨op, w⟩ := u
    rw [show redirTokens ((op, w) :: us) ++ ts = .sym op.symbol :: .word w :: (redirTokens us ++ ts)
      from rfl] at h
    rw [parseredirs]
    refine peek_wp (by decide) h fun s hs => ?_
    rw [show startsIn [60, 62] (.sym op.symbol :: .word w :: (redirTokens us ++ ts)) = true by cases op <;> rfl,
      if_pos rfl]
    refine wp_bind ((skip_spec hs).mono ?_)
    rintro ⟨_, _⟩ s ⟨rfl, hs⟩
    refine wp_bind ((gettoken_spec hs).mono ?_)
    rintro ⟨_, q⟩ s ⟨rfl, -, htext, hs⟩
    refine wp_bind ((ih hs (Nat.lt_of_succ_lt_succ hn)).mono ?_)
    rintro rs s ⟨hs, hmap⟩
    refine wp_pure ⟨hs, ?_⟩
    rw [redirOf_symbol, List.singleton_append, List.map_cons, List.map_cons, hmap, ← htext]
    rfl

theorem length_le_redirTokens (us : List Redirection) : us.length ≤ (redirTokens us).length := by
  induction us with
  | nil => exact Nat.zero_le _
  | cons u us ih =>
    change us.length + 1 ≤ (redirTokens us).length + 2
    omega

theorem startsIn_argTokens (as : List Arg) (h : startsIn toks ts = false) :
    startsIn toks (argTokens as ++ ts) = false := by
  cases as with
  | nil => exact h
  | cons a as => rfl

theorem parseargs_complete (as : List Arg) {argv : List Span} {rs : List (Redir Span)}
    (h : At str (argTokens as ++ ts) s) (hstop : Stop [124, 41, 38, 59] ts)
    (hlen : argv.length + as.length < MAXARGS) (hn : (argTokens as).length < n) :
    Wp (parseargs str.length n argv rs) (fun r s' => At str ts s' ∧
      r.1.map (Span.text str) = argv.map (Span.text str) ++ as.map Prod.fst ∧
      r.2.map (Redir.map (Span.text str)) =
        rs.map (Redir.map (Span.text str)) ++ (as.flatMap Prod.snd).map Redirection.redir) s := by
  induction as generalizing n s argv rs with
  | nil =>
    obtain ⟨n, rfl⟩ := Nat.exists_eq_add_one_of_ne_zero (Nat.ne_of_gt (Nat.zero_lt_of_lt hn))
    rw [show argTokens [] ++ ts = ts from rfl] at h
    rw [parseargs]
    refine peek_wp (by decide) h fun s hs => ?_
    rcases hstop with rfl | hstop
    · refine wp_bind ((gettoken_spec hs).mono ?_)
      rintro ⟨_, _⟩ s ⟨rfl, hs⟩
      exact wp_pure ⟨hs, (List.append_nil _).symm, (List.append_nil _).symm⟩
    · rw [hstop]
      exact wp_pure ⟨hs, (List.append_nil _).symm, (List.append_nil _).symm⟩
  | cons a as ih =>
    obtain ⟨n, rfl⟩ := Nat.exists_eq_add_one_of_ne_zero (Nat.ne_of_gt (Nat.zero_lt_of_lt hn))
    obtain ⟨w, vs⟩ := a
    have htokens : argTokens ((w, vs) :: as) = .word w :: (redirTokens vs ++ argTokens as) := rfl
    rw [htokens, List.length_cons, List.length_append] at hn
    rw [htokens, List.cons_append, List.append_assoc] at h
    rw [List.length_cons] at hlen
    have hvs := length_le_redirTokens vs
    rw [parseargs]
    refine peek_wp (by decide) h fun s hs => ?_
    refine wp_bind ((gettoken_spec hs).mono ?_)
    rintro ⟨_, q⟩ s ⟨rfl, -, htext, hs⟩
    dsimp only
    rw [if_neg (by rw [List.length_append, List.length_singleton]; omega)]
    refine wp_bind ((parseredirs_complete vs hs
      (startsIn_argTokens as (hstop.startsIn_eq_false rfl)) (by omega)).mono ?_)
    rintro rs' s ⟨hs, hmap⟩
    refine (ih hs (by rw [List.length_append, List.length_singleton]; omega) (by omega)).mono ?_
    rintro r s ⟨hs, hargs, hredirs⟩
    refine ⟨hs, ?_, ?_⟩
    · rw [hargs, List.map_append, List.append_assoc, ← htext]
      rfl
    · rw [hredirs, List.map_append, hmap, List.flatMap_cons, List.map_append, List.append_assoc]

theorem parsebacks_complete (k : Nat) {c : Cmd Span} (h : At str (List.replicate k (.sym .amp) ++ ts) s)
    (hstop : startsIn [38] ts = false) (hn : k < n) :
    Wp (parsebacks str.length n c) (fun c' s' => At str ts s' ∧ c'.text str = backs k (c.text str)) s := by
  induction k generalizing n s c with
  | zero =>
    obtain ⟨n, rfl⟩ := Nat.exists_eq_add_one_of_ne_zero (Nat.ne_of_gt (Nat.zero_lt_of_lt hn))
    rw [List.replicate_zero, List.nil_append] at h
    rw [parsebacks]
    refine peek_wp (by decide) h fun s hs => ?_
    rw [hstop]
    exact wp_pure ⟨hs, rfl⟩
  | succ k ih =>
    obtain ⟨n, rfl⟩ := Nat.exists_eq_add_one_of_ne_zero (Nat.ne_of_gt (Nat.zero_lt_of_lt hn))
    rw [List.replicate_succ, List.cons_append] at h
    rw [parsebacks]
    refine peek_wp (by decide) h fun s hs => ?_
    refine wp_bind ((skip_spec hs).mono ?_)
    rintro r s ⟨-, hs⟩
    exact ih hs (Nat.lt_of_succ_lt_succ hn)

def Nonterminal.follow : Nonterminal → List UInt8
  | line => [41]
  | pipe => [41, 38, 59]
  | exec => [124, 41, 38, 59]

theorem startsIn_redirTokens (us : List Redirection) (h : startsIn [40] ts = false) :
    startsIn [40] (redirTokens us ++ ts) = false := by
  match us with
  | [] => exact h
  | (op, w) :: us => cases op <;> rfl

/-- The parser of `x` accepts the tokens `us`, with the tree `t`, when it may go `n` calls deep. -/
def Accepts (str : List UInt8) (x : Nonterminal) (us : List Token) (t : Cmd (List UInt8)) : Prop :=
  ∀ n s ts, At str (us ++ ts) s → Stop x.follow ts → 4 * us.length + x.depth ≤ n →
    Wp (x.parser str.length n) (fun c s' => At str ts s' ∧ c.text str = t) s

variable {us vs : List Token} {t u : Cmd (List UInt8)}

theorem accepts_backs (hpipe : Accepts str .pipe us t) (k : Nat) {f : Cmd Span → Parser α}
    (h : At str (us ++ (List.replicate k (.sym .amp) ++ ts)) s) (hstop : Stop [41, 59] ts)
    (hn : 4 * us.length + 3 ≤ n) (hk : k < n)
    (hf : ∀ c s', At str ts s' → c.text str = backs k t → Wp (f c) Q s') :
    Wp (parsepipe str.length n >>= fun c => parsebacks str.length n c >>= f) Q s := by
  have hfollow : Stop Nonterminal.pipe.follow (List.replicate k (.sym .amp) ++ ts) := by
    cases k with
    | zero => exact hstop.mono (by decide)
    | succ k => exact .inr rfl
  refine wp_bind ((hpipe n s _ h hfollow hn).mono ?_)
  rintro c s ⟨hs, rfl⟩
  refine wp_bind ((parsebacks_complete k hs (hstop.startsIn_eq_false rfl) hk).mono ?_)
  rintro c' s ⟨hs, hc⟩
  exact hf c' s hs hc

theorem accepts_line (hpipe : Accepts str .pipe us t) (k : Nat) :
    Accepts str .line (us ++ .replicate k (.sym .amp)) (backs k t) := by
  intro n s ts h hstop hn
  rw [List.append_assoc] at h
  simp only [Nonterminal.depth, List.length_append, List.length_replicate] at hn
  obtain ⟨n, rfl⟩ := Nat.exists_eq_add_one_of_ne_zero (show n ≠ 0 by omega)
  change Wp (parseline str.length (n + 1)) _ s
  rw [parseline]
  refine accepts_backs hpipe k h (hstop.mono (by decide)) (by omega) (by omega) fun c s hs hc => ?_
  refine peek_wp (by decide) hs fun s hs => ?_
  rw [hstop.startsIn_eq_false rfl]
  exact wp_pure ⟨hs, hc⟩

theorem accepts_list (hpipe : Accepts str .pipe us t) (k : Nat) (hline : Accepts str .line vs u) :
    Accepts str .line (us ++ .replicate k (.sym .amp) ++ .sym .semi :: vs) (.list (backs k t) u) := by
  intro n s ts h hstop hn
  simp only [List.append_assoc, List.cons_append] at h
  simp only [Nonterminal.depth, List.length_append, List.length_replicate, List.length_cons] at hn
  obtain ⟨n, rfl⟩ := Nat.exists_eq_add_one_of_ne_zero (show n ≠ 0 by omega)
  change Wp (parseline str.length (n + 1)) _ s
  rw [parseline]
  refine accepts_backs hpipe k h (.inr rfl) (by omega) (by omega) fun c s hs hc => ?_
  refine peek_wp (by decide) hs fun s hs => ?_
  refine wp_bind ((skip_spec hs).mono ?_)
  rintro r s ⟨-, hs⟩
  refine wp_bind ((hline n s ts hs hstop (by simp only [Nonterminal.depth]; omega)).mono ?_)
  rintro d s ⟨hs, hd⟩
  refine wp_pure ⟨hs, ?_⟩
  rw [← hc, ← hd]
  rfl

theorem accepts_exec (hexec : Accepts str .exec us t) : Accepts str .pipe us t := by
  intro n s ts h hstop hn
  simp only [Nonterminal.depth] at hn
  obtain ⟨n, rfl⟩ := Nat.exists_eq_add_one_of_ne_zero (show n ≠ 0 by omega)
  change Wp (parsepipe str.length (n + 1)) _ s
  rw [parsepipe]
  refine wp_bind ((hexec n s ts h (hstop.mono (by decide)) (by simp only [Nonterminal.depth]; omega)).mono ?_)
  rintro c s ⟨hs, hc⟩
  refine peek_wp (by decide) hs fun s hs => ?_
  rw [hstop.startsIn_eq_false rfl]
  exact wp_pure ⟨hs, hc⟩

theorem accepts_pipe (hexec : Accepts str .exec us t) (hpipe : Accepts str .pipe vs u) :
    Accepts str .pipe (us ++ .sym .bar :: vs) (.pipe t u) := by
  intro n s ts h hstop hn
  rw [List.append_assoc, List.cons_append] at h
  simp only [Nonterminal.depth, List.length_append, List.length_cons] at hn
  obtain ⟨n, rfl⟩ := Nat.exists_eq_add_one_of_ne_zero (show n ≠ 0 by omega)
  change Wp (parsepipe str.length (n + 1)) _ s
  rw [parsepipe]
  refine wp_bind ((hexec n s _ h (.inr rfl) (by simp only [Nonterminal.depth]; omega)).mono ?_)
  rintro c s ⟨hs, hc⟩
  refine peek_wp (by decide) hs fun s hs => ?_
  refine wp_bind ((skip_spec hs).mono ?_)
  rintro r s ⟨-, hs⟩
  refine wp_bind ((hpipe n s ts hs hstop (by simp only [Nonterminal.depth]; omega)).mono ?_)
  rintro d s ⟨hs, hd⟩
  refine wp_pure ⟨hs, ?_⟩
  rw [← hc, ← hd]
  rfl

theorem accepts_block (hline : Accepts str .line us t) (rs : List Redirection) :
    Accepts str .exec (.sym .lparen :: us ++ .sym .rparen :: redirTokens rs) (redirected t rs) := by
  intro n s ts h hstop hn
  simp only [List.cons_append, List.append_assoc] at h
  simp only [Nonterminal.depth, List.length_append, List.length_cons] at hn
  obtain ⟨n, rfl⟩ := Nat.exists_eq_add_of_le' (show 2 ≤ n by omega)
  have hrs := length_le_redirTokens rs
  change Wp (parseexec str.length (n + 2)) _ s
  rw [parseexec]
  refine peek_wp (by decide) h fun s hs => ?_
  change Wp (parseblock str.length (n + 1)) _ s
  rw [parseblock]
  refine peek_wp (by decide) hs fun s hs => ?_
  refine wp_bind ((skip_spec hs).mono ?_)
  rintro r s ⟨-, hs⟩
  refine wp_bind ((hline n s _ hs (.inr rfl) (by simp only [Nonterminal.depth]; omega)).mono ?_)
  rintro c s ⟨hs, hc⟩
  refine peek_wp (by decide) hs fun s hs => ?_
  refine wp_bind ((skip_spec hs).mono ?_)
  rintro r s ⟨-, hs⟩
  refine wp_bind ((parseredirs_complete rs hs (hstop.startsIn_eq_false rfl) (by omega)).mono ?_)
  rintro rs' s ⟨hs, hmap⟩
  refine wp_pure ⟨hs, ?_⟩
  rw [Cmd.text, map_redircmds, hmap, ← hc]
  rfl

theorem accepts_words (rs : List Redirection) (as : List Arg) (hlen : as.length < MAXARGS) :
    Accepts str .exec (redirTokens rs ++ argTokens as)
      (redirected (.exec (as.map Prod.fst)) (rs ++ as.flatMap Prod.snd)) := by
  intro n s ts h hstop hn
  rw [List.append_assoc] at h
  simp only [Nonterminal.depth, List.length_append] at hn
  obtain ⟨n, rfl⟩ := Nat.exists_eq_add_one_of_ne_zero (show n ≠ 0 by omega)
  have hrs := length_le_redirTokens rs
  change Wp (parseexec str.length (n + 1)) _ s
  rw [parseexec]
  refine peek_wp (by decide) h fun s hs => ?_
  rw [startsIn_redirTokens rs (startsIn_argTokens as (hstop.startsIn_eq_false rfl))]
  refine wp_bind ((parseredirs_complete rs hs
    (startsIn_argTokens as (hstop.startsIn_eq_false rfl)) (by omega)).mono ?_)
  rintro rs' s ⟨hs, hmap⟩
  have hargs : ([] : List Span).length + as.length < MAXARGS := by rwa [List.length_nil, Nat.zero_add]
  refine wp_bind ((parseargs_complete as hs hstop hargs (by omega)).mono ?_)
  rintro ⟨argv, rs''⟩ s ⟨hs, hargv, hredirs⟩
  refine wp_pure ⟨hs, ?_⟩
  rw [Cmd.text, map_redircmds, hredirs, hmap, ← List.map_append, Cmd.map, hargv]
  rfl

theorem Derives.accepts {x : Nonterminal} (h : Derives x us t) : Accepts str x us t := by
  induction h with
  | line k _ ih => exact accepts_line ih k
  | list k _ _ ihc ihd => exact accepts_list ihc k ihd
  | exec _ ih => exact accepts_exec ih
  | pipe _ _ ihc ihd => exact accepts_pipe ihc ihd
  | block rs _ ih => exact accepts_block ih rs
  | words rs as hlen => exact accepts_words rs as hlen

theorem length_tokens_le (s : List UInt8) : (tokens s).length ≤ s.length := by
  fun_induction tokens s with
  | case1 => exact le_rfl
  | case2 c s _ ih => exact Nat.le_succ_of_le ih
  | case3 c s _ _ ih => exact Nat.succ_le_succ (ih.trans (List.length_dropWhile_le _ _))
  | case4 c s _ _ _ ih => exact Nat.succ_le_succ (ih.trans (by rw [List.length_tail]; exact Nat.sub_le _ _))
  | case5 c s _ _ _ ih => exact Nat.succ_le_succ ih

theorem tokens_eq_nil_iff : tokens s = [] ↔ skipSpace s = [] := by
  rw [← tokens_skipSpace]
  constructor
  · intro h
    rw [tokens_eq_lexToken (isSpace_head_skipSpace s)] at h
    rcases hl : lexToken (skipSpace s) with ⟨ret, e⟩
    rw [hl] at h
    cases ret with
    | eof => exact lexToken_eof hl
    | sym x => cases h
    | word => cases h
  · intro h
    rw [h, tokens]

theorem parsecmd_eq (str : List UInt8) :
    parsecmd str = match parseline str.length (4 * str.length + 4) str with
      | .ok (c, s) => if skipSpace s = [] then .ok c else .error (.panic "syntax")
      | .error e => .error e := by
  rw [parsecmd]
  rcases parseline str.length (4 * str.length + 4) str with e | ⟨c, s⟩
  · rfl
  · by_cases h : skipSpace s = [] <;>
      simp [h, bind, Except.bind, pure, Except.pure, throw, throwThe, MonadExceptOf.throw]

theorem parsecmd_sound (str : List UInt8) :
    match parsecmd str with
    | .ok c => Derives .line (tokens str) (c.text str) ∧ c.Within str
    | .error e => e ≠ .fuel := by
  have hlen := length_tokens_le str
  have h := (soundTo str (4 * str.length + 4)).1 (tokens str) str ⟨List.suffix_rfl, rfl⟩
    (by simp only [Nonterminal.depth]; omega)
  change WpUpTo NoFuel (parseline str.length (4 * str.length + 4)) _ str at h
  rw [parsecmd_eq]
  rcases hrun : parseline str.length (4 * str.length + 4) str with e | ⟨c, s⟩
  · exact h.error hrun
  · obtain ⟨us, ts, hts, hs, hc, hin⟩ := h.ok hrun
    dsimp only
    by_cases hend : skipSpace s = []
    · rw [if_pos hend]
      rw [← hs.tokens, tokens_eq_nil_iff.mpr hend, List.append_nil] at hts
      rw [hts]
      exact ⟨hc, hin⟩
    · rw [if_neg hend]
      rintro ⟨⟩

theorem parsecmd_complete (h : Derives .line (tokens str) t) : ∃ c, parsecmd str = .ok c ∧ c.text str = t := by
  have hlen := length_tokens_le str
  have hat : At str (tokens str ++ []) str := ⟨List.suffix_rfl, (List.append_nil _).symm⟩
  obtain ⟨c, s, hrun, hs, hc⟩ := h.accepts (4 * str.length + 4) str [] hat (.inl rfl)
    (by simp only [Nonterminal.depth]; omega)
  change parseline str.length (4 * str.length + 4) str = _ at hrun
  refine ⟨c, ?_, hc⟩
  rw [parsecmd_eq, hrun]
  exact if_pos (tokens_eq_nil_iff.mp hs.tokens)

end Xv6.Shell
