import Xv6.Basic
import Xv6.ShellAccepts

/-! The NULs that `nulterminate` puts behind the words of a parsed line. -/

namespace Xv6.Shell

variable {str : List UInt8} {c : Cmd Span} {q q' : Span}

theorem nulterminate_eq_foldl (c : Cmd Span) (buf : List UInt8) :
    nulterminate c buf = c.words.foldl (fun buf q => buf.set q.stop 0) buf := by
  induction c generalizing buf with
  | exec argv => rfl
  | redir c file mode fd ih => rw [nulterminate, ih, Cmd.words, List.foldl_append]; rfl
  | pipe l r ihl ihr => rw [nulterminate, ihl, ihr, Cmd.words, List.foldl_append]
  | list l r ihl ihr => rw [nulterminate, ihl, ihr, Cmd.words, List.foldl_append]
  | back c ih => exact ih buf

theorem getElem?_nuls (qs : List Span) (buf : List UInt8) (i : Nat) :
    (qs.foldl (fun buf q => buf.set q.stop 0) buf)[i]? =
      if i ∈ qs.map Span.stop ∧ i < buf.length then some 0 else buf[i]? := by
  induction qs generalizing buf with
  | nil => simp
  | cons q qs ih =>
    simp only [List.foldl_cons, ih, List.length_set, List.getElem?_set, List.map_cons, List.mem_cons]
    grind

theorem IsWord.char (h : IsWord str q) {i : Nat} (hlo : q.start ≤ i) (hhi : i < q.stop) :
    ∃ b, str[i]? = some b ∧ isWordChar b = true := by
  have hlt : i < str.length := Nat.lt_of_lt_of_le hhi h.inside
  refine ⟨str[i], List.getElem?_eq_getElem hlt, h.chars _ ?_⟩
  have hget : (q.text str)[i - q.start]? = some str[i] := by
    rw [Span.text, List.getElem?_take_of_lt (by omega), List.getElem?_drop, Nat.add_sub_cancel' hlo]
    exact List.getElem?_eq_getElem hlt
  exact List.mem_of_getElem? hget

theorem IsWord.stop_outside (h : IsWord str q) (h' : IsWord str q') :
    ¬ (q'.start ≤ q.stop ∧ q.stop < q'.stop) := by
  rintro ⟨hlo, hhi⟩
  obtain ⟨b, hb, hword⟩ := h'.char hlo hhi
  rw [h.maximal b hb] at hword
  cases hword

/-- Each word reads as a string in a buffer that agrees with the line on it and has a NUL behind it. -/
theorem IsWord.cstring_drop (h : IsWord str q) (h0 : 0 ∉ str) {buf : List UInt8}
    (hword : ∀ i, q.start ≤ i → i < q.stop → buf[i]? = str[i]?) (hstop : buf[q.stop]? = some 0) :
    cstring (buf.drop q.start) = q.text str := by
  have hlt := h.nonempty
  have htake : (buf.drop q.start).take (q.stop - q.start) = q.text str := by
    apply List.ext_getElem?
    intro i
    rw [Span.text]
    by_cases hi : i < q.stop - q.start
    · rw [List.getElem?_take_of_lt hi, List.getElem?_take_of_lt hi, List.getElem?_drop, List.getElem?_drop,
        hword _ (Nat.le_add_right _ _) (by omega)]
    · rw [List.getElem?_take_eq_none (by omega), List.getElem?_take_eq_none (by omega)]
  obtain ⟨hlen, hnul⟩ := List.getElem?_eq_some_iff.mp hstop
  have hdrop : (buf.drop q.start).drop (q.stop - q.start) = 0 :: buf.drop (q.stop + 1) := by
    rw [List.drop_drop, Nat.add_sub_cancel' hlt.le, List.drop_eq_getElem_cons hlen, hnul]
  rw [← List.take_append_drop (q.stop - q.start) (buf.drop q.start), htake, hdrop, cstring_append]
  exact fun hmem => h0 (List.mem_of_mem_drop (List.mem_of_mem_take hmem))

theorem Cmd.map_congr {α β : Type} {f g : α → β} {c : Cmd α} (h : ∀ a ∈ c.words, f a = g a) :
    c.map f = c.map g := by
  induction c with
  | exec argv => exact congrArg Cmd.exec (List.map_congr_left h)
  | redir c file mode fd ih =>
    obtain ⟨hc, hfile⟩ := List.forall_mem_append.mp h
    rw [Cmd.map, Cmd.map, ih hc, hfile file (List.mem_singleton_self _)]
  | pipe l r ihl ihr =>
    obtain ⟨hl, hr⟩ := List.forall_mem_append.mp h
    rw [Cmd.map, Cmd.map, ihl hl, ihr hr]
  | list l r ihl ihr =>
    obtain ⟨hl, hr⟩ := List.forall_mem_append.mp h
    rw [Cmd.map, Cmd.map, ihl hl, ihr hr]
  | back c ih => rw [Cmd.map, Cmd.map, ih h]

theorem getElem?_nulterminate (c : Cmd Span) (str rest : List UInt8) (i : Nat) :
    (nulterminate c (str ++ 0 :: rest))[i]? =
      if i ∈ c.words.map Span.stop ∧ i < (str ++ 0 :: rest).length then some 0 else (str ++ 0 :: rest)[i]? := by
  rw [nulterminate_eq_foldl, getElem?_nuls]

theorem cstring_nulterminate (h0 : 0 ∉ str) (rest : List UInt8) (hin : c.Within str) (hq : q ∈ c.words) :
    cstring ((nulterminate c (str ++ 0 :: rest)).drop q.start) = q.text str := by
  have hinside := (hin q hq).inside
  refine (hin q hq).cstring_drop h0 (fun i hlo hhi => ?_) ?_
  · rw [getElem?_nulterminate, if_neg, List.getElem?_append_left (by omega)]
    rintro ⟨hi, -⟩
    obtain ⟨q', hq', rfl⟩ := List.mem_map.mp hi
    exact (hin q' hq').stop_outside (hin q hq) ⟨hlo, hhi⟩
  · rw [getElem?_nulterminate, if_pos]
    refine ⟨List.mem_map_of_mem hq, ?_⟩
    rw [List.length_append, List.length_cons]
    omega

/-- After `nulterminate` every word and file name of the tree reads as the word that was
recognised; only the ends of words are written, none of them in a word. -/
theorem nulterminate_isolates_words (str rest : List UInt8) (h0 : 0 ∉ str) (c : Cmd Span)
    (hc : parsecmd str = .ok c) :
    (c.map fun q => cstring ((nulterminate c (str ++ 0 :: rest)).drop q.start)) = c.text str ∧
      (∀ i, (nulterminate c (str ++ 0 :: rest))[i]? ≠ (str ++ 0 :: rest)[i]? → ∃ q ∈ c.words, i = q.stop) ∧
      ∀ q ∈ c.words, q.stop ≤ str.length ∧ ∀ q' ∈ c.words, ¬ (q'.start ≤ q.stop ∧ q.stop < q'.stop) := by
  have hin : c.Within str := by
    have hsound := parsecmd_sound str
    rw [hc] at hsound
    exact hsound.2
  refine ⟨Cmd.map_congr fun q hq => cstring_nulterminate h0 rest hin hq, fun i hi => ?_, fun q hq => ?_⟩
  · rw [getElem?_nulterminate] at hi
    split_ifs at hi with hstop
    · obtain ⟨q, hq, hstop⟩ := List.mem_map.mp hstop.1
      exact ⟨q, hq, hstop.symm⟩
    · exact absurd rfl hi
  · exact ⟨(hin q hq).inside, fun q' hq' => (hin q hq).stop_outside (hin q' hq')⟩

/-- The line `a>b` has no blank before its symbol. -/
theorem nulterminate_isolates_adjacent : ∃ c, parsecmd [97, 62, 98] = .ok c ∧
    (c.map fun q => cstring ((nulterminate c [97, 62, 98, 0]).drop q.start)) =
      .redir (.exec [[97]]) [98] (O_WRONLY ||| O_CREATE ||| O_TRUNC) 1 :=
  ⟨.redir (.exec [⟨0, 1⟩]) ⟨2, 3⟩ (O_WRONLY ||| O_CREATE ||| O_TRUNC) 1, rfl,
    (nulterminate_isolates_words [97, 62, 98] [] (by decide) _ rfl).1⟩

end Xv6.Shell
