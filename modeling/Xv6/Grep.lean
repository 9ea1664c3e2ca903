import Xv6.Basic
import Xv6.GrepMatch

/-! The loop of `user/grep.c` over the chunks `read` returns: which lines it writes. -/

namespace Xv6.Grep

def newline : UInt8 := 10

def BUFSIZE : Nat := 1024

def strchr : List UInt8 → UInt8 → Option Nat
  | [], _ => none
  | b :: s, c => if b = 0 then none else if b = c then some 0 else (strchr s c).map (· + 1)

variable {c : UInt8}

theorem strchr_lt {s : List UInt8} {k : Nat} (h : strchr s c = some k) : k < s.length := by
  induction s generalizing k with
  | nil => cases h
  | cons b s ih =>
    rw [strchr] at h
    split_ifs at h with h0 hc
    · cases h
      exact Nat.succ_pos _
    · obtain ⟨j, hj, rfl⟩ := Option.map_eq_some_iff.mp h
      exact Nat.succ_lt_succ (ih hj)

/-- The inner loop: the buffer, `p` and what has been written when no newline is left. A line
that does not match keeps the NUL in the place of its newline. -/
def grepLines (pattern buf : List UInt8) (p : Nat) (out : List (List UInt8)) :
    List UInt8 × Nat × List (List UInt8) :=
  match h : strchr (buf.drop p) newline with
  | none => (buf, p, out)
  | some k =>
    let q := p + k
    let cut := buf.set q 0
    if matchText pattern (cstring (cut.drop p)) then
      let line := cut.set q newline
      grepLines pattern line (q + 1) (out ++ [(line.drop p).take (q + 1 - p)])
    else grepLines pattern cut (q + 1) out
termination_by buf.length - p
decreasing_by all_goals
  have hk := strchr_lt h
  rw [List.length_drop] at hk
  simp only [List.length_set]
  omega

/-- How much the `k`th call of `read` returns of `len` bytes asked for: nothing at the end of the
input or if nothing is asked for, else as many bytes as `chunk` says, from one to all there are. -/
def readCount (chunk : Nat → Nat) (k len : Nat) (input : List UInt8) : Nat :=
  min (chunk k + 1) (min len input.length)

def grepLoop (pattern : List UInt8) (chunk : Nat → Nat) (k : Nat) (input buf : List UInt8) (m : Nat)
    (out : List (List UInt8)) : List (List UInt8) :=
  let n := readCount chunk k (BUFSIZE - m - 1) input
  if _h : 0 < n then
    let m := m + n
    let (buf, p, out) := grepLines pattern ((splice buf (m - n) (input.take n)).set m 0) 0 out
    if 0 < m then
      grepLoop pattern chunk (k + 1) (input.drop n) (splice buf 0 ((buf.drop p).take (m - p))) (m - p) out
    else grepLoop pattern chunk (k + 1) (input.drop n) buf m out
  else out
termination_by input.length
decreasing_by all_goals
  have hn : n ≤ input.length := (Nat.min_le_right _ _).trans (Nat.min_le_right _ _)
  rw [List.length_drop]
  omega

/-- What `grep` writes, with the contents `buf` that a call before it has left. -/
def grep (pattern : List UInt8) (chunk : Nat → Nat) (input buf : List UInt8) : List (List UInt8) :=
  grepLoop pattern chunk 0 input buf 0 []

def lines (s : List UInt8) : List (List UInt8) := (s.splitOn newline).dropLast

def unfinished (s : List UInt8) : List UInt8 := (s.splitOn newline).getLastD []

variable {s l rest : List UInt8}

theorem beq_newline (h : newline ∉ s) : ∀ x ∈ s, (x == newline) = false :=
  fun _ hx => beq_false_of_ne fun he => h (he ▸ hx)

theorem splitOn_of_no_newline (h : newline ∉ s) : s.splitOn newline = [s] :=
  List.splitOnP_eq_singleton (beq_newline h)

theorem splitOn_line (h : newline ∉ l) (s : List UInt8) :
    (l ++ newline :: s).splitOn newline = l :: s.splitOn newline :=
  List.splitOnP_append_cons_of_forall_mem (beq_newline h) _ (beq_self_eq_true _) s

theorem lines_of_no_newline (h : newline ∉ s) : lines s = [] := by
  rw [lines, splitOn_of_no_newline h, List.dropLast_singleton]

theorem unfinished_of_no_newline (h : newline ∉ s) : unfinished s = s := by
  rw [unfinished, splitOn_of_no_newline h, List.getLastD_cons, List.getLastD_nil]

theorem lines_line (h : newline ∉ l) (s : List UInt8) : lines (l ++ newline :: s) = l :: lines s := by
  rw [lines, splitOn_line h, List.dropLast_cons_of_ne_nil (List.splitOn_ne_nil _ _), lines]

theorem unfinished_line (h : newline ∉ l) (s : List UInt8) : unfinished (l ++ newline :: s) = unfinished s := by
  rw [unfinished, splitOn_line h, unfinished]
  obtain ⟨x, xs, hx⟩ := List.exists_cons_of_ne_nil (List.splitOn_ne_nil newline s)
  rw [hx, List.getLastD_cons, List.getLastD_cons, List.getLastD_cons]

theorem line_induction {P : List UInt8 → Prop} (hnone : ∀ s, newline ∉ s → P s)
    (hline : ∀ l s, newline ∉ l → P s → P (l ++ newline :: s)) (s : List UInt8) : P s := by
  by_cases h : newline ∈ s
  · obtain ⟨l, s', rfl, hl⟩ := List.eq_append_cons_of_mem h
    exact hline l s' hl (line_induction hnone hline s')
  · exact hnone s h
termination_by s.length
decreasing_by
  subst_vars
  simp only [List.length_append, List.length_cons]
  omega

theorem lines_append (s t : List UInt8) : lines (s ++ t) = lines s ++ lines (unfinished s ++ t) := by
  induction s using line_induction with
  | hnone s h => rw [lines_of_no_newline h, unfinished_of_no_newline h, List.nil_append]
  | hline l s h ih =>
    rw [List.append_assoc, List.cons_append, lines_line h, lines_line h, unfinished_line h, ih, List.cons_append]

theorem length_lines_lt (h : l ∈ lines s) : l.length < s.length := by
  induction s using line_induction with
  | hnone s hs =>
    rw [lines_of_no_newline hs] at h
    exact absurd h List.not_mem_nil
  | hline k s hk ih =>
    rw [lines_line hk] at h
    rw [List.length_append, List.length_cons]
    rcases List.mem_cons.mp h with rfl | h
    · omega
    · have := ih h
      omega

theorem not_mem_unfinished (s : List UInt8) : newline ∉ unfinished s := by
  induction s using line_induction with
  | hnone s h => rwa [unfinished_of_no_newline h]
  | hline l s h ih => rwa [unfinished_line h]

theorem unfinished_suffix (s : List UInt8) : unfinished s <:+ s := by
  induction s using line_induction with
  | hnone s h => rw [unfinished_of_no_newline h]
  | hline l s h ih =>
    rw [unfinished_line h]
    exact ih.trans ((List.suffix_cons _ _).trans (List.suffix_append _ _))

theorem strchr_of_not_mem (h0 : 0 ∉ s) (hc : c ∉ s) (rest : List UInt8) :
    strchr (s ++ 0 :: rest) c = none := by
  induction s with
  | nil => rw [List.nil_append, strchr, if_pos rfl]
  | cons b s ih =>
    rw [List.mem_cons, not_or] at h0 hc
    rw [List.cons_append, strchr, if_neg (Ne.symm h0.1), if_neg (Ne.symm hc.1), ih h0.2 hc.2, Option.map_none]

theorem strchr_append (h0 : 0 ∉ s) (hc : c ∉ s) (hne : c ≠ 0) (rest : List UInt8) :
    strchr (s ++ c :: rest) c = some s.length := by
  induction s with
  | nil => rw [List.nil_append, strchr, if_neg hne, if_pos rfl, List.length_nil]
  | cons b s ih =>
    rw [List.mem_cons, not_or] at h0 hc
    rw [List.cons_append, strchr, if_neg (Ne.symm h0.1), if_neg (Ne.symm hc.1), ih h0.2 hc.2, Option.map_some,
      List.length_cons]

theorem set_length_append (a b : List UInt8) (x y : UInt8) :
    (a ++ x :: b).set a.length y = a ++ y :: b := by
  rw [List.set_append_right _ _ le_rfl, Nat.sub_self, List.set_cons_zero]

def printed (pattern : List UInt8) (ls : List (List UInt8)) : List (List UInt8) :=
  (ls.filter (matchText pattern)).map (· ++ [newline])

theorem printed_append (pattern : List UInt8) (ls ms : List (List UInt8)) :
    printed pattern (ls ++ ms) = printed pattern ls ++ printed pattern ms := by
  rw [printed, List.filter_append, List.map_append, printed, printed]

theorem grepLines_line {pattern pre : List UInt8} (h0 : 0 ∉ l) (hl : newline ∉ l)
    (out : List (List UInt8)) :
    grepLines pattern (pre ++ (l ++ newline :: rest)) pre.length out =
      if matchText pattern l then
        grepLines pattern (pre ++ (l ++ newline :: rest)) (pre.length + l.length + 1) (out ++ [l ++ [newline]])
      else grepLines pattern (pre ++ (l ++ 0 :: rest)) (pre.length + l.length + 1) out := by
  have hset (x y : UInt8) : (pre ++ (l ++ x :: rest)).set (pre.length + l.length) y =
      pre ++ (l ++ y :: rest) := by
    rw [← List.append_assoc, ← List.length_append, set_length_append, List.append_assoc]
  have htake : (l ++ newline :: rest).take (pre.length + l.length + 1 - pre.length) = l ++ [newline] := by
    rw [Nat.add_assoc, Nat.add_sub_cancel_left, List.take_length_add_append, List.take_succ_cons, List.take_zero]
  rw [grepLines, List.drop_left, strchr_append h0 hl (by decide)]
  dsimp only
  rw [hset, hset, List.drop_left, List.drop_left, cstring_append h0, htake]

theorem grepLines_spec (pattern : List UInt8) (s : List UInt8) (h0 : 0 ∉ s) (pre rest : List UInt8)
    (out : List (List UInt8)) :
    ∃ pre', pre'.length + (unfinished s).length = pre.length + s.length ∧
      grepLines pattern (pre ++ (s ++ 0 :: rest)) pre.length out =
        (pre' ++ (unfinished s ++ 0 :: rest), pre'.length, out ++ printed pattern (lines s)) := by
  induction s using line_induction generalizing pre out with
  | hnone s h =>
    refine ⟨pre, by rw [unfinished_of_no_newline h], ?_⟩
    rw [grepLines, List.drop_left, strchr_of_not_mem h0 h, unfinished_of_no_newline h, lines_of_no_newline h]
    simp [printed]
  | hline l s h ih =>
    rw [List.mem_append, not_or, List.mem_cons, not_or] at h0
    -- the next round starts behind the line, with its newline or the NUL there
    have hnext (x : UInt8) (out : List (List UInt8)) : ∃ pre',
        pre'.length + (unfinished s).length = pre.length + (l ++ newline :: s).length ∧
        grepLines pattern (pre ++ (l ++ x :: (s ++ 0 :: rest))) (pre.length + l.length + 1) out =
          (pre' ++ (unfinished s ++ 0 :: rest), pre'.length, out ++ printed pattern (lines s)) := by
      obtain ⟨pre', hlen, heq⟩ := ih h0.2.2 (pre ++ (l ++ [x])) out
      rw [List.append_assoc, List.append_assoc, List.singleton_append] at heq
      refine ⟨pre', ?_, ?_⟩
      · rw [hlen]
        simp only [List.length_append, List.length_cons, List.length_nil]
        omega
      · rw [← heq]
        simp only [List.length_append, List.length_singleton, Nat.add_assoc]
    rw [unfinished_line h, lines_line h, List.append_assoc, List.cons_append, grepLines_line h0.1 h]
    split_ifs with hm
    · obtain ⟨pre', hlen, heq⟩ := hnext newline (out ++ [l ++ [newline]])
      refine ⟨pre', hlen, ?_⟩
      rw [heq, List.append_assoc, printed, printed, List.filter_cons_of_pos hm]
      rfl
    · obtain ⟨pre', hlen, heq⟩ := hnext 0 out
      refine ⟨pre', hlen, ?_⟩
      rw [heq, printed, printed, List.filter_cons_of_neg hm]

def reached (s : List UInt8) : List (List UInt8) := (lines s).takeWhile (·.length < BUFSIZE - 1)

theorem reached_append (h : s.length < BUFSIZE) (t : List UInt8) :
    reached (s ++ t) = lines s ++ reached (unfinished s ++ t) := by
  rw [reached, lines_append, List.takeWhile_append_of_pos, reached]
  intro l hl
  have := length_lines_lt hl
  exact decide_eq_true (by omega)

theorem reached_full (h : newline ∉ s) (hs : BUFSIZE ≤ s.length + 1) (t : List UInt8) :
    reached (s ++ t) = [] := by
  induction t using line_induction with
  | hnone t ht =>
    rw [reached, lines_of_no_newline (by simp [h, ht]), List.takeWhile_nil]
  | hline l t hl _ =>
    rw [reached, ← List.append_assoc, lines_line (by simp [h, hl]), List.takeWhile_cons_of_neg]
    rw [List.length_append, decide_eq_true_eq]
    omega

theorem readCount_le (chunk : Nat → Nat) (k len : Nat) (input : List UInt8) :
    readCount chunk k len input ≤ len ∧ readCount chunk k len input ≤ input.length := by
  rw [readCount]
  omega

theorem read_buffer {carry bytes : List UInt8} (h : bytes.length < rest.length) :
    (splice (carry ++ rest) carry.length bytes).set (carry.length + bytes.length) 0 =
      carry ++ bytes ++ 0 :: rest.drop (bytes.length + 1) := by
  rw [splice_append_left, List.drop_eq_getElem_cons h, ← List.length_append, set_length_append]

theorem splice_front (pre s rest : List UInt8) :
    ∃ rest', splice (pre ++ (s ++ rest)) 0 (((pre ++ (s ++ rest)).drop pre.length).take s.length) = s ++ rest' ∧
      (s ++ rest').length = (pre ++ (s ++ rest)).length := by
  refine ⟨(pre ++ (s ++ rest)).drop s.length, ?_, ?_⟩
  · rw [List.drop_left, List.take_left, splice, List.take_zero, List.nil_append, Nat.zero_add]
  · simp only [List.length_append, List.length_drop]
    omega

theorem grepLoop_spec (pattern : List UInt8) (chunk : Nat → Nat) (k : Nat) (input carry rest : List UInt8)
    (out : List (List UInt8)) (hinput : 0 ∉ input) (hcarry : 0 ∉ carry) (hline : newline ∉ carry)
    (hlen : (carry ++ rest).length = BUFSIZE) (hroom : carry.length < BUFSIZE) :
    grepLoop pattern chunk k input (carry ++ rest) carry.length out =
      out ++ printed pattern (reached (carry ++ input)) := by
  rw [grepLoop]
  dsimp only
  obtain ⟨hle, hle'⟩ := readCount_le chunk k (BUFSIZE - carry.length - 1) input
  have hzero : readCount chunk k (BUFSIZE - carry.length - 1) input = 0 →
      BUFSIZE - carry.length - 1 = 0 ∨ input.length = 0 := by
    rw [readCount]
    omega
  generalize readCount chunk k (BUFSIZE - carry.length - 1) input = n at hle hle' hzero
  split_ifs with hn hm
  · rw [List.length_append] at hlen
    have htake : (input.take n).length = n := List.length_take_of_le hle'
    have hbuf := @read_buffer rest carry (input.take n) (by omega)
    rw [htake] at hbuf
    have hs : 0 ∉ carry ++ input.take n := by
      rw [List.mem_append, not_or]
      exact ⟨hcarry, fun h => hinput (List.mem_of_mem_take h)⟩
    obtain ⟨pre, hpre, hlines⟩ := grepLines_spec pattern _ hs [] (rest.drop (n + 1)) out
    rw [List.length_append, htake, List.length_nil, Nat.zero_add] at hpre
    rw [List.nil_append, List.length_nil] at hlines
    obtain ⟨rest', hmove, hlen'⟩ := splice_front pre (unfinished (carry ++ input.take n)) (0 :: rest.drop (n + 1))
    have hleft : carry.length + n - pre.length = (unfinished (carry ++ input.take n)).length := by omega
    have hinput' : input = input.take n ++ input.drop n := (List.take_append_drop n input).symm
    rw [Nat.add_sub_cancel, hbuf, hlines]
    rw [hleft, hmove, grepLoop_spec pattern chunk (k + 1) (input.drop n) _ rest' _
      (fun h => hinput (List.mem_of_mem_drop h)) (fun h => hs ((unfinished_suffix _).mem h))
      (not_mem_unfinished _), List.append_assoc, ← printed_append, ← reached_append, List.append_assoc,
      ← hinput']
    · rw [List.length_append]
      omega
    · rw [hlen']
      simp only [List.length_append, List.length_cons, List.length_drop]
      omega
    · omega
  · omega
  · rcases hzero (by omega) with hfull | hend
    · rw [reached_full hline (by omega), printed, List.filter_nil, List.map_nil, List.append_nil]
    · rw [List.length_eq_zero_iff.mp hend, List.append_nil, reached, lines_of_no_newline hline]
      simp [printed]
termination_by input.length
decreasing_by
  rw [List.length_drop]
  omega

theorem grep_eq (pattern : List UInt8) (chunk : Nat → Nat) {input buf : List UInt8} (h0 : 0 ∉ input)
    (hbuf : buf.length = BUFSIZE) : grep pattern chunk input buf = printed pattern (reached input) := by
  have h := grepLoop_spec pattern chunk 0 input [] buf [] h0 List.not_mem_nil List.not_mem_nil hbuf (by decide)
  rwa [List.nil_append, List.nil_append, List.nil_append] at h

/-- The matching lines are written, each once and in order, for every chunking, exactly if none
of them stands at or behind a line that does not fit in the buffer. -/
theorem grep_prints_matching_lines_iff (pattern : List UInt8) (chunk : Nat → Nat) (input buf : List UInt8)
    (h0 : 0 ∉ input) (hbuf : buf.length = BUFSIZE) :
    grep pattern chunk input buf = printed pattern (lines input) ↔
      ∀ l ∈ (lines input).dropWhile (·.length < BUFSIZE - 1), matchText pattern l = false := by
  have hsplit : lines input = reached input ++ (lines input).dropWhile (·.length < BUFSIZE - 1) :=
    List.takeWhile_append_dropWhile.symm
  have hprinted : printed pattern (lines input) = printed pattern (reached input) ++
      printed pattern ((lines input).dropWhile (·.length < BUFSIZE - 1)) := by
    rw [← printed_append, ← hsplit]
  rw [grep_eq pattern chunk h0 hbuf, hprinted, List.self_eq_append_right, printed, List.map_eq_nil_iff,
    List.filter_eq_nil_iff]
  simp only [Bool.not_eq_true]

theorem grep_prints_line_of_two :
    grep [98] (fun _ => 0) [97, 98, 10, 98] (List.replicate 1024 0) = [[97, 98, 10]] := by
  have hprint : printed [98] (lines [97, 98, 10, 98]) = [[97, 98, 10]] := by
    rw [show lines [97, 98, 10, 98] = [[97, 98]] from rfl]
    simp [printed, matchText, matchFrom, matchhere, caret, asterisk, dollar, dot, newline]
  rw [← hprint]
  refine (grep_prints_matching_lines_iff _ _ _ _ (by decide) List.length_replicate).mpr ?_
  rw [show lines [97, 98, 10, 98] = [[97, 98]] from rfl]
  simp [BUFSIZE]

/-- A line of 1023 bytes ends the search: the line after it is never read. -/
theorem long_line_hides_next :
    grep [98] (fun _ => 511) (List.replicate 1023 97 ++ [10, 98, 10]) (List.replicate 1024 0) = [] ∧
      [98, 10] ∈ printed [98] (lines (List.replicate 1023 97 ++ [10, 98, 10])) := by
  have hlong : newline ∉ List.replicate 1023 97 := fun h => absurd (List.eq_of_mem_replicate h) (by decide)
  have hnul : (0 : UInt8) ∉ List.replicate 1023 97 ++ [10, 98, 10] := by
    rw [List.mem_append, not_or]
    exact ⟨fun h => absurd (List.eq_of_mem_replicate h) (by decide), by decide⟩
  have hline : matchText [98] [98] = true := by
    simp [matchText, matchFrom, matchhere, caret, asterisk, dollar]
  constructor
  · have hbuf : (List.replicate 1024 (0 : UInt8)).length = BUFSIZE := List.length_replicate
    rw [grep_eq _ _ hnul hbuf, reached_full hlong (by rw [List.length_replicate]; decide)]
    rfl
  · rw [show ([10, 98, 10] : List UInt8) = newline :: [98, 10] from rfl, lines_line hlong,
      show lines [98, 10] = [[98]] from rfl, printed, List.mem_map]
    exact ⟨[98], List.mem_filter.mpr ⟨List.mem_cons_of_mem _ (List.mem_singleton_self _), hline⟩, rfl⟩

end Xv6.Grep
