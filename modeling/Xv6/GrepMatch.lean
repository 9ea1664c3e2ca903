import Mathlib.Computability.Language

/-! The matcher of `user/grep.c` against the language of a pattern. A string is the list of the
bytes before its NUL, so `re[0] == '\0'` is the empty list. -/

namespace Xv6.Grep

def caret : UInt8 := 94

def dollar : UInt8 := 36

def dot : UInt8 := 46

def asterisk : UInt8 := 42

mutual

def matchhere (re text : List UInt8) : Bool :=
  match re with
  | [] => true
  | c :: re =>
    if re.head? = some asterisk then matchstar c re.tail text
    else if c = dollar ∧ re = [] then text.isEmpty
    else match text with
      | [] => false
      | t :: text => (c = dot || c = t) && matchhere re text
termination_by (2 * re.length, text.length)

/-- The test of the `do` loop is made after the text before it has been tried. -/
def matchstar (c : UInt8) (re text : List UInt8) : Bool :=
  matchhere re text ||
    match text with
    | [] => false
    | t :: text => (t = c || c = dot) && matchstar c re text
termination_by (2 * re.length + 1, text.length)

end

def matchFrom (re : List UInt8) : List UInt8 → Bool
  | [] => matchhere re []
  | t :: text => matchhere re (t :: text) || matchFrom re text

def matchText (re text : List UInt8) : Bool :=
  if re.head? = some caret then matchhere re.tail text else matchFrom re text

/-- What a pattern is made of after its `^`: a starred character, a single one, or the final
`$`. -/
inductive Item where
  | star (c : UInt8)
  | one (c : UInt8)
  | eot
  deriving DecidableEq

def items : List UInt8 → List Item
  | [] => []
  | c :: re =>
    if re.head? = some asterisk then .star c :: items re.tail
    else if c = dollar ∧ re = [] then [.eot]
    else .one c :: items re
termination_by re => re.length

def letter (c : UInt8) : Language UInt8 := fun w => ∃ x, w = [x] ∧ (c = dot ∨ c = x)

def Item.language : Item → Language UInt8
  | .star c => KStar.kstar (letter c)
  | .one c => letter c
  | .eot => 1

def language (is : List Item) : Language UInt8 := (is.map Item.language).prod

/-- A prefix of the text is in the language of the items, the whole text where they end in
`$`. -/
def AtStart (is : List Item) (text : List UInt8) : Prop :=
  ∃ w rest, w ++ rest = text ∧ w ∈ language is ∧ (.eot ∈ is → rest = [])

def Matches (re text : List UInt8) : Prop :=
  if re.head? = some caret then AtStart (items re.tail) text
  else ∃ s, s <:+ text ∧ AtStart (items re) s

variable {c : UInt8} {is : List Item} {re text : List UInt8}

theorem language_cons (i : Item) (is : List Item) : language (i :: is) = i.language * language is := by
  rw [language, List.map_cons, List.prod_cons]
  rfl

theorem atStart_nil : AtStart [] text :=
  ⟨[], text, rfl, Language.nil_mem_one, fun h => absurd h List.not_mem_nil⟩

theorem atStart_eot : AtStart [.eot] text ↔ text = [] := by
  have hlang : language [.eot] = 1 := by rw [language_cons, language, List.map_nil, List.prod_nil, mul_one]; rfl
  constructor
  · rintro ⟨w, rest, rfl, hw, hrest⟩
    rw [hlang, Language.mem_one] at hw
    rw [hw, hrest (List.mem_singleton_self _), List.nil_append]
  · rintro rfl
    exact ⟨[], [], rfl, by rw [hlang]; exact Language.nil_mem_one, fun _ => rfl⟩

theorem exists_letter_mul {L : Language UInt8} {P : List UInt8 → Prop} :
    (∃ w rest, w ++ rest = text ∧ w ∈ letter c * L ∧ P rest) ↔
      ∃ t s, text = t :: s ∧ (c = dot ∨ c = t) ∧ ∃ w rest, w ++ rest = s ∧ w ∈ L ∧ P rest := by
  constructor
  · rintro ⟨w, rest, rfl, hw, hp⟩
    obtain ⟨a, ⟨x, rfl, hx⟩, b, hb, rfl⟩ := Language.mem_mul.mp hw
    exact ⟨x, b ++ rest, rfl, hx, b, rest, rfl, hb, hp⟩
  · rintro ⟨t, _, rfl, ht, w, rest, rfl, hw, hp⟩
    exact ⟨t :: w, rest, rfl, Language.mem_mul.mpr ⟨[t], ⟨t, rfl, ht⟩, w, hw, rfl⟩, hp⟩

theorem atStart_one : AtStart (.one c :: is) text ↔
    ∃ t s, text = t :: s ∧ (c = dot ∨ c = t) ∧ AtStart is s := by
  have hmem : Item.eot ∈ Item.one c :: is ↔ .eot ∈ is := by simp
  simp only [AtStart, language_cons, Item.language, hmem]
  exact exists_letter_mul

theorem atStart_star : AtStart (.star c :: is) text ↔
    AtStart is text ∨ ∃ t s, text = t :: s ∧ (c = dot ∨ c = t) ∧ AtStart (.star c :: is) s := by
  have hmem : Item.eot ∈ Item.star c :: is ↔ .eot ∈ is := by simp
  have hstar : language (.star c :: is) = language is + letter c * language (.star c :: is) := by
    rw [language_cons, ← mul_assoc, ← one_add_mul]
    exact congrArg (· * language is) (Language.one_add_self_mul_kstar_eq_kstar (letter c)).symm
  constructor
  · rintro ⟨w, rest, htext, hw, hrest⟩
    rw [hstar] at hw
    rcases (Language.mem_add _ _ _).mp hw with hw | hw
    · exact .inl ⟨w, rest, htext, hw, fun h => hrest (hmem.mpr h)⟩
    · exact .inr (exists_letter_mul.mp ⟨w, rest, htext, hw, hrest⟩)
  · rintro (⟨w, rest, htext, hw, hrest⟩ | h)
    · refine ⟨w, rest, htext, ?_, fun h => hrest (hmem.mp h)⟩
      rw [hstar]
      exact (Language.mem_add _ _ _).mpr (.inl hw)
    · obtain ⟨w, rest, htext, hw, hrest⟩ := exists_letter_mul.mpr h
      refine ⟨w, rest, htext, ?_, hrest⟩
      rw [hstar]
      exact (Language.mem_add _ _ _).mpr (.inr hw)

theorem matchstar_iff (h : ∀ text, matchhere re text = true ↔ AtStart is text) :
    matchstar c re text = true ↔ AtStart (.star c :: is) text := by
  induction text with
  | nil =>
    rw [matchstar, Bool.or_false, h, atStart_star]
    simp
  | cons t text ih =>
    simp only [matchstar, Bool.or_eq_true, Bool.and_eq_true, decide_eq_true_eq, h, ih]
    have hstar := @atStart_star c is (t :: text)
    simp only [List.cons.injEq] at hstar
    rw [hstar]
    constructor
    · rintro (h | ⟨hc, h⟩)
      · exact .inl h
      · exact .inr ⟨t, text, ⟨rfl, rfl⟩, hc.symm.imp_right Eq.symm, h⟩
    · rintro (h | ⟨_, _, ⟨rfl, rfl⟩, hc, h⟩)
      · exact .inl h
      · exact .inr ⟨hc.symm.imp_left Eq.symm, h⟩

theorem matchhere_iff (re text : List UInt8) : matchhere re text = true ↔ AtStart (items re) text := by
  match re with
  | [] => simp [matchhere, items, atStart_nil]
  | c :: re =>
    rw [matchhere.eq_def, items]
    dsimp only
    split_ifs with hstar hend
    · exact matchstar_iff fun text => matchhere_iff re.tail text
    · rw [atStart_eot, List.isEmpty_iff]
    · rw [atStart_one]
      cases text with
      | nil => simp
      | cons t text => simp [matchhere_iff re text]
termination_by re.length

theorem matchFrom_iff : matchFrom re text = true ↔ ∃ s, s <:+ text ∧ AtStart (items re) s := by
  induction text with
  | nil => simp [matchFrom, matchhere_iff]
  | cons t text ih => simp [matchFrom, matchhere_iff, ih, List.suffix_cons_iff]

/-- The matcher decides the language of every pattern, on every text. -/
theorem matchText_iff_matches (re text : List UInt8) : matchText re text = true ↔ Matches re text := by
  rw [matchText, Matches]
  split_ifs with h
  · exact matchhere_iff re.tail text
  · exact matchFrom_iff

end Xv6.Grep
