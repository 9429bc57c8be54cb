/-
# FeatureFile.Proofs.Pattern.Fragment — the fragments of the types

Every type of placeholder is written as a fragment of a regular expression. Read as the contents of
a group, each fragment denotes the words of its type (`fragment_denotes`), records nothing, and is
nested so little that no pattern becomes too deep.

The reader folds case inside the fragment of decimal numbers. Its digits, signs and points have no
case, and its letters have two forms each, since none of them is the fold of a letter beyond ASCII.
-/

import FeatureFile.Proofs.Pattern.Words
import FeatureFile.Proofs.Regex.Program
import FeatureFile.Proofs.Regex.Reader

namespace FeatureFile

/-! ## §A Sets -/

namespace CharSet

/-- The two signs. -/
def signs : CharSet := ⟨[(0x2b, 0x2b), (0x2d, 0x2d)]⟩

/-- A small letter and its capital form. -/
def bothCases (c : Char) : CharSet := ⟨[(c.toNat - 32, c.toNat - 32), (c.toNat, c.toNat)]⟩

theorem union_signs : (empty.union (single '+')).union (single '-') = signs := by
  simp [union, empty, single, range, joined, signs]

theorem union_exponent : (empty.union (single 'e')).union (single 'E') = bothCases 'e' := by
  simp [union, empty, single, range, joined, bothCases]

theorem folded_signs : signs.folded = signs := by
  have himages : (Text.foldRuns.flatMap fun run =>
      (run.members.filter signs.containsCode).map run.apply) = [] := by decide +kernel
  have hsources : (Text.foldRuns.flatMap fun run =>
      run.members.filter fun n => signs.containsCode (run.apply n)) = [] := by decide +kernel
  have hunion : signs.union (ofCodes []) = signs := by
    simp [union, ofCodes, joined, signs]
  simp only [folded, himages, hunion, hsources]

theorem folded_exponent : (bothCases 'e').folded = bothCases 'e' := by
  have himages : (Text.foldRuns.flatMap fun run =>
      (run.members.filter (bothCases 'e').containsCode).map run.apply) = [0x65] := by
    decide +kernel
  have hsources : (Text.foldRuns.flatMap fun run =>
      run.members.filter fun n => (bothCases 'e').containsCode (run.apply n)) = [0x45] := by
    decide +kernel
  have hsmall : (bothCases 'e').union (ofCodes [0x65]) = bothCases 'e' := by
    simp [union, ofCodes, joined, bothCases]
  have hcapital : (bothCases 'e').union (ofCodes [0x45]) = bothCases 'e' := by
    simp [union, ofCodes, joined, bothCases]
  simp only [folded, himages, hsmall, hsources, hcapital]

/-- The letters of the words for what is no finite number. -/
def wordLetters : List Char := ['n', 'a', 'i', 'f', 't', 'y']

theorem variants_letter {c : Char} (h : c ∈ wordLetters) : variants c = bothCases c := by
  have hvariants : wordLetters.map (fun c => (Text.caseVariants c).map Char.toNat) =
      wordLetters.map fun c => [c.toNat, c.toNat - 32] := by decide +kernel
  rw [variants, List.map_inj_left.mp hvariants c h]
  fin_cases h <;>
    simp [ofCodes, joined, bothCases, List.mergeSort, List.MergeSort.Internal.splitInTwo]

theorem toNat_of_mem_wordLetters {c : Char} (h : c ∈ wordLetters) :
    97 ≤ c.toNat ∧ c.toNat ≤ 122 := by
  fin_cases h <;> decide

theorem variants_point : variants '.' = single '.' := by
  have hvariants : (Text.caseVariants '.').map Char.toNat = [0x2e] := by decide +kernel
  rw [variants, hvariants]
  simp [ofCodes, joined, single, range]

theorem contains_pair {m n : Nat} (h : m ≤ n) (d : Char) :
    contains ⟨[(m, m), (n, n)]⟩ d = true ↔ d.toNat = m ∨ d.toNat = n := by
  show Text.inRanges _ _ = true ↔ _
  rw [inRanges_iff (by simpa [InOrder] using h)]
  simp only [covers_cons, covers_nil, or_false]
  omega

theorem toNat_toLower (d : Char) :
    d.toLower.toNat = if 65 ≤ d.toNat ∧ d.toNat ≤ 90 then d.toNat + 32 else d.toNat := by
  have hiff : (d.val ≥ 'A'.val ∧ d.val ≤ 'Z'.val) ↔ 65 ≤ d.toNat ∧ d.toNat ≤ 90 := by
    simp only [ge_iff_le, UInt32.le_iff_toNat_le]
    rfl
  unfold Char.toLower
  split
  · rename_i h
    rw [if_pos (hiff.1 h)]
    have hbound := (hiff.1 h).2
    show (d.val + ('a'.val - 'A'.val)).toNat = d.val.toNat + 32
    rw [UInt32.toNat_add]
    exact Nat.mod_eq_of_lt (by change d.val.toNat ≤ 90 at hbound; change d.val.toNat + 32 < _; omega)
  · rename_i h
    rw [if_neg fun h' => h (hiff.2 h')]

/-- The two forms of a small letter are the characters with it as their small form. -/
theorem contains_bothCases {c : Char} (hc : 97 ≤ c.toNat ∧ c.toNat ≤ 122) (d : Char) :
    (bothCases c).contains d = true ↔ d.toLower = c := by
  rw [bothCases, contains_pair (by omega), ← Char.toNat_inj, toNat_toLower]
  split <;> omega

/-- Joining never shortens the first range. -/
theorem joined_cons (a b : Nat) (ranges : List (Nat × Nat)) :
    ∃ stop rest, b ≤ stop ∧ joined ((a, b) :: ranges) = (a, stop) :: rest := by
  induction ranges generalizing b with
  | nil => exact ⟨b, [], Nat.le_refl b, by simp [joined]⟩
  | cons r ranges ih =>
    obtain ⟨c, d⟩ := r
    rw [joined]
    split
    · obtain ⟨stop, rest, hle, heq⟩ := ih (max b d)
      exact ⟨stop, rest, by omega, heq⟩
    · exact ⟨b, _, Nat.le_refl b, rfl⟩

/-- The runs of code points of some general categories. -/
def runsOf (short : List String) : List (Nat × Nat) :=
  (categoryRuns.filter fun run =>
    ((List.range categoryNames.length).filter fun i =>
      short.any fun name => (categoryNames[i]?.bind (·.head?)) == some name).contains run.2).map (·.1)

/-- Categories whose first run has more than one character have more than one. -/
theorem theChar?_ofCategories {short : List String} {a b : Nat} (hab : a < b)
    (h : (runsOf short).head? = some (a, b)) : (ofCategories short).theChar? = none := by
  obtain ⟨runs, hruns⟩ := List.head?_eq_some_iff.1 h
  obtain ⟨stop, rest, hle, heq⟩ := joined_cons a b runs
  have hranges : (ofCategories short).ranges = (a, stop) :: rest := by
    rw [← heq, ← hruns]
    rfl
  unfold theChar?
  rw [hranges]
  cases rest with
  | nil => exact if_neg (by omega)
  | cons r rest => rfl

theorem theChar?_digits : digits.theChar? = none :=
  theChar?_ofCategories (show 0x30 < 0x39 by decide) (by decide +kernel)

/-- The complement of a character below the surrogates holds the others. -/
theorem contains_complement_single {c : Char} (hc : c.toNat < 0xd7ff) (d : Char) :
    (single c).complement.contains d = true ↔ d ≠ c := by
  rw [contains_complement (normal_single c) (by simpa [single, range] using hc), contains_single]
  simp

theorem contains_complement_whiteSpace (d : Char) :
    whiteSpace.complement.contains d = true ↔ Text.isBlank d = false := by
  rw [contains_complement normal_whiteSpace (by decide), Bool.not_eq_true']
  rfl

end CharSet

namespace Regex

open CharSet
open scoped Computability

theorem ofSet_eq {chars : CharSet} (h : chars.theChar? = none) : ofSet chars = set chars := by
  unfold ofSet
  rw [h]

/-! ## §B Parts of fragments -/

/-- The flags inside the fragment of decimal numbers. -/
def anyCase : Flags := { ignoreCase := true }

/-- **`Numeric f`** — the flags under which parts of numbers are written. -/
def Numeric (f : Flags) : Prop := f = {} ∨ f = anyCase

theorem Numeric.spaced {f : Flags} (h : Numeric f) : f.spaced = false := by
  rcases h with rfl | rfl <;> rfl

theorem Numeric.swapGreed {f : Flags} (h : Numeric f) : f.swapGreed = false := by
  rcases h with rfl | rfl <;> rfl

/-- Digits, at least so many of them. -/
def digitsRegex (least : Nat) : Regex := repetition least none true (set digits)

/-- A sign or none. -/
def signRegex : Regex := repetition 0 (some 1) true (set signs)

theorem atom_digit {f : Flags} (hf : Numeric f) : Atom f ['\\', 'd'] ⟨set digits, 0⟩ := by
  refine atom_of_step hf.spaced fun s rest hs => ?_
  rw [← ofSet_eq theChar?_digits]
  rcases hf with rfl | rfl <;> simp only [Reader.step, hs] <;> rfl

theorem adds_digits {f : Flags} (hf : Numeric f) :
    Adds f ['\\', 'd', '+'] [⟨digitsRegex 1, 1⟩] :=
  (atom_digit hf).repeat hf.spaced hf.swapGreed (c := '+') fun _ _ => rfl

theorem adds_anyDigits {f : Flags} (hf : Numeric f) :
    Adds f ['\\', 'd', '*'] [⟨digitsRegex 0, 1⟩] :=
  (atom_digit hf).repeat hf.spaced hf.swapGreed (c := '*') fun _ _ => rfl

theorem adds_sign {f : Flags} (hf : Numeric f) :
    Adds f ['[', '+', '-', ']', '?'] [⟨signRegex, 3⟩] := by
  have hatom : Atom f ['[', '+', '-', ']'] ⟨set signs, 2⟩ := by
    refine atom_of_step hf.spaced fun s rest hs => ?_
    rw [← ofSet_eq (show signs.theChar? = none from rfl), ← union_signs]
    rcases hf with rfl | rfl
    · simp only [Reader.step, hs]
      rfl
    · conv_rhs => rw [union_signs, ← folded_signs, ← union_signs]
      simp only [Reader.step, hs]
      rfl
  exact hatom.repeat hf.spaced hf.swapGreed (c := '?') fun _ _ => rfl

/-! ## §C Decimal numbers -/

theorem numeric_anyCase : Numeric anyCase := .inr rfl

theorem literal_anyCase (c : Char) : anyCase.literal c = ofSet (variants c) := by
  rw [Flags.literal, if_neg (by decide), if_neg (by decide)]

theorem atom_point : Atom anyCase ['\\', '.'] ⟨literal '.' [], 0⟩ := by
  have hpoint : anyCase.literal '.' = literal '.' [] := by
    rw [literal_anyCase, variants_point]
    rfl
  have := atom_escaped (f := anyCase) rfl (c := '.') rfl
  rwa [hpoint] at this

theorem atom_letter {c : Char} (hc : c ∈ wordLetters) : Atom anyCase [c] ⟨set (bothCases c), 0⟩ := by
  have hletter : anyCase.literal c = set (bothCases c) := by
    rw [literal_anyCase, variants_letter hc]
    fin_cases hc <;> rfl
  have hplain : isMeta c = false := by fin_cases hc <;> rfl
  have := atom_plain (f := anyCase) rfl hplain
  rwa [hletter] at this

theorem atom_exponentLetter : Atom anyCase ['[', 'e', 'E', ']'] ⟨set (bothCases 'e'), 2⟩ := by
  refine atom_of_step rfl fun s rest hs => ?_
  rw [← ofSet_eq (show (bothCases 'e').theChar? = none from rfl), ← folded_exponent,
    ← union_exponent]
  simp only [Reader.step, hs]
  rfl

theorem readOpening_group {f : Flags} (hf : Numeric f) (s : Reader) (rest : List Char)
    (hs : s.flags = f) : s.readOpening (['?', ':'] ++ rest) = .ok (s.openGroup none f, rest) := by
  rcases hf with rfl | rfl <;> simp only [Reader.readOpening, hs] <;> rfl

theorem readOpening_anyCase (s : Reader) (rest : List Char) (hs : s.flags = {}) :
    s.readOpening (['?', 'i', ':'] ++ rest) = .ok (s.openGroup none anyCase, rest) := by
  simp only [Reader.readOpening, hs]
  rfl

/-- Digits with a point behind them, among them or before them, or with none. -/
def mantissaRegex : Regex :=
  alt (seq (digitsRegex 1) (seq (literal '.' []) (digitsRegex 0)))
    (alt (seq (literal '.' []) (digitsRegex 1)) (digitsRegex 1))

theorem atom_mantissa :
    Atom anyCase "(?:\\d+\\.\\d*|\\.\\d+|\\d+)".toList ⟨mantissaRegex, 4⟩ := by
  have hdigits := adds_digits numeric_anyCase
  have hany := adds_anyDigits numeric_anyCase
  have hpoint := atom_point.adds
  unfold mantissaRegex digitsRegex at *
  -- Which characters are digits does not matter here, and their table is large.
  generalize CharSet.digits = chars at *
  have hwhole := (hdigits.append hpoint (by decide)).append hany (by decide)
  have hbody := body_of_adds (f := anyCase) rfl
    (.cons hwhole (.cons (hpoint.append hdigits (by decide)) (.cons hdigits .nil))) (by simp)
  exact hbody.group rfl rfl (readOpening_group numeric_anyCase)

/-- The letter of an exponent, a sign or none, and digits; or nothing. -/
def exponentRegex : Regex :=
  repetition 0 (some 1) true (seq (set (bothCases 'e')) (seq signRegex (digitsRegex 1)))

theorem adds_exponent :
    Adds anyCase "(?:[eE][+-]?\\d+)?".toList [⟨exponentRegex, 6⟩] := by
  have hdigits := adds_digits numeric_anyCase
  unfold exponentRegex digitsRegex at *
  generalize CharSet.digits = chars at *
  have hparts := (atom_exponentLetter.adds.append (adds_sign numeric_anyCase) (by decide)).append
    hdigits (by decide)
  have hbody := body_of_adds (f := anyCase) rfl (.cons hparts .nil) (by simp)
  have hgroup := hbody.group rfl rfl (readOpening_group numeric_anyCase)
  exact hgroup.repeat rfl rfl (c := '?') fun _ _ => rfl

/-- The letters of a word, each in either case. -/
def lettersRegex (w : List Char) : Regex := sequence (w.map fun c => set (bothCases c))

theorem adds_letters {w : List Char} (hw : w ⊆ wordLetters) :
    Adds anyCase w (w.map fun c => ⟨set (bothCases c), 0⟩) := by
  induction w with
  | nil => exact adds_nil anyCase
  | cons c cs ih =>
    obtain ⟨hc, hcs⟩ := List.cons_subset.1 hw
    refine (atom_letter hc).adds.append (ih hcs) ?_
    cases cs with
    | nil => simp
    | cons d ds =>
      have hd : d ∈ wordLetters := hcs List.mem_cons_self
      rintro heq
      obtain rfl : d = '?' := Option.some.inj heq
      exact absurd hd (by decide)

/-- A decimal number: a finite one, or one of the words for what is none. -/
def decimalRegex : Regex :=
  alt (seq signRegex (seq mantissaRegex exponentRegex))
    (alt (lettersRegex "nan".toList)
      (alt (lettersRegex "inf".toList) (lettersRegex "infinity".toList)))

theorem body_decimal : Body {}
    "(?i:(?:[+-]?(?:\\d+\\.\\d*|\\.\\d+|\\d+)(?:[eE][+-]?\\d+)?|nan|inf|infinity))".toList
    ⟨decimalRegex, 10⟩ := by
  have hmantissa := atom_mantissa.adds
  have hexponent := adds_exponent
  have hsign := adds_sign numeric_anyCase
  unfold decimalRegex mantissaRegex exponentRegex digitsRegex at *
  generalize CharSet.digits = chars at *
  have hnumber := (hsign.append hmantissa (by decide)).append hexponent (by decide)
  have hnan := adds_letters (w := "nan".toList) (by decide)
  have hinf := adds_letters (w := "inf".toList) (by decide)
  have hinfinity := adds_letters (w := "infinity".toList) (by decide)
  have hchoice := body_of_adds (f := anyCase) rfl
    (.cons hnumber (.cons hnan (.cons hinf (.cons hinfinity .nil)))) (by simp)
  have hinner := hchoice.group rfl rfl (readOpening_group numeric_anyCase)
  have houter := (body_of_adds (f := anyCase) rfl (.cons hinner.adds .nil) (by simp)).group rfl rfl
    readOpening_anyCase
  have hbody := body_of_adds (f := {}) rfl (.cons houter.adds .nil) (by simp)
  exact hbody

/-! ## §D Other types -/

/-- A piece of text is the contents of a group. -/
theorem Adds.body {cs : List Char} {x : Nested} (h : Adds {} cs [x]) : Body {} cs x := by
  have := body_of_adds (f := {}) rfl (.cons h .nil) (by simp)
  rwa [List.intercalate_singleton] at this

/-- Characters of a set, at least one of them, as few as possible or as many as possible. -/
def charsRegex (chars : CharSet) (greedy : Bool) : Regex := repetition 1 none greedy (set chars)

theorem theChar?_complement {c : Char} (hc : c.toNat < 0xd7ff) (hx : c ≠ 'x') (hy : c ≠ 'y') :
    (single c).complement.theChar? = none :=
  theChar?_eq_none ((contains_complement_single hc 'x').2 hx.symm)
    ((contains_complement_single hc 'y').2 hy.symm) (by decide)

theorem body_untyped : Body {} Hint.anything.toList ⟨charsRegex (single '\n').complement false, 1⟩ := by
  have hatom : Atom {} ['.'] ⟨set (single '\n').complement, 0⟩ := by
    refine atom_of_step rfl fun s rest hs => ?_
    rw [← ofSet_eq (theChar?_complement (by decide) (by decide) (by decide))]
    simp only [Reader.step, hs]
    rfl
  exact (hatom.repeatLazily rfl rfl (c := '+') fun _ _ => rfl).body

theorem body_unsigned : Body {} "\\d+".toList ⟨digitsRegex 1, 1⟩ :=
  (adds_digits (.inl rfl)).body

theorem body_signed : Body {} "[+-]?\\d+".toList ⟨seq signRegex (digitsRegex 1), 4⟩ := by
  have hdigits := adds_digits (.inl rfl : Numeric {})
  unfold digitsRegex at *
  generalize CharSet.digits = chars at *
  have := body_of_adds (f := {}) rfl
    (.cons ((adds_sign (.inl rfl)).append hdigits (by decide)) .nil) (by simp)
  exact this

theorem body_unbroken : Body {} "[^\\s]+".toList ⟨charsRegex whiteSpace.complement true, 2⟩ := by
  have hatom : Atom {} ['[', '^', '\\', 's', ']'] ⟨set whiteSpace.complement, 1⟩ := by
    refine atom_of_step rfl fun s rest hs => ?_
    rw [← ofSet_eq (show whiteSpace.complement.theChar? = none from rfl),
      ← normal_whiteSpace.empty_union]
    simp only [Reader.step, hs]
    rfl
  exact (hatom.repeat rfl rfl (c := '+') fun _ _ => rfl).body

/-- A text between two quotes. -/
def quotedRegex (quote : Char) : Regex :=
  seq (literal quote [])
    (seq (repetition 0 none true (set (single quote).complement)) (literal quote []))

theorem adds_quoted {quote : Char} (hquote : quote = '"' ∨ quote = '\'') :
    Adds {} [quote, '[', '^', quote, ']', '*', quote]
      [⟨literal quote [], 0⟩, ⟨repetition 0 none true (set (single quote).complement), 2⟩,
        ⟨literal quote [], 0⟩] := by
  have hplain : isMeta quote = false := by rcases hquote with rfl | rfl <;> decide
  have hends : Adds {} [quote] [⟨literal quote [], 0⟩] :=
    (atom_plain (f := {}) rfl hplain).adds
  have hatom : Atom {} ['[', '^', quote, ']'] ⟨set (single quote).complement, 1⟩ := by
    refine atom_of_step rfl fun s rest hs => ?_
    have hnone : (single quote).complement.theChar? = none := by
      rcases hquote with rfl | rfl <;>
        exact theChar?_complement (by decide) (by decide) (by decide)
    rw [← ofSet_eq hnone, ← (normal_single quote).empty_union]
    rcases hquote with rfl | rfl <;> simp only [Reader.step, hs] <;> rfl
  have hinside := hatom.repeat rfl rfl (c := '*') fun _ _ => rfl
  refine (hends.append hinside (by simp)).append hends ?_
  rcases hquote with rfl | rfl <;> decide

theorem body_string : Body {} "(?:\"[^\"]*\"|'[^']*')".toList
    ⟨alt (quotedRegex '"') (quotedRegex '\''), 5⟩ := by
  have hchoice := body_of_adds (f := {}) rfl
    (.cons (adds_quoted (.inl rfl)) (.cons (adds_quoted (.inr rfl)) .nil)) (by simp)
  exact (hchoice.group rfl rfl (readOpening_group (.inl rfl))).adds.body

/-! ## §E What fragments denote -/

theorem denotes_digits : (digitsRegex 1).Denotes Hint.digits := by
  rw [Hint.digits, ← oneOf_mul_kstar]
  exact (denotes_set _).plus true

theorem denotes_anyDigits : (digitsRegex 0).Denotes (manyOf digits) := by
  rw [← kstar_oneOf]
  exact (denotes_set _).star true

theorem denotes_sign : signRegex.Denotes Hint.sign := by
  have hsign : Hint.sign = oneOf signs + 1 := by
    ext w
    have hmem (c : Char) : signs.contains c = true ↔ c = '+' ∨ c = '-' := by
      rw [signs, contains_pair (by decide), ← Char.toNat_inj, ← Char.toNat_inj]
      rfl
    simp only [Hint.sign, mem_wordsOf, Language.mem_add, Language.mem_one, mem_oneOf, hmem,
      List.mem_cons, List.not_mem_nil, or_false]
    constructor
    · rintro (rfl | rfl | rfl)
      · exact .inr rfl
      · exact .inl ⟨'+', .inl rfl, rfl⟩
      · exact .inl ⟨'-', .inr rfl, rfl⟩
    · rintro (⟨c, rfl | rfl, rfl⟩ | rfl) <;> simp
  rw [hsign]
  exact (denotes_set signs).optional true

theorem denotes_mantissa : mantissaRegex.Denotes Hint.mantissa := by
  have hpoint := denotes_literal '.' []
  have hwhole := denotes_digits.seq (hpoint.seq denotes_anyDigits)
  have := hwhole.alt ((hpoint.seq denotes_digits).alt denotes_digits)
  rwa [← mul_assoc, ← add_assoc] at this

theorem denotes_exponent : exponentRegex.Denotes (1 + Hint.exponent) := by
  have hletter : oneOf (bothCases 'e') = wordsOf [['e'], ['E']] := by
    ext w
    have hmem (c : Char) : (bothCases 'e').contains c = true ↔ c = 'E' ∨ c = 'e' := by
      rw [bothCases, contains_pair (by decide), ← Char.toNat_inj, ← Char.toNat_inj]
      rfl
    simp only [mem_oneOf, mem_wordsOf, hmem, List.mem_cons, List.not_mem_nil, or_false]
    constructor
    · rintro ⟨c, rfl | rfl, rfl⟩ <;> simp
    · rintro (rfl | rfl) <;> simp
  have hset := denotes_set (bothCases 'e')
  rw [hletter] at hset
  have := (hset.seq (denotes_sign.seq denotes_digits)).optional true
  rwa [← mul_assoc, add_comm] at this

/-- The words that are spelled alike but for the case of their letters. -/
def caseless (w : List Char) : Language Char := {v | v.map Char.toLower = w}

theorem mem_caseless {v w : List Char} : v ∈ caseless w ↔ v.map Char.toLower = w := Iff.rfl

theorem denotes_letters {w : List Char} (hw : w ⊆ wordLetters) :
    (lettersRegex w).Denotes (caseless w) := by
  intro text
  rw [lettersRegex, matches_sequence]
  induction w with
  | nil =>
    rw [show caseless [] = 1 from by ext v; simp [mem_caseless, Language.mem_one],
      Passage.within_one]
    rfl
  | cons c cs ih =>
    obtain ⟨hc, hcs⟩ := List.cons_subset.1 hw
    have hlower := toNat_of_mem_wordLetters hc
    have hcons : caseless (c :: cs) = oneOf (bothCases c) * caseless cs := by
      ext v
      rw [mem_caseless, List.map_eq_cons_iff, Language.mem_mul]
      constructor
      · rintro ⟨d, ds, rfl, hd, hds⟩
        exact ⟨[d], ⟨d, (contains_bothCases hlower d).2 hd, rfl⟩, ds, hds, rfl⟩
      · rintro ⟨_, ⟨d, hd, rfl⟩, ds, hds, rfl⟩
        exact ⟨d, ds, rfl, (contains_bothCases hlower d).1 hd, hds⟩
    rw [List.map_cons, inTurn, ih hcs, hcons, Passage.within_mul]
    rfl

theorem denotes_decimal : decimalRegex.Denotes
    (Hint.sign * Hint.mantissa * (1 + Hint.exponent) + Hint.notFinite) := by
  have hnot : Hint.notFinite =
      caseless "nan".toList + (caseless "inf".toList + caseless "infinity".toList) := by
    ext v
    simp only [Language.mem_add, mem_caseless]
    exact List.mem_cons.trans (or_congr_right (List.mem_cons.trans
      (or_congr_right List.mem_singleton)))
  rw [hnot, mul_assoc]
  exact (denotes_sign.seq (denotes_mantissa.seq denotes_exponent)).alt
    ((denotes_letters (by decide)).alt
      ((denotes_letters (by decide)).alt (denotes_letters (by decide))))

theorem denotes_chars {chars : CharSet} {L : Language Char} (greedy : Bool)
    (h : ∀ w, w ∈ L ↔ w ≠ [] ∧ ∀ c ∈ w, chars.contains c = true) :
    (charsRegex chars greedy).Denotes L := by
  have hL : L = oneOf chars * (oneOf chars)∗ := by
    rw [oneOf_mul_kstar]
    ext w
    rw [h, mem_someOf]
  rw [hL]
  exact (denotes_set chars).plus greedy

theorem denotes_untyped :
    (charsRegex (single '\n').complement false).Denotes Hint.untyped := by
  refine denotes_chars false fun w => ?_
  simp only [contains_complement_single (show '\n'.toNat < 0xd7ff by decide)]
  show w ≠ [] ∧ '\n' ∉ w ↔ _
  refine and_congr_right fun _ => ?_
  constructor
  · rintro hw c hc rfl
    exact hw hc
  · intro hw hmem
    exact hw _ hmem rfl

theorem denotes_unbroken :
    (charsRegex whiteSpace.complement true).Denotes Hint.unbroken := by
  refine denotes_chars true fun w => ?_
  simp only [contains_complement_whiteSpace]
  rfl

theorem denotes_quoted {quote : Char} (hquote : quote.toNat < 0xd7ff) :
    (quotedRegex quote).Denotes (Hint.quoted quote) := by
  have hinside := (denotes_set (single quote).complement).star true
  rw [kstar_oneOf] at hinside
  have hL : Hint.quoted quote = {[quote]} * (manyOf (single quote).complement * {[quote]}) := by
    ext w
    have hmem (inside : List Char) :
        inside ∈ manyOf (single quote).complement ↔ quote ∉ inside := by
      simp only [mem_manyOf, contains_complement_single hquote]
      constructor
      · intro hw hmem
        exact hw _ hmem rfl
      · rintro hw c hc rfl
        exact hw hc
    constructor
    · rintro ⟨inside, hinside, rfl⟩
      exact Language.append_mem_mul (a := [quote]) rfl
        (Language.append_mem_mul ((hmem inside).2 hinside) rfl)
    · intro hw
      obtain ⟨_, rfl, _, hv, rfl⟩ := Language.mem_mul.1 hw
      obtain ⟨inside, hinside, _, rfl, rfl⟩ := Language.mem_mul.1 hv
      exact ⟨inside, (hmem inside).1 hinside, rfl⟩
  rw [hL]
  exact (denotes_literal quote []).seq (hinside.seq (denotes_literal quote []))

/-! ## §F Every type -/

/-- **`Plain x`** — a part that records nothing, with bounds in order, that is nested little. -/
structure Plain (x : Nested) : Prop where
  groups : x.regex.groups = []
  bounded : x.regex.Bounded
  depth : x.depth ≤ 20

/-- **`fragment_denotes`** — as the contents of a group, the fragment of a type denotes the words of
the type. -/
theorem fragment_denotes (hint : Option String) :
    ∃ x, Body {} (Hint.fragment hint).toList x ∧ x.regex.Denotes (Hint.words hint) ∧ Plain x := by
  have huntyped : ∃ x, Body {} Hint.anything.toList x ∧ x.regex.Denotes Hint.untyped ∧ Plain x :=
    ⟨_, body_untyped, denotes_untyped, rfl, by simp [charsRegex, Bounded], by decide⟩
  cases hint with
  | none => exact huntyped
  | some hint =>
    simp only [Hint.fragment, Hint.words]
    split
    · exact ⟨_, body_unsigned, denotes_digits, rfl, by simp [digitsRegex, Bounded], by decide⟩
    split
    · exact ⟨_, body_signed, denotes_sign.seq denotes_digits, rfl,
        by simp [digitsRegex, signRegex, Bounded], by decide⟩
    split
    · exact ⟨_, body_decimal, denotes_decimal, rfl,
        by simp [decimalRegex, digitsRegex, signRegex, mantissaRegex, exponentRegex, lettersRegex,
          sequence, Bounded], by decide⟩
    split
    · exact ⟨_, body_unbroken, denotes_unbroken, rfl, by simp [charsRegex, Bounded], by decide⟩
    split
    · exact ⟨_, body_string, (denotes_quoted (by decide)).alt (denotes_quoted (by decide)), rfl,
        by simp [quotedRegex, Bounded], by decide⟩
    · exact huntyped

end Regex

end FeatureFile
