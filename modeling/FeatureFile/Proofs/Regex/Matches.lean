/-
# FeatureFile.Proofs.Regex.Matches — what an expression matches

The meaning of an expression, apart from any order of preference: between which positions of a text
it matches, and what its groups record on the way. The builders keep the meaning of what they
rearrange: parts in sequence match one after the other however they are regrouped
(`matches_concat`), and a choice of words matches these words and nothing else
(`denotes_choice_words`).
-/

import Mathlib.Computability.Language
import FeatureFile.Proofs.CharSet.Members
import FeatureFile.Regex.Search

namespace FeatureFile

namespace Regex

open scoped Computability

/-! ## §A Words in a text -/

/-- **`Spelled text w i j`** — a word stands in a text from one position to another. -/
def Spelled (text : Array Char) : List Char → Nat → Nat → Prop
  | [], i, j => i = j
  | c :: cs, i, j => text[i]? = some c ∧ Spelled text cs (i + 1) j

theorem spelled_append {text : Array Char} {u v : List Char} {i j : Nat} :
    Spelled text (u ++ v) i j ↔ ∃ k, Spelled text u i k ∧ Spelled text v k j := by
  induction u generalizing i with
  | nil => simp [Spelled]
  | cons c cs ih => simp only [List.cons_append, Spelled, ih, and_assoc, exists_and_left]

theorem spelled_iff {text : Array Char} {w : List Char} {i j : Nat} :
    Spelled text w i j ↔ j = i + w.length ∧ w <+: text.toList.drop i := by
  induction w generalizing i with
  | nil => simp [Spelled, eq_comm]
  | cons c cs ih =>
    rw [Spelled, ih, List.length_cons]
    constructor
    · rintro ⟨hc, hj, hcs⟩
      obtain ⟨hlt, hget⟩ := Array.getElem?_eq_some_iff.1 hc
      refine ⟨by omega, ?_⟩
      rw [List.drop_eq_getElem_cons (by simpa using hlt), Array.getElem_toList, hget]
      exact (List.prefix_cons_inj c).2 hcs
    · rintro ⟨hj, hw⟩
      have hlt : i < text.toList.length := by
        have := hw.length_le
        simp only [List.length_cons, List.length_drop] at this
        omega
      rw [List.drop_eq_getElem_cons hlt, List.cons_prefix_cons] at hw
      refine ⟨?_, by omega, hw.2⟩
      rw [← Array.getElem?_toList, List.getElem?_eq_getElem hlt, hw.1]

theorem Spelled.stop_eq {text : Array Char} {w : List Char} {i j : Nat}
    (h : Spelled text w i j) : j = i + w.length :=
  (spelled_iff.1 h).1

/-- What stands between the two positions of a word is the word. -/
theorem Spelled.extract {text : Array Char} {w : List Char} {i j : Nat}
    (h : Spelled text w i j) : (text.toList.drop i).take (j - i) = w := by
  obtain ⟨hj, hw⟩ := spelled_iff.1 h
  rw [hj, Nat.add_sub_cancel_left]
  exact (List.prefix_iff_eq_take.1 hw).symm

/-- From the start of a text to its end stands the text. -/
theorem spelled_whole {text : Array Char} {w : List Char} :
    Spelled text w 0 text.size ↔ w = text.toList := by
  rw [spelled_iff, List.drop_zero, Nat.zero_add]
  constructor
  · rintro ⟨hlen, hw⟩
    exact hw.eq_of_length (by simp [← hlen])
  · rintro rfl
    exact ⟨by simp, List.prefix_rfl⟩

/-! ## §B Passages -/

/-- **`Passage`** — how a text may be passed: from one position to another, with the positions
recorded on the way, the latest first. -/
def Passage : Type := Nat → Nat → List (Nat × Nat) → Prop

namespace Passage

@[ext] theorem ext {P Q : Passage} (h : ∀ i j m, P i j m ↔ Q i j m) : P = Q := by
  funext i j m
  exact propext (h i j m)

/-- Going nowhere and recording nothing. -/
def stay : Passage := fun i j m => j = i ∧ m = []

/-- Going nowhere and recording the position in a slot. -/
def record (slot : Nat) : Passage := fun i j m => j = i ∧ m = [(slot, i)]

/-- One passage after another. -/
def andThen (P Q : Passage) : Passage := fun i j m =>
  ∃ k m₁ m₂, P i k m₁ ∧ Q k j m₂ ∧ m = m₂ ++ m₁

/-- So many passages in turn. -/
def turns (P : Passage) : Nat → Passage
  | 0 => stay
  | n + 1 => P.andThen (P.turns n)

/-- One passage or another. -/
def either (P Q : Passage) : Passage := fun i j m => P i j m ∨ Q i j m

/-- At least so many passages in turn and at most so many, the upper bound possibly absent. -/
def between (P : Passage) (least : Nat) (most : Option Nat) : Passage := fun i j m =>
  ∃ n, least ≤ n ∧ (∀ k ∈ most, n ≤ k) ∧ P.turns n i j m

/-- Past one of some words, recording nothing. -/
def within (text : Array Char) (L : Language Char) : Passage := fun i j m =>
  (∃ w ∈ L, Spelled text w i j) ∧ m = []

@[simp] theorem stay_andThen (P : Passage) : stay.andThen P = P := by
  ext i j m
  simp [andThen, stay]

@[simp] theorem andThen_stay (P : Passage) : P.andThen stay = P := by
  ext i j m
  simp [andThen, stay]

theorem andThen_assoc (P Q R : Passage) : (P.andThen Q).andThen R = P.andThen (Q.andThen R) := by
  ext i j m
  constructor
  · rintro ⟨k, _, m₃, ⟨l, m₁, m₂, hP, hQ, rfl⟩, hR, rfl⟩
    exact ⟨l, m₁, m₃ ++ m₂, hP, ⟨k, m₂, m₃, hQ, hR, rfl⟩, by simp⟩
  · rintro ⟨l, m₁, _, hP, ⟨k, m₂, m₃, hQ, hR, rfl⟩, rfl⟩
    exact ⟨k, m₂ ++ m₁, m₃, ⟨l, m₁, m₂, hP, hQ, rfl⟩, hR, by simp⟩

theorem turns_one (P : Passage) : P.turns 1 = P := andThen_stay P

theorem turns_add (P : Passage) (m n : Nat) :
    P.turns (m + n) = (P.turns m).andThen (P.turns n) := by
  induction m with
  | zero => simp [turns]
  | succ m ih => rw [Nat.add_right_comm, turns, ih, turns, andThen_assoc]

theorem between_zero (P : Passage) : P.between 0 (some 0) = stay := by
  ext i j m
  constructor
  · rintro ⟨n, _, hn, ht⟩
    obtain rfl : n = 0 := Nat.le_zero.1 (hn 0 rfl)
    exact ht
  · intro h
    exact ⟨0, Nat.le_refl _, by simp, h⟩

/-- One turn more at most: another turn, or none at all. -/
theorem between_succ (P : Passage) (n : Nat) :
    (P.andThen (P.between 0 (some n))).either stay = P.between 0 (some (n + 1)) := by
  ext i j m
  constructor
  · rintro (⟨k, m₁, m₂, h₁, ⟨n', _, hn, h₂⟩, rfl⟩ | hstay)
    · have : n' ≤ n := hn n rfl
      exact ⟨n' + 1, by omega, by simpa using this, k, m₁, m₂, h₁, h₂, rfl⟩
    · exact ⟨0, Nat.le_refl _, by simp, hstay⟩
  · rintro ⟨n', _, hn, ht⟩
    have : n' ≤ n + 1 := hn (n + 1) rfl
    cases n' with
    | zero => exact .inr ht
    | succ n' =>
      obtain ⟨k, m₁, m₂, h₁, h₂, rfl⟩ := ht
      exact .inl ⟨k, m₁, m₂, h₁, ⟨n', Nat.zero_le _, by simp; omega, h₂⟩, rfl⟩

/-- Any number of turns: another turn and then any number, or none at all. -/
theorem between_none (P : Passage) :
    (P.andThen (P.between 0 none)).either stay = P.between 0 none := by
  ext i j m
  constructor
  · rintro (⟨k, m₁, m₂, h₁, ⟨n, _, _, h₂⟩, rfl⟩ | hstay)
    · exact ⟨n + 1, Nat.zero_le _, by simp, k, m₁, m₂, h₁, h₂, rfl⟩
    · exact ⟨0, Nat.le_refl _, by simp, hstay⟩
  · rintro ⟨n, _, _, ht⟩
    cases n with
    | zero => exact .inr ht
    | succ n =>
      obtain ⟨k, m₁, m₂, h₁, h₂, rfl⟩ := ht
      exact .inl ⟨k, m₁, m₂, h₁, ⟨n, Nat.zero_le _, by simp, h₂⟩, rfl⟩

/-- The turns that must be taken come before those that may be. -/
theorem turns_andThen_between (P : Passage) (least : Nat) (most : Option Nat) :
    (P.turns least).andThen (P.between 0 most) = P.between least (most.map (least + ·)) := by
  ext i j m
  constructor
  · rintro ⟨k, m₁, m₂, h₁, ⟨n, _, hn, h₂⟩, rfl⟩
    refine ⟨least + n, Nat.le_add_right _ _, ?_, ?_⟩
    · intro bound hbound
      obtain ⟨b, hb, rfl⟩ := Option.map_eq_some_iff.1 hbound
      have := hn b hb
      omega
    · rw [turns_add]
      exact ⟨k, m₁, m₂, h₁, h₂, rfl⟩
  · rintro ⟨n, hle, hn, ht⟩
    obtain ⟨n, rfl⟩ := Nat.exists_eq_add_of_le hle
    rw [turns_add] at ht
    obtain ⟨k, m₁, m₂, h₁, h₂, rfl⟩ := ht
    refine ⟨k, m₁, m₂, h₁, ⟨n, Nat.zero_le _, ?_, h₂⟩, rfl⟩
    intro b hb
    have := hn (least + b) (by rw [hb]; rfl)
    omega

@[simp] theorem within_one (text : Array Char) : within text 1 = stay := by
  ext i j m
  simp [within, stay, Language.mem_one, Spelled, eq_comm]

theorem within_mul (text : Array Char) (L M : Language Char) :
    within text (L * M) = (within text L).andThen (within text M) := by
  ext i j m
  constructor
  · rintro ⟨⟨w, hw, hs⟩, rfl⟩
    obtain ⟨u, hu, v, hv, rfl⟩ := Language.mem_mul.1 hw
    obtain ⟨k, hsu, hsv⟩ := spelled_append.1 hs
    exact ⟨k, [], [], ⟨⟨u, hu, hsu⟩, rfl⟩, ⟨⟨v, hv, hsv⟩, rfl⟩, rfl⟩
  · rintro ⟨k, _, _, ⟨⟨u, hu, hsu⟩, rfl⟩, ⟨⟨v, hv, hsv⟩, rfl⟩, rfl⟩
    exact ⟨⟨u ++ v, Language.append_mem_mul hu hv, spelled_append.2 ⟨k, hsu, hsv⟩⟩, rfl⟩

theorem singleton_mul_singleton (u v : List Char) : ({u} : Language Char) * {v} = {u ++ v} :=
  Set.image2_singleton

theorem turns_within (text : Array Char) (L : Language Char) (n : Nat) :
    (within text L).turns n = within text (L ^ n) := by
  induction n with
  | zero => rw [turns, pow_zero, within_one]
  | succ n ih => rw [turns, ih, pow_succ', within_mul]

end Passage

/-! ## §C Matches -/

/-- The words of one character of a set. -/
def oneOf (chars : CharSet) : Language Char := {w | ∃ c, chars.contains c = true ∧ w = [c]}

theorem mem_oneOf {chars : CharSet} {w : List Char} :
    w ∈ oneOf chars ↔ ∃ c, chars.contains c = true ∧ w = [c] := Iff.rfl

/-- **`r.Matches text`** — how an expression passes a text. -/
def Matches (text : Array Char) : Regex → Passage
  | empty => .stay
  | literal c cs => .within text {c :: cs}
  | set chars => .within text (oneOf chars)
  | check a => fun i j m => a.holds (before? text i) text[i]? = true ∧ j = i ∧ m = []
  | repetition least most _ r => (r.Matches text).between least most
  | group index _ r =>
    (Passage.record (2 * index)).andThen
      ((r.Matches text).andThen (.record (2 * index + 1)))
  | seq r s => (r.Matches text).andThen (s.Matches text)
  | alt r s => (r.Matches text).either (s.Matches text)

@[simp] theorem matches_literal (text : Array Char) (c : Char) (cs : List Char) :
    (literal c cs).Matches text = .within text {c :: cs} := rfl

@[simp] theorem matches_repetition (text : Array Char) (least : Nat) (most : Option Nat)
    (greedy : Bool) (r : Regex) :
    (repetition least most greedy r).Matches text = (r.Matches text).between least most := rfl

@[simp] theorem matches_seq (text : Array Char) (r s : Regex) :
    (seq r s).Matches text = (r.Matches text).andThen (s.Matches text) := rfl

@[simp] theorem matches_alt (text : Array Char) (r s : Regex) :
    (alt r s).Matches text = (r.Matches text).either (s.Matches text) := rfl

/-- A group records where it begins and, later, where it ends. -/
theorem matches_group {text : Array Char} {index : Nat} {name : Option String} {r : Regex}
    {i j : Nat} {m : List (Nat × Nat)} :
    (group index name r).Matches text i j m ↔
      ∃ inner, r.Matches text i j inner ∧
        m = (2 * index + 1, j) :: (inner ++ [(2 * index, i)]) := by
  constructor
  · rintro ⟨_, _, _, ⟨rfl, rfl⟩, ⟨_, inner, _, hr, ⟨rfl, rfl⟩, rfl⟩, rfl⟩
    exact ⟨inner, hr, rfl⟩
  · rintro ⟨inner, hr, rfl⟩
    exact ⟨i, _, _, ⟨rfl, rfl⟩, ⟨j, inner, _, hr, ⟨rfl, rfl⟩, rfl⟩, rfl⟩

/-- Expressions that match one after the other. -/
def inTurn (text : Array Char) : List Regex → Passage
  | [] => .stay
  | r :: rs => (r.Matches text).andThen (inTurn text rs)

theorem inTurn_append (text : Array Char) (rs ss : List Regex) :
    inTurn text (rs ++ ss) = (inTurn text rs).andThen (inTurn text ss) := by
  induction rs with
  | nil => simp [inTurn]
  | cons r rs ih => rw [List.cons_append, inTurn, ih, inTurn, Passage.andThen_assoc]

theorem inTurn_singleton (text : Array Char) (r : Regex) :
    inTurn text [r] = r.Matches text :=
  Passage.andThen_stay _

/-- The parts of an expression match in turn what it matches. -/
theorem inTurn_items (text : Array Char) (r : Regex) : inTurn text r.items = r.Matches text := by
  induction r with
  | empty => rfl
  | seq r s _ ihs => rw [items, inTurn, ihs, matches_seq]
  | _ => exact inTurn_singleton text _

theorem inTurn_glue (text : Array Char) (r : Regex) (rs : List Regex) :
    inTurn text (glue r rs) = (r.Matches text).andThen (inTurn text rs) := by
  unfold glue
  split
  · rename_i c cs d ds rest
    rw [inTurn, inTurn, ← Passage.andThen_assoc]
    simp only [matches_literal, ← Passage.within_mul, Passage.singleton_mul_singleton,
      List.cons_append]
  · rfl

theorem matches_sequence (text : Array Char) (rs : List Regex) :
    (sequence rs).Matches text = inTurn text rs := by
  fun_induction sequence rs with
  | case1 => rfl
  | case2 r => exact (inTurn_singleton text r).symm
  | case3 r rest _ ih => rw [matches_seq, ih, inTurn]

/-- **`matches_concat`** — however their parts are regrouped, expressions in sequence match one
after the other. -/
theorem matches_concat (text : Array Char) (rs : List Regex) :
    (concat rs).Matches text = inTurn text rs := by
  have glued (parts : List Regex) : inTurn text (parts.foldr glue []) = inTurn text parts := by
    induction parts with
    | nil => rfl
    | cons r parts ih => rw [List.foldr_cons, inTurn_glue, ih, inTurn]
  rw [concat, matches_sequence, glued]
  induction rs with
  | nil => rfl
  | cons r rs ih => rw [List.flatMap_cons, inTurn_append, inTurn_items, ih, inTurn]

/-! ## §D Expressions that denote words -/

/-- **`r.Denotes L`** — an expression matches the words of `L` wherever they stand, and nothing is
recorded on the way. -/
def Denotes (r : Regex) (L : Language Char) : Prop :=
  ∀ text, r.Matches text = Passage.within text L

theorem denotes_literal (c : Char) (cs : List Char) : (literal c cs).Denotes {c :: cs} :=
  fun _ => rfl

theorem denotes_set (chars : CharSet) : (set chars).Denotes (oneOf chars) :=
  fun _ => rfl

/-- Making a literal of a set of one character changes nothing if the set holds that character. -/
theorem denotes_ofSet {chars : CharSet}
    (h : ∀ c, chars.theChar? = some c → chars.contains c = true) :
    (ofSet chars).Denotes (oneOf chars) := by
  unfold ofSet
  split
  · rename_i c hc
    have hone : oneOf chars = {[c]} := by
      ext w
      rw [mem_oneOf]
      simp only [CharSet.contains_iff_of_theChar? hc (h c hc), exists_eq_left]
      rfl
    rw [hone]
    exact denotes_literal c []
  · exact denotes_set chars

section Denotes

variable {r s : Regex} {L M : Language Char}

theorem Denotes.seq (hr : r.Denotes L) (hs : s.Denotes M) : (seq r s).Denotes (L * M) := by
  intro text
  rw [matches_seq, hr text, hs text, Passage.within_mul]

theorem Denotes.alt (hr : r.Denotes L) (hs : s.Denotes M) : (alt r s).Denotes (L + M) := by
  intro text
  ext i j m
  rw [matches_alt, hr text, hs text]
  simp only [Passage.either, Passage.within, Language.mem_add, or_and_right, exists_or]

theorem Denotes.turns (hr : r.Denotes L) (text : Array Char) (n : Nat) :
    (r.Matches text).turns n = Passage.within text (L ^ n) := by
  rw [hr text, Passage.turns_within]

theorem Denotes.optional (hr : r.Denotes L) (greedy : Bool) :
    (repetition 0 (some 1) greedy r).Denotes (L + 1) := by
  intro text
  have halt := hr.alt (s := empty) (fun text => (Passage.within_one text).symm) text
  rw [matches_repetition, ← Passage.between_succ, Passage.between_zero, Passage.andThen_stay]
  exact halt

theorem Denotes.star (hr : r.Denotes L) (greedy : Bool) :
    (repetition 0 none greedy r).Denotes L∗ := by
  intro text
  ext i j m
  simp only [matches_repetition, Passage.between, hr.turns, Passage.within,
    Language.kstar_eq_iSup_pow, Language.mem_iSup]
  constructor
  · rintro ⟨n, _, _, ⟨w, hw, hs⟩, rfl⟩
    exact ⟨⟨w, ⟨n, hw⟩, hs⟩, rfl⟩
  · rintro ⟨⟨w, ⟨n, hw⟩, hs⟩, rfl⟩
    exact ⟨n, Nat.zero_le _, by simp, ⟨w, hw, hs⟩, rfl⟩

theorem Denotes.plus (hr : r.Denotes L) (greedy : Bool) :
    (repetition 1 none greedy r).Denotes (L * L∗) := by
  intro text
  have hstar : (r.Matches text).between 0 none = Passage.within text L∗ := hr.star greedy text
  have hsplit := (r.Matches text).turns_andThen_between 1 none
  rw [Passage.turns_one, hstar, hr text] at hsplit
  rw [matches_repetition, hr text, Passage.within_mul, hsplit]
  rfl

end Denotes

/-- The words of any number of characters of a set. -/
def manyOf (chars : CharSet) : Language Char := {w | ∀ c ∈ w, chars.contains c = true}

theorem mem_manyOf {chars : CharSet} {w : List Char} :
    w ∈ manyOf chars ↔ ∀ c ∈ w, chars.contains c = true := Iff.rfl

/-- The words of at least one character of a set. -/
def someOf (chars : CharSet) : Language Char := {w | w ≠ [] ∧ ∀ c ∈ w, chars.contains c = true}

theorem mem_someOf {chars : CharSet} {w : List Char} :
    w ∈ someOf chars ↔ w ≠ [] ∧ ∀ c ∈ w, chars.contains c = true := Iff.rfl

theorem kstar_oneOf (chars : CharSet) : (oneOf chars)∗ = manyOf chars := by
  ext w
  rw [Language.mem_kstar, mem_manyOf]
  constructor
  · rintro ⟨parts, rfl, hparts⟩ c hc
    obtain ⟨u, hu, hcu⟩ := List.mem_flatten.1 hc
    obtain ⟨d, hd, rfl⟩ := hparts u hu
    rw [List.mem_singleton.1 hcu]
    exact hd
  · intro hw
    refine ⟨w.map fun c => [c], by rw [← List.flatMap_def, List.flatMap_singleton'], ?_⟩
    intro u hu
    obtain ⟨c, hc, rfl⟩ := List.mem_map.1 hu
    exact ⟨c, hw c hc, rfl⟩

theorem oneOf_mul_kstar (chars : CharSet) : oneOf chars * (oneOf chars)∗ = someOf chars := by
  ext w
  rw [kstar_oneOf, Language.mem_mul, mem_someOf]
  constructor
  · rintro ⟨_, ⟨c, hc, rfl⟩, v, hv, rfl⟩
    exact ⟨by simp, List.forall_mem_cons.2 ⟨hc, hv⟩⟩
  · rintro ⟨hne, hw⟩
    obtain ⟨c, cs, rfl⟩ := List.exists_cons_of_ne_nil hne
    obtain ⟨hc, hcs⟩ := List.forall_mem_cons.1 hw
    exact ⟨[c], ⟨c, hc, rfl⟩, cs, hcs, rfl⟩

/-! ## §E Choices of words -/

/-- A word as an expression. -/
def ofWord : List Char → Regex
  | [] => empty
  | c :: cs => literal c cs

theorem denotes_ofWord (w : List Char) : (ofWord w).Denotes {w} := by
  cases w with
  | nil => exact fun text => (Passage.within_one text).symm
  | cons c cs => exact denotes_literal c cs

/-- Characters in sequence are one word. -/
theorem concat_chars (w : List Char) : concat (w.map fun c => literal c []) = ofWord w := by
  have hitems (w : List Char) :
      (w.map fun c => literal c []).flatMap items = w.map fun c => literal c [] := by
    induction w with
    | nil => rfl
    | cons c cs ih => rw [List.map_cons, List.flatMap_cons, ih]; rfl
  have hglue (w : List Char) :
      (w.map fun c => literal c []).foldr glue [] = (ofWord w).items := by
    induction w with
    | nil => rfl
    | cons c cs ih => rw [List.map_cons, List.foldr_cons, ih]; cases cs <;> rfl
  rw [concat, hitems, hglue]
  cases w <;> rfl

@[simp] theorem flatMap_branches_words (words : List (List Char)) :
    (words.map ofWord).flatMap branches = words.map ofWord := by
  induction words with
  | nil => rfl
  | cons w words ih =>
    rw [List.map_cons, List.flatMap_cons, ih]
    cases w <;> rfl

@[simp] theorem sequenceItems_ofWord (w : List Char) : (ofWord w).sequenceItems = [] := by
  cases w <;> rfl

/-- Words have no parts to begin with in common: each is one part. -/
theorem commonStart_words (words : List (List Char)) : commonStart (words.map ofWord) = [] := by
  cases words with
  | nil => rfl
  | cons w words =>
    rw [List.map_cons, commonStart, sequenceItems_ofWord]
    induction words with
    | nil => rfl
    | cons v words ih => exact ih

theorem theChar?_ofWord {w : List Char} {c : Char} (h : (ofWord w).theChar? = some c) :
    w = [c] := by
  match w, h with
  | [d], h => rw [Option.some.inj h]

/-- Words that are all single characters are spelled by these. -/
theorem eq_of_mapM_theChar? {words : List (List Char)} {cs : List Char}
    (h : (words.map ofWord).mapM theChar? = some cs) : words = cs.map fun c => [c] := by
  induction words generalizing cs with
  | nil => simpa using h
  | cons w words ih =>
    simp only [List.map_cons, List.mapM_cons, Option.pure_def, Option.bind_eq_bind,
      Option.bind_eq_some_iff, Option.some.injEq] at h
    obtain ⟨c, hc, ds, hds, rfl⟩ := h
    rw [List.map_cons, theChar?_ofWord hc, ih hds]

/-- The words of a list. -/
def wordsOf (words : List (List Char)) : Language Char := {w | w ∈ words}

theorem mem_wordsOf {words : List (List Char)} {w : List Char} :
    w ∈ wordsOf words ↔ w ∈ words := Iff.rfl

theorem matches_choose (text : Array Char) (last : Regex) (rs : List Regex) (i j : Nat)
    (m : List (Nat × Nat)) :
    (choose last rs).Matches text i j m ↔ ∃ r ∈ rs ++ [last], r.Matches text i j m := by
  induction rs with
  | nil => simp [choose]
  | cons r rs ih => simp [choose, Passage.either, ih]

/-- One of some single characters is a character of their set. -/
theorem denotes_ofCodes (cs : List Char) :
    (ofSet (.ofCodes (cs.map Char.toNat))).Denotes (wordsOf (cs.map fun c => [c])) := by
  have hmem (c : Char) : (CharSet.ofCodes (cs.map Char.toNat)).contains c = true ↔ c ∈ cs := by
    rw [CharSet.contains_ofCodes, List.mem_map]
    constructor
    · rintro ⟨d, hd, heq⟩
      rwa [← Char.toNat_inj.mp heq]
    · intro hc
      exact ⟨c, hc, rfl⟩
  have hone : oneOf (.ofCodes (cs.map Char.toNat)) = wordsOf (cs.map fun c => [c]) := by
    ext w
    simp only [mem_oneOf, mem_wordsOf, hmem, List.mem_map, eq_comm]
  rw [← hone]
  refine denotes_ofSet fun c hc => ?_
  -- The only code point of the set is that of one of the characters.
  obtain ⟨n, hn, rfl⟩ := CharSet.theChar?_eq_some hc
  cases cs with
  | nil => simp [CharSet.ofCodes, CharSet.joined] at hn
  | cons d ds =>
    have hd := (hmem d).2 List.mem_cons_self
    rw [CharSet.contains_of_ranges_eq hn] at hd
    rw [CharSet.contains_of_ranges_eq hn, ← hd]
    exact congrArg Char.toNat (Char.ofNat_toNat d)

/-- A choice of words is a set if they are single characters, and else one branch a word. -/
theorem choice_words_cases {words : List (List Char)} (hne : words ≠ []) :
    (∃ cs : List Char, words = (cs.map fun c => [c]) ∧
      choice (words.map ofWord) = ofSet (.ofCodes (cs.map Char.toNat))) ∨
    ∃ init last, words = init ++ [last] ∧
      choice (words.map ofWord) = choose (ofWord last) (init.map ofWord) := by
  have hchoice : choice (words.map ofWord) = alternatives (words.map ofWord) := by
    simp only [choice, flatMap_branches_words, commonStart_words, List.isEmpty_nil, if_true]
  rw [hchoice, alternatives]
  simp only [flatMap_branches_words]
  unfold merged?
  cases hchars : (words.map ofWord).mapM theChar? with
  | some cs => exact .inl ⟨cs, eq_of_mapM_theChar? hchars, rfl⟩
  | none =>
    have hsets : (words.map ofWord).mapM theSet? = none := by
      obtain ⟨w, ws, rfl⟩ := List.exists_cons_of_ne_nil hne
      cases w <;> rfl
    simp only [hsets, Option.map_none]
    obtain ⟨init, last, rfl⟩ := List.eq_nil_or_concat' words |>.resolve_left hne
    refine .inr ⟨init, last, rfl, ?_⟩
    simp only [List.map_append, List.map_cons, List.map_nil, List.getLast?_concat,
      List.dropLast_concat]

/-- **`denotes_choice_words`** — a choice of words matches one of them. -/
theorem denotes_choice_words {words : List (List Char)} (hne : words ≠ []) :
    (choice (words.map ofWord)).Denotes (wordsOf words) := by
  rcases choice_words_cases hne with ⟨cs, rfl, heq⟩ | ⟨init, last, rfl, heq⟩
  · rw [heq]
    exact denotes_ofCodes cs
  · rw [heq]
    intro text
    ext i j m
    rw [matches_choose]
    simp only [← List.map_singleton, ← List.map_append, List.mem_map, exists_exists_and_eq_and,
      denotes_ofWord _ text, Passage.within, mem_wordsOf]
    constructor
    · rintro ⟨w, hw, ⟨v, hv, hs⟩, rfl⟩
      obtain rfl : v = w := hv
      exact ⟨⟨v, hw, hs⟩, rfl⟩
    · rintro ⟨⟨w, hw, hs⟩, rfl⟩
      exact ⟨w, hw, ⟨w, rfl, hs⟩, rfl⟩

end Regex

end FeatureFile
