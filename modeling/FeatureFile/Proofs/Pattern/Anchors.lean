/-
# FeatureFile.Proofs.Pattern.Anchors — how much of a step a regular expression describes

A pattern written as a regular expression is completed with the anchors that it lacks, so its source
always begins with a caret and ends with a dollar sign. If the expression that is read from it is
anchored at its first parts, every match begins at the start of the step text
(`start_of_anchoredAtStart`), and if it is anchored at its last parts, every match stops at its end
(`stop_of_anchoredAtEnd`).

⚠ The signs at the ends of the source need not be anchors of the whole expression. An escaped dollar
sign stands for itself, a bar keeps an anchor to its own branch, and a caret may be repeated no times:
such a pattern matches a part of a step text. Main statement: `regex_covers_text`.
-/

import FeatureFile.Proofs.Pattern.Match

namespace FeatureFile

namespace Regex

/-! ## §A Anchored expressions -/

/-- An expression that consumes nothing stops where it begins. -/
theorem stop_of_onlyEmpty {r : Regex} (h : r.onlyEmpty = true) {text : Array Char} {i j : Nat}
    {m : List (Nat × Nat)} (hm : r.Matches text i j m) : j = i := by
  have turns {P : Passage} (hP : ∀ {i j m}, P i j m → j = i) {n i j : Nat} {m : List (Nat × Nat)}
      (h : P.turns n i j m) : j = i := by
    induction n generalizing i m with
    | zero => exact h.1
    | succ n ih =>
      obtain ⟨k, _, _, hfirst, hrest, -⟩ := h
      exact (ih hrest).trans (hP hfirst)
  induction r generalizing i j m with
  | empty => exact hm.1
  | literal | set => exact absurd h (by simp [onlyEmpty])
  | check a => exact hm.2.1
  | repetition least most greedy r ih =>
    obtain ⟨n, -, -, hn⟩ := hm
    exact turns (ih (Bool.and_eq_true_iff.mp h).2) hn
  | group index name r ih =>
    obtain ⟨_, hinner, -⟩ := matches_group.mp hm
    exact ih h hinner
  | seq r s ihr ihs =>
    obtain ⟨hr, hs⟩ := Bool.and_eq_true_iff.mp h
    obtain ⟨k, _, _, hfirst, hsecond, -⟩ := hm
    exact (ihs hs hsecond).trans (ihr hr hfirst)
  | alt r s ihr ihs =>
    obtain ⟨hr, hs⟩ := Bool.and_eq_true_iff.mp h
    exact hm.elim (ihr hr) (ihs hs)

/-- **`start_of_anchoredAtStart`** — an expression anchored at the start matches from there. -/
theorem start_of_anchoredAtStart {r : Regex} (h : r.anchoredAtStart = true) {text : Array Char}
    {i j : Nat} {m : List (Nat × Nat)} (hm : r.Matches text i j m) :
    (before? text i).isNone = true := by
  induction r generalizing i j m with
  | empty | literal | set => exact absurd h (by simp [anchoredAtStart])
  | check a =>
    obtain rfl : a = .textStart := by simpa [anchoredAtStart] using h
    exact hm.1
  | repetition least most greedy r ih =>
    simp only [anchoredAtStart, Bool.and_eq_true, decide_eq_true_eq] at h
    obtain ⟨n, hn, -, hturns⟩ := hm
    obtain ⟨n, rfl⟩ := Nat.exists_eq_add_of_lt (Nat.lt_of_lt_of_le h.1 hn)
    obtain ⟨k, _, _, hfirst, -⟩ := hturns
    exact ih h.2 hfirst
  | group index name r ih =>
    obtain ⟨_, hinner, -⟩ := matches_group.mp hm
    exact ih h hinner
  | seq r s ihr ihs =>
    obtain ⟨k, _, _, hfirst, hsecond, -⟩ := hm
    simp only [anchoredAtStart, Bool.or_eq_true, Bool.and_eq_true] at h
    obtain hr | ⟨hr, hs⟩ := h
    · exact ihr hr hfirst
    · rw [← stop_of_onlyEmpty hr hfirst]
      exact ihs hs hsecond
  | alt r s ihr ihs =>
    obtain ⟨hr, hs⟩ := Bool.and_eq_true_iff.mp h
    exact hm.elim (ihr hr) (ihs hs)

/-- **`stop_of_anchoredAtEnd`** — an expression anchored at the end matches up to there. -/
theorem stop_of_anchoredAtEnd {r : Regex} (h : r.anchoredAtEnd = true) {text : Array Char}
    {i j : Nat} {m : List (Nat × Nat)} (hm : r.Matches text i j m) : text[j]? = none := by
  induction r generalizing i j m with
  | empty | literal | set => exact absurd h (by simp [anchoredAtEnd])
  | check a =>
    obtain rfl : a = .textEnd := by simpa [anchoredAtEnd] using h
    obtain ⟨hend, rfl, -⟩ := hm
    exact Option.isNone_iff_eq_none.mp hend
  | repetition least most greedy r ih =>
    simp only [anchoredAtEnd, Bool.and_eq_true, decide_eq_true_eq] at h
    obtain ⟨n, hn, -, hturns⟩ := hm
    obtain ⟨n, rfl⟩ := Nat.exists_eq_add_of_lt (Nat.lt_of_lt_of_le h.1 hn)
    rw [Nat.zero_add, Passage.turns_add, Passage.turns_one] at hturns
    obtain ⟨k, _, _, -, hlast, -⟩ := hturns
    exact ih h.2 hlast
  | group index name r ih =>
    obtain ⟨_, hinner, -⟩ := matches_group.mp hm
    exact ih h hinner
  | seq r s ihr ihs =>
    obtain ⟨k, _, _, hfirst, hsecond, -⟩ := hm
    simp only [anchoredAtEnd, Bool.or_eq_true, Bool.and_eq_true] at h
    obtain hs | ⟨hs, hr⟩ := h
    · exact ihs hs hsecond
    · rw [stop_of_onlyEmpty hs hsecond]
      exact ihr hr hfirst
  | alt r s ihr ihs =>
    obtain ⟨hr, hs⟩ := Bool.and_eq_true_iff.mp h
    exact hm.elim (ihr hr) (ihs hs)

/-! ## §B The overall match -/

/-- **`exists_match_of_captures`** — the first capture of an expression that was read is one of its
matches, from where it begins to where it stops. -/
theorem exists_match_of_captures {source : List Char} {r : Regex} (hread : Regex.read source = .ok r)
    {text : String} {captures : List (Option Capture)} (h : r.captures? text = some captures) :
    ∃ i ≤ text.toList.length, ∃ j m, r.Matches text.toList.toArray i j m ∧
      captures.head? = some (some (captureAt text.toList i j)) := by
  obtain ⟨found, hfound, rfl⟩ := Option.map_eq_some_iff.mp h
  obtain ⟨i, hi, j, m, hm, rfl⟩ := exists_match_of_search hread hfound
  -- No group of the expression has the number of the overall match.
  have hother : ∀ x ∈ m, x.1 / 2 ≠ 0 := fun x hx =>
    Nat.ne_of_gt (number_pos_of_matches hread hm x hx)
  have hrange : groupRange? ((1, j) :: (m ++ [(0, i)])) 0 = some (i, j) := by
    simp only [groupRange?, List.lookup_cons, List.lookup_append,
      lookup_slot_eq_none hother 0 rfl]
    rfl
  refine ⟨i, hi, j, m, hm, ?_⟩
  rw [List.range_succ_eq_map, List.map_cons, List.head?_cons, hrange]
  rfl

end Regex

open Regex

/-! ## §C Patterns -/

/-- A capture from the start of a text begins there. -/
theorem start_captureAt_zero (text : List Char) (j : Nat) : (captureAt text 0 j).span.start = 0 :=
  rfl

/-- A capture up to the end of a text holds the rest of it. -/
theorem captureAt_end {text : List Char} {i j : Nat} (hj : text.length ≤ j) :
    (captureAt text i j).text = String.ofList (text.drop i) ∧
      (captureAt text i j).span.stop = Text.byteLength text := by
  have hinside : (text.drop i).take (j - i) = text.drop i := by
    refine List.take_of_length_le ?_
    rw [List.length_drop]
    omega
  refine ⟨congrArg String.ofList hinside, ?_⟩
  show Text.byteLength (text.take i) + Text.byteLength ((text.drop i).take (j - i)) = _
  rw [hinside, ← Text.byteLength_append, List.take_append_drop]

namespace StepPattern

/-- An anchored text has the caret and the dollar sign at its ends. -/
theorem exists_anchored (cs : List Char) : ∃ body, anchored cs = '^' :: body ++ ['$'] := by
  have hend {cs : List Char} (h : cs.getLast? = some '$') : ∃ body, cs = body ++ ['$'] :=
    List.getLast?_eq_some_iff.mp h
  unfold anchored
  by_cases hstart : cs.head? = some '^' <;> by_cases hstop : cs.getLast? = some '$'
  · rw [if_pos (beq_iff_eq.mpr hstart), if_pos (beq_iff_eq.mpr hstop), List.append_nil]
    obtain ⟨body, rfl⟩ := hend hstop
    cases body with
    | nil => exact absurd hstart (by decide)
    | cons c body =>
      obtain rfl : c = '^' := Option.some.inj hstart
      exact ⟨body, rfl⟩
  · rw [if_pos (beq_iff_eq.mpr hstart), if_neg (by simpa using hstop)]
    obtain ⟨body, rfl⟩ := List.head?_eq_some_iff.mp hstart
    exact ⟨body, rfl⟩
  · rw [if_neg (by simpa using hstart), if_pos (beq_iff_eq.mpr hstop), List.append_nil]
    obtain ⟨body, rfl⟩ := hend hstop
    exact ⟨body, rfl⟩
  · rw [if_neg (by simpa using hstart), if_neg (by simpa using hstop)]
    exact ⟨cs, rfl⟩

/-- The source of a regular expression that compiles is the anchored text, and it is read as its
expression. -/
theorem source_of_compile {t : String} {p : CompiledPattern} (h : (regex t).compile = .ok p) :
    p.source.toList = anchored t.toList ∧ Regex.read p.source.toList = .ok p.regex := by
  obtain ⟨hsource, hread⟩ := read_of_compile h
  refine ⟨?_, hread⟩
  unfold regexSource at hsource
  split at hsource
  · exact absurd hsource (by simp)
  · rw [← Except.ok.inj hsource, String.toList_ofList]

/-- **`regex_covers_text`** — the source of a regular expression begins with a caret and ends with a
dollar sign, and every match of a step text has an overall match. That begins where the text begins
if the expression is anchored at its start, stops where the text ends if it is anchored at its end,
and is the whole text if it is both. -/
theorem regex_covers_text {t : String} {p : CompiledPattern} (h : (regex t).compile = .ok p) :
    (∃ body, p.source.toList = '^' :: body ++ ['$']) ∧
      ∀ text captures, p.regex.captures? text = some captures →
        ∃ whole, captures.head? = some (some whole) ∧
          (p.regex.anchoredAtStart = true → whole.span.start = 0) ∧
          (p.regex.anchoredAtEnd = true → whole.span.stop = Text.byteSize text) ∧
          (p.regex.anchoredAtStart = true → p.regex.anchoredAtEnd = true → whole.text = text) := by
  obtain ⟨hsource, hread⟩ := source_of_compile h
  refine ⟨hsource ▸ exists_anchored t.toList, fun text captures hcaptures => ?_⟩
  obtain ⟨i, hi, j, m, hmatch, hhead⟩ := exists_match_of_captures hread hcaptures
  have hstart (hanchored : p.regex.anchoredAtStart = true) : i = 0 :=
    (Piece.before?_isNone (by simpa using hi)).mp (start_of_anchoredAtStart hanchored hmatch)
  have hstop (hanchored : p.regex.anchoredAtEnd = true) : text.toList.length ≤ j := by
    simpa using stop_of_anchoredAtEnd hanchored hmatch
  refine ⟨_, hhead, fun hfirst => ?_, fun hlast => (captureAt_end (hstop hlast)).2,
    fun hfirst hlast => ?_⟩
  · rw [hstart hfirst]
    exact start_captureAt_zero _ _
  · rw [(captureAt_end (hstop hlast)).1, hstart hfirst, List.drop_zero, String.ofList_toList]

/-- A plain text with an anchor at its start. -/
theorem regex_covers_text_cats : ∃ p, (regex "^cats?").compile = .ok p ∧
    p.regex.anchoredAtStart = true ∧ p.regex.anchoredAtEnd = true ∧
    ∀ text captures, p.regex.captures? text = some captures →
      ∃ whole, captures.head? = some (some whole) ∧ whole.text = text := by
  have hcompile : (regex "^cats?").compile = .ok ⟨"^cats?$",
      .seq (.check .textStart) (.seq (.literal 'c' ['a', 't'])
        (.seq (.repetition 0 (some 1) true (.literal 's' [])) (.check .textEnd)))⟩ := by
    decide +kernel
  refine ⟨_, hcompile, rfl, rfl, fun text captures hcaptures => ?_⟩
  obtain ⟨whole, hhead, -, -, htext⟩ := (regex_covers_text hcompile).2 text captures hcaptures
  exact ⟨whole, hhead, htext rfl rfl⟩

/-- An escaped dollar sign at the end of a pattern counts as an anchor and is none. -/
theorem regex_covers_part :
    (regex "I pay 5\\$").compile = .ok ⟨"^I pay 5\\$",
        .seq (.check .textStart) (.literal 'I' [' ', 'p', 'a', 'y', ' ', '5', '$'])⟩ ∧
      (Regex.seq (.check .textStart) (.literal 'I' [' ', 'p', 'a', 'y', ' ', '5', '$'])).captures?
        "I pay 5$ today" = some [some ⟨"I pay 5$", ⟨0, 8, by decide⟩⟩] := by
  decide +kernel

end StepPattern

end FeatureFile
