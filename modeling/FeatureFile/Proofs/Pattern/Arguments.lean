/-
# FeatureFile.Proofs.Pattern.Arguments — the arguments of a brace expression

A brace expression has as many groups as placeholders, numbered in order and without names. So the
positions that a match records under a number are those of the word of one placeholder, and the
arguments of a text are the words of the placeholders with their places (`arguments_marksOf`). With
what the source is read as and what the search finds, a text has arguments if and only if it is one
word of each piece behind the other (`expression_arguments_spell`).
-/

import FeatureFile.Proofs.Regex.Partwise
import FeatureFile.Proofs.Regex.Search

namespace FeatureFile

/-! ## §A Expressions in sequence -/

namespace Regex

theorem groups_items (r : Regex) : r.items.flatMap groups = r.groups := by
  induction r with
  | empty => rfl
  | seq r s _ ihs => rw [items, List.flatMap_cons, ihs, groups]
  | _ => exact List.append_nil _

theorem groups_glue (r : Regex) (rs : List Regex) :
    (glue r rs).flatMap groups = r.groups ++ rs.flatMap groups := by
  unfold glue
  split <;> rfl

theorem groups_sequence (rs : List Regex) : (sequence rs).groups = rs.flatMap groups := by
  fun_induction sequence rs with
  | case1 => rfl
  | case2 r => exact (List.append_nil _).symm
  | case3 r rest _ ih => rw [groups, ih, List.flatMap_cons]

/-- Regrouping parts keeps their groups. -/
theorem groups_concat (rs : List Regex) : (concat rs).groups = rs.flatMap groups := by
  have glued (parts : List Regex) :
      (parts.foldr glue []).flatMap groups = parts.flatMap groups := by
    induction parts with
    | nil => rfl
    | cons r parts ih => rw [List.foldr_cons, groups_glue, ih, List.flatMap_cons]
  rw [concat, groups_sequence, glued, List.flatMap_assoc]
  simp only [groups_items]

/-! ## §B What is recorded under a number -/

theorem lookup_slot_eq_none {marks : List (Nat × Nat)} {index : Nat}
    (h : ∀ m ∈ marks, m.1 / 2 ≠ index) (slot : Nat) (hslot : slot / 2 = index) :
    marks.lookup slot = none := by
  rw [List.lookup_eq_none_iff]
  intro m hm
  rw [bne_iff_ne]
  rintro rfl
  exact h m hm hslot

/-- What is recorded later under other numbers does not change the range of a group. -/
theorem groupRange?_append_left {newer marks : List (Nat × Nat)} {index : Nat}
    (h : ∀ m ∈ newer, m.1 / 2 ≠ index) :
    groupRange? (newer ++ marks) index = groupRange? marks index := by
  unfold groupRange?
  rw [List.lookup_append, List.lookup_append, lookup_slot_eq_none h (2 * index) (by omega),
    lookup_slot_eq_none h (2 * index + 1) (by omega), Option.none_or, Option.none_or]

/-- What was recorded before under other numbers does not change the range of a group. -/
theorem groupRange?_append_right {marks older : List (Nat × Nat)} {index : Nat}
    (h : ∀ m ∈ older, m.1 / 2 ≠ index) :
    groupRange? (marks ++ older) index = groupRange? marks index := by
  unfold groupRange?
  rw [List.lookup_append, List.lookup_append, lookup_slot_eq_none h (2 * index) (by omega),
    lookup_slot_eq_none h (2 * index + 1) (by omega), Option.or_none, Option.or_none]

end Regex

/-! ## §C The arguments of a match -/

open Regex

/-- **`argumentAt marks text index`** — the argument of a group without a name. -/
def argumentAt (marks : List (Nat × Nat)) (text : List Char) (index : Nat) : StepArgument :=
  let capture := (groupRange? marks index).map fun (start, stop) => captureAt text start stop
  ⟨none, (capture.map (·.text)).getD "", capture.map (·.span)⟩

/-- **`r.argumentOf marks text index`** — the argument of a group of an expression. -/
def Regex.argumentOf (r : Regex) (marks : List (Nat × Nat)) (text : List Char) (index : Nat) :
    StepArgument :=
  { argumentAt marks text index with name := (r.groups.lookup index).join }

/-- The arguments are those of the groups from number one on. -/
theorem arguments?_eq (p : CompiledPattern) (text : String) :
    p.arguments? text = (p.regex.search text.toList.toArray).map fun marks =>
      (List.range' 1 p.regex.groupCount).map (p.regex.argumentOf marks text.toList) := by
  unfold CompiledPattern.arguments? captures? groupNames
  rw [Option.map_map]
  congr 1
  funext marks
  rw [Function.comp_apply, List.range_eq_range', List.range'_succ, List.map_cons, List.tail_cons,
    List.zip_map', List.map_map]
  rfl

/-- A group of an expression that names none has an argument without a name. -/
theorem argumentOf_eq {r : Regex} (h : ∀ g ∈ r.groups, g.2 = none) (marks : List (Nat × Nat))
    (text : List Char) (index : Nat) : r.argumentOf marks text index = argumentAt marks text index := by
  have hname : (r.groups.lookup index).join = none := by
    cases hlookup : r.groups.lookup index with
    | none => rfl
    | some name =>
      obtain ⟨before, after, hgroups, -⟩ := List.lookup_eq_some_iff.1 hlookup
      exact h (index, name) (by rw [hgroups]; simp)
  rw [argumentOf, hname]
  rfl

namespace Piece

/-! ## §D The groups of pieces -/

theorem snd_of_mem_namedOf {index : Nat} {pieces : List Piece} {g : Nat × Option String}
    (hg : g ∈ namedOf index pieces) : g.2 = none := by
  induction pieces generalizing index with
  | nil => exact absurd hg List.not_mem_nil
  | cons p pieces ih =>
    rcases List.mem_append.1 hg with hg | hg
    · unfold named at hg
      split at hg
      · rw [List.mem_singleton.1 hg]
      · exact absurd hg List.not_mem_nil
    · exact ih hg

/-- The last group of pieces has the number of placeholders, behind those before them. -/
theorem foldl_max_namedOf (n : Nat) (pieces : List Piece) :
    (namedOf (n + 1) pieces).foldl (fun n g => max n g.1) n = n + pieces.countP isPlaceholder := by
  induction pieces generalizing n with
  | nil => rfl
  | cons p pieces ih =>
    rw [namedOf, named, groups, List.foldl_append, List.countP_cons]
    by_cases hp : p.isPlaceholder
    · simp only [hp, if_true, List.foldl_cons, List.foldl_nil]
      rw [Nat.max_eq_right (Nat.le_succ n), ih]
      omega
    · simp only [hp, Bool.false_eq_true, if_false, List.foldl_nil]
      exact ih n

theorem groups_anchoredRegex {pieces : List Piece} {parts : List Nested}
    (h : WrittenAll pieces 1 parts) : (anchoredRegex parts).groups = namedOf 1 pieces := by
  rw [← h.groups_eq, anchoredRegex, groups_concat, List.flatMap_cons, List.flatMap_append,
    List.flatMap_map]
  exact List.append_nil _

theorem groupCount_anchoredRegex {pieces : List Piece} {parts : List Nested}
    (h : WrittenAll pieces 1 parts) :
    (anchoredRegex parts).groupCount = pieces.countP isPlaceholder := by
  rw [groupCount, groups_anchoredRegex h, foldl_max_namedOf, Nat.zero_add]

theorem bounded_anchoredRegex {pieces : List Piece} {parts : List Nested}
    (h : WrittenAll pieces 1 parts) : (anchoredRegex parts).Bounded := by
  refine partwise_bounded.concat
    (List.forall_mem_cons.2 ⟨trivial, List.forall_mem_append.2 ⟨?_, ?_⟩⟩)
  · intro r hr
    obtain ⟨x, hx, rfl⟩ := List.mem_map.1 hr
    exact h.bounded x hx
  · exact List.forall_mem_singleton.2 trivial

/-! ## §E The words of placeholders -/

/-- A piece records under its own number only. -/
theorem number_of_mem_marks {p : Piece} {index i j : Nat} {m : Nat × Nat}
    (hm : m ∈ p.marks index i j) : index ≤ m.1 / 2 ∧ m.1 / 2 < index + p.groups := by
  unfold marks at hm
  unfold groups
  by_cases hp : p.isPlaceholder
  · rw [if_pos hp] at hm ⊢
    rcases List.mem_pair.1 hm with rfl | rfl <;> simp only <;> omega
  · rw [if_neg hp] at hm
    exact absurd hm List.not_mem_nil

/-- Pieces record under the numbers from their first one on. -/
theorem le_number_of_mem_marksOf {index i : Nat} {pieces : List Piece} {words : List (List Char)}
    {m : Nat × Nat} (hm : m ∈ marksOf index i pieces words) : index ≤ m.1 / 2 := by
  fun_induction marksOf index i pieces words with
  | case1 index i p pieces w words ih =>
    rcases List.mem_append.1 hm with hm | hm
    · exact (Nat.le_add_right _ _).trans (ih hm)
    · exact (number_of_mem_marks hm).1
  | case2 => exact absurd hm List.not_mem_nil

/-- The argument of a word at its place, if a piece is a placeholder. -/
def arguments (p : Piece) (offset : Nat) (w : List Char) : List StepArgument :=
  if p.isPlaceholder then
    [⟨none, String.ofList w, some (.ofLength offset (Text.byteLength w))⟩]
  else []

theorem argumentsOf_cons (offset : Nat) (p : Piece) (pieces : List Piece) (w : List Char)
    (words : List (List Char)) :
    argumentsOf offset (p :: pieces) (w :: words) =
      p.arguments offset w ++ argumentsOf (offset + Text.byteLength w) pieces words := by
  cases p <;> rfl

/-- A word that stands in a text is what its place holds. -/
theorem captureAt_spelled {text : Array Char} {w : List Char} {i j : Nat}
    (h : Spelled text w i j) :
    captureAt text.toList i j = ⟨String.ofList w,
      .ofLength (Text.byteLength (text.toList.take i)) (Text.byteLength w)⟩ := by
  unfold captureAt
  simp only [h.extract, Span.ofLength]

theorem byteLength_take_stop {text : Array Char} {w : List Char} {i j : Nat}
    (h : Spelled text w i j) :
    Text.byteLength (text.toList.take j) =
      Text.byteLength (text.toList.take i) + Text.byteLength w := by
  have hj : j = i + (j - i) := by
    have := h.stop_eq
    omega
  rw [hj, List.take_add, Text.byteLength_append, h.extract]

/-- The step: what the group of the first piece holds. -/
theorem map_argumentAt_first {text : Array Char} {p : Piece} {w : List Char} {index i : Nat}
    {newer : List (Nat × Nat)} (hspelled : Spelled text w i (i + w.length))
    (hnewer : ∀ m ∈ newer, index + p.groups ≤ m.1 / 2) :
    (List.range' index p.groups).map
        (argumentAt (newer ++ p.marks index i (i + w.length)) text.toList) =
      p.arguments (Text.byteLength (text.toList.take i)) w := by
  unfold arguments marks
  unfold groups at hnewer ⊢
  by_cases hp : p.isPlaceholder
  · simp only [hp, if_true] at hnewer ⊢
    have hrange : groupRange? (newer ++ [(2 * index + 1, i + w.length), (2 * index, i)]) index =
        some (i, i + w.length) := by
      rw [groupRange?_append_left fun m hm => Nat.ne_of_gt (hnewer m hm)]
      have hne : (2 * index == 2 * index + 1) = false := by simp
      simp [groupRange?, List.lookup_cons, hne]
    show [argumentAt _ _ index] = _
    simp only [argumentAt, hrange, Option.map_some, captureAt_spelled hspelled, Option.getD_some]
  · simp only [hp]
    rfl

/-- **`arguments_marksOf`** — the run: what pieces record that match words is where the words of
the placeholders stand. -/
theorem arguments_marksOf {text : Array Char} {pieces : List Piece} {words : List (List Char)}
    {i j : Nat} (index : Nat) (hlen : pieces.length = words.length)
    (h : Spelled text words.flatten i j) :
    (List.range' index (pieces.countP isPlaceholder)).map
        (argumentAt (marksOf index i pieces words) text.toList) =
      argumentsOf (Text.byteLength (text.toList.take i)) pieces words := by
  induction pieces generalizing words index i with
  | nil => rfl
  | cons p pieces ih =>
    obtain ⟨w, words, rfl⟩ := List.exists_cons_of_length_eq_add_one hlen.symm
    obtain ⟨k, hw, hwords⟩ := spelled_append.1 h
    obtain rfl := hw.stop_eq
    have hcount : (p :: pieces).countP isPlaceholder =
        p.groups + pieces.countP isPlaceholder := by
      rw [List.countP_cons, groups]
      exact Nat.add_comm ..
    have hrest : _ = argumentsOf (Text.byteLength (text.toList.take i) + Text.byteLength w)
        pieces words :=
      byteLength_take_stop hw ▸ ih (index + p.groups) (Nat.succ.inj hlen) hwords
    rw [hcount, ← List.range'_append_1, List.map_append, argumentsOf_cons, marksOf,
      map_argumentAt_first hw fun m hm => le_number_of_mem_marksOf hm, ← hrest]
    congr 1
    -- The later groups do not look at what the first piece has recorded.
    refine List.map_congr_left fun n hn => ?_
    have hle := (List.mem_range'_1.1 hn).1
    unfold argumentAt
    rw [groupRange?_append_right]
    intro m hm
    have := (number_of_mem_marks hm).2
    omega

/-- What the groups hold of a match between the two ends of a text. -/
theorem arguments_whole {text : Array Char} {pieces : List Piece} {words : List (List Char)}
    (h : Spells pieces words text.toList) :
    (List.range' 1 (pieces.countP isPlaceholder)).map
        (argumentAt ((1, text.size) :: (marksOf 1 0 pieces words ++ [(0, 0)])) text.toList) =
      argumentsOf 0 pieces words := by
  have hrun := arguments_marksOf 1 h.admits.length_eq (spelled_whole.2 h.flatten_eq)
  rw [List.take_zero] at hrun
  show _ = argumentsOf (Text.byteLength []) pieces words
  rw [← hrun]
  -- The whole match is group zero, which no placeholder has.
  refine List.map_congr_left fun n hn => ?_
  have hpos := (List.mem_range'_1.1 hn).1
  unfold argumentAt
  rw [← List.singleton_append, groupRange?_append_left, groupRange?_append_right]
  · simpa using Nat.ne_of_lt hpos
  · simpa using Nat.ne_of_lt hpos

theorem length_argumentsOf {offset : Nat} {pieces : List Piece} {words : List (List Char)}
    (hlen : pieces.length = words.length) :
    (argumentsOf offset pieces words).length = pieces.countP isPlaceholder := by
  induction pieces generalizing words offset with
  | nil => rfl
  | cons p pieces ih =>
    obtain ⟨w, words, rfl⟩ := List.exists_cons_of_length_eq_add_one hlen.symm
    rw [argumentsOf_cons, List.length_append, ih (Nat.succ.inj hlen), List.countP_cons, arguments]
    by_cases hp : p.isPlaceholder
    · rw [if_pos hp, if_pos hp, List.length_singleton, Nat.add_comm]
    · rw [if_neg hp, if_neg hp, List.length_nil, Nat.zero_add, Nat.add_zero]

/-- **`value_eq_slice`** — every argument is without a name and has a place, and its value is what
stands there. -/
theorem value_eq_slice {pieces : List Piece} {words : List (List Char)} {a : StepArgument}
    (before : List Char) (ha : a ∈ argumentsOf (Text.byteLength before) pieces words) :
    a.name = none ∧ ∃ span, a.span = some span ∧
      Text.slice span.start span.stop (before ++ words.flatten) = a.value.toList := by
  induction pieces generalizing words before with
  | nil => exact absurd ha List.not_mem_nil
  | cons p pieces ih =>
    cases words with
    | nil => exact absurd ha (by cases p <;> exact List.not_mem_nil)
    | cons w words =>
      rw [argumentsOf_cons, ← Text.byteLength_append] at ha
      rcases List.mem_append.1 ha with ha | ha
      · unfold arguments at ha
        split at ha
        · rw [List.mem_singleton.1 ha]
          refine ⟨rfl, _, rfl, ?_⟩
          rw [List.flatten_cons, String.toList_ofList]
          exact Text.slice_byteLength before w words.flatten
        · exact absurd ha List.not_mem_nil
      · rw [List.flatten_cons, ← List.append_assoc]
        exact ih (before ++ w) ha

/-! ## §F What the search finds -/

/-- What the search finds are words of the pieces. -/
theorem search_anchoredRegex {pieces : List Piece} {parts : List Nested}
    (h : WrittenAll pieces 1 parts) {text : Array Char} {found : List (Nat × Nat)}
    (hfound : (anchoredRegex parts).search text = some found) :
    ∃ words, Spells pieces words text.toList ∧
      found = (1, text.size) :: (marksOf 1 0 pieces words ++ [(0, 0)]) := by
  obtain ⟨i, hi, j, hmatch⟩ := search_sound (bounded_anchoredRegex h) hfound
  obtain ⟨inner, hinner, rfl⟩ := matches_group.1 hmatch
  obtain ⟨rfl, rfl, words, hwords, rfl⟩ := (matches_whole h hi).1 hinner
  exact ⟨words, hwords, rfl⟩

theorem search_anchoredRegex_isSome {pieces : List Piece} {parts : List Nested}
    (h : WrittenAll pieces 1 parts) (text : Array Char) :
    ((anchoredRegex parts).search text).isSome = true ↔ ∃ words, Spells pieces words text.toList := by
  constructor
  · intro hsome
    obtain ⟨found, hfound⟩ := Option.isSome_iff_exists.1 hsome
    obtain ⟨words, hwords, -⟩ := search_anchoredRegex h hfound
    exact ⟨words, hwords⟩
  · rintro ⟨words, hwords⟩
    have hmatch := (matches_whole h (Nat.zero_le text.size)).2 ⟨rfl, rfl, words, hwords, rfl⟩
    exact search_isSome (bounded_anchoredRegex h) (Nat.zero_le _) hmatch

/-- The arguments of a text are those of the marks that the search finds. -/
theorem arguments?_anchoredRegex {pieces : List Piece} {parts : List Nested}
    (h : WrittenAll pieces 1 parts) (source text : String) :
    CompiledPattern.arguments? ⟨source, anchoredRegex parts⟩ text =
      ((anchoredRegex parts).search text.toList.toArray).map fun marks =>
        (List.range' 1 (pieces.countP isPlaceholder)).map (argumentAt marks text.toList) := by
  have hnameless : ∀ g ∈ (anchoredRegex parts).groups, g.2 = none := by
    rw [groups_anchoredRegex h]
    exact fun g hg => snd_of_mem_namedOf hg
  rw [arguments?_eq, ← groupCount_anchoredRegex h]
  refine congrArg (Option.map · _) (funext fun marks => List.map_congr_left fun index _ => ?_)
  exact argumentOf_eq hnameless marks text.toList index

/-- **`exists_words_of_arguments`** — the arguments of a text are the words of the placeholders in
one reading of the text. -/
theorem exists_words_of_arguments {pieces : List Piece} {parts : List Nested}
    (h : WrittenAll pieces 1 parts) {source text : String} {args : List StepArgument}
    (hargs : CompiledPattern.arguments? ⟨source, anchoredRegex parts⟩ text = some args) :
    ∃ words, Spells pieces words text.toList ∧ args = argumentsOf 0 pieces words := by
  rw [arguments?_anchoredRegex h] at hargs
  obtain ⟨found, hfound, rfl⟩ := Option.map_eq_some_iff.1 hargs
  obtain ⟨words, hwords, rfl⟩ := search_anchoredRegex h hfound
  exact ⟨words, hwords, arguments_whole hwords⟩

end Piece

/-! ## §G Compiled expressions -/

namespace StepPattern

/-- A brace expression with a source compiles to what the source is read as, if that fits. -/
theorem compile_expression {pattern : String} {source : List Char} {r : Regex} (hne : pattern ≠ "")
    (hsource : expressionSource pattern.toList = .ok source) (hread : Regex.read source = .ok r) :
    (expression pattern).compile =
      if r.fits then .ok ⟨String.ofList source, r⟩ else .error (.regex .tooLarge) := by
  have hregexSource : (expression pattern).regexSource = .ok (String.ofList source) := by
    unfold regexSource
    rw [if_neg (by simpa [text] using hne)]
    simp only [hsource]
    rfl
  unfold compile
  rw [hregexSource]
  simp only [String.toList_ofList, Regex.parse, hread]
  by_cases hfits : r.fits
  · rw [if_pos hfits, if_pos hfits]
  · rw [if_neg hfits, if_neg hfits]

/-- **`expression_arguments_spell`** — the source of a brace expression is read as a regular
expression, which compiles unless it is too large. A text has arguments under it exactly if the text
is one word of each piece behind the other, and then the arguments are the words of the placeholders
in such a reading: one for each placeholder, in order, without a name, and at the place in the text
where its value stands. -/
theorem expression_arguments_spell {pattern : String} {source : List Char} (hne : pattern ≠ "")
    (h : expressionSource pattern.toList = .ok source) :
    ∃ pieces r, Piece.lex pattern.toList = .ok pieces ∧ Regex.read source = .ok r ∧
      (expression pattern).compile =
        (if r.fits then .ok ⟨String.ofList source, r⟩ else .error (.regex .tooLarge)) ∧
      ∀ text : String,
        ((CompiledPattern.arguments? ⟨String.ofList source, r⟩ text).isSome = true ↔
          ∃ words, Piece.Spells pieces words text.toList) ∧
        ∀ args, CompiledPattern.arguments? ⟨String.ofList source, r⟩ text = some args →
          args.length = pieces.countP Piece.isPlaceholder ∧
          (∀ a ∈ args, a.name = none ∧ ∃ span, a.span = some span ∧
            Text.slice span.start span.stop text.toList = a.value.toList) ∧
          ∃ words, Piece.Spells pieces words text.toList ∧
            args = Piece.argumentsOf 0 pieces words := by
  obtain ⟨pieces, parts, hlex, hparts, hread⟩ := Piece.read_source h
  refine ⟨pieces, Piece.anchoredRegex parts, hlex, hread, compile_expression hne h hread, ?_⟩
  intro text
  constructor
  · rw [Piece.arguments?_anchoredRegex hparts, Option.isSome_map,
      Piece.search_anchoredRegex_isSome hparts]
  · intro args hargs
    obtain ⟨words, hwords, rfl⟩ := Piece.exists_words_of_arguments hparts hargs
    refine ⟨Piece.length_argumentsOf hwords.admits.length_eq, ?_, words, hwords, rfl⟩
    intro a ha
    rw [← hwords.flatten_eq]
    exact Piece.value_eq_slice [] ha

/-- A number, a word and an optional letter. -/
theorem expression_arguments_spell_cats :
    "\x7bn:int\x7d cat(s)" ≠ "" ∧
      expressionSource "\x7bn:int\x7d cat(s)".toList = .ok "^([+-]?\\d+) cat(?:s)?$".toList ∧
      ∃ pieces r, Piece.lex "\x7bn:int\x7d cat(s)".toList = .ok pieces ∧
        Regex.read "^([+-]?\\d+) cat(?:s)?$".toList = .ok r ∧
        ∀ text : String,
          (CompiledPattern.arguments? ⟨String.ofList "^([+-]?\\d+) cat(?:s)?$".toList, r⟩
            text).isSome = true ↔ ∃ words, Piece.Spells pieces words text.toList := by
  have hne : "\x7bn:int\x7d cat(s)" ≠ "" := by decide
  have hsource : expressionSource "\x7bn:int\x7d cat(s)".toList =
      .ok "^([+-]?\\d+) cat(?:s)?$".toList := by decide +kernel
  obtain ⟨pieces, r, hlex, hread, -, htexts⟩ := expression_arguments_spell hne hsource
  exact ⟨hne, hsource, pieces, r, hlex, hread, fun text => (htexts text).1⟩

end StepPattern

end FeatureFile
