/-
# FeatureFile.Proofs.Pattern.Source — reading the source of a brace expression

The source of a brace expression is read piece by piece. What a piece adds matches the words that the
piece admits, and only a placeholder records where it matched, under the next number (`Written`). So
the whole source is read, however long the pattern is (`read_source`), as an expression that matches
a text from its start to its end, one word of each piece behind the other (`matches_whole`).
-/

import FeatureFile.Proofs.Pattern.Fragment

namespace FeatureFile

open Regex

namespace Piece

/-! ## §A What a piece records -/

/-- The number of groups that a piece is written with. -/
def groups (p : Piece) : Nat := if p.isPlaceholder then 1 else 0

/-- **`p.marks index i j`** — what a piece records that matches between two positions and whose
group, if it has one, has a number. -/
def marks (p : Piece) (index i j : Nat) : List (Nat × Nat) :=
  if p.isPlaceholder then [(2 * index + 1, j), (2 * index, i)] else []

/-- The groups of a piece with their names. -/
def named (p : Piece) (index : Nat) : List (Nat × Option String) :=
  if p.isPlaceholder then [(index, none)] else []

/-- **`Written p index parts`** — a piece is read as parts that match its words, and its group, if
it has one, gets a number. -/
structure Written (p : Piece) (index : Nat) (parts : List Nested) : Prop where
  reads : ∀ s rest, s.flags = {} → s.groups + 1 = index → rest.head? ≠ some '?' →
    Reads s (p.source ++ rest) ({ s with groups := s.groups + p.groups }.pushAll parts) rest
  matches_iff : ∀ text i j m, inTurn text (parts.map (·.regex)) i j m ↔
    ∃ w, p.Admits w ∧ Spelled text w i j ∧ m = p.marks index i j
  groups_eq : parts.flatMap (·.regex.groups) = p.named index
  bounded : ∀ x ∈ parts, x.regex.Bounded
  depth_le : ∀ x ∈ parts, x.depth ≤ 21

/-- A piece that is no placeholder and whose parts denote the words that it admits. -/
theorem written_of_adds {p : Piece} {parts : List Nested} {L : Language Char}
    (hp : p.isPlaceholder = false) (hadds : Adds {} p.source parts)
    (hparts : ∀ text, inTurn text (parts.map (·.regex)) = .within text L)
    (hL : ∀ w, w ∈ L ↔ p.Admits w) (hplain : ∀ x ∈ parts, Plain x) (index : Nat) :
    Written p index parts where
  reads s rest hs _ hrest := by
    have := hadds s rest hs hrest
    rwa [groups, hp]
  matches_iff text i j m := by
    rw [hparts, marks, hp]
    simp only [Passage.within, hL]
    constructor
    · rintro ⟨⟨w, hw, hspelled⟩, rfl⟩
      exact ⟨w, hw, hspelled, rfl⟩
    · rintro ⟨w, hw, hspelled, rfl⟩
      exact ⟨⟨w, hw, hspelled⟩, rfl⟩
  groups_eq := by
    rw [named, hp]
    exact List.flatMap_eq_nil_iff.2 fun x hx => (hplain x hx).groups
  bounded x hx := (hplain x hx).bounded
  depth_le x hx := (hplain x hx).depth.trans (by decide)

/-! ## §B Words -/

/-- The parts of a word. -/
def chars (w : List Char) : List Nested := w.map fun c => ⟨.literal c [], 0⟩

theorem map_regex_chars (w : List Char) :
    (chars w).map (·.regex) = w.map fun c => .literal c [] := by
  rw [chars, List.map_map]
  rfl

theorem regex_join_chars (w : List Char) : (Nested.join concat (chars w)).regex = ofWord w := by
  match w with
  | [] => rfl
  | [c] => rfl
  | c :: d :: cs =>
    rw [← concat_chars, ← map_regex_chars]
    rfl

theorem depth_join_le {make : List Regex → Regex} {parts : List Nested} {depth : Nat}
    (h : ∀ x ∈ parts, x.depth ≤ depth) : (Nested.join make parts).depth ≤ depth + 1 := by
  have hfold (parts : List Nested) (start : Nat) (hstart : start ≤ depth)
      (h : ∀ x ∈ parts, x.depth ≤ depth) :
      parts.foldl (fun depth part => max depth part.depth) start ≤ depth := by
    induction parts generalizing start with
    | nil => exact hstart
    | cons x parts ih =>
      obtain ⟨hx, hparts⟩ := List.forall_mem_cons.1 h
      exact ih (max start x.depth) (by omega) hparts
  unfold Nested.join
  split
  · rename_i x
    have := h x List.mem_cons_self
    omega
  · have := hfold parts 0 (Nat.zero_le _) h
    simp only
    split <;> omega

theorem depth_chars {w : List Char} {x : Nested} (hx : x ∈ chars w) : x.depth ≤ 0 := by
  obtain ⟨c, -, rfl⟩ := List.mem_map.1 hx
  exact Nat.le_refl 0

theorem groups_ofWord (w : List Char) : (ofWord w).groups = [] := by
  cases w <;> rfl

theorem bounded_ofWord (w : List Char) : (ofWord w).Bounded := by
  cases w <;> trivial

theorem written_literal (w : List Char) (index : Nat) :
    Written (literal w) index (chars w) := by
  have hadds : Adds {} (literal w).source (chars w) := adds_escape w
  refine written_of_adds (L := {w}) rfl hadds ?_ (fun v => Iff.rfl) ?_ index
  · intro text
    rw [map_regex_chars, ← matches_concat, concat_chars]
    exact denotes_ofWord w text
  · intro x hx
    obtain ⟨c, -, rfl⟩ := List.mem_map.1 hx
    exact ⟨rfl, trivial, Nat.zero_le _⟩

/-- A part that is plain and denotes the words of a piece. -/
theorem written_of_part {p : Piece} {x : Nested} {L : Language Char}
    (hp : p.isPlaceholder = false) (hadds : Adds {} p.source [x]) (hx : x.regex.Denotes L)
    (hL : ∀ w, w ∈ L ↔ p.Admits w) (hplain : Plain x) (index : Nat) : Written p index [x] := by
  refine written_of_adds hp hadds ?_ hL ?_ index
  · intro text
    rw [List.map_singleton, inTurn_singleton]
    exact hx text
  · intro y hy
    rwa [List.mem_singleton.1 hy]

theorem written_brace {p : Piece} {c : Char} (hp : p.isPlaceholder = false)
    (hsource : p.source = ['\\', c]) (hc : isMeta c = true) (hL : ∀ w, w = [c] ↔ p.Admits w)
    (index : Nat) : Written p index [⟨.literal c [], 0⟩] := by
  have hadds : Adds {} p.source [⟨.literal c [], 0⟩] := by
    rw [hsource]
    exact (atom_escaped (f := {}) rfl hc).adds
  exact written_of_part hp hadds (denotes_literal c []) hL ⟨rfl, trivial, Nat.zero_le _⟩ index

theorem body_word (w : List Char) : Body {} (escape w) (.join concat (chars w)) := by
  have := body_of_adds (f := {}) rfl (.cons (adds_escape w) .nil) (by simp)
  rwa [List.intercalate_singleton] at this

theorem readOpening_plain (s : Reader) (rest : List Char) (hs : s.flags = {}) :
    s.readOpening (['?', ':'] ++ rest) = .ok (s.openGroup none {}, rest) :=
  readOpening_group (.inl rfl) s rest hs

/-- A word may be passed over, even the empty one. -/
theorem repeated_ofWord (w : List Char) :
    (ofWord w).repeated 0 (some 1) true = repetition 0 (some 1) true (ofWord w) := by
  cases w <;> rfl

theorem depth_word (w : List Char) : (Nested.join concat (chars w)).depth ≤ 1 :=
  depth_join_le fun _ hx => depth_chars hx

theorem written_optional (w : List Char) (index : Nat) :
    ∃ parts, Written (optional w) index parts := by
  have hgroup := (body_word w).group rfl rfl readOpening_plain
  have hadds := hgroup.repeat rfl rfl (c := '?') fun _ _ => rfl
  rw [regex_join_chars, repeated_ofWord] at hadds
  have hsource : (optional w).source = '(' :: ['?', ':'] ++ escape w ++ [')'] ++ ['?'] := by
    simp [source]
  rw [← hsource] at hadds
  have hplain : Plain ⟨repetition 0 (some 1) true (ofWord w),
      (Nested.join concat (chars w)).depth + 1 + 1⟩ := by
    refine ⟨groups_ofWord w, ⟨by simp, bounded_ofWord w⟩, ?_⟩
    have := depth_word w
    show _ + 1 + 1 ≤ 20
    omega
  exact ⟨_, written_of_part rfl hadds ((denotes_ofWord w).optional true) (fun v => Iff.rfl)
    hplain index⟩

theorem escapeWords_eq (words : List (List Char)) :
    escapeWords words = List.intercalate ['|'] (words.map escape) := by
  fun_induction escapeWords words with
  | case1 => rfl
  | case2 w => rw [List.map_singleton, List.intercalate_singleton]
  | case3 w words hne ih =>
    rw [ih, List.map_cons, List.intercalate_cons_of_ne_nil (by simpa using hne)]
    simp

/-- The choice of some words, one of them alone being no choice. -/
def choiceOfWords (words : List (List Char)) : Nested :=
  .join choice (words.map fun w => .join concat (chars w))

theorem regex_choiceOfWords {w v : List Char} {words : List (List Char)} :
    (choiceOfWords (w :: v :: words)).regex = choice ((w :: v :: words).map ofWord) := by
  show choice (((w :: v :: words).map fun w => Nested.join concat (chars w)).map (·.regex)) = _
  rw [List.map_map]
  congr 1
  refine List.map_congr_left fun w _ => ?_
  exact regex_join_chars w

theorem denotes_choiceOfWords {words : List (List Char)} (hne : words ≠ []) :
    (choiceOfWords words).regex.Denotes (wordsOf words) := by
  match words, hne with
  | [w], _ =>
    show (Nested.join concat (chars w)).regex.Denotes _
    rw [regex_join_chars, show wordsOf [w] = {w} from by ext v; exact List.mem_singleton]
    exact denotes_ofWord w
  | w :: v :: words, hne =>
    rw [regex_choiceOfWords]
    exact denotes_choice_words hne

/-- A choice of words records nothing and repeats nothing. -/
theorem plain_choice_words {words : List (List Char)} (hne : words ≠ []) :
    (choice (words.map ofWord)).groups = [] ∧ (choice (words.map ofWord)).Bounded := by
  rcases choice_words_cases hne with ⟨cs, -, heq⟩ | ⟨init, last, -, heq⟩
  · rw [heq]
    unfold ofSet
    split <;> exact ⟨rfl, trivial⟩
  · rw [heq]
    clear heq
    induction init with
    | nil => exact ⟨groups_ofWord last, bounded_ofWord last⟩
    | cons w init ih =>
      refine ⟨?_, bounded_ofWord w, ih.2⟩
      show (ofWord w).groups ++ _ = []
      rw [groups_ofWord, ih.1]
      rfl

theorem plain_choiceOfWords {words : List (List Char)} (hne : words ≠ []) :
    Plain ⟨(choiceOfWords words).regex, (choiceOfWords words).depth + 1⟩ := by
  have hdepth : (choiceOfWords words).depth ≤ 2 := by
    refine depth_join_le fun x hx => ?_
    obtain ⟨w, -, rfl⟩ := List.mem_map.1 hx
    exact depth_word w
  have hregex : (choiceOfWords words).regex.groups = [] ∧ (choiceOfWords words).regex.Bounded := by
    match words, hne with
    | [w], _ =>
      show (Nested.join concat (chars w)).regex.groups = [] ∧ _
      rw [show (choiceOfWords [w]).regex = _ from regex_join_chars w, regex_join_chars]
      exact ⟨groups_ofWord w, bounded_ofWord w⟩
    | w :: v :: words, hne =>
      rw [regex_choiceOfWords]
      exact plain_choice_words hne
  refine ⟨hregex.1, hregex.2, ?_⟩
  show _ + 1 ≤ 20
  omega

theorem written_alternation {words : List (List Char)} (hne : words ≠ []) (index : Nat) :
    ∃ parts, Written (alternation words) index parts := by
  have hbody : Body {} (escapeWords words) (choiceOfWords words) := by
    have hwords : List.Forall₂ (Adds {}) (words.map escape) (words.map chars) := by
      rw [List.forall₂_map_left_iff, List.forall₂_map_right_iff, List.forall₂_same]
      exact fun w _ => adds_escape w
    have := body_of_adds rfl hwords (by simpa using hne)
    rwa [← escapeWords_eq, List.map_map] at this
  have hadds : Adds {} (alternation words).source
      [⟨(choiceOfWords words).regex, (choiceOfWords words).depth + 1⟩] :=
    (hbody.group rfl rfl readOpening_plain).adds
  exact ⟨_, written_of_part rfl hadds (denotes_choiceOfWords hne) (fun w => Iff.rfl)
    (plain_choiceOfWords hne) index⟩

/-! ## §C Placeholders -/

/-- No fragment begins like the flags of a group. -/
theorem head_fragment (hint : Option String) :
    ∃ c cs, (Hint.fragment hint).toList = c :: cs ∧ c ≠ '?' := by
  have hanything : ∃ c cs, Hint.anything.toList = c :: cs ∧ c ≠ '?' := ⟨_, _, rfl, by decide⟩
  cases hint with
  | none => exact hanything
  | some hint =>
    simp only [Hint.fragment]
    split
    · exact ⟨_, _, rfl, by decide⟩
    split
    · exact ⟨_, _, rfl, by decide⟩
    split
    · exact ⟨_, _, rfl, by decide⟩
    split
    · exact ⟨_, _, rfl, by decide⟩
    split
    · exact ⟨_, _, rfl, by decide⟩
    · exact hanything

theorem written_placeholder (p : Placeholder) (index : Nat) :
    ∃ parts, Written (placeholder p) index parts := by
  obtain ⟨x, hbody, hdenotes, hplain⟩ := fragment_denotes (Hint.effective p.name p.hint)
  obtain ⟨c, cs, hhead, hc⟩ := head_fragment (Hint.effective p.name p.hint)
  refine ⟨[⟨.group index none x.regex, x.depth + 1⟩], ?_, ?_, ?_, ?_, ?_⟩
  · rintro s rest hs rfl -
    have := hbody.capture rfl (by rw [hhead]; simpa using hc) (by rw [hhead]; simp) s rest hs
    simpa [source, Placeholder.fragment, groups, isPlaceholder] using this
  · intro text i j m
    rw [List.map_singleton, inTurn_singleton, matches_group, hdenotes text]
    constructor
    · rintro ⟨_, ⟨⟨w, hw, hspelled⟩, rfl⟩, rfl⟩
      exact ⟨w, hw, hspelled, rfl⟩
    · rintro ⟨w, hw, hspelled, rfl⟩
      exact ⟨[], ⟨⟨w, hw, hspelled⟩, rfl⟩, rfl⟩
  · show (index, none) :: x.regex.groups ++ [] = _
    rw [hplain.groups]
    rfl
  · intro y hy
    rw [List.mem_singleton.1 hy]
    exact hplain.bounded
  · intro y hy
    rw [List.mem_singleton.1 hy]
    exact Nat.succ_le_succ hplain.depth

/-- **`exists_written`** — every piece is read as parts that match its words. -/
theorem exists_written {p : Piece} (hp : p ≠ alternation []) (index : Nat) :
    ∃ parts, Written p index parts := by
  cases p with
  | literal w => exact ⟨_, written_literal w index⟩
  | placeholder p => exact written_placeholder p index
  | optional w => exact written_optional w index
  | alternation words => exact written_alternation (fun h => hp (h ▸ rfl)) index
  | openBrace _ => exact ⟨_, written_brace rfl rfl (by decide) (fun _ => Iff.rfl) index⟩
  | closeBrace _ => exact ⟨_, written_brace rfl rfl (by decide) (fun _ => Iff.rfl) index⟩

/-! ## §D Pieces in a row -/

/-- **`marksOf index i pieces words`** — what pieces record that match words from a position on, the
first group among them having a number. -/
def marksOf : Nat → Nat → List Piece → List (List Char) → List (Nat × Nat)
  | index, i, p :: pieces, w :: words =>
    marksOf (index + p.groups) (i + w.length) pieces words ++ p.marks index i (i + w.length)
  | _, _, _, _ => []

/-- The groups of pieces with their names. -/
def namedOf : Nat → List Piece → List (Nat × Option String)
  | _, [] => []
  | index, p :: pieces => p.named index ++ namedOf (index + p.groups) pieces

/-- **`WrittenAll pieces index parts`** — pieces are read as parts that match one word of each of
them in turn. -/
structure WrittenAll (pieces : List Piece) (index : Nat) (parts : List Nested) : Prop where
  reads : ∀ s rest, s.flags = {} → s.groups + 1 = index → rest.head? ≠ some '?' →
    ∃ groups, Reads s (pieces.flatMap source ++ rest) ({ s with groups }.pushAll parts) rest
  matches_iff : ∀ text i j m, inTurn text (parts.map (·.regex)) i j m ↔
    ∃ words, List.Forall₂ Admits pieces words ∧ Spelled text words.flatten i j ∧
      m = marksOf index i pieces words
  groups_eq : parts.flatMap (·.regex.groups) = namedOf index pieces
  bounded : ∀ x ∈ parts, x.regex.Bounded
  depth_le : ∀ x ∈ parts, x.depth ≤ 21

theorem head_source (p : Piece) : p.source.head? ≠ some '?' := by
  cases p with
  | literal w => exact head_escape w
  | _ => simp [source]

theorem head_sources {pieces : List Piece} {rest : List Char} (h : rest.head? ≠ some '?') :
    (pieces.flatMap source ++ rest).head? ≠ some '?' := by
  induction pieces with
  | nil => exact h
  | cons p pieces ih =>
    have hp := head_source p
    rw [List.flatMap_cons, List.append_assoc]
    cases hsource : p.source with
    | nil => exact ih
    | cons c cs => rwa [hsource] at hp

/-- The words of pieces in a row are a word of the first and words of the others. -/
theorem matches_cons {p : Piece} {pieces : List Piece} {index : Nat} {ps qs : List Nested}
    (hp : Written p index ps) (hpieces : WrittenAll pieces (index + p.groups) qs)
    (text : Array Char) (i j : Nat) (m : List (Nat × Nat)) :
    inTurn text ((ps ++ qs).map (·.regex)) i j m ↔
      ∃ words, List.Forall₂ Admits (p :: pieces) words ∧ Spelled text words.flatten i j ∧
        m = marksOf index i (p :: pieces) words := by
  rw [List.map_append, inTurn_append]
  constructor
  · rintro ⟨k, _, _, hps, hqs, rfl⟩
    obtain ⟨w, hw, hspelled, rfl⟩ := (hp.matches_iff text i k _).1 hps
    obtain ⟨words, hwords, hspelled', rfl⟩ := (hpieces.matches_iff text k j _).1 hqs
    obtain rfl := hspelled.stop_eq
    exact ⟨w :: words, .cons hw hwords, spelled_append.2 ⟨_, hspelled, hspelled'⟩, rfl⟩
  · rintro ⟨_, hwords, hspelled, rfl⟩
    obtain ⟨w, words, hw, htail, rfl⟩ := List.forall₂_cons_left_iff.1 hwords
    obtain ⟨k, hspelled, hspelled'⟩ := spelled_append.1 hspelled
    obtain rfl := hspelled.stop_eq
    exact ⟨_, _, _, (hp.matches_iff text i _ _).2 ⟨w, hw, hspelled, rfl⟩,
      (hpieces.matches_iff text _ j _).2 ⟨words, htail, hspelled', rfl⟩, rfl⟩

theorem writtenAll_nil (index : Nat) : WrittenAll [] index [] where
  reads s rest _ _ _ := ⟨s.groups, .done⟩
  matches_iff text i j m := by
    simp only [List.forall₂_nil_left_iff, exists_eq_left]
    show j = i ∧ m = [] ↔ i = j ∧ m = []
    rw [eq_comm]
  groups_eq := rfl
  bounded := by simp
  depth_le := by simp

theorem writtenAll_cons {p : Piece} {pieces : List Piece} {index : Nat} {ps qs : List Nested}
    (hp : Written p index ps) (hpieces : WrittenAll pieces (index + p.groups) qs) :
    WrittenAll (p :: pieces) index (ps ++ qs) where
  reads s rest hs hindex hrest := by
    have hfirst := hp.reads s (pieces.flatMap source ++ rest) hs hindex (head_sources hrest)
    obtain ⟨groups, hreads⟩ := hpieces.reads
      ({ s with groups := s.groups + p.groups }.pushAll ps) rest hs
      (by rw [← hindex]; exact Nat.add_right_comm ..) hrest
    refine ⟨groups, ?_⟩
    rw [List.flatMap_cons, List.append_assoc, ← Reader.pushAll_append]
    exact hfirst.trans hreads
  matches_iff := matches_cons hp hpieces
  groups_eq := by rw [List.flatMap_append, hp.groups_eq, hpieces.groups_eq, namedOf]
  bounded := List.forall_mem_append.2 ⟨hp.bounded, hpieces.bounded⟩
  depth_le := List.forall_mem_append.2 ⟨hp.depth_le, hpieces.depth_le⟩

theorem exists_writtenAll {pieces : List Piece} (h : alternation [] ∉ pieces) (index : Nat) :
    ∃ parts, WrittenAll pieces index parts := by
  induction pieces generalizing index with
  | nil => exact ⟨[], writtenAll_nil index⟩
  | cons p pieces ih =>
    rw [List.mem_cons, not_or] at h
    obtain ⟨ps, hp⟩ := exists_written (Ne.symm h.1) index
    obtain ⟨qs, hpieces⟩ := ih h.2 (index + p.groups)
    exact ⟨ps ++ qs, writtenAll_cons hp hpieces⟩

/-! ## §E The pieces of a pattern -/

theorem exists_of_map_eq_ok {α β ε : Type} {f : α → β} {x : Except ε α} {b : β}
    (h : x.map f = .ok b) : ∃ a, x = .ok a ∧ f a = b := by
  cases x with
  | error e => exact absurd h (by simp [Except.map])
  | ok a => exact ⟨a, rfl, Except.ok.inj h⟩

theorem alternatives_ne_nil (cs : List Char) : (alternatives cs).1 ≠ [] := by
  fun_induction alternatives cs with
  | case1 | case2 | case4 | case5 => exact List.cons_ne_nil _ _
  | case3 c cs r ih | case6 c cs _ _ _ _ r ih =>
    show pushWord c r.1 ≠ []
    cases r.1 <;> exact List.cons_ne_nil _ _

/-- Literal text in front of pieces is no alternation. -/
theorem mem_of_mem_flush {words : List (List Char)} {pending : List Char} {pieces : List Piece}
    (h : alternation words ∈ flush pending pieces) : alternation words ∈ pieces := by
  unfold flush at h
  split at h
  · exact h
  · simpa using h

/-- An alternation of a pattern has two words: the one before its first slash, and one behind it. -/
theorem two_le_of_mem_lexFrom {total : Nat} {pending cs : List Char} {pieces : List Piece}
    (h : lexFrom total pending cs = .ok pieces) {words : List (List Char)}
    (hwords : alternation words ∈ pieces) : 2 ≤ words.length := by
  have behind {p : Piece} {pending : List Char} {lexed : Except PatternError (List Piece)}
      (hp : alternation words = p → 2 ≤ words.length)
      (ih : ∀ {pieces}, lexed = .ok pieces → alternation words ∈ pieces → 2 ≤ words.length)
      {pieces : List Piece} (hwords : alternation words ∈ pieces)
      (h : lexed.map (fun pieces => flush pending (p :: pieces)) = .ok pieces) :
      2 ≤ words.length := by
    obtain ⟨after, hafter, rfl⟩ := exists_of_map_eq_ok h
    obtain heq | hmem := List.mem_cons.mp (mem_of_mem_flush hwords)
    · exact hp heq
    · exact ih hafter hmem
  fun_induction lexFrom total pending cs generalizing pieces with
  | case1 | case2 =>
    rw [← Except.ok.inj h] at hwords
    exact absurd (mem_of_mem_flush hwords) (by simp)
  | case3 | case4 | case5 | case10 | case12 | case14 =>
    rename_i ih
    exact ih h hwords
  | case6 => exact absurd h (by simp)
  | case7 | case8 | case9 | case11 =>
    rename_i ih
    exact behind (by simp) ih hwords h
  | case13 pending rest =>
    rename_i ih
    refine behind (fun heq => ?_) ih hwords h
    rw [alternation.inj heq]
    exact Nat.succ_le_succ (List.length_pos_of_ne_nil (alternatives_ne_nil rest))

/-- If the braces of pieces balance, their source is that of each of them in turn. -/
theorem sourceOf_eq {total depth : Nat} {pieces : List Piece} {body : List Char}
    (h : sourceOf total depth pieces = .ok body) : body = pieces.flatMap source := by
  fun_induction sourceOf total depth pieces generalizing body with
  | case1 => exact (Except.ok.inj h).symm
  | case2 | case3 => exact absurd h (by simp)
  | case4 | case5 | case6 =>
    rename_i ih
    obtain ⟨rest, hrest, rfl⟩ := exists_of_map_eq_ok h
    rw [ih hrest, List.flatMap_cons]

/-! ## §F The whole source -/

/-- Parts between the two ends of a text. -/
def anchoredRegex (parts : List Nested) : Regex :=
  concat (check .textStart :: (parts.map (·.regex) ++ [check .textEnd]))

/-- The parts of a source, with its two anchors. -/
def anchored (parts : List Nested) : List Nested :=
  ⟨check .textStart, 0⟩ :: (parts ++ [⟨check .textEnd, 0⟩])

theorem regex_join_anchored (parts : List Nested) :
    (Nested.join concat (anchored parts)).regex = anchoredRegex parts := by
  have hmap : (anchored parts).map (·.regex) =
      check .textStart :: (parts.map (·.regex) ++ [check .textEnd]) := by
    simp [anchored]
  rw [anchoredRegex, ← hmap]
  cases parts <;> rfl

/-- A reader that has read parts and stands in no group is finished, unless they are too deep. -/
theorem finish_pushAll {s : Reader} (houter : s.outer = []) (hbranches : s.branches = [])
    (hitems : s.items = []) {parts : List Nested}
    (hdepth : (Nested.join concat parts).depth ≤ Reader.depthLimit) :
    (s.pushAll parts).finish = .ok (Nested.join concat parts).regex := by
  have hcontents : (s.pushAll parts).contents = .join concat parts := by
    rw [Reader.contents, branch_pushAll hitems]
    show Nested.join choice (_ :: s.branches).reverse = _
    rw [hbranches]
    rfl
  unfold Reader.finish
  rw [hcontents]
  simp only [Reader.pushAll, houter, List.isEmpty_nil, Bool.not_true, Bool.false_eq_true, if_false,
    if_neg (Nat.not_lt.2 hdepth)]

/-- What is read of the source of pieces between the two anchors. -/
theorem read_anchored {pieces : List Piece} {parts : List Nested}
    (h : WrittenAll pieces 1 parts) :
    Regex.read ('^' :: pieces.flatMap source ++ ['$']) = .ok (anchoredRegex parts) := by
  obtain ⟨groups, hbody⟩ := h.reads (Reader.push {} (check .textStart) 0) ['$'] rfl rfl (by simp)
  have hstop : (({ Reader.push {} (check .textStart) 0 with groups }.pushAll parts).push
      (check .textEnd) 0) = Reader.pushAll { groups } (anchored parts) := by
    simp [Reader.pushAll, Reader.push, anchored]
  have hreads : Reads {} ('^' :: pieces.flatMap source ++ ['$'])
      (Reader.pushAll { groups } (anchored parts)) [] := by
    rw [← hstop]
    refine .step rfl rfl (Nat.le_refl _) (hbody.trans ?_)
    exact .step rfl rfl (Nat.le_refl _) .done
  have hdepth : (Nested.join concat (anchored parts)).depth ≤ 22 := by
    refine depth_join_le (List.forall_mem_cons.2 ⟨Nat.zero_le _, ?_⟩)
    exact List.forall_mem_append.2 ⟨h.depth_le, by simp⟩
  unfold Regex.read
  rw [run_of_reads hreads (Nat.le_refl _)]
  show (Reader.pushAll { groups } (anchored parts)).finish = _
  rw [finish_pushAll rfl rfl rfl (hdepth.trans (by decide)), regex_join_anchored]

/-- **`read_source`** — the source of a brace expression is read as its pieces between the two ends
of the text. -/
theorem read_source {pattern source : List Char} (h : expressionSource pattern = .ok source) :
    ∃ pieces parts, lex pattern = .ok pieces ∧ WrittenAll pieces 1 parts ∧
      Regex.read source = .ok (anchoredRegex parts) := by
  unfold expressionSource at h
  split at h
  · exact absurd h (by simp)
  · rename_i pieces hlex
    obtain ⟨body, hbody, rfl⟩ := exists_of_map_eq_ok h
    have hwords : alternation [] ∉ pieces := fun h =>
      absurd (two_le_of_mem_lexFrom hlex h) (by decide)
    obtain ⟨parts, hparts⟩ := exists_writtenAll hwords 1
    refine ⟨pieces, parts, hlex, hparts, ?_⟩
    rw [sourceOf_eq hbody]
    exact read_anchored hparts

/-- Inside a text, nothing stands before its start only. -/
theorem before?_isNone {text : Array Char} {i : Nat} (hi : i ≤ text.size) :
    (before? text i).isNone = true ↔ i = 0 := by
  unfold before?
  split
  · simpa using ‹i = 0›
  · rw [Option.isNone_iff_eq_none, Array.getElem?_eq_none_iff]
    omega

/-- **`matches_whole`** — between the two ends of a text stand words of the pieces. -/
theorem matches_whole {pieces : List Piece} {parts : List Nested} (h : WrittenAll pieces 1 parts)
    {text : Array Char} {i j : Nat} (hi : i ≤ text.size) {m : List (Nat × Nat)} :
    (anchoredRegex parts).Matches text i j m ↔
      i = 0 ∧ j = text.size ∧ ∃ words, Spells pieces words text.toList ∧
        m = marksOf 1 0 pieces words := by
  rw [anchoredRegex, matches_concat, inTurn, inTurn_append, inTurn_singleton]
  constructor
  · rintro ⟨_, _, _, ⟨hstart, rfl, rfl⟩, ⟨l, _, _, hparts, ⟨hend, rfl, rfl⟩, rfl⟩, rfl⟩
    obtain rfl := (before?_isNone hi).1 hstart
    obtain ⟨words, hwords, hspelled, rfl⟩ := (h.matches_iff text 0 j _).1 hparts
    obtain rfl : j = text.size := by
      have hge : text.size ≤ j := by simpa [Assertion.holds] using hend
      obtain ⟨hstop, hprefix⟩ := spelled_iff.1 hspelled
      have hle : words.flatten.length ≤ text.toList.length := hprefix.length_le
      have hsize : text.toList.length = text.size := Array.length_toList
      omega
    exact ⟨rfl, rfl, words, ⟨hwords, spelled_whole.1 hspelled⟩, by simp⟩
  · rintro ⟨rfl, rfl, words, ⟨hwords, hflatten⟩, rfl⟩
    have hparts := (h.matches_iff text 0 text.size _).2
      ⟨words, hwords, spelled_whole.2 hflatten, rfl⟩
    exact ⟨0, [], _, ⟨rfl, rfl, rfl⟩,
      ⟨text.size, _, [], hparts, ⟨by simp [Assertion.holds], rfl, rfl⟩, rfl⟩, by simp⟩

end Piece

end FeatureFile
