/-
# FeatureFile.Proofs.Pattern.Cursor — the lexer of brace expressions as a cursor

The lexer of brace expressions walks down a list and counts nothing. Here it is once more as a cursor
in a pattern that stays as it is: every turn looks at what stands at an offset and moves on by a number
of bytes that its branch works out for itself (`turn`). A wrong number would not be refused. At an
offset inside a character, or behind the end, nothing stands; the loop would end there, and what is
left of the pattern would be dropped.

One turn takes at least one character, and the lexer goes on with what stands behind it
(`turned_of_turnAt`). So at every state the offset is a character boundary, and what has been read and
what is still to be read give the pieces of the pattern (`Standing`).

Main statement: `lex_readsThrough`. The loop ends with the answer of the lexer, and if that is no
refusal, at the end of the pattern. The pieces are in order, and each brace is recorded at the offset
where it was read.
-/

import FeatureFile.Proofs.Pattern.Offsets
import Mathlib.Data.List.Chain

namespace FeatureFile

open Text (byteLength spent)

namespace Piece

/-! ## §A The cursor -/

/-- **`Cursor`** — what the loop holds: an offset in the pattern, the literal text since the last piece,
last character first, and the pieces so far. -/
structure Cursor where
  position : Nat
  pending : List Char
  pieces : List Piece
  deriving DecidableEq, Repr

namespace Cursor

/-- Where the loop begins. -/
def start : Cursor := ⟨0, [], []⟩

/-- The pieces, with the literal text that is pending as the last of them. -/
def finish (s : Cursor) : List Piece := s.pieces ++ flush s.pending []

/-- A character of literal text, and the offset behind it. -/
def keep (s : Cursor) (c : Char) (position : Nat) : Cursor := ⟨position, c :: s.pending, s.pieces⟩

/-- A piece behind literal text, and the offset behind it. -/
def push (s : Cursor) (pending : List Char) (p : Piece) (position : Nat) : Cursor :=
  ⟨position, [], s.pieces ++ flush pending [p]⟩

/-- One turn, given what stands at the offset; nothing at the end of the pattern. -/
def turnAt (pattern : List Char) (s : Cursor) : List Char → Except PatternError (Option Cursor)
  | [] => .ok none
  | ['\\'] => .ok (some (s.keep '\\' (s.position + 1)))
  | '\\' :: c :: _ => .ok (some (s.keep c (s.position + (1 + c.utf8Size))))
  | '{' :: '{' :: _ => .ok (some (s.keep '{' (s.position + 2)))
  | '}' :: '}' :: _ => .ok (some (s.keep '}' (s.position + 2)))
  | '{' :: rest =>
    if startsPlaceholder rest then
      (Placeholder.readAt pattern s.position).map fun (p, stop) =>
        some (s.push s.pending (placeholder p) stop)
    else .ok (some (s.push s.pending (openBrace s.position) (s.position + 1)))
  | '}' :: _ => .ok (some (s.push s.pending (closeBrace s.position) (s.position + 1)))
  | '(' :: rest =>
    match optionalSpan? 1 rest with
    | none => .ok (some (s.keep '(' (s.position + 1)))
    | some (text, n) => .ok (some (s.push s.pending (optional text) (s.position + n)))
  | '/' :: rest =>
    let word := (s.pending.takeWhile fun c => !Text.isBlank c).reverse
    if word.isEmpty then .ok (some (s.keep '/' (s.position + 1)))
    else
      let r := alternativesSpan 1 rest
      .ok (some (s.push (s.pending.dropWhile fun c => !Text.isBlank c) (alternation (word :: r.1))
        (s.position + r.2)))
  | c :: _ => .ok (some (s.keep c (s.position + c.utf8Size)))

/-- **`turn pattern s`** — one turn of the loop. The loop ends where nothing stands at the offset, be it
behind the pattern or inside a character of it. -/
def turn (pattern : List Char) (s : Cursor) : Except PatternError (Option Cursor) :=
  match Text.splitAt? s.position pattern with
  | none => .ok none
  | some (_, rest) => turnAt pattern s rest

/-- **`run pattern n s`** — how the loop ends from a state; nothing if it takes `n` turns or more. -/
def run (pattern : List Char) : Nat → Cursor → Option (Except PatternError Cursor)
  | 0, _ => none
  | n + 1, s =>
    match turn pattern s with
    | .error e => some (.error e)
    | .ok none => some (.ok s)
    | .ok (some t) => run pattern n t

/-- **`Reached pattern s`** — the states of the loop. -/
inductive Reached (pattern : List Char) : Cursor → Prop
  | start : Reached pattern start
  | turn {s t : Cursor} (hs : Reached pattern s) (h : turn pattern s = .ok (some t)) :
      Reached pattern t

end Cursor

/-! ## §B Pieces in order -/

/-- Whether a piece is literal text. -/
def isLiteral : Piece → Bool
  | literal _ => true
  | _ => false

/-- The brace that a piece is or begins with, and its recorded offset. -/
def brace? : Piece → Option (Char × Nat)
  | placeholder p => some ('{', p.start)
  | p => p.stray?

/-- **`p.IsShaped`** — literal text is not empty, and an alternation has two words at least, the first
of which is not empty. -/
def IsShaped : Piece → Prop
  | literal text => text ≠ []
  | alternation words => ∃ first second more, words = first :: second :: more ∧ first ≠ []
  | _ => True

/-- **`InOrder limit pieces`** — pieces that may have been cut off a pattern in front of an offset. -/
structure InOrder (limit : Nat) (pieces : List Piece) : Prop where
  shaped : ∀ p ∈ pieces, p.IsShaped
  /-- No two literal texts are adjacent. -/
  apart : pieces.IsChain fun p q => p.isLiteral = true → q.isLiteral = false
  /-- The offsets of the braces increase. -/
  increasing : (pieces.filterMap brace?).Pairwise fun x y => x.2 < y.2
  below : ∀ x ∈ pieces.filterMap brace?, x.2 < limit

theorem flush_eq_append (pending : List Char) (pieces : List Piece) :
    flush pending pieces = flush pending [] ++ pieces := by
  unfold flush
  split <;> rfl

theorem Cursor.pieces_push (s : Cursor) (pending : List Char) (p : Piece) (n : Nat) :
    (s.push pending p n).pieces = (s.pieces ++ flush pending []) ++ [p] := by
  rw [push, flush_eq_append pending [p], List.append_assoc]

/-- Pending text is one piece or none. -/
theorem flush_nil_cases (pending : List Char) :
    flush pending [] = [] ∨ ∃ text, text ≠ [] ∧ flush pending [] = [literal text] := by
  unfold flush
  split
  · exact .inl rfl
  · rename_i hpending
    refine .inr ⟨_, ?_, rfl⟩
    rw [ne_eq, List.reverse_eq_nil_iff, ← List.isEmpty_iff]
    exact hpending

theorem inOrder_nil : InOrder 0 [] where
  shaped _ hp := absurd hp List.not_mem_nil
  apart := .nil
  increasing := .nil
  below _ hx := absurd hx List.not_mem_nil

theorem InOrder.mono {m n : Nat} {pieces : List Piece} (h : InOrder m pieces) (hle : m ≤ n) :
    InOrder n pieces :=
  { h with below := fun x hx => Nat.lt_of_lt_of_le (h.below x hx) hle }

/-- One more piece behind others, up to a greater offset. -/
theorem InOrder.concat {limit n : Nat} {pieces : List Piece} {p : Piece} (h : InOrder limit pieces)
    (hshaped : p.IsShaped)
    (hapart : ∀ q ∈ pieces.getLast?, q.isLiteral = true → p.isLiteral = false)
    (hbrace : ∀ x ∈ p.brace?, limit ≤ x.2 ∧ x.2 < n) (hle : limit ≤ n) :
    InOrder n (pieces ++ [p]) where
  shaped q hq := by
    rcases List.mem_append.mp hq with hq | hq
    · exact h.shaped q hq
    · rwa [List.mem_singleton.mp hq]
  apart := by
    refine List.isChain_append.mpr ⟨h.apart, .singleton p, ?_⟩
    intro q hq r hr
    obtain rfl := Option.some.inj hr
    exact hapart q hq
  increasing := by
    rw [List.filterMap_append, List.pairwise_append]
    refine ⟨h.increasing, ?_, ?_⟩
    · cases hp : p.brace? <;> simp [hp]
    · intro x hx y hy
      have hlt := h.below x hx
      have hge := (hbrace y (by simpa using hy)).1
      omega
  below x hx := by
    rw [List.filterMap_append] at hx
    rcases List.mem_append.mp hx with hx | hx
    · have := h.below x hx
      omega
    · exact (hbrace x (by simpa using hx)).2

/-- Pending text behind a piece that is no text. -/
theorem InOrder.flush {limit : Nat} {pieces : List Piece} (h : InOrder limit pieces)
    (hlast : ∀ p ∈ pieces.getLast?, p.isLiteral = false) (pending : List Char) :
    InOrder limit (pieces ++ flush pending []) := by
  rcases flush_nil_cases pending with hnil | ⟨text, hne, htext⟩
  · rwa [hnil, List.append_nil]
  · rw [htext]
    refine h.concat hne ?_ (fun x hx => by cases hx) le_rfl
    intro q hq hliteral
    rw [hlast q hq] at hliteral
    cases hliteral

/-! ## §C One turn -/

namespace Cursor

/-- **`s.Fits rest p pending`** — a piece that a turn may push behind literal text. If it is or begins
with a brace, that is the one under the cursor, and no literal text is taken back. -/
structure Fits (s : Cursor) (rest : List Char) (p : Piece) (pending : List Char) : Prop where
  shaped : p.IsShaped
  isLiteral_eq : p.isLiteral = false
  brace : ∀ c n, p.brace? = some (c, n) →
    n = s.position ∧ rest.head? = some c ∧ pending = s.pending

/-- **`Turned total s rest t`** — what a turn does. It takes a part of what stands at the offset and
moves on by its bytes, and the lexer goes on behind it. -/
inductive Turned (total : Nat) (s : Cursor) (rest : List Char) : Cursor → Prop
  | keep {c : Char} (taken : List Char) {after : List Char} (split : rest = taken ++ after)
      (hne : taken ≠ [])
      (lexes : lexFrom total s.pending rest = lexFrom total (c :: s.pending) after) :
      Turned total s rest (s.keep c (s.position + byteLength taken))
  | push {p : Piece} {pending : List Char} (taken : List Char) {after : List Char}
      (split : rest = taken ++ after) (hne : taken ≠ []) (fits : s.Fits rest p pending)
      (lexes : lexFrom total s.pending rest =
        (lexFrom total [] after).map fun pieces => flush pending (p :: pieces)) :
      Turned total s rest (s.push pending p (s.position + byteLength taken))

theorem fits_of_brace?_eq_none {s : Cursor} {rest pending : List Char} {p : Piece}
    (hshaped : p.IsShaped) (hliteral : p.isLiteral = false) (hbrace : p.brace? = none) :
    s.Fits rest p pending where
  shaped := hshaped
  isLiteral_eq := hliteral
  brace c n h := by
    rw [hbrace] at h
    cases h

/-- Where a brace begins a placeholder, the lexer does as the reader of placeholders says. -/
theorem lexFrom_placeholder (total : Nat) (pending : List Char) {rest : List Char}
    (hdouble : ∀ more, rest = '{' :: more → False) (hstarts : startsPlaceholder rest = true) :
    lexFrom total pending ('{' :: rest) =
      match Placeholder.read (total - byteLength ('{' :: rest)) rest with
      | .error e => .error e
      | .ok (p, after) =>
        (lexFrom total [] after).map fun pieces => flush pending (placeholder p :: pieces) := by
  rw [lexFrom.eq_6 _ _ _ hdouble, if_pos hstarts]
  split <;> rename_i hread <;> rw [hread]

section Turned

variable {total : Nat} {s : Cursor} {rest after : List Char}

/-- A turn at a brace that is a piece or begins one. -/
theorem fits_of_brace {p : Piece} {c : Char} (hshaped : p.IsShaped) (hliteral : p.isLiteral = false)
    (hbrace : p.brace? = some (c, s.position)) : s.Fits (c :: rest) p s.pending where
  shaped := hshaped
  isLiteral_eq := hliteral
  brace d n h := by
    obtain ⟨rfl, rfl⟩ := Prod.mk.inj (Option.some.inj (hbrace.symm.trans h))
    exact ⟨rfl, rfl, rfl⟩

theorem turned_placeholder {p : Placeholder} (hdouble : ∀ more, rest = '{' :: more → False)
    (hstarts : startsPlaceholder rest = true)
    (hoffset : total - byteLength ('{' :: rest) = s.position)
    (hread : Placeholder.read s.position rest = .ok (p, after)) :
    Turned total s ('{' :: rest)
      (s.push s.pending (placeholder p) (s.position + spent ('{' :: rest) after)) := by
  obtain ⟨body, hbody⟩ := Placeholder.exists_of_read hread
  obtain ⟨hstart, -⟩ := Placeholder.read_eq_ok_iff.mp hread
  have hsplit : '{' :: rest = ('{' :: body ++ ['}']) ++ after := by simp [hbody]
  have hlexes := lexFrom_placeholder total s.pending hdouble hstarts
  rw [hoffset, hread] at hlexes
  have hspent : spent ('{' :: rest) after = byteLength ('{' :: body ++ ['}']) := by
    rw [hsplit, Text.spent_append]
  rw [hspent]
  exact .push _ hsplit (by simp) (fits_of_brace trivial rfl (congrArg (fun n => some ('{', n)) hstart))
    hlexes

theorem turned_optional {text : List Char} (h : optionalText rest = some (text, after)) :
    Turned total s ('(' :: rest)
      (s.push s.pending (optional text) (s.position + (1 + spent rest after))) := by
  obtain ⟨taken, rfl⟩ := suffix_of_optionalText h
  rw [Text.spent_append]
  refine .push ('(' :: taken) rfl (by simp) (fits_of_brace?_eq_none trivial rfl rfl) ?_
  rw [lexFrom.eq_8]
  split
  · rename_i hnone
    exact absurd (hnone.symm.trans h) (by simp)
  · rename_i hsome
    obtain ⟨rfl, rfl⟩ := Prod.mk.inj (Option.some.inj (hsome.symm.trans h))
    rfl

theorem turned_alternation {word : List Char}
    (hword : word = (s.pending.takeWhile fun c => !Text.isBlank c).reverse)
    (hne : ¬word.isEmpty = true) :
    Turned total s ('/' :: rest)
      (s.push (s.pending.dropWhile fun c => !Text.isBlank c)
        (alternation (word :: (alternatives rest).1))
        (s.position + (1 + spent rest (alternatives rest).2))) := by
  subst hword
  obtain ⟨taken, htaken⟩ := suffix_alternatives rest
  have hspent : spent rest (alternatives rest).2 = byteLength taken := by
    have hspent := Text.spent_append taken (alternatives rest).2
    rwa [htaken] at hspent
  rw [hspent]
  refine .push ('/' :: taken) (congrArg (List.cons '/') htaken.symm) (by simp)
    (fits_of_brace?_eq_none ?_ rfl rfl) ?_
  · obtain ⟨second, more, hwords⟩ := List.exists_cons_of_ne_nil (alternatives_ne_nil rest)
    exact ⟨_, second, more, congrArg (List.cons _) hwords,
      fun hnil => hne (List.isEmpty_iff.mpr hnil)⟩
  · rw [lexFrom.eq_9, if_neg hne]

end Turned

/-- A turn at a brace that begins a placeholder. The bytes of the whole pattern are walked over, from
the brace on. -/
theorem turned_of_readAt {pattern before rest : List Char} {s : Cursor}
    (hpattern : pattern = before ++ '{' :: rest) (hs : s.position = byteLength before)
    (hdouble : ∀ more, rest = '{' :: more → False) (hstarts : startsPlaceholder rest = true) :
    (∃ e, Placeholder.readAt pattern s.position = .error e ∧
      lexFrom (byteLength pattern) s.pending ('{' :: rest) = .error e) ∨
    ∃ p stop, Placeholder.readAt pattern s.position = .ok (p, stop) ∧
      Turned (byteLength pattern) s ('{' :: rest) (s.push s.pending (placeholder p) stop) := by
  have hoffset : byteLength pattern - byteLength ('{' :: rest) = s.position := by
    rw [hpattern, Text.byteLength_append, hs, Nat.add_sub_cancel]
  have hread := Placeholder.readAt_eq before rest
  rw [← hs, ← hpattern] at hread
  cases hfound : Placeholder.read s.position rest with
  | error e =>
    rw [hfound] at hread
    left
    refine ⟨e, hread, ?_⟩
    rw [lexFrom_placeholder _ _ hdouble hstarts, hoffset, hfound]
  | ok found =>
    obtain ⟨p, after⟩ := found
    rw [hfound] at hread
    have hspent : spent pattern after = s.position + spent ('{' :: rest) after := by
      obtain ⟨body, hbody⟩ := Placeholder.exists_of_read hfound
      rw [hpattern, hs]
      exact Text.spent_append_left before ⟨'{' :: body ++ ['}'], by simp [hbody]⟩
    right
    refine ⟨p, spent pattern after, hread, ?_⟩
    rw [hspent]
    exact turned_placeholder hdouble hstarts hoffset hfound

/-- **One turn** refuses what the lexer refuses, or moves on with it. -/
theorem turned_of_turnAt {pattern before rest : List Char} {s : Cursor}
    (hpattern : pattern = before ++ rest) (hs : s.position = byteLength before) (hne : rest ≠ []) :
    (∃ e, s.turnAt pattern rest = .error e ∧
      lexFrom (byteLength pattern) s.pending rest = .error e) ∨
    ∃ t, s.turnAt pattern rest = .ok (some t) ∧ Turned (byteLength pattern) s rest t := by
  have hoffset : byteLength pattern - byteLength rest = s.position := by
    rw [hpattern, Text.byteLength_append, hs, Nat.add_sub_cancel]
  fun_cases turnAt pattern s rest with
  | case1 => exact absurd rfl hne
  | case2 =>
    right
    refine ⟨_, rfl, .keep ['\\'] rfl (by simp) ?_⟩
    rw [lexFrom.eq_2, lexFrom.eq_1]
  | case3 c rest =>
    right
    exact ⟨_, rfl, .keep ['\\', c] rfl (by simp) (lexFrom.eq_3 ..)⟩
  | case4 rest =>
    right
    exact ⟨_, rfl, .keep ['{', '{'] rfl (by simp) (lexFrom.eq_4 ..)⟩
  | case5 rest =>
    right
    exact ⟨_, rfl, .keep ['}', '}'] rfl (by simp) (lexFrom.eq_5 ..)⟩
  | case6 rest hdouble hstarts =>
    rcases turned_of_readAt hpattern hs hdouble hstarts with
      ⟨e, hread, hlexes⟩ | ⟨p, stop, hread, hturned⟩
    · exact Or.inl ⟨e, by rw [hread]; rfl, hlexes⟩
    · exact Or.inr ⟨_, by rw [hread]; rfl, hturned⟩
  | case7 rest hdouble hstarts =>
    right
    refine ⟨_, rfl, .push ['{'] rfl (by simp) (fits_of_brace trivial rfl rfl) ?_⟩
    rw [lexFrom.eq_6 _ _ _ hdouble, if_neg hstarts, hoffset]
  | case8 rest hdouble =>
    right
    refine ⟨_, rfl, .push ['}'] rfl (by simp) (fits_of_brace trivial rfl rfl) ?_⟩
    rw [lexFrom.eq_7 _ _ _ hdouble, hoffset]
  | case9 rest hnone =>
    rw [optionalSpan?_eq, Option.map_eq_none_iff] at hnone
    right
    refine ⟨_, rfl, .keep ['('] rfl (by simp) ?_⟩
    rw [lexFrom.eq_8]
    split
    · rfl
    · rename_i hsome
      exact absurd (hnone.symm.trans hsome) (by simp)
  | case10 rest text n hsome =>
    rw [optionalSpan?_eq] at hsome
    obtain ⟨⟨text', after⟩, htext, heq⟩ := Option.map_eq_some_iff.mp hsome
    obtain ⟨rfl, rfl⟩ := Prod.mk.inj heq
    right
    exact ⟨_, rfl, turned_optional htext⟩
  | case11 rest word hword =>
    right
    refine ⟨_, rfl, .keep ['/'] rfl (by simp) ?_⟩
    rw [lexFrom.eq_9, if_pos hword]
  | case12 rest word hword r =>
    have hr : r = ((alternatives rest).1, 1 + spent rest (alternatives rest).2) :=
      alternativesSpan_eq 1 rest
    right
    refine ⟨_, rfl, ?_⟩
    rw [hr]
    exact turned_alternation rfl hword
  | case13 c rest hend hescape hopens hcloses hopen hclose hparen hslash =>
    right
    exact ⟨_, rfl, .keep [c] rfl (by simp)
      (lexFrom.eq_10 _ _ _ _ hend hescape hopens hcloses hopen hclose hparen hslash)⟩

/-! ## §D Every state -/

/-- **`Standing pattern s`** — what holds at every state. The offset cuts the pattern into two, and what
the lexer reads behind it completes the pieces of the pattern. -/
structure Standing (pattern : List Char) (s : Cursor) : Prop where
  reads : ∃ before rest, pattern = before ++ rest ∧ s.position = byteLength before ∧
    (lexFrom (byteLength pattern) s.pending rest).map (s.pieces ++ ·) = lex pattern
  inOrder : InOrder s.position s.pieces
  isLiteral_eq : ∀ p ∈ s.pieces.getLast?, p.isLiteral = false

theorem standing_start (pattern : List Char) : Standing pattern start where
  reads := by
    refine ⟨[], pattern, rfl, rfl, ?_⟩
    show (lex pattern).map ([] ++ ·) = lex pattern
    cases lex pattern <;> rfl
  inOrder := inOrder_nil
  isLiteral_eq _ hp := by cases hp

theorem turn_eq {pattern before rest : List Char} {s : Cursor} (hpattern : pattern = before ++ rest)
    (hs : s.position = byteLength before) : s.turn pattern = s.turnAt pattern rest := by
  rw [turn, hs, hpattern, Text.splitAt?_byteLength]

theorem Standing.boundary {pattern : List Char} {s : Cursor} (h : Standing pattern s) :
    Text.isBoundary s.position pattern = true := by
  obtain ⟨before, rest, rfl, hs, -⟩ := h.reads
  rw [hs]
  exact Text.isBoundary_byteLength before rest

theorem Standing.le {pattern : List Char} {s : Cursor} (h : Standing pattern s) :
    s.position ≤ byteLength pattern := by
  obtain ⟨before, rest, rfl, hs, -⟩ := h.reads
  rw [hs, Text.byteLength_append]
  exact Nat.le_add_right _ _

/-- **What one turn keeps.** -/
theorem Standing.of_turned {pattern before rest : List Char} {s t : Cursor}
    (h : Standing pattern s) (hpattern : pattern = before ++ rest)
    (hs : s.position = byteLength before)
    (hreads : (lexFrom (byteLength pattern) s.pending rest).map (s.pieces ++ ·) = lex pattern)
    (ht : Turned (byteLength pattern) s rest t) : s.position < t.position ∧ Standing pattern t := by
  cases ht with
  | @keep c taken after hsplit hne hlexes =>
    have hpos := Text.byteLength_pos hne
    refine ⟨Nat.lt_add_of_pos_right hpos, ⟨before ++ taken, after, ?_, ?_, ?_⟩, ?_, h.isLiteral_eq⟩
    · rw [hpattern, hsplit, List.append_assoc]
    · rw [Text.byteLength_append, ← hs]
      rfl
    · rw [← hreads, hlexes]
      rfl
    · exact h.inOrder.mono (Nat.le_add_right _ _)
  | @push p pending taken after hsplit hne hfits hlexes =>
    have hpos := Text.byteLength_pos hne
    refine ⟨Nat.lt_add_of_pos_right hpos, ⟨before ++ taken, after, ?_, ?_, ?_⟩, ?_, ?_⟩
    · rw [hpattern, hsplit, List.append_assoc]
    · rw [Text.byteLength_append, ← hs]
      rfl
    · rw [← hreads, hlexes, pieces_push]
      show (lexFrom (byteLength pattern) [] after).map _ = _
      cases lexFrom (byteLength pattern) [] after with
      | error e => rfl
      | ok pieces =>
        rw [Except.map, Except.map, Except.map, flush_eq_append pending (p :: pieces)]
        simp
    · rw [pieces_push]
      refine (h.inOrder.flush h.isLiteral_eq pending).concat hfits.shaped
        (fun _ _ _ => hfits.isLiteral_eq) ?_ (Nat.le_add_right _ _)
      intro x hx
      obtain ⟨hn, -, -⟩ := hfits.brace x.1 x.2 hx
      show s.position ≤ x.2 ∧ x.2 < s.position + byteLength taken
      omega
    · rw [pieces_push]
      intro q hq
      rw [List.getLast?_concat] at hq
      rw [← Option.some.inj hq]
      exact hfits.isLiteral_eq

/-- **How a turn ends.** -/
theorem Standing.turn_cases {pattern : List Char} {s : Cursor} (h : Standing pattern s) :
    (s.turn pattern = .ok none ∧ s.position = byteLength pattern ∧ lex pattern = .ok s.finish) ∨
      (∃ e, s.turn pattern = .error e ∧ lex pattern = .error e) ∨
      ∃ t, s.turn pattern = .ok (some t) ∧ s.position < t.position ∧ Standing pattern t := by
  obtain ⟨before, rest, hpattern, hs, hreads⟩ := h.reads
  rw [turn_eq hpattern hs]
  by_cases hrest : rest = []
  · subst hrest
    rw [List.append_nil] at hpattern
    rw [lexFrom.eq_1] at hreads
    left
    exact ⟨rfl, by rw [hs, hpattern], hreads.symm⟩
  · right
    rcases turned_of_turnAt hpattern hs hrest with ⟨e, hturn, hlex⟩ | ⟨t, hturn, hturned⟩
    · left
      rw [hlex] at hreads
      exact ⟨e, hturn, hreads.symm⟩
    · right
      exact ⟨t, hturn, h.of_turned hpattern hs hreads hturned⟩

theorem Standing.position_eq {pattern : List Char} {s : Cursor} (h : Standing pattern s)
    (hturn : s.turn pattern = .ok none) : s.position = byteLength pattern := by
  rcases h.turn_cases with ⟨-, hs, -⟩ | ⟨e, herror, -⟩ | ⟨t, ht, -⟩
  · exact hs
  · cases hturn.symm.trans herror
  · cases hturn.symm.trans ht

theorem Standing.of_turn {pattern : List Char} {s t : Cursor} (h : Standing pattern s)
    (hturn : s.turn pattern = .ok (some t)) : s.position < t.position ∧ Standing pattern t := by
  rcases h.turn_cases with ⟨hend, -⟩ | ⟨e, herror, -⟩ | ⟨t', ht', hnext⟩
  · cases hturn.symm.trans hend
  · cases hturn.symm.trans herror
  · cases hturn.symm.trans ht'
    exact hnext

/-- At an offset that is no state nothing may stand either: this one lies inside a character. -/
example : turn ['é'] ⟨1, [], []⟩ = .ok none := by decide

/-- **Every state** of the loop. -/
theorem Reached.standing {pattern : List Char} {s : Cursor} (h : Reached pattern s) :
    Standing pattern s := by
  induction h with
  | start => exact standing_start pattern
  | turn _ hturn ih => exact (ih.of_turn hturn).2

/-! ## §E The run -/

/-- **The loop ends**, after no more turns than there are bytes behind its offset and one, with the
answer of the lexer. -/
theorem exists_ended {pattern : List Char} {s : Cursor} (hs : Reached pattern s) :
    ∃ ended, (∀ n, byteLength pattern - s.position < n → run pattern n s = some ended) ∧
      ended.map finish = lex pattern ∧
      ∀ t, ended = .ok t → Reached pattern t ∧ t.turn pattern = .ok none := by
  -- Every turn leaves fewer bytes behind the offset.
  induction hleft : byteLength pattern - s.position using Nat.strong_induction_on generalizing s with
  | _ left ih =>
    have hrun (m : Nat) : run pattern (m + 1) s =
        match s.turn pattern with
        | .error e => some (.error e)
        | .ok none => some (.ok s)
        | .ok (some t) => run pattern m t := rfl
    rcases hs.standing.turn_cases with ⟨hend, -, hlex⟩ | ⟨e, herror, hlex⟩ | ⟨t, ht, hlt, -⟩
    · refine ⟨.ok s, ?_, hlex.symm, ?_⟩
      · intro n hn
        obtain ⟨m, rfl⟩ := Nat.exists_eq_succ_of_ne_zero (Nat.ne_zero_of_lt hn)
        rw [hrun, hend]
      · intro t ht
        obtain rfl := Except.ok.inj ht
        exact ⟨hs, hend⟩
    · refine ⟨.error e, ?_, hlex.symm, fun t ht => by cases ht⟩
      intro n hn
      obtain ⟨m, rfl⟩ := Nat.exists_eq_succ_of_ne_zero (Nat.ne_zero_of_lt hn)
      rw [hrun, herror]
    · have hreached : Reached pattern t := hs.turn ht
      have hle := hreached.standing.le
      obtain ⟨ended, hended, hfinish, hlast⟩ := ih _ (by omega) hreached rfl
      refine ⟨ended, ?_, hfinish, hlast⟩
      intro n hn
      obtain ⟨m, rfl⟩ := Nat.exists_eq_succ_of_ne_zero (Nat.ne_zero_of_lt hn)
      rw [hrun, ht]
      exact hended m (by omega)

/-- The state at the end of an accepted pattern. -/
theorem exists_last {pattern : List Char} {pieces : List Piece} (h : lex pattern = .ok pieces) :
    ∃ s, Reached pattern s ∧ s.turn pattern = .ok none ∧ s.finish = pieces := by
  obtain ⟨ended, -, hfinish, hlast⟩ := exists_ended (.start : Reached pattern start)
  rw [h] at hfinish
  cases ended with
  | error e => cases hfinish
  | ok s =>
    obtain ⟨hs, hturn⟩ := hlast s rfl
    exact ⟨s, hs, hturn, Except.ok.inj hfinish⟩

/-! ## §F Where braces are recorded -/

/-- **`Records pattern a p c n`** — one turn of the loop reads a character at an offset, and pushes a
piece there behind others. -/
def Records (pattern : List Char) (a : List Piece) (p : Piece) (c : Char) (n : Nat) : Prop :=
  ∃ s t before after, Reached pattern s ∧ s.turn pattern = .ok (some t) ∧ s.position = n ∧
    Text.splitAt? n pattern = some (before, c :: after) ∧ s.finish = a ∧ t.pieces = a ++ [p]

/-- An element of a list stands at its end, or in front of the last one. -/
theorem cases_of_concat {α : Type} {front a b : List α} {p q : α} (h : front ++ [q] = a ++ p :: b) :
    (front = a ∧ q = p) ∨ ∃ b', front = a ++ p :: b' := by
  rcases List.eq_nil_or_concat b with rfl | ⟨b', x, rfl⟩
  · left
    obtain ⟨hfront, hq⟩ := List.append_inj' h rfl
    exact ⟨hfront, (List.cons.inj hq).1⟩
  · right
    rw [List.concat_eq_append, ← List.cons_append, ← List.append_assoc] at h
    exact ⟨b', (List.append_inj' h rfl).1⟩

/-- Pending text holds no brace. -/
theorem exists_of_append_flush {pieces a b : List Piece} {p : Piece} {pending : List Char}
    (hp : p.brace?.isSome) (h : pieces ++ flush pending [] = a ++ p :: b) :
    ∃ b', pieces = a ++ p :: b' := by
  rcases flush_nil_cases pending with hnil | ⟨text, -, htext⟩
  · rw [hnil, List.append_nil] at h
    exact ⟨b, h⟩
  · rw [htext] at h
    rcases cases_of_concat h with ⟨-, rfl⟩ | hmem
    · cases hp
    · exact hmem

/-- **A brace is recorded** by the turn that reads it. -/
theorem Reached.records {pattern : List Char} {t : Cursor} (ht : Reached pattern t)
    {a b : List Piece} {p : Piece} {c : Char} {n : Nat} (hp : p.brace? = some (c, n))
    (h : t.pieces = a ++ p :: b) : Records pattern a p c n := by
  induction ht generalizing b with
  | start => exact absurd h (by simp [Cursor.start])
  | @turn s t hs hturn ih =>
    obtain ⟨before, rest, hpattern, hpos, -⟩ := hs.standing.reads
    have hne : rest ≠ [] := by
      rintro rfl
      rw [turn_eq hpattern hpos] at hturn
      cases hturn
    have hturn' := hturn
    rw [turn_eq hpattern hpos] at hturn'
    rcases turned_of_turnAt hpattern hpos hne with ⟨e, herror, -⟩ | ⟨t', ht', hturned⟩
    · cases hturn'.symm.trans herror
    obtain rfl : t = t' := by
      cases hturn'.symm.trans ht'
      rfl
    cases hturned with
    | keep => exact ih h
    | @push q pending taken after hsplit _ hfits _ =>
      -- The piece is the one that is pushed, or it stood there before.
      rw [pieces_push] at h
      rcases cases_of_concat h with ⟨rfl, rfl⟩ | ⟨b', hfront⟩
      · obtain ⟨rfl, hhead, rfl⟩ := hfits.brace c n hp
        obtain ⟨after', rfl⟩ := List.head?_eq_some_iff.mp hhead
        refine ⟨s, _, before, after', hs, hturn, rfl, ?_, rfl, pieces_push ..⟩
        rw [hpos, hpattern, Text.splitAt?_byteLength]
      · obtain ⟨b'', hpieces⟩ := exists_of_append_flush (by simp [hp]) hfront
        exact ih hpieces

/-! ## §G The whole pattern -/

/-- **`ReadsThrough pattern`** — the loop reads a pattern to its end.

* `ends` — it takes at most one turn more than the pattern has bytes, and it ends with what the lexer
  answers: a refusal, or pieces, and then the offset is the end of the pattern;
* `boundary` — at every state the offset is a character boundary;
* `advances` — every turn moves the offset on;
* `stopsAtEnd` — nothing stands at the offset only at the end of the pattern;
* `inOrder` — the pieces are shaped and in order;
* `records` — a brace that is a piece or begins one is recorded where it was read. -/
structure ReadsThrough (pattern : List Char) : Prop where
  ends : ∃ ended, (∀ n, byteLength pattern < n → run pattern n start = some ended) ∧
    ended.map finish = lex pattern ∧ ∀ s, ended = .ok s → s.position = byteLength pattern
  boundary {s : Cursor} (hs : Reached pattern s) : Text.isBoundary s.position pattern = true
  advances {s t : Cursor} (hs : Reached pattern s) (h : s.turn pattern = .ok (some t)) :
    s.position < t.position
  stopsAtEnd {s : Cursor} (hs : Reached pattern s) (h : s.turn pattern = .ok none) :
    s.position = byteLength pattern
  inOrder {pieces : List Piece} (h : lex pattern = .ok pieces) :
    InOrder (byteLength pattern) pieces
  records {a b : List Piece} {p : Piece} {c : Char} {n : Nat} (h : lex pattern = .ok (a ++ p :: b))
    (hp : p.brace? = some (c, n)) : Records pattern a p c n

end Cursor

open Cursor

/-- **`lex_readsThrough`** — every pattern is read to its end, as `ReadsThrough` says. -/
theorem lex_readsThrough (pattern : List Char) : ReadsThrough pattern where
  ends := by
    obtain ⟨ended, hended, hfinish, hlast⟩ := exists_ended (.start : Reached pattern start)
    refine ⟨ended, hended, hfinish, ?_⟩
    intro s hs
    obtain ⟨hreached, hturn⟩ := hlast s hs
    exact hreached.standing.position_eq hturn
  boundary hs := hs.standing.boundary
  advances hs h := (hs.standing.of_turn h).1
  stopsAtEnd hs h := hs.standing.position_eq h
  inOrder h := by
    obtain ⟨s, hs, hturn, rfl⟩ := exists_last h
    rw [← hs.standing.position_eq hturn]
    exact hs.standing.inOrder.flush hs.standing.isLiteral_eq s.pending
  records h hp := by
    obtain ⟨s, hs, -, hfinish⟩ := exists_last h
    obtain ⟨b', hpieces⟩ := exists_of_append_flush (by simp [hp]) hfinish
    exact hs.records hp hpieces

/-- The slash takes back the word before it, and the placeholder stands behind six bytes. -/
example : (run "é/ü \x7bn\x7d".toList 9 start).map (·.map fun s => (s.position, s.finish)) =
    some (.ok (9, [.alternation [['é'], ['ü']], .literal [' '], .placeholder ⟨6, "n", none⟩])) := by
  decide +kernel

end Piece

end FeatureFile
