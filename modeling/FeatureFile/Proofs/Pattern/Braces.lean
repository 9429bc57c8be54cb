/-
# FeatureFile.Proofs.Pattern.Braces — braces that belong to no placeholder

A brace that begins or ends no placeholder is a piece of its own, and the source of a brace expression
is written only if such braces balance. The pieces are counted (`Brackets`), so a pattern is refused
for the first brace that closes nothing or, failing that, at its end (`sourceOf_unmatched`,
`sourceOf_unbalanced`).

The offset in such a report was recorded by the lexer, which takes it from what is left of the pattern.
What stands behind a piece is read into the pieces that follow it, so the offset is that of a brace in
the pattern (`readAt_of_lexFrom`). Main statement: `lex_reportsBraces`.
-/

import FeatureFile.Pattern.Specificity
import FeatureFile.Proofs.Pattern.Reading
import FeatureFile.Proofs.Text.Brackets

namespace FeatureFile

namespace Piece

/-! ## §A Counting braces -/

/-- The pieces that are braces. -/
def brackets : Brackets Piece where
  opens
    | openBrace _ => true
    | _ => false
  closes
    | closeBrace _ => true
    | _ => false
  not_both p h := by
    cases p with
    | closeBrace n => exact absurd h (by simp)
    | _ => rfl

variable (total : Nat) {depth d : Nat} {p : Piece} {pieces : List Piece}

/-- A piece that may stand there is written in front of those behind it. -/
theorem sourceOf_cons (h : brackets.behind depth p = some d) :
    sourceOf total depth (p :: pieces) = (sourceOf total d pieces).map (p.source ++ ·) := by
  cases p with
  | openBrace n =>
    obtain rfl := Option.some.inj h
    rw [sourceOf]
  | closeBrace n =>
    cases depth with
    | zero => cases h
    | succ depth =>
      obtain rfl := Option.some.inj h
      rw [sourceOf]
  | literal _ | placeholder _ | optional _ | alternation _ =>
    obtain rfl := Option.some.inj h
    rw [sourceOf] <;> simp

/-- A brace that closes nothing is reported with its offset. -/
theorem sourceOf_cons_none (pieces : List Piece) (h : brackets.behind depth p = none) :
    ∃ n, p = closeBrace n ∧ depth = 0 ∧
      sourceOf total depth (p :: pieces) = .error (.placeholder .unmatched n none) := by
  cases p with
  | closeBrace n =>
    cases depth with
    | zero => exact ⟨n, rfl, rfl, sourceOf.eq_3 ..⟩
    | succ depth => cases h
  | openBrace _ | literal _ | placeholder _ | optional _ | alternation _ => cases h

/-- **`sourceOf_eq_ok_iff`** — pieces are written if their braces balance, and only then. -/
theorem sourceOf_eq_ok_iff :
    (∃ body, sourceOf total depth pieces = .ok body) ↔ brackets.Balances depth pieces := by
  induction pieces generalizing depth with
  | nil =>
    rw [Brackets.balances_nil_iff]
    cases depth with
    | zero => exact iff_of_true ⟨[], rfl⟩ rfl
    | succ depth => exact iff_of_false (fun ⟨_, h⟩ => by cases h) (Nat.succ_ne_zero depth)
  | cons p pieces ih =>
    cases hbehind : brackets.behind depth p with
    | none =>
      obtain ⟨n, -, -, herror⟩ := sourceOf_cons_none total pieces hbehind
      refine iff_of_false (fun ⟨_, h⟩ => ?_) fun h => Brackets.not_covers_of_behind hbehind h.covers
      rw [herror] at h
      cases h
    | some d =>
      rw [sourceOf_cons total hbehind, Brackets.balances_cons_iff hbehind, ← ih]
      constructor
      · rintro ⟨_, h⟩
        obtain ⟨body, hbody, -⟩ := exists_of_map_eq_ok h
        exact ⟨body, hbody⟩
      · rintro ⟨body, hbody⟩
        exact ⟨p.source ++ body, by rw [hbody]; rfl⟩

/-- **`sourceOf_unmatched`** — the first brace that closes nothing is reported: the pieces before it
balance. -/
theorem sourceOf_unmatched (h : ¬brackets.Covers depth pieces) :
    ∃ a n b, pieces = a ++ closeBrace n :: b ∧ brackets.Balances depth a ∧
      sourceOf total depth pieces = .error (.placeholder .unmatched n none) := by
  induction pieces generalizing depth with
  | nil => exact absurd Brackets.covers_nil h
  | cons p pieces ih =>
    cases hbehind : brackets.behind depth p with
    | none =>
      obtain ⟨n, rfl, rfl, herror⟩ := sourceOf_cons_none total pieces hbehind
      exact ⟨[], n, pieces, rfl, Brackets.balances_nil_iff.mpr rfl, herror⟩
    | some d =>
      rw [Brackets.covers_cons_iff hbehind] at h
      obtain ⟨a, n, b, rfl, hbalances, herror⟩ := ih h
      refine ⟨p :: a, n, b, rfl, (Brackets.balances_cons_iff hbehind).mpr hbalances, ?_⟩
      rw [sourceOf_cons total hbehind, herror]
      rfl

/-- **`sourceOf_unbalanced`** — a brace that is never closed is reported at the end. -/
theorem sourceOf_unbalanced (hcovers : brackets.Covers depth pieces)
    (hbalances : ¬brackets.Balances depth pieces) :
    sourceOf total depth pieces = .error (.placeholder .unbalanced total none) := by
  induction pieces generalizing depth with
  | nil =>
    cases depth with
    | zero => exact absurd (Brackets.balances_nil_iff.mpr rfl) hbalances
    | succ depth => rfl
  | cons p pieces ih =>
    cases hbehind : brackets.behind depth p with
    | none => exact absurd hcovers (Brackets.not_covers_of_behind hbehind)
    | some d =>
      rw [Brackets.covers_cons_iff hbehind] at hcovers
      rw [Brackets.balances_cons_iff hbehind] at hbalances
      rw [sourceOf_cons total hbehind, ih hcovers hbalances]
      rfl

/-! ## §B Offsets -/

variable {total}

theorem suffix_of_optionalText {cs text after : List Char}
    (h : optionalText cs = some (text, after)) : after <:+ cs := by
  fun_induction optionalText cs generalizing text after with
  | case1 | case2 | case5 => exact absurd h (by simp)
  | case4 cs =>
    obtain ⟨-, rfl⟩ := Prod.mk.inj (Option.some.inj h)
    exact List.suffix_cons _ _
  | case3 c cs ih =>
    obtain ⟨⟨t, rest⟩, hrest, heq⟩ := Option.map_eq_some_iff.mp h
    obtain ⟨-, rfl⟩ := Prod.mk.inj heq
    exact (ih hrest).trans (List.suffix_append ['\\', c] cs)
  | case6 c cs _ _ _ _ ih =>
    obtain ⟨⟨t, rest⟩, hrest, heq⟩ := Option.map_eq_some_iff.mp h
    obtain ⟨-, rfl⟩ := Prod.mk.inj heq
    exact (ih hrest).trans (List.suffix_cons c cs)

theorem suffix_alternatives (cs : List Char) : (alternatives cs).2 <:+ cs := by
  fun_induction alternatives cs with
  | case1 => exact List.suffix_rfl
  | case2 => exact List.nil_suffix
  | case3 c cs r ih => exact ih.trans (List.suffix_append ['\\', c] cs)
  | case4 cs r ih => exact ih.trans (List.suffix_cons '/' cs)
  | case5 c cs => exact List.suffix_rfl
  | case6 c cs _ _ _ _ r ih => exact ih.trans (List.suffix_cons c cs)

/-- The character that a stray brace is, and its recorded offset. -/
def stray? : Piece → Option (Char × Nat)
  | openBrace n => some ('{', n)
  | closeBrace n => some ('}', n)
  | literal _ | placeholder _ | optional _ | alternation _ => none

/-- **`ReadAt total cs c n after`** — in what is left of a pattern of so many bytes stands a character
at an offset of the pattern, and pieces are read behind it. -/
def ReadAt (total : Nat) (cs : List Char) (c : Char) (n : Nat) (pieces : List Piece) : Prop :=
  ∃ before after, cs = before ++ c :: after ∧ n = total - Text.byteLength (c :: after) ∧
    lexFrom total [] after = .ok pieces

theorem ReadAt.of_suffix {cs cs' : List Char} {c : Char} {n : Nat} (hsuffix : cs' <:+ cs)
    (h : ReadAt total cs' c n pieces) : ReadAt total cs c n pieces := by
  obtain ⟨front, rfl⟩ := hsuffix
  obtain ⟨before, after, rfl, hn, hafter⟩ := h
  exact ⟨front ++ before, after, (List.append_assoc ..).symm, hn, hafter⟩

/-- A stray brace among pieces that follow pending text. -/
theorem exists_of_flush_eq {pending : List Char} {a b : List Piece} (hp : p.stray?.isSome)
    (h : flush pending pieces = a ++ p :: b) : ∃ a', pieces = a' ++ p :: b := by
  unfold flush at h
  split at h
  · exact ⟨a, h⟩
  · cases a with
    | nil =>
      obtain ⟨rfl, -⟩ := List.cons.inj h
      cases hp
    | cons q a => exact ⟨a, (List.cons.inj h).2⟩

/-- A stray brace among the pieces that follow one piece and pending text: it is that piece, or it was
read behind it. -/
theorem readAt_cons {cs after pending : List Char} {c : Char} {n : Nat} {q : Piece}
    {a b : List Piece} (hp : p.stray? = some (c, n)) (hsuffix : after <:+ cs)
    (hq : q.stray? = some (c, n) → lexFrom total [] after = .ok b → ReadAt total cs c n b)
    (ih : ∀ {a}, lexFrom total [] after = .ok (a ++ p :: b) → ReadAt total after c n b)
    (h : (lexFrom total [] after).map (fun pieces => flush pending (q :: pieces)) =
      .ok (a ++ p :: b)) : ReadAt total cs c n b := by
  obtain ⟨pieces, hafter, hflush⟩ := exists_of_map_eq_ok h
  obtain ⟨a', ha'⟩ := exists_of_flush_eq (by simp [hp]) hflush
  cases a' with
  | nil =>
    obtain ⟨rfl, rfl⟩ := List.cons.inj ha'
    exact hq hp hafter
  | cons r a' =>
    obtain ⟨-, rfl⟩ := List.cons.inj ha'
    exact (ih hafter).of_suffix hsuffix

/-- **`readAt_of_lexFrom`** — a stray brace stands in the pattern at its offset. -/
theorem readAt_of_lexFrom {pending cs : List Char} {c : Char} {n : Nat} {a b : List Piece}
    (hp : p.stray? = some (c, n)) (h : lexFrom total pending cs = .ok (a ++ p :: b)) :
    ReadAt total cs c n b := by
  have hnil {pending : List Char} {a : List Piece} (h : flush pending [] = a ++ p :: b) : False := by
    obtain ⟨a', ha'⟩ := exists_of_flush_eq (by simp [hp]) h
    simp at ha'
  fun_induction lexFrom total pending cs generalizing a with
  | case1 | case2 => exact (hnil (Except.ok.inj h)).elim
  | case3 pending d rest ih => exact (ih h).of_suffix (List.suffix_append ['\\', d] rest)
  | case4 pending rest ih => exact (ih h).of_suffix (List.suffix_append ['{', '{'] rest)
  | case5 pending rest ih => exact (ih h).of_suffix (List.suffix_append ['}', '}'] rest)
  | case6 => cases h
  | case7 pending rest _ _ _ q after hread =>
    rename_i ih
    obtain ⟨body, rfl⟩ := Placeholder.exists_of_read hread
    exact readAt_cons hp ⟨'{' :: body ++ ['}'], by simp⟩ (fun hq => by cases hq) ih h
  | case8 pending rest =>
    rename_i ih
    refine readAt_cons hp (List.suffix_cons '{' rest) (fun hq hrest => ?_) ih h
    obtain ⟨rfl, rfl⟩ := Prod.mk.inj (Option.some.inj hq)
    exact ⟨[], rest, rfl, rfl, hrest⟩
  | case9 pending rest =>
    rename_i ih
    refine readAt_cons hp (List.suffix_cons '}' rest) (fun hq hrest => ?_) ih h
    obtain ⟨rfl, rfl⟩ := Prod.mk.inj (Option.some.inj hq)
    exact ⟨[], rest, rfl, rfl, hrest⟩
  | case11 pending rest text after hread ih =>
    exact readAt_cons hp ((suffix_of_optionalText hread).trans (List.suffix_cons '(' rest))
      (fun hq => by cases hq) ih h
  | case13 pending rest =>
    rename_i ih
    exact readAt_cons hp ((suffix_alternatives rest).trans (List.suffix_cons '/' rest))
      (fun hq => by cases hq) ih h
  | case10 pending rest | case12 pending rest | case14 pending _ rest =>
    rename_i ih
    exact (ih h).of_suffix (List.suffix_cons _ rest)

/-! ## §C What a pattern is refused for -/

/-- **`ReportsBraces pattern`** — the braces of a pattern are judged as its pieces say.

* `accepts_iff` — the source is written if the stray braces balance, and only then;
* `unmatched` — if a beginning of the pieces closes more than it opens, the first brace that does so is
  reported, by its offset: the pieces before it balance, and those behind it are what is read behind
  the brace at that offset of the pattern;
* `unbalanced` — otherwise, the end of the pattern is reported;
* `lex_error` — what the lexer reports is reported by the source and by the score alike;
* `scores` — the score asks for no balance. -/
structure ReportsBraces (pattern : List Char) : Prop where
  accepts_iff {pieces : List Piece} (h : lex pattern = .ok pieces) :
    (∃ source, expressionSource pattern = .ok source) ↔ brackets.Balances 0 pieces
  unmatched {pieces : List Piece} (h : lex pattern = .ok pieces)
    (hcovers : ¬brackets.Covers 0 pieces) :
    ∃ a b before after, pieces = a ++ closeBrace (Text.byteLength before) :: b ∧
      brackets.Balances 0 a ∧ pattern = before ++ '}' :: after ∧
      lexFrom (Text.byteLength pattern) [] after = .ok b ∧
      expressionSource pattern =
        .error (.placeholder .unmatched (Text.byteLength before) none)
  unbalanced {pieces : List Piece} (h : lex pattern = .ok pieces)
    (hcovers : brackets.Covers 0 pieces)
    (htotals : pieces.countP brackets.closes ≠ pieces.countP brackets.opens) :
    expressionSource pattern = .error (.placeholder .unbalanced (Text.byteLength pattern) none)
  lex_error {e : PatternError} (h : lex pattern = .error e) :
    expressionSource pattern = .error e ∧ Specificity.ofExpression pattern = .error e
  scores {pieces : List Piece} (h : lex pattern = .ok pieces) :
    ∃ score, Specificity.ofExpression pattern = .ok score

theorem expressionSource_of_lex {pattern : List Char} (h : lex pattern = .ok pieces) :
    expressionSource pattern = (sourceOf (Text.byteLength pattern) 0 pieces).map
      fun body => '^' :: body ++ ['$'] := by
  rw [expressionSource, h]

/-- **`lex_reportsBraces`** — a pattern is refused for its braces as `ReportsBraces` says. -/
theorem lex_reportsBraces (pattern : List Char) : ReportsBraces pattern where
  accepts_iff h := by
    rw [expressionSource_of_lex h, ← sourceOf_eq_ok_iff (Text.byteLength pattern)]
    constructor
    · rintro ⟨source, hsource⟩
      obtain ⟨body, hbody, -⟩ := exists_of_map_eq_ok hsource
      exact ⟨body, hbody⟩
    · rintro ⟨body, hbody⟩
      exact ⟨'^' :: body ++ ['$'], by rw [hbody]; rfl⟩
  unmatched h hcovers := by
    obtain ⟨a, n, b, rfl, hbalances, herror⟩ := sourceOf_unmatched (Text.byteLength pattern) hcovers
    obtain ⟨before, after, hpattern, hn, hafter⟩ := readAt_of_lexFrom rfl h
    obtain rfl : n = Text.byteLength before := by
      rw [hn, hpattern, Text.byteLength_append, Nat.add_sub_cancel]
    refine ⟨a, b, before, after, rfl, hbalances, hpattern, hafter, ?_⟩
    rw [expressionSource_of_lex h, herror]
    rfl
  unbalanced h hcovers htotals := by
    have hbalances := fun hbalances : brackets.Balances 0 _ =>
      htotals (hbalances.closes_eq.trans (Nat.zero_add _))
    rw [expressionSource_of_lex h, sourceOf_unbalanced _ hcovers hbalances]
    rfl
  lex_error h := by
    rw [expressionSource, Specificity.ofExpression, h]
    exact ⟨rfl, rfl⟩
  scores h := by
    rw [Specificity.ofExpression, h]
    exact ⟨_, rfl⟩

/-- Offsets are bytes, and a doubled brace opens nothing. -/
example : expressionSource "é\x7b\x7b ( \x7d".toList = .error (.placeholder .unmatched 7 none) := by
  decide +kernel

end Piece

end FeatureFile
