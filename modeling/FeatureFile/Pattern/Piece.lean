/-
# FeatureFile.Pattern.Piece — the pieces of a brace expression

A brace expression is literal text with placeholders in braces, optional text in parentheses, and
words with slashes between them of which one must appear. A backslash makes the next character
literal, a doubled brace is one literal brace, and a brace that begins no placeholder is a piece of
its own.

The lexer holds the literal text since the last piece, last character first: a slash takes back the
word before it. An offset is the length of the whole pattern less the length of what is left of it,
so the lexer counts nothing.
-/

import FeatureFile.Pattern.Placeholder
import FeatureFile.Text.Bytes

namespace FeatureFile

/-- A piece of a brace expression. -/
inductive Piece where
  | literal (text : List Char)
  | placeholder (p : Placeholder)
  /-- Text that may be absent. -/
  | optional (text : List Char)
  /-- Words of which one must appear. -/
  | alternation (words : List (List Char))
  /-- A brace that begins no placeholder, with its byte offset. -/
  | openBrace (position : Nat)
  /-- A brace that ends no placeholder, with its byte offset. -/
  | closeBrace (position : Nat)
  deriving DecidableEq, Repr

namespace Piece

/-! ## §A Parts of the lexer -/

/-- Whether the text behind an opening brace makes it the beginning of a placeholder. -/
def startsPlaceholder (cs : List Char) : Bool :=
  cs.head?.any fun c => c.isAlpha || c == '_' || c == '}'

/-- The text behind an opening parenthesis up to the closing one, and the rest; nothing if it is
never closed or holds another parenthesis or a brace. -/
def optionalText : List Char → Option (List Char × List Char)
  | [] => none
  | ['\\'] => none
  | '\\' :: c :: rest => (optionalText rest).map fun (text, rest) => (c :: text, rest)
  | ')' :: rest => some ([], rest)
  | c :: rest =>
    if c == '(' || c == '{' || c == '}' then none
    else (optionalText rest).map fun (text, rest) => (c :: text, rest)

/-- Whether a character ends the words of an alternation. -/
def endsWords (c : Char) : Bool := Text.isBlank c || "\x7b\x7d()".toList.contains c

/-- Puts a character before the first word. -/
def pushWord (c : Char) : List (List Char) → List (List Char)
  | [] => [[c]]
  | word :: words => (c :: word) :: words

/-- The words behind the first slash of an alternation, and the rest. A backslash at the end of the
pattern stands for nothing. -/
def alternatives : List Char → List (List Char) × List Char
  | [] => ([[]], [])
  | ['\\'] => ([[]], [])
  | '\\' :: c :: rest =>
    let r := alternatives rest
    (pushWord c r.1, r.2)
  | '/' :: rest =>
    let r := alternatives rest
    ([] :: r.1, r.2)
  | c :: rest =>
    if endsWords c then ([[]], c :: rest)
    else
      let r := alternatives rest
      (pushWord c r.1, r.2)

/-- Puts the literal text since the last piece before the pieces that follow it. -/
def flush (pending : List Char) (pieces : List Piece) : List Piece :=
  if pending.isEmpty then pieces else literal pending.reverse :: pieces

theorem optionalText_length {cs text rest : List Char} (h : optionalText cs = some (text, rest)) :
    rest.length < cs.length := by
  fun_induction optionalText cs generalizing text rest with
  | case1 | case2 | case5 => simp at h
  | case3 c cs ih =>
    obtain ⟨⟨t, r⟩, hr, heq⟩ := Option.map_eq_some_iff.1 h
    simp only [Prod.mk.injEq] at heq
    have := ih hr
    simp only [← heq.2, List.length_cons]
    omega
  | case4 => simp_all
  | case6 c cs _ _ _ _ ih =>
    obtain ⟨⟨t, r⟩, hr, heq⟩ := Option.map_eq_some_iff.1 h
    simp only [Prod.mk.injEq] at heq
    have := ih hr
    simp only [← heq.2, List.length_cons]
    omega

theorem alternatives_length (cs : List Char) : (alternatives cs).2.length ≤ cs.length := by
  fun_induction alternatives cs <;>
    simp_all +zetaDelta only [List.length_cons, List.length_nil] <;> omega

/-! ## §B The lexer -/

/-- The pieces of what is left of a pattern of so many bytes, behind the literal text since the last
piece. -/
def lexFrom (total : Nat) (pending : List Char) (cs : List Char) :
    Except PatternError (List Piece) :=
  match cs with
  | [] => .ok (flush pending [])
  | ['\\'] => .ok (flush ('\\' :: pending) [])
  | '\\' :: c :: rest => lexFrom total (c :: pending) rest
  -- A doubled brace is literal, whatever follows it.
  | '{' :: '{' :: rest => lexFrom total ('{' :: pending) rest
  | '}' :: '}' :: rest => lexFrom total ('}' :: pending) rest
  | '{' :: rest =>
    let position := total - Text.byteLength ('{' :: rest)
    if startsPlaceholder rest then
      match _h : Placeholder.read position rest with
      | .error e => .error e
      | .ok (p, after) =>
        (lexFrom total [] after).map fun pieces => flush pending (placeholder p :: pieces)
    else (lexFrom total [] rest).map fun pieces => flush pending (openBrace position :: pieces)
  | '}' :: rest =>
    let position := total - Text.byteLength ('}' :: rest)
    (lexFrom total [] rest).map fun pieces => flush pending (closeBrace position :: pieces)
  | '(' :: rest =>
    match _h : optionalText rest with
    | none => lexFrom total ('(' :: pending) rest
    | some (text, after) =>
      (lexFrom total [] after).map fun pieces => flush pending (optional text :: pieces)
  -- A slash with a word before it takes that word back out of the literal text.
  | '/' :: rest =>
    let word := (pending.takeWhile fun c => !Text.isBlank c).reverse
    if word.isEmpty then lexFrom total ('/' :: pending) rest
    else
      let r := alternatives rest
      (lexFrom total [] r.2).map fun pieces =>
        flush (pending.dropWhile fun c => !Text.isBlank c) (alternation (word :: r.1) :: pieces)
  | c :: rest => lexFrom total (c :: pending) rest
  termination_by cs.length
  decreasing_by
    all_goals simp only [List.length_cons]
    · omega
    · omega
    · omega
    · have := Placeholder.read_length _h; omega
    · omega
    · omega
    · omega
    · have := optionalText_length _h; omega
    · omega
    · have := alternatives_length rest; omega
    · omega

/-- The pieces of a brace expression. -/
def lex (pattern : List Char) : Except PatternError (List Piece) :=
  lexFrom (Text.byteLength pattern) [] pattern

end Piece

end FeatureFile
