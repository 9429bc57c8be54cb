/-
# FeatureFile.Pattern.Placeholder — placeholders in braces

A placeholder is written as a brace, a name of ASCII letters, digits and underscores, and either a
hint behind a colon or any text whose braces are balanced, up to the closing brace. Blanks behind
the name may not stand before the colon or the closing brace. The reader takes the text behind the
opening brace and returns what is left behind the closing one.
-/

import FeatureFile.Pattern.Error

namespace FeatureFile

/-- A placeholder of a pattern. -/
structure Placeholder where
  /-- The byte offset of the opening brace. -/
  start : Nat
  /-- The name; empty if there is none. -/
  name : String
  /-- The hint, if one is written. -/
  hint : Option String
  deriving DecidableEq, Repr

namespace Placeholder

/-- Whether a character may stand in a name. -/
def isNameChar (c : Char) : Bool := c.isAlphanum || c == '_'

/-- Whether a character is ASCII white space. -/
def isAsciiBlank (c : Char) : Bool :=
  c == ' ' || c == '\t' || c == '\n' || c == '\x0c' || c == '\r'

/-- Whether a character may stand in a hint. -/
def isHintChar (c : Char) : Bool := !(Text.isBlank c || c == '{' || c == '}')

/-- What is left behind the brace that closes a text, given how many inner braces are open. -/
def afterClosing : Nat → List Char → Option (List Char)
  | _, [] => none
  | depth, '{' :: rest => afterClosing (depth + 1) rest
  | 0, '}' :: rest => some rest
  | depth + 1, '}' :: rest => afterClosing depth rest
  | depth, _ :: rest => afterClosing depth rest

/-- The hint behind a colon, and the rest behind the closing brace. -/
def readHint (start : Nat) (name : String) (cs : List Char) :
    Except PatternError (String × List Char) :=
  let hint := cs.takeWhile (· != '}')
  if hint.isEmpty || !hint.all isHintChar then .error (.placeholder .invalid start (some name))
  else
    match cs.dropWhile (· != '}') with
    | [] => .error (.placeholder .unclosed start (some name))
    | _ :: rest => .ok (String.ofList hint, rest)

/-- The placeholder behind an opening brace at a byte offset, and the rest. -/
def read (start : Nat) (cs : List Char) : Except PatternError (Placeholder × List Char) :=
  let name := String.ofList (cs.takeWhile isNameChar)
  let after := cs.dropWhile isNameChar
  let body := after.dropWhile isAsciiBlank
  if after.head?.any isAsciiBlank && body.head?.any fun c => c == ':' || c == '}' then
    .error (.placeholder .invalid start (some name))
  else
    match body with
    | ':' :: rest =>
      (readHint start name rest).map fun (hint, rest) => (⟨start, name, some hint⟩, rest)
    | body =>
      match afterClosing 0 body with
      | some rest => .ok (⟨start, name, none⟩, rest)
      | none => .error (.placeholder .unclosed start (some name))

theorem afterClosing_length {depth : Nat} {cs rest : List Char}
    (h : afterClosing depth cs = some rest) : rest.length < cs.length := by
  fun_induction afterClosing depth cs <;> simp_all <;> omega

theorem readHint_length {start : Nat} {name hint : String} {cs rest : List Char}
    (h : readHint start name cs = .ok (hint, rest)) : rest.length < cs.length := by
  unfold readHint at h
  simp only at h
  split at h
  · simp at h
  · split at h
    · simp at h
    · rename_i heq
      have hle := (List.dropWhile_suffix (· != '}') (l := cs)).length_le
      simp only [Except.ok.injEq, Prod.mk.injEq] at h
      rw [heq, List.length_cons, h.2] at hle
      omega

/-- Reading a placeholder takes at least one character. -/
theorem read_length {start : Nat} {p : Placeholder} {cs rest : List Char}
    (h : read start cs = .ok (p, rest)) : rest.length < cs.length := by
  have hname := (List.dropWhile_suffix isNameChar (l := cs)).length_le
  have hbody := (List.dropWhile_suffix isAsciiBlank (l := cs.dropWhile isNameChar)).length_le
  unfold read at h
  simp only at h
  split at h
  · simp at h
  · split at h
    · rename_i heq
      rw [heq, List.length_cons] at hbody
      cases hr : readHint start (String.ofList (cs.takeWhile isNameChar)) _ with
      | error e => rw [hr] at h; simp [Except.map] at h
      | ok found =>
        obtain ⟨hint, left⟩ := found
        have := readHint_length hr
        rw [hr] at h
        simp only [Except.map, Except.ok.injEq, Prod.mk.injEq] at h
        rw [← h.2]
        omega
    · split at h
      · rename_i heq
        have := afterClosing_length heq
        simp only [Except.ok.injEq, Prod.mk.injEq] at h
        rw [← h.2]
        omega
      · simp at h

end Placeholder

end FeatureFile
