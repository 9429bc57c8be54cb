/-
# FeatureFile.Text.Blank — blank characters and trimming

Two notions of blank run through the library and must not be confused. A *blank* character is any
character with the Unicode property `White_Space`; steps are trimmed of those, and no placeholder
name may hold one. An *indent* character is a space or a tab and nothing else; only those separate
words on a line. Every indent character is blank (`isBlank_of_isIndent`), and trimming never looks
inside a text: it removes a run at each end.
-/

namespace FeatureFile.Text

/-! ## §A The two classes -/

/-- The code points with the property `White_Space`, as inclusive ranges in increasing order. -/
def blankRanges : List (Nat × Nat) :=
  [(0x9, 0xd), (0x20, 0x20), (0x85, 0x85), (0xa0, 0xa0), (0x1680, 0x1680), (0x2000, 0x200a),
    (0x2028, 0x2029), (0x202f, 0x202f), (0x205f, 0x205f), (0x3000, 0x3000)]

/-- Whether a code point lies in one of the inclusive ranges, which are given in increasing order:
the walk stops at the first range that begins beyond it. -/
def inRanges (n : Nat) : List (Nat × Nat) → Bool
  | [] => false
  | (lo, hi) :: rest => if n < lo then false else if n ≤ hi then true else inRanges n rest

/-- Whether a character is white space. -/
def isBlank (c : Char) : Bool := inRanges c.toNat blankRanges

/-- Whether a character indents: a space or a tab. -/
def isIndent (c : Char) : Bool := c == ' ' || c == '\t'

/-- Whether a character breaks a line: a line feed or a carriage return. -/
def isBreak (c : Char) : Bool := c == '\n' || c == '\r'

theorem isBlank_of_isIndent {c : Char} (h : isIndent c = true) : isBlank c = true := by
  rcases Bool.or_eq_true _ _ ▸ h with h | h <;> rw [eq_of_beq h] <;> decide

/-! ## §B Trimming -/

/-- The text without its leading blank characters. -/
def trimStart (cs : List Char) : List Char := cs.dropWhile isBlank

/-- The text without its trailing blank characters. -/
def trimEnd (cs : List Char) : List Char := (cs.reverse.dropWhile isBlank).reverse

/-- The text without its leading and its trailing blank characters. -/
def trim (cs : List Char) : List Char := trimEnd (trimStart cs)

/-- Trimming of a string. -/
def trimmed (s : String) : String := String.ofList (trim s.toList)

/-- The text without its trailing spaces and tabs. -/
def dropIndentEnd (cs : List Char) : List Char := (cs.reverse.dropWhile isIndent).reverse

end FeatureFile.Text
