/-
# FeatureFile.Document — editable text and carets

A document is a text that may be locked. An insertion into a locked document and one at an offset
that is no character boundary are refused, and a refused insertion changes nothing.
-/

import FeatureFile.Error
import FeatureFile.Text.Bytes

namespace FeatureFile

/-- A caret with a selection, which may be reversed; a reversed selection selects nothing. -/
structure Caret where
  offset : Nat := 0
  selectionStart : Nat := 0
  selectionStop : Nat := 0
  deriving DecidableEq, Repr

namespace Caret

/-- A caret that selects nothing. -/
def atOffset (offset : Nat) : Caret := ⟨offset, offset, offset⟩

/-- A caret at the end of a selection. -/
def selecting (start stop : Nat) : Caret := ⟨stop, start, stop⟩

/-- Whether text is selected. -/
def hasSelection (c : Caret) : Bool := c.selectionStart < c.selectionStop

end Caret

/-- A text that may be locked. -/
structure Document where
  text : String
  writable : Bool := true
  deriving DecidableEq, Repr

namespace Document

/-- The number of bytes of the text. -/
def length (d : Document) : Nat := Text.byteSize d.text

/-- Inserts a text at a byte offset. -/
def insert (d : Document) (offset : Nat) (text : String) : Except Error Document :=
  if d.writable then
    match Text.splitAt? offset d.text.toList with
    | some (before, after) =>
      .ok { d with text := String.ofList (before ++ text.toList ++ after) }
    | none => .error (.offsetOutOfRange offset d.length)
  else .error .writeBlocked

end Document

end FeatureFile
