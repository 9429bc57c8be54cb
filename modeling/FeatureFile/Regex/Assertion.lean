/-
# FeatureFile.Regex.Assertion — conditions on places in a text

An assertion matches the empty text where it holds. It looks at the characters before and behind a
place and at nothing else. Lines end at line feeds, or also at carriage returns, where the two
together are one end; words are made of word characters, or of those in ASCII only.
-/

import FeatureFile.CharSet.Named

namespace FeatureFile

/-- Where a place stands to a word. -/
inductive WordPlace where
  | boundary
  | noBoundary
  | start
  | finish
  /-- No word character stands before. -/
  | startHalf
  /-- No word character stands behind. -/
  | finishHalf
  deriving DecidableEq, Repr

/-- A condition on a place in a text that consumes nothing. -/
inductive Assertion where
  | textStart
  | textEnd
  | lineStart (carriageReturns : Bool)
  | lineEnd (carriageReturns : Bool)
  | word (place : WordPlace) (ascii : Bool)
  deriving DecidableEq, Repr

/-- The word characters in ASCII. -/
def CharSet.asciiWordCharacters : CharSet :=
  ⟨[(0x30, 0x39), (0x41, 0x5a), (0x5f, 0x5f), (0x61, 0x7a)]⟩

namespace WordPlace

/-- Whether a place is such a one, given whether word characters stand before and behind it. -/
def holds (p : WordPlace) (before after : Bool) : Bool :=
  match p with
  | boundary => before != after
  | noBoundary => before == after
  | start => !before && after
  | finish => before && !after
  | startHalf => !before
  | finishHalf => !after

end WordPlace

namespace Assertion

/-- Whether an assertion holds between two characters; none stands for an end of the text. -/
def holds (a : Assertion) (before after : Option Char) : Bool :=
  match a with
  | textStart => before.isNone
  | textEnd => after.isNone
  | lineStart carriageReturns =>
    before.all (· == '\n') ||
      carriageReturns && before == some '\r' && after != some '\n'
  | lineEnd carriageReturns =>
    if carriageReturns then
      after.all (· == '\r') || after == some '\n' && before != some '\r'
    else after.all (· == '\n')
  | word place ascii =>
    let words := if ascii then CharSet.asciiWordCharacters else CharSet.wordCharacters
    place.holds (before.any words.contains) (after.any words.contains)

end Assertion

end FeatureFile
