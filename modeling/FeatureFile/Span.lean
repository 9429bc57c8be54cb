/-
# FeatureFile.Span — byte ranges of a source text

A span is a half-open range of byte offsets whose end never precedes its start. The order of the
ends is part of the type, so a length is a plain difference and a reversed range cannot be held;
`Span.clamp` is the way in for offsets that may be reversed.
-/

namespace FeatureFile

/-- A half-open range of byte offsets. -/
structure Span where
  /-- The first byte of the range. -/
  start : Nat
  /-- One past the last byte of the range. -/
  stop : Nat
  /-- The range is not reversed. -/
  start_le_stop : start ≤ stop := by omega
  deriving DecidableEq, Repr

namespace Span

/-- The span between two offsets; a reversed pair is empty at its start. -/
def clamp (start stop : Nat) : Span := ⟨start, max start stop, Nat.le_max_left _ _⟩

/-- The span of so many bytes from an offset. -/
def ofLength (start length : Nat) : Span := ⟨start, start + length, Nat.le_add_right _ _⟩

/-- The empty span at an offset. -/
def empty (offset : Nat) : Span := ⟨offset, offset, Nat.le_refl _⟩

instance : Inhabited Span := ⟨empty 0⟩

/-- The number of bytes covered. -/
def length (s : Span) : Nat := s.stop - s.start

/-- Whether no byte is covered. -/
def isEmpty (s : Span) : Bool := s.start == s.stop

/-- Whether the byte at an offset is covered. -/
def contains (s : Span) (offset : Nat) : Bool := s.start ≤ offset && offset < s.stop

/-- Whether an offset is covered or is the end of the range. -/
def touches (s : Span) (offset : Nat) : Bool := s.start ≤ offset && offset ≤ s.stop

/-- The smallest span over two spans. -/
def cover (s t : Span) : Span :=
  ⟨min s.start t.start, max s.stop t.stop, by
    have := s.start_le_stop; have := t.start_le_stop; omega⟩

/-- The smallest span over a list of spans; empty at zero when the list is. -/
def coverAll : List Span → Span
  | [] => empty 0
  | s :: rest => rest.foldl cover s

/-- The order by start, then by end. -/
def before (s t : Span) : Bool := s.start < t.start || (s.start == t.start && s.stop < t.stop)

/-- The written form `start..stop`. -/
def render (s : Span) : String := s!"{s.start}..{s.stop}"

end Span

end FeatureFile
