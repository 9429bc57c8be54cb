/-
# FeatureFile.Text.Bytes — byte offsets into a text

Every offset of this library counts bytes of the UTF-8 encoding, while every scanner walks a list
of characters. This module is the measure between the two: the byte length of a text, the cut of a
text at a byte offset, and the cut at the last character boundary not above an offset. A cut exists
exactly at the character boundaries, and its two halves give the text back (`splitAt?_append`).
-/

namespace FeatureFile.Text

/-- The number of bytes of a text in UTF-8. -/
def byteLength : List Char → Nat
  | [] => 0
  | c :: cs => c.utf8Size + byteLength cs

/-- The number of bytes of a string in UTF-8. -/
def byteSize (s : String) : Nat := byteLength s.toList

@[simp] theorem byteLength_append (a b : List Char) :
    byteLength (a ++ b) = byteLength a + byteLength b := by
  induction a with
  | nil => simp [byteLength]
  | cons c cs ih => simp [byteLength, ih, Nat.add_assoc]

/-- The two halves of a text at a byte offset; nothing when the offset lies inside a character or
beyond the end. -/
def splitAt? : Nat → List Char → Option (List Char × List Char)
  | 0, cs => some ([], cs)
  | _ + 1, [] => none
  | n + 1, c :: cs =>
    if c.utf8Size ≤ n + 1 then
      (splitAt? (n + 1 - c.utf8Size) cs).map fun (before, after) => (c :: before, after)
    else none

/-- Whether a byte offset is a character boundary of the text. -/
def isBoundary (n : Nat) (cs : List Char) : Bool := (splitAt? n cs).isSome

/-- The longest beginning of a text of at most so many bytes. -/
def takeBytes : Nat → List Char → List Char
  | _, [] => []
  | n, c :: cs => if c.utf8Size ≤ n then c :: takeBytes (n - c.utf8Size) cs else []

/-- The text between two byte offsets; empty when either is no character boundary. -/
def slice (start stop : Nat) (cs : List Char) : List Char :=
  match splitAt? start cs with
  | none => []
  | some (_, after) =>
    match splitAt? (stop - start) after with
    | none => []
    | some (inside, _) => inside

/-- A cut loses nothing, and its first half is as long as the offset. -/
theorem splitAt?_append {n : Nat} {cs before after : List Char}
    (h : splitAt? n cs = some (before, after)) :
    before ++ after = cs ∧ byteLength before = n := by
  fun_induction splitAt? n cs generalizing before after with
  | case1 cs => simp only [Option.some.injEq, Prod.mk.injEq] at h; simp [← h.1, ← h.2, byteLength]
  | case2 => simp at h
  | case3 n c cs hle ih =>
    obtain ⟨⟨b, a⟩, hba, heq⟩ := Option.map_eq_some_iff.1 h
    simp only [Prod.mk.injEq] at heq
    obtain ⟨rfl, rfl⟩ := heq
    obtain ⟨happ, hlen⟩ := ih hba
    exact ⟨by simp [happ], by simp only [byteLength, hlen]; omega⟩
  | case4 => simp at h

/-- Every beginning of a text can be cut off at its own length. -/
theorem splitAt?_byteLength (a b : List Char) :
    splitAt? (byteLength a) (a ++ b) = some (a, b) := by
  induction a with
  | nil => simp [byteLength, splitAt?]
  | cons c cs ih =>
    have hpos : 0 < c.utf8Size := Char.utf8Size_pos c
    obtain ⟨n, hn⟩ : ∃ n, c.utf8Size + byteLength cs = n + 1 :=
      ⟨c.utf8Size + byteLength cs - 1, by omega⟩
    rw [byteLength, hn, List.cons_append, splitAt?, if_pos (by omega)]
    have hrest : n + 1 - c.utf8Size = byteLength cs := by omega
    rw [hrest, ih]
    rfl

theorem isBoundary_byteLength (a b : List Char) : isBoundary (byteLength a) (a ++ b) = true := by
  rw [isBoundary, splitAt?_byteLength]
  rfl

/-- The piece in the middle of a text is what lies between its two ends. -/
theorem slice_byteLength (a b c : List Char) :
    slice (byteLength a) (byteLength a + byteLength b) (a ++ (b ++ c)) = b := by
  simp only [slice, splitAt?_byteLength, Nat.add_sub_cancel_left]

theorem byteLength_pos {cs : List Char} (h : cs ≠ []) : 0 < byteLength cs := by
  cases cs with
  | nil => exact absurd rfl h
  | cons c cs =>
    have hpos : 0 < c.utf8Size := Char.utf8Size_pos c
    simp only [byteLength]
    omega

end FeatureFile.Text
