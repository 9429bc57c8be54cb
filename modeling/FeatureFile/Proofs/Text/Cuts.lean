/-
# FeatureFile.Proofs.Text.Cuts — trimming, and cutting at a byte offset

Trimming forgets blanks at the two ends of a text and nothing else. So it does not see blanks that
are put there (`trim_append_of_blank`, `trim_blank_append`), and it keeps the order of beginnings
(`trim_prefix_trim`).

`takeBytes` cuts a text at the greatest character boundary not above an offset (`isGreatest_floor`).
That makes it a slice of every text in which the cut one stands (`slice_append_takeBytes`).
-/

import FeatureFile.Text.Blank
import FeatureFile.Text.Bytes
import Mathlib.Data.List.TakeWhile
import Mathlib.Order.Bounds.Basic

namespace FeatureFile.Text

/-! ## §A Trimming -/

section DropWhile

variable {α : Type} {p q : α → Bool} {a b : List α}

theorem dropWhile_congr (h : ∀ x ∈ a, p x = q x) : a.dropWhile p = a.dropWhile q := by
  induction a with
  | nil => rfl
  | cons x a ih =>
    obtain ⟨hx, ha⟩ := List.forall_mem_cons.mp h
    rw [List.dropWhile_cons, List.dropWhile_cons, hx, ih ha]

variable (p)

theorem dropWhile_prefix_dropWhile (h : a <+: b) : a.dropWhile p <+: b.dropWhile p := by
  obtain ⟨more, rfl⟩ := h
  rw [List.dropWhile_append]
  split
  · rename_i hempty
    rw [List.isEmpty_iff.mp hempty]
    exact List.nil_prefix
  · exact List.prefix_append _ _

theorem dropWhile_suffix_dropWhile (h : a <:+ b) : a.dropWhile p <:+ b.dropWhile p := by
  obtain ⟨more, rfl⟩ := h
  rw [List.dropWhile_append]
  split
  · exact List.suffix_rfl
  · exact (List.dropWhile_suffix p).trans (List.suffix_append _ _)

end DropWhile

variable {a b : List Char}

theorem trimEnd_prefix_trimEnd (h : a <+: b) : trimEnd a <+: trimEnd b :=
  List.reverse_prefix.mpr (dropWhile_suffix_dropWhile isBlank (List.reverse_suffix.mpr h))

theorem trimEnd_suffix_trimEnd (h : a <:+ b) : trimEnd a <:+ trimEnd b :=
  List.reverse_suffix.mpr (dropWhile_prefix_dropWhile isBlank (List.reverse_prefix.mpr h))

/-- **Trimming keeps the order of beginnings.** -/
theorem trim_prefix_trim (h : a <+: b) : trim a <+: trim b :=
  trimEnd_prefix_trimEnd (dropWhile_prefix_dropWhile isBlank h)

/-- Blanks before a text are trimmed with it. -/
theorem trim_blank_append (h : ∀ c ∈ a, isBlank c = true) : trim (a ++ b) = trim b := by
  rw [trim, trimStart, List.dropWhile_append_of_pos h]
  rfl

/-- Blanks behind a text are trimmed with it. -/
theorem trim_append_of_blank (h : ∀ c ∈ b, isBlank c = true) : trim (a ++ b) = trim a := by
  have hreverse : ∀ c ∈ b.reverse, isBlank c = true := fun c hc => h c (List.mem_reverse.mp hc)
  rw [trim, trimStart, List.dropWhile_append]
  split
  · rename_i hempty
    rw [trim, trimStart, List.isEmpty_iff.mp hempty, List.dropWhile_eq_nil_iff.mpr h]
  · rw [trimEnd, List.reverse_append, List.dropWhile_append_of_pos hreverse]
    rfl

/-- Behind a beginning that is not blank, trimming leaves the same end of a text as in the text
alone. -/
theorem trim_suffix_trim (hhead : ∀ c ∈ a.head?, isBlank c = false) (hne : a ≠ []) :
    trim b <:+ trim (a ++ b) := by
  have hstart : trimStart (a ++ b) = a ++ b := by
    cases a with
    | nil => exact absurd rfl hne
    | cons c a => exact List.dropWhile_cons_of_neg (by simp [hhead c rfl])
  rw [trim, trim, hstart]
  exact trimEnd_suffix_trimEnd ((List.dropWhile_suffix isBlank).trans (List.suffix_append a b))

/-! ## §B Cutting at a byte offset -/

@[simp] theorem takeBytes_zero (cs : List Char) : takeBytes 0 cs = [] := by
  cases cs with
  | nil => rfl
  | cons c cs => exact if_neg (by have := c.utf8Size_pos; omega)

theorem takeBytes_prefix (n : Nat) (cs : List Char) : takeBytes n cs <+: cs := by
  fun_induction takeBytes n cs with
  | case1 => exact List.prefix_rfl
  | case2 n c cs _ ih => exact (List.prefix_cons_inj c).mpr ih
  | case3 => exact List.nil_prefix

theorem byteLength_takeBytes_le (n : Nat) (cs : List Char) : byteLength (takeBytes n cs) ≤ n := by
  fun_induction takeBytes n cs with
  | case1 => exact Nat.zero_le _
  | case2 n c cs hle ih =>
    rw [byteLength]
    omega
  | case3 => exact Nat.zero_le _

/-- The cut keeps a beginning that is short enough. -/
theorem takeBytes_append (n : Nat) (a b : List Char) :
    takeBytes (byteLength a + n) (a ++ b) = a ++ takeBytes n b := by
  induction a with
  | nil => rw [byteLength, Nat.zero_add]; rfl
  | cons c a ih =>
    rw [List.cons_append, takeBytes, byteLength, if_pos (by omega), Nat.add_assoc,
      Nat.add_sub_cancel_left, ih]
    rfl

theorem takeBytes_of_le {n : Nat} (h : byteLength a ≤ n) : takeBytes n a = a := by
  obtain ⟨m, rfl⟩ := Nat.exists_eq_add_of_le h
  have hall := takeBytes_append m a []
  rwa [List.append_nil, takeBytes, List.append_nil] at hall

/-- The cut does not look behind a text that it does not get through. -/
theorem takeBytes_append_of_lt {n : Nat} (h : n < byteLength a) :
    takeBytes n (a ++ b) = takeBytes n a := by
  induction a generalizing n with
  | nil => exact absurd h (Nat.not_lt_zero n)
  | cons c a ih =>
    rw [byteLength] at h
    rw [List.cons_append, takeBytes, takeBytes]
    split
    · rw [ih (by omega)]
    · rfl

/-- What is cut off a beginning of a text is what is cut off the text, as far as the beginning goes.
-/
theorem min_byteLength_takeBytes (n : Nat) (a b : List Char) :
    min (byteLength (takeBytes n (a ++ b))) (byteLength a) = byteLength (takeBytes n a) := by
  by_cases h : byteLength a ≤ n
  · obtain ⟨m, rfl⟩ := Nat.exists_eq_add_of_le h
    rw [takeBytes_append, takeBytes_of_le h, byteLength_append]
    exact Nat.min_eq_right (Nat.le_add_right _ _)
  · rw [takeBytes_append_of_lt (by omega)]
    have hle := byteLength_takeBytes_le n a
    omega

/-- A longer beginning of the same text reaches further. -/
theorem takeBytes_mono {m n : Nat} (h : m ≤ n) (cs : List Char) :
    takeBytes m cs <+: takeBytes n cs := by
  induction cs generalizing m n with
  | nil => exact List.prefix_rfl
  | cons c cs ih =>
    rw [takeBytes, takeBytes]
    split
    · rw [if_pos (by omega)]
      exact (List.prefix_cons_inj c).mpr (ih (by omega))
    · exact List.nil_prefix

/-- A character boundary cuts a text into two. -/
theorem exists_of_isBoundary {n : Nat} {cs : List Char} (h : isBoundary n cs = true) :
    ∃ a b, cs = a ++ b ∧ byteLength a = n := by
  obtain ⟨⟨a, b⟩, hcut⟩ := Option.isSome_iff_exists.mp h
  obtain ⟨rfl, hlen⟩ := splitAt?_append hcut
  exact ⟨a, b, rfl, hlen⟩

/-- **The cut is at the greatest character boundary not above the offset.** -/
theorem isGreatest_floor (n : Nat) (cs : List Char) :
    IsGreatest {b | isBoundary b cs = true ∧ b ≤ n} (byteLength (takeBytes n cs)) := by
  obtain ⟨rest, hrest⟩ := takeBytes_prefix n cs
  refine ⟨⟨?_, byteLength_takeBytes_le n cs⟩, ?_⟩
  · have hboundary := isBoundary_byteLength (takeBytes n cs) rest
    rwa [hrest] at hboundary
  · rintro m ⟨hm, hle⟩
    obtain ⟨a, b, rfl, rfl⟩ := exists_of_isBoundary hm
    obtain ⟨k, rfl⟩ := Nat.exists_eq_add_of_le hle
    rw [takeBytes_append, byteLength_append]
    exact Nat.le_add_right _ _

/-- Where a text stands in another, what is cut off it is a slice of that one. -/
theorem slice_append_takeBytes (n : Nat) (a b c : List Char) :
    slice (byteLength a) (byteLength a + byteLength (takeBytes n b)) (a ++ (b ++ c)) =
      takeBytes n b := by
  obtain ⟨rest, hrest⟩ := takeBytes_prefix n b
  have hslice := slice_byteLength a (takeBytes n b) (rest ++ c)
  rwa [← List.append_assoc (takeBytes n b), hrest] at hslice

end FeatureFile.Text
