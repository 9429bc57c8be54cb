/-
# FeatureFile.Proofs.CharSet.Members — which characters a set holds

Membership walks the ranges of a set and stops at the first one that begins beyond the character, so
it says what it should only of ranges in increasing order. A set is *normal* if its ranges are
increasing with a gap between any two. Unions, and the sets of given code points, hold what they
should (`contains_union`, `contains_ofCodes`); so is the complement of a normal set below the
surrogates read right (`contains_complement`).
-/

import Mathlib.Data.List.Sort
import FeatureFile.CharSet.Derived
import FeatureFile.CharSet.Fold

namespace FeatureFile.CharSet

/-! ## §A Ranges in increasing order -/

/-- **`Covers ranges n`** — one of the ranges holds the code point. -/
def Covers (ranges : List (Nat × Nat)) (n : Nat) : Prop := ∃ r ∈ ranges, r.1 ≤ n ∧ n ≤ r.2

/-- **`InOrder ranges`** — the lower bounds increase. -/
def InOrder (ranges : List (Nat × Nat)) : Prop := ranges.Pairwise fun x y => x.1 ≤ y.1

@[simp] theorem covers_nil (n : Nat) : ¬ Covers [] n := by simp [Covers]

@[simp] theorem covers_cons (a b n : Nat) (ranges : List (Nat × Nat)) :
    Covers ((a, b) :: ranges) n ↔ (a ≤ n ∧ n ≤ b) ∨ Covers ranges n := by
  simp [Covers]

/-- Where the lower bounds increase, the walk that stops early misses nothing. -/
theorem inRanges_iff {ranges : List (Nat × Nat)} (h : InOrder ranges) (n : Nat) :
    Text.inRanges n ranges = true ↔ Covers ranges n := by
  induction ranges with
  | nil => simp [Text.inRanges]
  | cons r rest ih =>
    obtain ⟨a, b⟩ := r
    obtain ⟨hfirst, hrest⟩ := List.pairwise_cons.1 h
    rw [Text.inRanges, covers_cons]
    split
    · -- Below the first range is below all of them.
      rename_i hlow
      refine ⟨fun hf => absurd hf (by simp), ?_⟩
      rintro (⟨hle, _⟩ | ⟨r, hr, hle, _⟩)
      · omega
      · have := hfirst r hr
        simp only at this
        omega
    · split
      · simp only [true_iff]
        exact .inl ⟨by omega, by omega⟩
      · rw [ih hrest]
        refine ⟨.inr, ?_⟩
        rintro (⟨_, _⟩ | hc)
        · omega
        · exact hc

/-! ## §B Joining ranges -/

/-- A joined range begins where one of the given ranges does. -/
theorem exists_of_mem_joined {ranges : List (Nat × Nat)} {r : Nat × Nat} (h : r ∈ joined ranges) :
    ∃ s ∈ ranges, r.1 = s.1 := by
  fun_induction joined ranges with
  | case1 a b c d rest hle ih =>
    obtain ⟨s, hs, heq⟩ := ih h
    rcases List.mem_cons.1 hs with rfl | hs
    · exact ⟨(a, b), by simp, heq⟩
    · exact ⟨s, by simp [hs], heq⟩
  | case2 a b c d rest hgt ih =>
    rcases List.mem_cons.1 h with rfl | h
    · exact ⟨(a, b), by simp, rfl⟩
    · obtain ⟨s, hs, heq⟩ := ih h
      exact ⟨s, List.mem_cons_of_mem _ hs, heq⟩
  | case3 => exact ⟨r, h, rfl⟩

/-- Joining two ranges at the head keeps the order. -/
theorem InOrder.merge_head {a b c d e : Nat} {rest : List (Nat × Nat)}
    (h : InOrder ((a, b) :: (c, d) :: rest)) : InOrder ((a, e) :: rest) := by
  obtain ⟨hfirst, hrest⟩ := List.pairwise_cons.1 h
  exact List.pairwise_cons.2
    ⟨fun r hr => hfirst r (List.mem_cons_of_mem _ hr), (List.pairwise_cons.1 hrest).2⟩

/-- Joining loses no code point and adds none. -/
theorem covers_joined {ranges : List (Nat × Nat)} (h : InOrder ranges) (n : Nat) :
    Covers (joined ranges) n ↔ Covers ranges n := by
  fun_induction joined ranges with
  | case1 a b c d rest hle ih =>
    have hac : a ≤ c := (List.pairwise_cons.1 h).1 (c, d) (by simp)
    rw [ih h.merge_head, covers_cons, covers_cons, covers_cons, ← or_assoc]
    apply or_congr_left
    omega
  | case2 a b c d rest hgt ih =>
    rw [covers_cons, ih (List.pairwise_cons.1 h).2, covers_cons a b]
  | case3 => rfl

/-- Joined ranges stay in order. -/
theorem inOrder_joined {ranges : List (Nat × Nat)} (h : InOrder ranges) :
    InOrder (joined ranges) := by
  fun_induction joined ranges with
  | case1 a b c d rest hle ih => exact ih h.merge_head
  | case2 a b c d rest hgt ih =>
    obtain ⟨hfirst, hrest⟩ := List.pairwise_cons.1 h
    refine List.pairwise_cons.2 ⟨fun r hr => ?_, ih hrest⟩
    obtain ⟨s, hs, heq⟩ := exists_of_mem_joined hr
    exact heq ▸ hfirst s hs
  | case3 => exact h

/-! ## §C Normal sets -/

/-- **`Normal s`** — the ranges of a set are increasing, none of them is empty, and a code point
lies between any two. -/
structure Normal (s : CharSet) : Prop where
  apart : s.ranges.Pairwise fun x y => x.2 + 1 < y.1
  proper : ∀ r ∈ s.ranges, r.1 ≤ r.2

theorem Normal.inOrder {s : CharSet} (h : s.Normal) : InOrder s.ranges := by
  refine h.apart.imp_of_mem ?_
  intro x y hx _ hxy
  have := h.proper x hx
  omega

theorem Normal.contains_iff {s : CharSet} (h : s.Normal) (c : Char) :
    s.contains c = true ↔ Covers s.ranges c.toNat :=
  inRanges_iff h.inOrder _

/-- Joining ranges in order makes a normal set. -/
theorem normal_joined {ranges : List (Nat × Nat)} (h : InOrder ranges)
    (hp : ∀ r ∈ ranges, r.1 ≤ r.2) : Normal ⟨joined ranges⟩ := by
  fun_induction joined ranges with
  | case1 a b c d rest hle ih =>
    refine ih h.merge_head ?_
    intro r hr
    rcases List.mem_cons.1 hr with rfl | hr
    · have : a ≤ b := hp (a, b) (by simp)
      simp only
      omega
    · exact hp r (by simp [hr])
  | case2 a b c d rest hgt ih =>
    obtain ⟨hfirst, hrest⟩ := List.pairwise_cons.1 h
    have inner := ih hrest fun r hr => hp r (List.mem_cons_of_mem _ hr)
    refine ⟨List.pairwise_cons.2 ⟨?_, inner.apart⟩, ?_⟩
    · intro r hr
      -- A later range begins no earlier than the second one, which the first does not touch.
      obtain ⟨s, hs, heq⟩ := exists_of_mem_joined hr
      have hcs : c ≤ s.1 := by
        rcases List.mem_cons.1 hs with rfl | hs
        · exact Nat.le_refl _
        · exact (List.pairwise_cons.1 hrest).1 s hs
      simp only
      omega
    · intro r hr
      rcases List.mem_cons.1 hr with rfl | hr
      · exact hp _ (by simp)
      · exact inner.proper r hr
  | case3 ranges hne =>
    refine ⟨?_, hp⟩
    match ranges, hne with
    | [], _ => exact .nil
    | [r], _ => exact List.pairwise_singleton _ _
    | (a, b) :: (c, d) :: rest, hne => exact absurd rfl (hne a b c d rest)

/-- Joining leaves the ranges of a normal set as they are. -/
theorem Normal.joined_eq {s : CharSet} (h : s.Normal) : joined s.ranges = s.ranges := by
  have hapart := h.apart
  generalize s.ranges = ranges at hapart ⊢
  fun_induction joined ranges with
  | case1 a b c d rest hle =>
    have htouch : b + 1 < c := (List.pairwise_cons.1 hapart).1 (c, d) List.mem_cons_self
    omega
  | case2 a b c d rest hgt ih => rw [ih (List.pairwise_cons.1 hapart).2]
  | case3 => rfl

theorem Normal.empty_union {s : CharSet} (h : s.Normal) : empty.union s = s := by
  rw [union, empty, List.nil_merge, h.joined_eq]

theorem normal_single (c : Char) : Normal (single c) :=
  ⟨List.pairwise_singleton _ _, by simp [single, range]⟩

theorem normal_whiteSpace : Normal whiteSpace :=
  ⟨by decide, by decide⟩

/-! ## §D Unions and given code points -/

/-- The ranges of two sets in order, merged, are in order. -/
theorem inOrder_merge {s t : CharSet} (hs : InOrder s.ranges) (ht : InOrder t.ranges) :
    InOrder (List.merge s.ranges t.ranges fun x y => x.1 ≤ y.1) := by
  refine List.Pairwise.imp (fun {_ _} h => of_decide_eq_true h) ?_
  apply List.pairwise_merge
  · intro a b c hab hbc
    simp only [decide_eq_true_eq] at *
    omega
  · intro a b
    simp only [Bool.or_eq_true, decide_eq_true_eq]
    omega
  · exact hs.imp fun h => decide_eq_true h
  · exact ht.imp fun h => decide_eq_true h

theorem inOrder_union {s t : CharSet} (hs : InOrder s.ranges) (ht : InOrder t.ranges) :
    InOrder (s.union t).ranges :=
  inOrder_joined (inOrder_merge hs ht)

theorem contains_union {s t : CharSet} (hs : InOrder s.ranges) (ht : InOrder t.ranges) (c : Char) :
    (s.union t).contains c = (s.contains c || t.contains c) := by
  rw [Bool.eq_iff_iff, Bool.or_eq_true]
  show Text.inRanges _ (joined _) = true ↔ Text.inRanges _ _ = true ∨ Text.inRanges _ _ = true
  have hmerge := inOrder_merge hs ht
  rw [inRanges_iff (inOrder_joined hmerge), covers_joined hmerge, inRanges_iff hs, inRanges_iff ht]
  simp only [Covers, List.mem_merge, or_and_right, exists_or]

theorem inOrder_codes (codes : List Nat) :
    InOrder ((codes.mergeSort (· ≤ ·)).map fun n => (n, n)) := by
  rw [InOrder, List.pairwise_map]
  refine List.Pairwise.imp (fun {_ _} h => of_decide_eq_true h) ?_
  apply List.pairwise_mergeSort
  · intro a b c hab hbc
    simp only [decide_eq_true_eq] at *
    omega
  · intro a b
    simp only [Bool.or_eq_true, decide_eq_true_eq]
    omega

theorem normal_ofCodes (codes : List Nat) : Normal (ofCodes codes) := by
  refine normal_joined (inOrder_codes codes) ?_
  simp

/-- The set of given code points holds the characters with these. -/
theorem contains_ofCodes (codes : List Nat) (c : Char) :
    (ofCodes codes).contains c = true ↔ c.toNat ∈ codes := by
  rw [(normal_ofCodes codes).contains_iff]
  show Covers (joined _) _ ↔ _
  rw [covers_joined (inOrder_codes codes)]
  simp only [Covers, List.mem_map, List.mem_mergeSort]
  refine ⟨?_, fun h => ⟨_, ⟨_, h, rfl⟩, Nat.le_refl _, Nat.le_refl _⟩⟩
  rintro ⟨_, ⟨n, hn, rfl⟩, hle, hge⟩
  simp only at hle hge
  rwa [Nat.le_antisymm hge hle]

/-! ## §E Complements -/

/-- Before a range below the surrogates lies one gap, and the others lie behind it. -/
theorem gaps_cons {low a b : Nat} (rest : List (Nat × Nat)) (hlow : low < a) (hab : a ≤ b)
    (hb : b < 0xd7ff) : gaps low ((a, b) :: rest) = (low, a - 1) :: gaps (b + 1) rest := by
  have hprev : previous a = a - 1 := if_neg (by omega)
  have hnext : next b = b + 1 := if_neg (by omega)
  have hlast : b ≠ lastCode := by unfold lastCode; omega
  rw [gaps, hprev, hnext, if_neg hlast, if_pos (by omega)]

/-- **`Below ranges low`** — the ranges make a normal set, lie below the surrogates, and begin
beyond `low`. -/
structure Below (ranges : List (Nat × Nat)) (low : Nat) : Prop where
  normal : Normal ⟨ranges⟩
  bounded : ∀ r ∈ ranges, r.2 < 0xd7ff
  beyond : ∀ r ∈ ranges, low < r.1

theorem below_tail {a b : Nat} {rest : List (Nat × Nat)} (h : Normal ⟨(a, b) :: rest⟩)
    (hb : ∀ r ∈ (a, b) :: rest, r.2 < 0xd7ff) : Below rest (b + 1) := by
  obtain ⟨hfirst, hrest⟩ := List.pairwise_cons.1 h.apart
  exact ⟨⟨hrest, fun r hr => h.proper r (List.mem_cons_of_mem _ hr)⟩,
    fun r hr => hb r (List.mem_cons_of_mem _ hr), hfirst⟩

theorem Below.tail {a b low : Nat} {rest : List (Nat × Nat)} (h : Below ((a, b) :: rest) low) :
    Below rest (b + 1) :=
  below_tail h.normal h.bounded

theorem Below.gaps_eq {a b low : Nat} {rest : List (Nat × Nat)} (h : Below ((a, b) :: rest) low) :
    gaps low ((a, b) :: rest) = (low, a - 1) :: gaps (b + 1) rest :=
  gaps_cons rest (h.beyond _ List.mem_cons_self) (h.normal.proper _ List.mem_cons_self)
    (h.bounded _ List.mem_cons_self)

/-- The gaps lie in order, none before `low`. -/
theorem inOrder_gaps {ranges : List (Nat × Nat)} {low : Nat} (h : Below ranges low) :
    InOrder (gaps low ranges) ∧ ∀ r ∈ gaps low ranges, low ≤ r.1 := by
  induction ranges generalizing low with
  | nil => exact ⟨List.pairwise_singleton _ _, by simp [gaps]⟩
  | cons r rest ih =>
    obtain ⟨a, b⟩ := r
    have hlow : low < a := h.beyond (a, b) List.mem_cons_self
    have hab : a ≤ b := h.normal.proper (a, b) List.mem_cons_self
    obtain ⟨horder, hmin⟩ := ih h.tail
    rw [h.gaps_eq]
    refine ⟨List.pairwise_cons.2 ⟨?_, horder⟩, ?_⟩
    · intro r hr
      have := hmin r hr
      show low ≤ r.1
      omega
    · intro r hr
      rcases List.mem_cons.1 hr with rfl | hr
      · exact Nat.le_refl _
      · have := hmin r hr
        omega

/-- The gaps between ranges hold what the ranges do not. -/
theorem covers_gaps {ranges : List (Nat × Nat)} {low : Nat} (h : Below ranges low) (n : Nat) :
    Covers (gaps low ranges) n ↔ (low ≤ n ∧ n ≤ lastCode) ∧ ¬ Covers ranges n := by
  induction ranges generalizing low with
  | nil => simp [gaps]
  | cons r rest ih =>
    obtain ⟨a, b⟩ := r
    have hlow : low < a := h.beyond (a, b) List.mem_cons_self
    have hab : a ≤ b := h.normal.proper (a, b) List.mem_cons_self
    have hbs : b < 0xd7ff := h.bounded (a, b) List.mem_cons_self
    have hmin : Covers rest n → b + 1 < n := by
      rintro ⟨r, hr, hle, _⟩
      have := h.tail.beyond r hr
      omega
    rw [h.gaps_eq, covers_cons, ih h.tail, covers_cons]
    unfold lastCode
    by_cases hc : Covers rest n
    · have := hmin hc
      simp only [hc, not_true_eq_false, and_false, or_true, or_false, iff_false]
      omega
    · simp only [hc, not_false_eq_true, and_true, or_false]
      omega

theorem toNat_le_lastCode (c : Char) : c.toNat ≤ lastCode := by
  have := c.valid
  simp only [UInt32.isValidChar, Nat.isValidChar] at this
  show c.val.toNat ≤ 0x10ffff
  omega

/-- A character beyond `low` is in a gap just where no range holds it. -/
theorem contains_gaps {ranges : List (Nat × Nat)} {low : Nat} (h : Below ranges low) (c : Char) :
    contains ⟨gaps low ranges⟩ c = true ↔ low ≤ c.toNat ∧ ¬ Covers ranges c.toNat := by
  show Text.inRanges c.toNat (gaps low ranges) = true ↔ _
  rw [inRanges_iff (inOrder_gaps h).1, covers_gaps h]
  simp only [toNat_le_lastCode, and_true]

/-- The complement of a normal set below the surrogates holds all other characters. -/
theorem contains_complement {s : CharSet} (h : s.Normal) (hb : ∀ r ∈ s.ranges, r.2 < 0xd7ff)
    (c : Char) : s.complement.contains c = !s.contains c := by
  rw [Bool.eq_iff_iff, Bool.not_eq_true', ← Bool.not_eq_true, h.contains_iff]
  obtain ⟨ranges⟩ := s
  unfold complement
  split
  · -- The first range begins at zero, so the gaps begin behind it.
    rename_i b rest heq
    obtain rfl : ranges = (0, b) :: rest := heq
    have hbs : b < 0xd7ff := hb (0, b) List.mem_cons_self
    have hnext : next b = b + 1 := if_neg (by omega)
    rw [if_neg (by unfold lastCode; omega), hnext, contains_gaps (below_tail h hb), covers_cons]
    constructor
    · rintro ⟨hle, hcov⟩ (⟨_, hle'⟩ | hc)
      · omega
      · exact hcov hc
    · intro hcov
      exact ⟨by omega, fun hc => hcov (.inr hc)⟩
  · -- No range begins at zero, so the first gap does.
    rename_i hne
    have hbeyond : ∀ r ∈ ranges, 0 < r.1 := by
      intro r hr
      cases ranges with
      | nil => simp at hr
      | cons x rest =>
        obtain ⟨a, b⟩ := x
        have ha : 0 < a := Nat.pos_of_ne_zero fun h0 => hne b rest (by simp [h0])
        rcases List.mem_cons.1 hr with rfl | hr
        · exact ha
        · have := (List.pairwise_cons.1 h.apart).1 r hr
          omega
    rw [contains_gaps ⟨h, hb, hbeyond⟩]
    simp

/-! ## §F The only character of a set -/

theorem theChar?_eq_some {s : CharSet} {c : Char} (h : s.theChar? = some c) :
    ∃ n, s.ranges = [(n, n)] ∧ c = Char.ofNat n := by
  unfold theChar? at h
  split at h
  · rename_i a b heq
    split at h
    · rename_i hab
      exact ⟨a, by rw [heq, hab], (Option.some.inj h).symm⟩
    · simp at h
  · simp at h

theorem contains_of_ranges_eq {s : CharSet} {n : Nat} (h : s.ranges = [(n, n)]) (c : Char) :
    s.contains c = true ↔ c.toNat = n := by
  show Text.inRanges _ _ = true ↔ _
  rw [h, inRanges_iff (List.pairwise_singleton _ _)]
  simp only [covers_cons, covers_nil, or_false]
  omega

/-- A set with two characters has no only one. -/
theorem theChar?_eq_none {s : CharSet} {c d : Char} (hc : s.contains c = true)
    (hd : s.contains d = true) (hne : c ≠ d) : s.theChar? = none := by
  rw [Option.eq_none_iff_forall_ne_some]
  intro e he
  obtain ⟨n, hn, _⟩ := theChar?_eq_some he
  rw [contains_of_ranges_eq hn] at hc hd
  exact hne (Char.toNat_inj.mp (hc.trans hd.symm))

/-- If the only character of a set is in the set, it is all that is in it. -/
theorem contains_iff_of_theChar? {s : CharSet} {c : Char} (h : s.theChar? = some c)
    (hc : s.contains c = true) (d : Char) : s.contains d = true ↔ d = c := by
  obtain ⟨n, hn, _⟩ := theChar?_eq_some h
  rw [contains_of_ranges_eq hn] at hc ⊢
  rw [← hc]
  exact Char.toNat_inj

end FeatureFile.CharSet
