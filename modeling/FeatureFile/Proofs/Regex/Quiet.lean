/-
# FeatureFile.Proofs.Regex.Quiet — what a round takes where blanks count

Where blanks count and no class is read, a round of the reader takes little off a text that escapes
or opens anything: the one character that an escape begins with, or the parenthesis of the group
that it opens. All other characters that it takes are inert: a count is written in digits, the names
of groups, boundaries and properties hold no parenthesis and no backslash, and flags are letters. So
nothing opens behind the reader's back. Main statement: `quiet_of_step`.
-/

import Mathlib.Data.List.TakeWhile
import FeatureFile.Proofs.CharSet.Inert
import FeatureFile.Proofs.Regex.Groups
import FeatureFile.Proofs.Regex.Reader

namespace FeatureFile

/-! ## §A Inert beginnings -/

/-- **`TakesInert cs rest`** — what is taken off a text is inert. -/
def TakesInert (cs rest : List Char) : Prop := ∃ k, cs = k ++ rest ∧ Inert k

namespace TakesInert

theorem refl (cs : List Char) : TakesInert cs cs := ⟨[], rfl, by simp [Inert]⟩

theorem trans {cs mid rest : List Char} (h : TakesInert cs mid) (h' : TakesInert mid rest) :
    TakesInert cs rest := by
  obtain ⟨k, rfl, hk⟩ := h
  obtain ⟨k', rfl, hk'⟩ := h'
  exact ⟨k ++ k', (List.append_assoc _ _ _).symm, inert_append.mpr ⟨hk, hk'⟩⟩

theorem cons {c : Char} (hc : isInert c = true) {cs rest : List Char} (h : TakesInert cs rest) :
    TakesInert (c :: cs) rest := by
  obtain ⟨k, rfl, hk⟩ := h
  exact ⟨c :: k, rfl, inert_cons.mpr ⟨hc, hk⟩⟩

theorem dropWhile {p : Char → Bool} (hp : ∀ c, p c = true → isInert c = true) (cs : List Char) :
    TakesInert cs (cs.dropWhile p) :=
  ⟨cs.takeWhile p, List.takeWhile_append_dropWhile.symm,
    fun c hc => hp c (List.mem_takeWhile_imp hc)⟩

/-- What is taken up to a character that is inert itself. -/
theorem behind {p : Char → Bool} {cs k rest : List Char} {c : Char} (hk : Inert (cs.takeWhile p))
    (hc : isInert c = true) (h : (cs.takeWhile p, cs.dropWhile p) = (k, c :: rest)) :
    TakesInert cs rest := by
  have hsplit := List.takeWhile_append_dropWhile (p := p) (l := cs)
  obtain ⟨rfl, hrest⟩ := Prod.mk.inj h
  rw [hrest] at hsplit
  exact ⟨cs.takeWhile p ++ [c], by simpa using hsplit.symm,
    inert_append.mpr ⟨hk, inert_cons.mpr ⟨hc, by simp [Inert]⟩⟩⟩

end TakesInert

namespace Regex

/-! ## §B Readers -/

/-- Where blanks count, the longest beginning of a text is taken as it stands. -/
theorem Flags.span_eq {f : Flags} (h : f.spaced = false) (p : Char → Bool) (cs : List Char) :
    f.span p cs = (cs.takeWhile p, cs.dropWhile p) := by
  induction cs with
  | nil => rfl
  | cons c cs ih =>
    unfold Flags.span at ih ⊢
    rw [spanSpaced, ih]
    cases hc : p c <;> simp [h, hc]

theorem takeSpaced_append {n : Nat} {cs taken rest : List Char}
    (h : takeSpaced false n false cs = some (taken, rest)) : cs = taken ++ rest := by
  induction n generalizing cs taken with
  | zero =>
    obtain ⟨rfl, rfl⟩ : [] = taken ∧ cs = rest := by simpa [takeSpaced] using h
    rfl
  | succ n ih =>
    cases cs with
    | nil => exact absurd h (by simp [takeSpaced])
    | cons c cs =>
      simp only [takeSpaced, Bool.false_and, Bool.false_eq_true, if_false] at h
      obtain ⟨⟨inner, after⟩, hinner, heq⟩ := Option.map_eq_some_iff.mp h
      obtain ⟨rfl, rfl⟩ := Prod.mk.inj heq
      rw [ih hinner]
      rfl

/-- The digits of a code point are inert. -/
theorem inert_of_charOfHex? {cs : List Char} {c : Char} (h : charOfHex? cs = some c) :
    Inert cs := by
  unfold charOfHex? at h
  split at h
  · exact absurd h (by simp)
  split at h
  · rename_i hnumber
    exact fun c hc => isInert_of (p := fun c => (Text.hexDigit? c).isSome) (by decide) (by decide)
      (hexDigit_of_hexadecimal? hnumber c hc)
  · exact absurd h (by simp)

/-- Cutting a name at a mark leaves its two parts out of the whole. -/
theorem cut?_append {mark cs before after : List Char} (h : cut? mark cs = some (before, after)) :
    cs = before ++ mark ++ after := by
  fun_induction cut? mark cs generalizing before with
  | case1 => exact absurd h (by simp)
  | case2 c rest hprefix =>
    obtain ⟨rfl, rfl⟩ := Prod.mk.inj (Option.some.inj h)
    obtain ⟨tail, htail⟩ := List.isPrefixOf_iff_prefix.mp hprefix
    rw [← htail, List.drop_left, List.nil_append]
  | case3 c rest _ ih =>
    obtain ⟨⟨inner, behind⟩, hinner, heq⟩ := Option.map_eq_some_iff.mp h
    obtain ⟨rfl, rfl⟩ := Prod.mk.inj heq
    rw [ih hinner]
    rfl

/-- A property has a inert name. -/
theorem inert_of_propertySet? {name : List Char} {s : CharSet} (h : propertySet? name = some s) :
    Inert name := by
  have hvalued {mark before after : List Char} (hmark : mark.all isInert = true)
      (hcut : cut? mark name = some (before, after)) (h : CharSet.valued? before after = some s) :
      Inert name := by
    obtain ⟨hbefore, hafter⟩ := CharSet.inert_of_valued? h
    rw [cut?_append hcut]
    exact inert_append.mpr ⟨inert_append.mpr ⟨hbefore, List.all_eq_true.mp hmark⟩, hafter⟩
  unfold propertySet? at h
  split at h
  · rename_i hcut
    exact hvalued (by decide) hcut h
  · rename_i hcut
    exact hvalued (by decide) hcut h
  · rename_i hcut
    exact hvalued (by decide) hcut h
  · exact CharSet.inert_of_named? h

/-- The characters of group names are inert. -/
theorem isInert_of_isGroupNameChar {first : Bool} {c : Char}
    (h : isGroupNameChar first c = true) : isInert c = true := by
  have hlater {s : CharSet} (hs : (s.ranges.all fun r => decide (0x80 ≤ r.1)) = true)
      (h : CharSet.Covers s.ranges c.toNat) : isInert c = true := by
    obtain ⟨r, hr, hlow, -⟩ := h
    exact isInert_of_le (Nat.le_trans (of_decide_eq_true (List.all_eq_true.mp hs r hr)) hlow)
  have hletter (h : nameLetters.contains c = true) : isInert c = true :=
    (CharSet.covers_of_union (CharSet.covers_of_inRanges h)).elim
      CharSet.isInert_of_covers_alphabetic (hlater (by decide))
  have hnumber (h : nameNumbers.contains c = true) : isInert c = true :=
    (CharSet.covers_of_union (CharSet.covers_of_inRanges h)).elim
      (CharSet.isInert_of_covers_ofCategories (by decide) (by decide)) (hlater (by decide))
  unfold isGroupNameChar at h
  split at h
  · rcases Bool.or_eq_true_iff.mp h with h | h
    · exact isInert_of (p := (· == '_')) (by decide) (by decide) h
    · exact hletter h
  · rcases Bool.or_eq_true_iff.mp h with h | h
    · rcases Bool.or_eq_true_iff.mp h with h | h
      · exact isInert_of (p := "_.[]".toList.contains) (by decide) (by decide) h
      · exact hletter h
    · exact hnumber h

theorem inOrder_laterLetters : CharSet.InOrder laterLetters.ranges := by
  unfold CharSet.InOrder
  decide

/-- A small letter of ASCII may begin the name of a group. -/
theorem isGroupNameChar_of_small {c : Char} (hlow : 'a'.toNat ≤ c.toNat)
    (hhigh : c.toNat ≤ 'z'.toNat) : isGroupNameChar true c = true := by
  rw [isGroupNameChar, if_pos rfl, nameLetters,
    CharSet.contains_union CharSet.inOrder_alphabetic inOrder_laterLetters,
    CharSet.contains_alphabetic,
    CharSet.contains_letters hlow hhigh, Bool.true_or, Bool.true_or, Bool.true_or, Bool.or_true]

theorem takesInert_readGroupName {cs rest : List Char} {name : String}
    (h : readGroupName cs = .ok (name, rest)) : TakesInert cs rest := by
  unfold readGroupName at h
  split at h
  · rename_i c name' d after htake hdrop
    split at h
    · rename_i hname
      obtain ⟨-, rfl⟩ := Prod.mk.inj (Except.ok.inj h)
      obtain ⟨hc, hrest⟩ := Bool.and_eq_true_iff.mp hname
      have hinert : Inert (cs.takeWhile (· != '>')) := by
        rw [htake]
        refine inert_cons.mpr ⟨isInert_of_isGroupNameChar hc, fun c hc => ?_⟩
        exact isInert_of_isGroupNameChar (List.all_eq_true.mp hrest c hc)
      have hhead := List.head?_dropWhile_not (· != '>') cs
      rw [hdrop] at hhead
      obtain rfl : d = '>' := by simpa using hhead
      exact .behind hinert (by decide) (Prod.ext rfl hdrop)
    · exact absurd h (by simp)
  · exact absurd h (by simp)

/-- Flags are letters, with a hyphen among them. -/
theorem takesInert_readFlags {flags new : Flags} {seen cs rest : List Char} {c : Char}
    (h : readFlags flags seen cs = .ok (new, c :: rest)) : TakesInert cs rest := by
  fun_induction readFlags flags seen cs with
  | case1 => exact absurd h (by simp)
  | case2 | case4 | case7 => exact absurd h (by simp)
  | case3 =>
    rename_i hstop _
    obtain ⟨-, heq⟩ := Prod.mk.inj (Except.ok.inj h)
    obtain ⟨rfl, rfl⟩ := List.cons.inj heq
    exact .cons (isInert_of (p := fun c => c == ':' || c == ')') (by decide) (by decide) hstop)
      (.refl _)
  | case5 flags seen d cs _ _ hhyphen ih =>
    exact .cons (isInert_of (p := (· == '-')) (by decide) (by decide) hhyphen) (ih h)
  | case6 flags seen d cs _ _ _ new hset ih =>
    have hletter : (flags.set? d (!seen.contains '-')).isSome = true := hset ▸ rfl
    have hinert : isInert d = true :=
      isInert_of (p := fun d => (flags.set? d (!seen.contains '-')).isSome) rfl rfl hletter
    exact .cons hinert (ih h)

section Unspaced

variable {flags : Flags} (hspaced : flags.spaced = false)

include hspaced

theorem takesInert_readCount (cs : List Char) : TakesInert cs (readCount flags cs).2 := by
  have hblank (cs : List Char) : TakesInert cs (Text.trimStart cs) :=
    .dropWhile (fun _ => isInert_of (by decide) (by decide)) cs
  have hdigits (cs : List Char) : TakesInert cs (cs.dropWhile Text.isAsciiDigit) :=
    .dropWhile (fun _ => isInert_of (by decide) (by decide)) cs
  unfold readCount
  rw [Flags.span_eq hspaced]
  exact ((hblank cs).trans (hdigits _)).trans (hblank _)

theorem takesInert_readBounds {cs rest : List Char} {bounds : Nat × Option Nat}
    (h : readBounds flags cs = .ok (bounds, rest)) : TakesInert cs rest := by
  have hcount {cs rest : List Char} {n : Option Nat} {c : Char} (hc : isInert c = true)
      (h : readCount flags cs = (n, c :: rest)) : TakesInert cs rest := by
    have hcs := takesInert_readCount hspaced cs
    rw [h] at hcs
    exact hcs.trans (.cons hc (.refl rest))
  unfold readBounds at h
  simp only [Flags.skip_eq hspaced] at h
  split at h
  · rename_i hfirst
    obtain ⟨-, rfl⟩ := Prod.mk.inj (Except.ok.inj h)
    exact hcount (by decide) hfirst
  · rename_i least after hfirst
    have hafter := hcount (by decide) hfirst
    split at h
    · obtain ⟨-, rfl⟩ := Prod.mk.inj (Except.ok.inj h)
      exact hafter.trans (.cons (by decide) (.refl _))
    split at h
    · rename_i hsecond
      split at h
      · obtain ⟨-, rfl⟩ := Prod.mk.inj (Except.ok.inj h)
        exact hafter.trans (hcount (by decide) hsecond)
      · exact absurd h (by simp)
    · exact absurd h (by simp)
  · exact absurd h (by simp)

/-- What stands in braces is taken with the closing one. -/
theorem takesInert_braces {inside code rest : List Char} {c : Char}
    (hspan : flags.span (· != '}') inside = (code, c :: rest)) (hcode : Inert code) :
    TakesInert ('{' :: inside) rest := by
  rw [Flags.span_eq hspaced] at hspan
  obtain ⟨rfl, hrest⟩ := Prod.mk.inj hspan
  have hhead := List.head?_dropWhile_not (· != '}') inside
  rw [hrest] at hhead
  obtain rfl : c = '}' := by simpa using hhead
  exact .cons (by decide) (.behind hcode (by decide) (Prod.ext rfl hrest))

theorem takesInert_readBoundary {cs rest : List Char} {e : Escape}
    (h : readBoundary flags cs = .ok (e, rest)) : TakesInert cs rest := by
  unfold readBoundary at h
  simp only at h
  split at h
  · rename_i inside
    rw [Flags.span_eq hspaced] at h
    split at h
    · exact absurd h (by simp)
    · exact (Prod.mk.inj (Except.ok.inj h)).2 ▸ .refl _
    · rename_i name c after _ _ hspan
      split at h
      · obtain ⟨-, rfl⟩ := Prod.mk.inj (Except.ok.inj h)
        have hname : Inert (inside.takeWhile isBoundaryNameChar) := fun c hc =>
          isInert_of (by decide) (by decide) (List.mem_takeWhile_imp hc)
        exact .cons (by decide) (.behind hname (by decide) hspan)
      · exact absurd h (by simp)
  · exact (Prod.mk.inj (Except.ok.inj h)).2 ▸ .refl _

theorem takesInert_readCodePoint {digits : Nat} {cs rest : List Char} {e : Escape}
    (h : readCodePoint flags digits cs = .ok (e, rest)) : TakesInert cs rest := by
  unfold readCodePoint at h
  rw [Flags.skip_eq hspaced] at h
  split at h
  · split at h
    · rename_i hspan
      split at h
      · rename_i hchar
        obtain ⟨-, rfl⟩ := Prod.mk.inj (Except.ok.inj h)
        exact takesInert_braces hspaced hspan (inert_of_charOfHex? hchar)
      · exact absurd h (by simp)
    · exact absurd h (by simp)
  · split at h
    · rename_i code after htake
      rw [Flags.take?, hspaced] at htake
      split at h
      · rename_i hchar
        obtain rfl : after = rest := by
          split at h
          · exact absurd h (by simp)
          · exact (Prod.mk.inj (Except.ok.inj h)).2
        exact ⟨code, takeSpaced_append htake, inert_of_charOfHex? hchar⟩
      · exact absurd h (by simp)
    · exact absurd h (by simp)

theorem takesInert_readProperty {negated : Bool} {cs rest : List Char} {e : Escape}
    (h : readProperty flags negated cs = .ok (e, rest)) : TakesInert cs rest := by
  unfold readProperty at h
  simp only [Flags.skip_eq hspaced] at h
  split at h
  · exact absurd h (by simp)
  · exact absurd h (by simp)
  · split at h
    · rename_i hspan
      obtain ⟨rfl, hset⟩ := rest_of_found h
      obtain ⟨s, hs⟩ := Option.isSome_iff_exists.mp hset
      exact takesInert_braces hspaced hspan (inert_of_propertySet? hs)
    · exact absurd h (by simp)
  · obtain ⟨rfl, hset⟩ := rest_of_found h
    obtain ⟨s, hs⟩ := Option.isSome_iff_exists.mp hset
    exact .cons (inert_of_propertySet? hs _ List.mem_cons_self) (.refl _)

/-- Behind the character that an escape begins with, what is taken is inert. -/
theorem takesInert_readEscape {cs rest : List Char} {e : Escape}
    (h : readEscape flags cs = .ok (e, rest)) :
    ∃ c after, cs = c :: after ∧ TakesInert after rest := by
  cases cs with
  | nil => exact absurd h (by simp [readEscape])
  | cons c after =>
    refine ⟨c, after, rfl, ?_⟩
    unfold readEscape at h
    split at h
    · exact absurd h (by simp)
    all_goals rename_i heq; obtain ⟨rfl, rfl⟩ := List.cons.inj heq
    · exact takesInert_readBoundary hspaced h
    · exact takesInert_readCodePoint hspaced h
    · exact takesInert_readCodePoint hspaced h
    · exact takesInert_readCodePoint hspaced h
    · exact takesInert_readProperty hspaced h
    · exact takesInert_readProperty hspaced h
    · obtain ⟨_, -, hpair⟩ := Piece.exists_of_map_eq_ok h
      exact (Prod.mk.inj hpair).2 ▸ .refl _

end Unspaced

/-! ## §C Rounds -/

/-- **`Quiet cs rest`** — what is taken off a text opens no group that says nothing of how it opens:
it is inert, or it is an escape with inert characters behind it, or it begins a group with a
question mark and goes on with inert characters. -/
inductive Quiet : List Char → List Char → Prop
  | inert {cs rest : List Char} (h : TakesInert cs rest) : Quiet cs rest
  | escape {c : Char} {cs rest : List Char} (h : TakesInert cs rest) :
      Quiet ('\\' :: c :: cs) rest
  | group {cs rest : List Char} (h : TakesInert cs rest) : Quiet ('(' :: '?' :: cs) rest

namespace Reader

variable {s t : Reader}

/-- A repetition takes a question mark at most. -/
theorem takesInert_repeatLast {cs rest : List Char} {least : Nat} {most : Option Nat}
    (h : s.repeatLast least most cs = .ok (t, rest)) : TakesInert cs rest := by
  unfold repeatLast at h
  split at h
  · obtain ⟨-, rfl⟩ := Prod.mk.inj (Except.ok.inj h)
    split
    · rename_i hlazy
      obtain ⟨after, rfl⟩ := List.head?_eq_some_iff.mp (by simpa using hlazy)
      exact .cons (by decide) (.refl _)
    · exact .refl _
  · exact absurd h (by simp)

variable (hspaced : s.flags.spaced = false)

include hspaced

theorem quiet_of_readOpening {cs rest : List Char} (h : s.readOpening cs = .ok (t, rest)) :
    Quiet ('(' :: cs) rest ∨ t = s.openCapture none ∧ rest = cs := by
  unfold readOpening at h
  rw [Flags.skip_eq hspaced] at h
  have hnamed (front : List Char) {behind after : List Char} {name : String}
      (hfront : front.all isInert = true)
      (hname : readGroupName behind = .ok (name, after))
      (h : (if s.names.contains name then .error .duplicateGroupName
        else .ok ({ s with names := name :: s.names }.openCapture (some name), after)) =
        Except.ok (ε := Error) (t, rest)) : Quiet ('(' :: '?' :: (front ++ behind)) rest := by
    split at h
    · exact absurd h (by simp)
    · obtain ⟨-, rfl⟩ := Prod.mk.inj (Except.ok.inj h)
      have hfront : TakesInert (front ++ behind) behind := ⟨front, rfl, List.all_eq_true.mp hfront⟩
      exact .group (hfront.trans (takesInert_readGroupName hname))
  split at h
  · exact absurd h (by simp)
  · exact absurd h (by simp)
  · exact absurd h (by simp)
  · exact absurd h (by simp)
  · dsimp only at h
    split at h
    · exact absurd h (by simp)
    · rename_i hname
      exact Or.inl (hnamed ['P', '<'] (by decide) hname h)
  · dsimp only at h
    split at h
    · exact absurd h (by simp)
    · rename_i hname
      exact Or.inl (hnamed ['<'] (by decide) hname h)
  · split at h
    · rename_i hread
      obtain ⟨-, rfl⟩ := Prod.mk.inj (Except.ok.inj h)
      exact Or.inl (.group (takesInert_readFlags hread))
    · rename_i hread
      split at h
      · exact absurd h (by simp)
      · obtain ⟨-, rfl⟩ := Prod.mk.inj (Except.ok.inj h)
        exact Or.inl (.group (takesInert_readFlags hread))
    · exact absurd h (by simp)
    · exact absurd h (by simp)
  · obtain ⟨rfl, rfl⟩ := Prod.mk.inj (Except.ok.inj h)
    exact Or.inr ⟨rfl, rfl⟩

/-- **`quiet_of_step`** — where blanks count, a round that reads no class is quiet, or it opens a
group that has a number and no name, and takes its parenthesis alone. -/
theorem quiet_of_step {c : Char} {cs rest : List Char} (hclass : c ≠ '[')
    (h : s.step c cs = .ok (t, rest)) :
    Quiet (c :: cs) rest ∨ c = '(' ∧ t = s.openCapture none ∧ rest = cs := by
  unfold step at h
  split at h
  · exact (quiet_of_readOpening hspaced h).imp_right fun h => ⟨rfl, h⟩
  · obtain ⟨_, -, hpair⟩ := Piece.exists_of_map_eq_ok h
    obtain ⟨-, rfl⟩ := Prod.mk.inj hpair
    exact Or.inl (.inert (.cons (by decide) (.refl _)))
  · obtain ⟨-, rfl⟩ := Prod.mk.inj (Except.ok.inj h)
    exact Or.inl (.inert (.cons (by decide) (.refl _)))
  · exact absurd rfl hclass
  · exact Or.inl (.inert (.cons (by decide) (takesInert_repeatLast h)))
  · exact Or.inl (.inert (.cons (by decide) (takesInert_repeatLast h)))
  · exact Or.inl (.inert (.cons (by decide) (takesInert_repeatLast h)))
  · split at h
    · rename_i hbounds
      rw [Flags.skip_eq hspaced] at h
      have hrest := (takesInert_readBounds hspaced hbounds).trans (takesInert_repeatLast h)
      exact Or.inl (.inert (.cons (by decide) hrest))
    · exact absurd h (by simp)
  · obtain ⟨⟨e, after⟩, hescape, hpair⟩ := Piece.exists_of_map_eq_ok h
    obtain rfl : after = rest := by
      cases e <;> exact (Prod.mk.inj hpair).2
    obtain ⟨c, behind, rfl, hinert⟩ := takesInert_readEscape hspaced hescape
    exact Or.inl (.escape hinert)
  · obtain ⟨_, -, hpair⟩ := Piece.exists_of_map_eq_ok h
    obtain ⟨-, rfl⟩ := Prod.mk.inj hpair
    exact Or.inl (.inert (.cons (by decide) (.refl _)))
  · obtain ⟨-, rfl⟩ := Prod.mk.inj (Except.ok.inj h)
    exact Or.inl (.inert (.cons (by decide) (.refl _)))
  · obtain ⟨-, rfl⟩ := Prod.mk.inj (Except.ok.inj h)
    exact Or.inl (.inert (.cons (by decide) (.refl _)))
  · rename_i hopen _ _ _ _ _ _ _ hslash _ _ _
    obtain ⟨-, rfl⟩ := Prod.mk.inj (Except.ok.inj h)
    exact Or.inl (.inert (.cons (isInert_iff.mpr ⟨hslash, hopen⟩) (.refl _)))

end Reader

end Regex

end FeatureFile
