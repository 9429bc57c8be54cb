/-
# FeatureFile.Proofs.Regex.Rest — what a reader leaves of a text

Every reader of a written expression takes a beginning off the text and leaves the rest, so the rest
is always an end of the text. Where a reader stops is known by the last character that it took: the
brace of a count, the bracket of a class, the digit or the brace of an escape. None of these is a
backslash or an opening parenthesis, so the two texts can be scanned apart (`StopsBehind`).
-/

import FeatureFile.Regex.Reader

namespace FeatureFile

namespace Regex

/-! ## §A Blanks and comments -/

theorem spanSpaced_suffix (spaced : Bool) (p : Char → Bool) (comment : Bool) (cs : List Char) :
    (spanSpaced spaced p comment cs).2 <:+ cs := by
  fun_induction spanSpaced spaced p comment cs with
  | case1 => exact List.suffix_rfl
  | case2 | case3 | case4 =>
    rename_i ih
    exact ih.trans (List.suffix_cons _ _)
  | case5 c rest _ _ _ taken after hspan ih =>
    rw [hspan] at ih
    exact ih.trans (List.suffix_cons _ _)
  | case6 => exact List.suffix_rfl

/-- What stops a span does not belong to it. -/
theorem head_spanSpaced {spaced : Bool} {p : Char → Bool} {comment : Bool} {cs : List Char} :
    ∀ c ∈ (spanSpaced spaced p comment cs).2.head?, p c = false := by
  fun_induction spanSpaced spaced p comment cs with
  | case1 => simp
  | case2 | case3 | case4 =>
    rename_i ih
    exact ih
  | case5 c rest _ _ _ taken after hspan ih =>
    rw [hspan] at ih
    exact ih
  | case6 c rest _ _ hp => simpa using hp

theorem Flags.skip_suffix (f : Flags) (cs : List Char) : f.skip cs <:+ cs :=
  spanSpaced_suffix _ _ _ _

theorem Flags.span_suffix (f : Flags) (p : Char → Bool) (cs : List Char) : (f.span p cs).2 <:+ cs :=
  spanSpaced_suffix _ _ _ _

/-- **`StopsBehind P cs rest`** — a text is taken up to a character of a class, and the rest is
left. -/
def StopsBehind (P : Char → Prop) (cs rest : List Char) : Prop :=
  ∃ front c, cs = front ++ c :: rest ∧ P c

theorem StopsBehind.of_suffix {P : Char → Prop} {cs mid rest : List Char}
    (h : StopsBehind P mid rest) (hmid : mid <:+ cs) : StopsBehind P cs rest := by
  obtain ⟨front, c, rfl, hc⟩ := h
  obtain ⟨outer, rfl⟩ := hmid
  exact ⟨outer ++ front, c, (List.append_assoc _ _ _).symm, hc⟩

theorem StopsBehind.suffix {P : Char → Prop} {cs rest : List Char} (h : StopsBehind P cs rest) :
    rest <:+ cs := by
  obtain ⟨front, c, rfl, -⟩ := h
  exact (List.suffix_cons _ _).trans (List.suffix_append _ _)

theorem StopsBehind.mono {P Q : Char → Prop} {cs rest : List Char} (h : StopsBehind P cs rest)
    (hPQ : ∀ c, P c → Q c) : StopsBehind Q cs rest := by
  obtain ⟨front, c, hcs, hc⟩ := h
  exact ⟨front, c, hcs, hPQ c hc⟩

theorem stopsBehind_of_suffix {P : Char → Prop} {c : Char} {cs rest : List Char}
    (h : c :: rest <:+ cs) (hc : P c) : StopsBehind P cs rest := by
  obtain ⟨front, rfl⟩ := h
  exact ⟨front, c, rfl, hc⟩

/-- Behind what is skipped stands all of a text or nothing of it, or else a blank was taken last: a
comment ends in a break. -/
theorem Flags.skip_cases (f : Flags) (cs : List Char) :
    f.skip cs = cs ∨ f.skip cs = [] ∨
      StopsBehind (fun c => Text.isBlank c = true) cs (f.skip cs) := by
  have hspan (comment : Bool) (cs : List Char) :
      comment = false ∧ (spanSpaced f.spaced (fun _ => false) comment cs).2 = cs ∨
        (spanSpaced f.spaced (fun _ => false) comment cs).2 = [] ∨
        StopsBehind (fun c => Text.isBlank c = true) cs
          (spanSpaced f.spaced (fun _ => false) comment cs).2 := by
    have behind {c : Char} {cs rest : List Char} {comment : Bool}
        (hc : comment = false → Text.isBlank c = true)
        (ih : comment = false ∧ rest = cs ∨ rest = [] ∨
          StopsBehind (fun c => Text.isBlank c = true) cs rest) :
        rest = [] ∨ StopsBehind (fun c => Text.isBlank c = true) (c :: cs) rest := by
      rcases ih with ⟨hcomment, rfl⟩ | hnil | hstops
      · exact Or.inr ⟨[], c, rfl, hc hcomment⟩
      · exact Or.inl hnil
      · exact Or.inr (hstops.of_suffix (List.suffix_cons _ _))
    induction cs generalizing comment with
    | nil => exact Or.inr (Or.inl rfl)
    | cons c cs ih =>
      cases comment with
      | true =>
        rw [spanSpaced]
        refine Or.inr (behind (fun hc => ?_) (ih _))
        obtain rfl : c = '\n' := by simpa using hc
        decide
      | false =>
        rw [spanSpaced]
        split
        · rename_i hblank
          exact Or.inr (behind (fun _ => (Bool.and_eq_true_iff.mp hblank).2) (ih _))
        split
        · exact Or.inr (behind (fun h => absurd h (by decide)) (ih _))
        · exact Or.inl ⟨rfl, rfl⟩
  exact (hspan false cs).imp_left And.right

/-! ## §B Counts and names -/

theorem readCount_suffix (flags : Flags) (cs : List Char) : (readCount flags cs).2 <:+ cs :=
  ((List.dropWhile_suffix _).trans (flags.span_suffix _ _)).trans (List.dropWhile_suffix _)

/-- The bounds of a repetition end in their closing brace. -/
theorem stopsBehind_readBounds {flags : Flags} {cs rest : List Char} {bounds : Nat × Option Nat}
    (h : readBounds flags cs = .ok (bounds, rest)) : StopsBehind (· = '}') cs rest := by
  have hcount {cs : List Char} {n : Option Nat} {c : Char} {rest : List Char}
      (h : readCount flags cs = (n, c :: rest)) : c :: rest <:+ cs := by
    have := readCount_suffix flags cs
    rwa [h] at this
  unfold readBounds at h
  split at h
  · rename_i hfirst
    obtain ⟨-, rfl⟩ := Prod.mk.inj (Except.ok.inj h)
    exact stopsBehind_of_suffix ((hcount hfirst).trans (flags.skip_suffix cs)) rfl
  · rename_i least after hfirst
    have hafter := ((List.suffix_cons _ _).trans (hcount hfirst)).trans (flags.skip_suffix cs)
    have hskip := (flags.skip_suffix after).trans hafter
    split at h
    · rename_i hclose
      obtain ⟨-, rfl⟩ := Prod.mk.inj (Except.ok.inj h)
      exact stopsBehind_of_suffix (hclose ▸ hskip) rfl
    split at h
    · rename_i hsecond
      split at h
      · obtain ⟨-, rfl⟩ := Prod.mk.inj (Except.ok.inj h)
        exact stopsBehind_of_suffix ((hcount hsecond).trans hskip) rfl
      · exact absurd h (by simp)
    · exact absurd h (by simp)
  · exact absurd h (by simp)

/-- The name of a group ends in its closing bracket. -/
theorem stopsBehind_readGroupName {cs rest : List Char} {name : String}
    (h : readGroupName cs = .ok (name, rest)) : StopsBehind (· = '>') cs rest := by
  unfold readGroupName at h
  split at h
  · rename_i c name' d after _ hdrop
    have hsuffix := List.dropWhile_suffix (· != '>') (l := cs)
    have hhead := List.head?_dropWhile_not (· != '>') cs
    rw [hdrop] at hsuffix hhead
    split at h
    · obtain ⟨-, rfl⟩ := Prod.mk.inj (Except.ok.inj h)
      exact stopsBehind_of_suffix hsuffix (by simpa using hhead)
    · exact absurd h (by simp)
  · exact absurd h (by simp)

/-- Flags end before a colon or a closing parenthesis. -/
theorem suffix_of_readFlags {flags new : Flags} {seen cs rest : List Char} {c : Char}
    (h : readFlags flags seen cs = .ok (new, c :: rest)) : c :: rest <:+ cs := by
  fun_induction readFlags flags seen cs with
  | case1 => exact absurd h (by simp)
  | case2 | case4 | case7 => exact absurd h (by simp)
  | case3 =>
    obtain ⟨-, heq⟩ := Prod.mk.inj (Except.ok.inj h)
    exact heq ▸ List.suffix_rfl
  | case5 | case6 =>
    rename_i ih
    exact (ih h).trans (List.suffix_cons _ _)

/-! ## §C Escapes -/

/-- A hexadecimal number is written in digits. -/
theorem hexDigit_of_hexadecimal? {n m : Nat} {cs : List Char}
    (h : Text.hexadecimal? n cs = some m) : ∀ c ∈ cs, (Text.hexDigit? c).isSome = true := by
  induction cs generalizing n with
  | nil => simp
  | cons c cs ih =>
    rw [Text.hexadecimal?] at h
    split at h
    · rename_i d hd
      exact List.forall_mem_cons.mpr ⟨hd ▸ rfl, ih h⟩
    · exact absurd h (by simp)

/-- The last of the characters that are taken is one of them. -/
theorem stopsBehind_takeSpaced {spaced comment : Bool} {n : Nat} {cs taken rest : List Char}
    (h : takeSpaced spaced n comment cs = some (taken, rest)) (hn : n ≠ 0) :
    StopsBehind (· ∈ taken) cs rest := by
  fun_induction takeSpaced spaced n comment cs generalizing taken with
  | case1 => exact absurd rfl hn
  | case2 => exact absurd h (by simp)
  | case3 | case4 | case5 =>
    rename_i ih
    exact (ih h hn).of_suffix (List.suffix_cons _ _)
  | case6 n c cs _ _ ih =>
    obtain ⟨⟨inner, after⟩, hinner, heq⟩ := Option.map_eq_some_iff.mp h
    obtain ⟨rfl, rfl⟩ := Prod.mk.inj heq
    cases n with
    | zero =>
      obtain ⟨rfl, rfl⟩ : [] = inner ∧ cs = after := by simpa [takeSpaced] using hinner
      exact ⟨[], c, rfl, List.mem_cons_self⟩
    | succ n =>
      exact ((ih hinner (Nat.succ_ne_zero n)).mono fun _ => List.mem_cons_of_mem _).of_suffix
        (List.suffix_cons _ _)

/-- A boundary with a name ends in its closing brace. -/
theorem readBoundary_cases {flags : Flags} {cs rest : List Char} {e : Escape}
    (h : readBoundary flags cs = .ok (e, rest)) : rest = cs ∨ StopsBehind (· = '}') cs rest := by
  unfold readBoundary at h
  simp only at h
  split at h
  · rename_i inside
    split at h
    · exact absurd h (by simp)
    · exact Or.inl (Prod.mk.inj (Except.ok.inj h)).2.symm
    · rename_i name c after _ _ hspan
      split at h
      · obtain ⟨-, rfl⟩ := Prod.mk.inj (Except.ok.inj h)
        have hsuffix := flags.span_suffix isBoundaryNameChar inside
        rw [hspan] at hsuffix
        exact Or.inr (stopsBehind_of_suffix (hsuffix.trans (List.suffix_cons _ _)) rfl)
      · exact absurd h (by simp)
  · exact Or.inl (Prod.mk.inj (Except.ok.inj h)).2.symm

/-- What stands in braces ends in the closing one. -/
theorem stopsBehind_braces {flags : Flags} {cs inside code rest : List Char} {c : Char}
    (hskip : flags.skip cs = '{' :: inside)
    (hspan : flags.span (· != '}') inside = (code, c :: rest)) :
    StopsBehind (· = '}') cs rest := by
  have hsuffix := flags.span_suffix (· != '}') inside
  have hhead : ∀ c ∈ (flags.span (· != '}') inside).2.head?, (c != '}') = false := head_spanSpaced
  rw [hspan] at hsuffix hhead
  have hinside : inside <:+ cs :=
    (List.suffix_cons '{' inside).trans (hskip ▸ flags.skip_suffix cs)
  exact stopsBehind_of_suffix (hsuffix.trans hinside) (by simpa using hhead c rfl)

/-- A code point ends in a hexadecimal digit or in its closing brace. -/
theorem stopsBehind_readCodePoint {flags : Flags} {digits : Nat} {cs rest : List Char} {e : Escape}
    (hdigits : digits ≠ 0) (h : readCodePoint flags digits cs = .ok (e, rest)) :
    StopsBehind (fun c => c = '}' ∨ (Text.hexDigit? c).isSome = true) cs rest := by
  unfold readCodePoint at h
  split at h
  · rename_i inside hskip
    split at h
    · rename_i code c after hspan
      split at h
      · obtain ⟨-, rfl⟩ := Prod.mk.inj (Except.ok.inj h)
        exact (stopsBehind_braces hskip hspan).mono fun _ => Or.inl
      · exact absurd h (by simp)
    · exact absurd h (by simp)
  · split at h
    · rename_i code after htake
      split at h
      · rename_i c hchar
        have hcode : ∀ c ∈ code, (Text.hexDigit? c).isSome = true := by
          unfold charOfHex? at hchar
          split at hchar
          · exact absurd hchar (by simp)
          split at hchar
          · rename_i hnumber
            exact hexDigit_of_hexadecimal? hnumber
          · exact absurd hchar (by simp)
        have hstops :=
          ((stopsBehind_takeSpaced htake hdigits).mono hcode).of_suffix (flags.skip_suffix cs)
        obtain rfl : after = rest := by
          split at h
          · exact absurd h (by simp)
          · exact (Prod.mk.inj (Except.ok.inj h)).2
        exact hstops.mono fun _ => Or.inr
      · exact absurd h (by simp)
    · exact absurd h (by simp)

/-- No property has the name of an opening parenthesis. -/
theorem propertySet?_paren : propertySet? ['('] = none := by
  decide +kernel

/-- Whatever the name of a property, its set takes nothing off the text. -/
theorem rest_of_found {flags : Flags} {negated : Bool} {name after rest : List Char} {e : Escape}
    (h : (if flags.ascii then .error .notAscii
      else match propertySet? name with
        | some s => (flags.negate negated (flags.fold s)).map fun s => (Escape.set s, after)
        | none => .error .unknownProperty) = Except.ok (e, rest)) :
    after = rest ∧ (propertySet? name).isSome = true := by
  split at h
  · exact absurd h (by simp)
  split at h
  · rename_i hset
    cases hnegate : flags.negate negated (flags.fold _) with
    | error e => exact absurd (hnegate ▸ h) (by simp [Except.map])
    | ok s =>
      rw [hnegate] at h
      exact ⟨(Prod.mk.inj (Except.ok.inj h)).2, hset ▸ rfl⟩
  · exact absurd h (by simp)

/-- A property ends in its one letter or in its closing brace. -/
theorem stopsBehind_readProperty {flags : Flags} {negated : Bool} {cs rest : List Char} {e : Escape}
    (h : readProperty flags negated cs = .ok (e, rest)) :
    StopsBehind (fun c => c ≠ '\\' ∧ c ≠ '(') cs rest := by
  unfold readProperty at h
  simp only at h
  split at h
  · exact absurd h (by simp)
  · exact absurd h (by simp)
  · rename_i inside hskip
    split at h
    · rename_i name c after hspan
      obtain ⟨rfl, -⟩ := rest_of_found h
      exact (stopsBehind_braces hskip hspan).mono fun c hc => by subst hc; decide
    · exact absurd h (by simp)
  · rename_i c after hback _ hskip
    obtain ⟨rfl, hset⟩ := rest_of_found h
    refine stopsBehind_of_suffix (hskip ▸ flags.skip_suffix cs) ⟨fun hc => ?_, fun hc => ?_⟩
    · exact hback hc
    · rw [hc, propertySet?_paren] at hset
      exact absurd hset (by decide)

/-- An escape takes one character behind its backslash, or else it ends in a character that escapes
nothing and opens nothing. -/
theorem readEscape_cases {flags : Flags} {cs rest : List Char} {e : Escape}
    (h : readEscape flags cs = .ok (e, rest)) :
    ∃ c after, cs = c :: after ∧
      (rest = after ∨ StopsBehind (fun c => c ≠ '\\' ∧ c ≠ '(') after rest) := by
  have hcode {c : Char} (hc : c = '}' ∨ (Text.hexDigit? c).isSome = true) : c ≠ '\\' ∧ c ≠ '(' := by
    constructor <;> rintro rfl <;> revert hc <;> decide
  cases cs with
  | nil => exact absurd h (by simp [readEscape])
  | cons c after =>
    refine ⟨c, after, rfl, ?_⟩
    unfold readEscape at h
    split at h
    · exact absurd h (by simp)
    all_goals rename_i heq; obtain ⟨rfl, rfl⟩ := List.cons.inj heq
    · exact (readBoundary_cases h).imp id fun hb => hb.mono fun _ hc => hcode (Or.inl hc)
    · exact Or.inr ((stopsBehind_readCodePoint (by decide) h).mono fun _ => hcode)
    · exact Or.inr ((stopsBehind_readCodePoint (by decide) h).mono fun _ => hcode)
    · exact Or.inr ((stopsBehind_readCodePoint (by decide) h).mono fun _ => hcode)
    · exact Or.inr (stopsBehind_readProperty h)
    · exact Or.inr (stopsBehind_readProperty h)
    · cases hletter : readLetter flags c with
      | error e => exact absurd (hletter ▸ h) (by simp [Except.map])
      | ok e =>
        rw [hletter] at h
        exact Or.inl (Prod.mk.inj (Except.ok.inj h)).2.symm

theorem readEscape_suffix {flags : Flags} {cs rest : List Char} {e : Escape}
    (h : readEscape flags cs = .ok (e, rest)) : rest <:+ cs := by
  obtain ⟨c, after, rfl, rfl | hstops⟩ := readEscape_cases h
  · exact List.suffix_cons _ _
  · exact hstops.suffix.trans (List.suffix_cons _ _)

/-! ## §D Classes -/

/-- The checks on an item of a class do not change what it leaves. -/
theorem item_of_checked {flags : Flags} {item : Except Error (Escape × List Char)} {e : Escape}
    {rest : List Char}
    (h : (match item with
      | .ok (.check _, _) => .error .badClassItem
      | .ok (.literal c, rest) =>
        if flags.ascii && 0x80 ≤ c.toNat then .error .notAscii else .ok (.literal c, rest)
      | item => item) = Except.ok (e, rest)) : item = .ok (e, rest) := by
  split at h
  · exact absurd h (by simp)
  · split at h
    · exact absurd h (by simp)
    · exact h
  · exact h

theorem readClassItem_suffix {flags : Flags} {cs rest : List Char} {e : Escape}
    (h : readClassItem flags cs = .ok (e, rest)) : rest <:+ cs := by
  unfold readClassItem at h
  replace h := item_of_checked h
  split at h
  · exact absurd h (by simp)
  · exact (readEscape_suffix h).trans (List.suffix_cons _ _)
  · rw [← (Prod.mk.inj (Except.ok.inj h)).2]
    exact List.suffix_cons _ _

theorem readClassRange_suffix {flags : Flags} {cs rest : List Char} {s : CharSet}
    (h : readClassRange flags cs = .ok (s, rest)) : rest <:+ cs := by
  unfold readClassRange at h
  split at h
  · exact absurd h (by simp)
  · rename_i item after hitem
    have hafter := (flags.skip_suffix after).trans (readClassItem_suffix hitem)
    have halone {set : CharSet}
        (h : Except.ok (ε := Error) (set, flags.skip after) = .ok (s, rest)) : rest <:+ cs :=
      (Prod.mk.inj (Except.ok.inj h)).2 ▸ hafter
    have hlast {item : Escape} {behind last : List Char}
        (hbehind : flags.skip after = '-' :: behind)
        (h : readClassItem flags (flags.skip behind) = .ok (item, last)) : last <:+ cs := by
      have hlast := (readClassItem_suffix h).trans (flags.skip_suffix behind)
      exact (hlast.trans (List.suffix_cons '-' behind)).trans (hbehind ▸ hafter)
    simp only at h
    split at h
    · rename_i behind hbehind
      split at h
      · split at h
        · exact halone h
        · exact halone h
        · exact absurd h (by simp)
      split at h
      · exact absurd h (by simp)
      · rename_i hread
        split at h
        · obtain ⟨-, rfl⟩ := Prod.mk.inj (Except.ok.inj h)
          exact hlast hbehind hread
        · exact absurd h (by simp)
      · exact absurd h (by simp)
    · split at h
      · exact halone h
      · exact halone h
      · exact absurd h (by simp)

theorem readAsciiClass?_suffix {cs rest : List Char} {found : Bool × CharSet}
    (h : readAsciiClass? cs = some (found, rest)) : rest <:+ cs := by
  unfold readAsciiClass? at h
  split at h
  · rename_i name
    simp only at h
    split at h
    · rename_i hdrop
      obtain ⟨-, rfl⟩ := Prod.mk.inj (Option.some.inj h)
      have hbehind := List.dropWhile_suffix (· != ':')
        (l := if (name.head? == some '^') = true then name.tail else name)
      rw [hdrop] at hbehind
      have hname : (if (name.head? == some '^') = true then name.tail else name) <:+ name := by
        split
        · exact List.tail_suffix name
        · exact List.suffix_rfl
      have hrest := ((List.suffix_cons _ _).trans (List.suffix_cons _ _)).trans hbehind
      exact (hrest.trans hname).trans (List.suffix_cons _ _)
    · exact absurd h (by simp)
  · exact absurd h (by simp)

theorem readHyphens_suffix (flags : Flags) (k : OpenClass) (cs : List Char) :
    (readHyphens flags k cs).2 <:+ cs :=
  flags.span_suffix _ _

theorem openClass_suffix (flags : Flags) (cs : List Char) : (openClass flags cs).2 <:+ cs := by
  unfold openClass
  simp only
  have hhead : (if (flags.skip cs).head? == some '^' then (flags.skip cs).tail
      else flags.skip cs) <:+ cs := by
    split
    · exact (List.tail_suffix _).trans (flags.skip_suffix cs)
    · exact flags.skip_suffix cs
  have hhyphens := (readHyphens_suffix flags ⟨(flags.skip cs).head? == some '^', none, {}⟩ _).trans
    hhead
  split
  · rename_i hrest
    exact (List.suffix_cons _ _).trans (hrest ▸ hhyphens)
  · exact hhyphens

/-- A class ends in its closing bracket. -/
theorem stopsBehind_readClass {flags : Flags} {fuel : Nat} {outer : List OpenClass} {k : OpenClass}
    {cs rest : List Char} {s : ClassSet}
    (h : readClass flags fuel outer k cs = .ok (s, rest)) : StopsBehind (· = ']') cs rest := by
  -- What is read behind the next item of a class lies in the class itself.
  have hbehind {c : Char} {inside after cs : List Char} (hskip : flags.skip cs = c :: inside)
      (hafter : after <:+ inside) : after <:+ cs :=
    (hafter.trans (List.suffix_cons c inside)).trans (hskip ▸ flags.skip_suffix cs)
  fun_induction readClass flags fuel outer k cs with
  | case1 | case2 | case4 | case6 | case13 => exact absurd h (by simp)
  | case3 fuel outer k cs inside hskip negated set after hread s hset ih =>
    exact (ih h).of_suffix (hbehind hskip (readAsciiClass?_suffix hread))
  | case5 fuel outer k cs inside hskip hread inner after hopen ih =>
    have hafter := openClass_suffix flags inside
    rw [hopen] at hafter
    exact (ih h).of_suffix (hbehind hskip hafter)
  | case7 fuel k cs inside hskip =>
    obtain ⟨-, rfl⟩ := Prod.mk.inj (Except.ok.inj h)
    exact stopsBehind_of_suffix (hskip ▸ flags.skip_suffix cs) rfl
  | case8 fuel k cs inside hskip s next outer hclose ih =>
    exact (ih h).of_suffix (hbehind hskip List.suffix_rfl)
  | case9 fuel outer k cs inside hskip ih | case10 fuel outer k cs inside hskip ih
  | case11 fuel outer k cs inside hskip ih =>
    exact (ih h).of_suffix (hbehind hskip (List.suffix_cons _ _))
  | case12 fuel outer k cs set after _ _ _ _ _ _ hread ih =>
    exact (ih h).of_suffix ((readClassRange_suffix hread).trans (flags.skip_suffix cs))

end Regex

end FeatureFile
