/-
# FeatureFile.Proofs.Pattern.Grammar — what is read as a placeholder

The reader of placeholders walks over a name, over blanks, and then either up to the first closing
brace, if there is a hint, or to the brace that closes the one in front of the name. What it accepts is
said here without a walk (`Ends`): a hint is a text without white space and braces between a colon and
a closing brace, and anything else is a text in which braces balance. The two ways exclude one another,
as the second may not begin with a colon, not even behind blanks.

A reader counts open braces, so the second way goes through `Brackets`. Main statement:
`read_acceptsGrammar`.
-/

import FeatureFile.Pattern.Placeholder
import FeatureFile.Proofs.Text.Brackets
import FeatureFile.Text.Bytes
import Mathlib.Data.List.TakeWhile

namespace FeatureFile

/-- The two braces. -/
def braces : Brackets Char where
  opens c := c == '{'
  closes c := c == '}'
  not_both c h := by
    rw [eq_of_beq h]
    rfl

namespace Placeholder

/-! ## §A Up to the brace that closes -/

/-- A character that leaves a counter going stands within the text that is closed. -/
theorem exists_inside_cons_iff {depth d : Nat} {c : Char} {cs rest : List Char}
    (h : braces.behind depth c = some d) :
    (∃ inside, c :: cs = inside ++ '}' :: rest ∧ braces.Balances depth inside) ↔
      ∃ inside, cs = inside ++ '}' :: rest ∧ braces.Balances d inside := by
  constructor
  · rintro ⟨inside, heq, hbalances⟩
    cases inside with
    | nil =>
      obtain ⟨rfl, -⟩ := List.cons.inj heq
      obtain rfl := Brackets.balances_nil_iff.mp hbalances
      cases h
    | cons x inside =>
      obtain ⟨rfl, rfl⟩ := List.cons.inj heq
      exact ⟨inside, rfl, (Brackets.balances_cons_iff h).mp hbalances⟩
  · rintro ⟨inside, rfl, hbalances⟩
    exact ⟨c :: inside, rfl, (Brackets.balances_cons_iff h).mpr hbalances⟩

/-- **The brace that closes** stands behind a text in which braces balance. -/
theorem afterClosing_eq_some_iff {depth : Nat} {cs rest : List Char} :
    afterClosing depth cs = some rest ↔
      ∃ inside, cs = inside ++ '}' :: rest ∧ braces.Balances depth inside := by
  fun_induction afterClosing depth cs with
  | case1 => simp
  | case2 depth cs ih => exact ih.trans (exists_inside_cons_iff rfl).symm
  | case3 cs =>
    constructor
    · intro h
      exact ⟨[], congrArg ('}' :: ·) (Option.some.inj h), Brackets.balances_nil_iff.mpr rfl⟩
    · rintro ⟨inside, heq, hbalances⟩
      cases inside with
      | nil => exact congrArg some (List.cons.inj heq).2
      | cons x inside =>
        -- A text that balances does not begin with a closing brace.
        obtain ⟨rfl, -⟩ := List.cons.inj heq
        exact absurd hbalances.covers (Brackets.not_covers_of_behind rfl)
  | case4 depth cs ih => exact ih.trans (exists_inside_cons_iff rfl).symm
  | case5 depth c cs hopen hclose hclose' ih =>
    have hbehind : braces.behind depth c = some depth := by
      have hne : c ≠ '}' := by
        rintro rfl
        cases depth with
        | zero => exact hclose rfl rfl
        | succ depth => exact hclose' depth rfl rfl
      have hopens : (c == '{') = false := beq_eq_false_iff_ne.mpr hopen
      have hcloses : (c == '}') = false := beq_eq_false_iff_ne.mpr hne
      simp [Brackets.behind, braces, hopens, hcloses]
    exact ih.trans (exists_inside_cons_iff hbehind).symm

/-! ## §B Hints -/

/-- **`IsHint h`** — a text that may be a hint. -/
structure IsHint (h : List Char) : Prop where
  ne_nil : h ≠ []
  isBlank_eq : ∀ c ∈ h, Text.isBlank c = false
  no_brace : ∀ c ∈ h, c ≠ '{' ∧ c ≠ '}'

theorem isHint_iff {h : List Char} :
    IsHint h ↔ (h.isEmpty || !h.all isHintChar) = false := by
  have hchar {c : Char} : isHintChar c = true ↔ Text.isBlank c = false ∧ c ≠ '{' ∧ c ≠ '}' := by
    simp [isHintChar, and_assoc]
  rw [Bool.or_eq_false_iff, Bool.not_eq_false', List.all_eq_true]
  constructor
  · rintro ⟨hne, hblank, hbrace⟩
    exact ⟨List.isEmpty_eq_false_iff.mpr hne, fun c hc => hchar.mpr ⟨hblank c hc, hbrace c hc⟩⟩
  · rintro ⟨hne, hall⟩
    exact ⟨List.isEmpty_eq_false_iff.mp hne, fun c hc => (hchar.mp (hall c hc)).1,
      fun c hc => (hchar.mp (hall c hc)).2⟩

/-- The text up to the first closing brace and what stands behind it. -/
theorem span_closing_iff {cs h rest : List Char} :
    cs.takeWhile (· != '}') = h ∧ cs.dropWhile (· != '}') = '}' :: rest ↔
      cs = h ++ '}' :: rest ∧ ∀ c ∈ h, c ≠ '}' := by
  constructor
  · rintro ⟨rfl, hdrop⟩
    refine ⟨by rw [← hdrop, List.takeWhile_append_dropWhile], fun c hc => ?_⟩
    have hne := List.mem_takeWhile_imp hc
    exact bne_iff_ne.mp hne
  · rintro ⟨rfl, hne⟩
    have hall : ∀ c ∈ h, (c != '}') = true := fun c hc => bne_iff_ne.mpr (hne c hc)
    rw [List.takeWhile_append_of_pos hall, List.dropWhile_append_of_pos hall]
    simp

theorem readHint_eq_ok_iff {start : Nat} {name hint : String} {cs rest : List Char} :
    readHint start name cs = .ok (hint, rest) ↔
      ∃ h, IsHint h ∧ cs = h ++ '}' :: rest ∧ hint = String.ofList h := by
  constructor
  · intro hread
    unfold readHint at hread
    simp only at hread
    split at hread
    · cases hread
    rename_i hplain
    split at hread
    · cases hread
    rename_i c behind hdrop
    obtain ⟨rfl, rfl⟩ := Prod.mk.inj (Except.ok.inj hread)
    have hstop := List.head?_dropWhile_not (· != '}') cs
    rw [hdrop] at hstop
    obtain rfl : c = '}' := by simpa using hstop
    exact ⟨_, isHint_iff.mpr (Bool.eq_false_iff.mpr hplain), (span_closing_iff.mp ⟨rfl, hdrop⟩).1,
      rfl⟩
  · rintro ⟨h, hhint, hcs, rfl⟩
    obtain ⟨htake, hdrop⟩ := span_closing_iff.mpr ⟨hcs, fun c hc => (hhint.no_brace c hc).2⟩
    have hplain := isHint_iff.mp hhint
    simp only [readHint, htake, hdrop, hplain, Bool.false_eq_true, if_false]

theorem readHint_error {start : Nat} {name : String} {cs : List Char} {e : PatternError}
    (h : readHint start name cs = .error e) :
    ∃ problem, e = .placeholder problem start (some name) := by
  unfold readHint at h
  simp only at h
  split at h
  · exact ⟨_, (Except.error.inj h).symm⟩
  · split at h
    · exact ⟨_, (Except.error.inj h).symm⟩
    · cases h

/-! ## §C Behind a name -/

/-- **`Ends r hint rest`** — what may follow the name of a placeholder, with the hint that it gives
and what is left behind the closing brace. -/
inductive Ends : List Char → Option String → List Char → Prop
  /-- A hint between a colon and the first closing brace. -/
  | hint {h rest : List Char} (hint : IsHint h) :
      Ends (':' :: (h ++ '}' :: rest)) (some (String.ofList h)) rest
  /-- No colon, and behind blanks no closing brace either: a text in which braces balance. -/
  | balanced {r inside rest : List Char} (colon : r.head? ≠ some ':')
      (clear : ∀ c ∈ r.head?, isAsciiBlank c = true →
        ∀ d ∈ (r.dropWhile isAsciiBlank).head?, d ≠ ':' ∧ d ≠ '}')
      (body : r.dropWhile isAsciiBlank = inside ++ '}' :: rest)
      (balances : braces.Balances 0 inside) : Ends r none rest

/-- Whether blanks stand where none may stand. -/
def misplacesBlank (r : List Char) : Bool :=
  r.head?.any isAsciiBlank && (r.dropWhile isAsciiBlank).head?.any fun c => c == ':' || c == '}'

theorem misplacesBlank_eq_false_iff {r : List Char} :
    misplacesBlank r = false ↔ ∀ c ∈ r.head?, isAsciiBlank c = true →
      ∀ d ∈ (r.dropWhile isAsciiBlank).head?, d ≠ ':' ∧ d ≠ '}' := by
  unfold misplacesBlank
  cases r.head? with
  | none => simp
  | some c =>
    cases (r.dropWhile isAsciiBlank).head? with
    | none => simp
    | some d => cases hc : isAsciiBlank c <;> simp [hc]

/-- A colon that blanks may not precede stands at the very beginning. -/
theorem eq_of_colon {r rest : List Char} (hclear : misplacesBlank r = false)
    (h : r.dropWhile isAsciiBlank = ':' :: rest) : r = ':' :: rest := by
  cases r with
  | nil => cases h
  | cons c r =>
    cases hc : isAsciiBlank c with
    | false => rwa [List.dropWhile_cons_of_neg (by simp [hc])] at h
    | true =>
      have hcolon := misplacesBlank_eq_false_iff.mp hclear c rfl hc ':' (by rw [h]; rfl)
      exact absurd rfl hcolon.1

theorem read_eq (start : Nat) (cs : List Char) :
    read start cs =
      if misplacesBlank (cs.dropWhile isNameChar) then
        .error (.placeholder .invalid start (some (String.ofList (cs.takeWhile isNameChar))))
      else
        match (cs.dropWhile isNameChar).dropWhile isAsciiBlank with
        | ':' :: rest =>
          (readHint start (String.ofList (cs.takeWhile isNameChar)) rest).map fun (hint, rest) =>
            (⟨start, String.ofList (cs.takeWhile isNameChar), some hint⟩, rest)
        | body =>
          match afterClosing 0 body with
          | some rest => .ok (⟨start, String.ofList (cs.takeWhile isNameChar), none⟩, rest)
          | none =>
            .error (.placeholder .unclosed start
              (some (String.ofList (cs.takeWhile isNameChar)))) := rfl

theorem Ends.clear {r rest : List Char} {hint : Option String} (h : Ends r hint rest) :
    misplacesBlank r = false := by
  cases h with
  | hint => rfl
  | balanced _ clear => exact misplacesBlank_eq_false_iff.mpr clear

/-- Behind a colon only a hint may follow. -/
theorem ends_colon_iff {cs rest : List Char} {hint : Option String} :
    Ends (':' :: cs) hint rest ↔
      ∃ h, IsHint h ∧ cs = h ++ '}' :: rest ∧ hint = some (String.ofList h) := by
  constructor
  · intro h
    cases h with
    | hint hhint => exact ⟨_, hhint, rfl, rfl⟩
    | balanced colon => exact absurd rfl colon
  · rintro ⟨h, hhint, rfl, rfl⟩
    exact .hint hhint

/-- Without a colon the brace that closes is looked for. -/
theorem ends_iff_of_ne_colon {r rest : List Char} {hint : Option String}
    (hcolon : r.head? ≠ some ':') (hclear : misplacesBlank r = false) :
    Ends r hint rest ↔ hint = none ∧ afterClosing 0 (r.dropWhile isAsciiBlank) = some rest := by
  rw [afterClosing_eq_some_iff]
  constructor
  · intro h
    cases h with
    | hint => exact absurd rfl hcolon
    | balanced _ _ body balances => exact ⟨rfl, _, body, balances⟩
  · rintro ⟨rfl, inside, hbody, hbalances⟩
    exact .balanced hcolon (misplacesBlank_eq_false_iff.mp hclear) hbody hbalances

theorem head?_ne_colon {r : List Char}
    (h : ∀ rest, r.dropWhile isAsciiBlank = ':' :: rest → False) : r.head? ≠ some ':' := by
  intro hhead
  obtain ⟨rest, rfl⟩ := List.head?_eq_some_iff.mp hhead
  exact h rest rfl

/-- **What is accepted.** -/
theorem read_eq_ok_iff {start : Nat} {cs rest : List Char} {p : Placeholder} :
    read start cs = .ok (p, rest) ↔
      p.start = start ∧ p.name = String.ofList (cs.takeWhile isNameChar) ∧
        Ends (cs.dropWhile isNameChar) p.hint rest := by
  obtain ⟨start', name', hint'⟩ := p
  rw [read_eq]
  generalize String.ofList (cs.takeWhile isNameChar) = name
  generalize cs.dropWhile isNameChar = r
  split
  · rename_i hclear
    refine iff_of_false (by simp) ?_
    rintro ⟨-, -, hends⟩
    rw [hends.clear] at hclear
    cases hclear
  rename_i hclear
  have hclear : misplacesBlank r = false := Bool.eq_false_iff.mpr hclear
  split
  · rename_i behind hbody
    obtain rfl := eq_of_colon hclear hbody
    rw [ends_colon_iff]
    constructor
    · intro h
      cases hhint : readHint start name behind with
      | error e => rw [hhint] at h; cases h
      | ok found =>
        rw [hhint] at h
        cases h
        obtain ⟨h, hh, hbehind, hfound⟩ := readHint_eq_ok_iff.mp hhint
        exact ⟨rfl, rfl, h, hh, hbehind, congrArg some hfound⟩
    · rintro ⟨rfl, rfl, h, hh, hbehind, rfl⟩
      rw [readHint_eq_ok_iff.mpr ⟨h, hh, hbehind, rfl⟩]
      rfl
  · rename_i hbody
    rw [ends_iff_of_ne_colon (head?_ne_colon hbody) hclear]
    split
    · rename_i behind hafter
      rw [hafter]
      constructor
      · intro h
        cases h
        exact ⟨rfl, rfl, rfl, rfl⟩
      · rintro ⟨rfl, rfl, rfl, hrest⟩
        rw [Option.some.inj hrest]
    · rename_i hafter
      rw [hafter]
      exact iff_of_false (by simp) (by simp)

/-- **What is refused** is reported at the brace, with the name. -/
theorem read_error {start : Nat} {cs : List Char} {e : PatternError}
    (h : read start cs = .error e) :
    ∃ problem, e = .placeholder problem start (some (String.ofList (cs.takeWhile isNameChar))) := by
  rw [read_eq] at h
  split at h
  · exact ⟨_, (Except.error.inj h).symm⟩
  split at h
  · cases hhint : readHint start (String.ofList (cs.takeWhile isNameChar)) _ with
    | error e' =>
      rw [hhint] at h
      obtain rfl := Except.error.inj h
      exact readHint_error hhint
    | ok found => rw [hhint] at h; cases h
  · split at h
    · cases h
    · exact ⟨_, (Except.error.inj h).symm⟩

/-! ## §D Placeholders of a pattern -/

/-- A placeholder ends with a closing brace. -/
theorem Ends.exists_closing {r rest : List Char} {hint : Option String} (h : Ends r hint rest) :
    ∃ inside, r = inside ++ '}' :: rest := by
  cases h with
  | @hint h _ _ => exact ⟨':' :: h, rfl⟩
  | @balanced _ inside _ _ _ body _ =>
    refine ⟨r.takeWhile isAsciiBlank ++ inside, ?_⟩
    rw [List.append_assoc, ← body, List.takeWhile_append_dropWhile]

/-- **`ReadsGrammar pattern start cs`** — how a placeholder is read whose brace stands at an offset of a
pattern, with a text behind it. The name is the longest run of characters of names. -/
structure ReadsGrammar (pattern : List Char) (start : Nat) (cs : List Char) : Prop where
  /-- A placeholder is found if and only if the text behind the name follows the grammar. -/
  accepts_iff : (∃ found, read start cs = .ok found) ↔
    ∃ hint rest, Ends (cs.dropWhile isNameChar) hint rest
  /-- What is found is the offset, the name, the hint and the rest that the grammar says. -/
  found_iff : ∀ p rest, read start cs = .ok (p, rest) ↔
    p.start = start ∧ p.name = String.ofList (cs.takeWhile isNameChar) ∧
      Ends (cs.dropWhile isNameChar) p.hint rest
  /-- Its end is the offset just behind its closing brace: a character boundary of the pattern, behind
  which the rest stands. -/
  stop : ∀ p rest, read start cs = .ok (p, rest) →
    ∃ stop front, Text.splitAt? stop pattern = some (front ++ ['}'], rest) ∧ start + 1 < stop
  /-- Every refusal names the offset and the name. -/
  refusal : ∀ e, read start cs = .error e →
    ∃ problem, e = .placeholder problem start (some (String.ofList (cs.takeWhile isNameChar)))

/-- **`read_acceptsGrammar`** — at every opening brace of a pattern exactly the placeholders of the
grammar are read. -/
theorem read_acceptsGrammar {pattern before cs : List Char} {start : Nat}
    (h : Text.splitAt? start pattern = some (before, '{' :: cs)) :
    ReadsGrammar pattern start cs := by
  obtain ⟨rfl, rfl⟩ := Text.splitAt?_append h
  constructor
  case accepts_iff =>
    constructor
    · rintro ⟨⟨p, rest⟩, hread⟩
      exact ⟨_, _, (read_eq_ok_iff.mp hread).2.2⟩
    · rintro ⟨hint, rest, hends⟩
      exact ⟨(⟨_, _, hint⟩, rest), read_eq_ok_iff.mpr ⟨rfl, rfl, hends⟩⟩
  case found_iff => exact fun p rest => read_eq_ok_iff
  case stop =>
    intro p rest hread
    obtain ⟨inside, hinside⟩ := (read_eq_ok_iff.mp hread).2.2.exists_closing
    obtain ⟨name, hname⟩ : ∃ name, cs = name ++ (inside ++ '}' :: rest) :=
      ⟨cs.takeWhile isNameChar, by rw [← hinside, List.takeWhile_append_dropWhile]⟩
    have hpattern : before ++ '{' :: cs = (before ++ '{' :: (name ++ inside) ++ ['}']) ++ rest := by
      rw [hname]
      simp
    refine ⟨Text.byteLength (before ++ '{' :: (name ++ inside) ++ ['}']),
      before ++ '{' :: (name ++ inside), ?_, ?_⟩
    · rw [hpattern]
      exact Text.splitAt?_byteLength _ rest
    · have hopen : '{'.utf8Size = 1 := rfl
      have hclose : '}'.utf8Size = 1 := rfl
      simp only [Text.byteLength_append, Text.byteLength, hopen, hclose]
      omega
  case refusal => exact fun e => read_error

/-- A hint that is read up to the first brace, behind a letter of two bytes. -/
theorem read_acceptsGrammar_hint :
    Text.splitAt? 2 "é\x7bn:u8\x7d\x7d".toList = some (['é'], "\x7bn:u8\x7d\x7d".toList) ∧
      ReadsGrammar "é\x7bn:u8\x7d\x7d".toList 2 "n:u8\x7d\x7d".toList := by
  have hbrace : Text.splitAt? 2 "é\x7bn:u8\x7d\x7d".toList =
      some (['é'], "\x7bn:u8\x7d\x7d".toList) := by decide
  exact ⟨hbrace, read_acceptsGrammar hbrace⟩

end Placeholder

end FeatureFile
