/-
# FeatureFile.Proofs.Token.Classes — what the class of a token says about its text

White space is spaces and tabs and nothing else, and a keyword is one of its own spellings. So a
keyword begins with a character that neither indents nor breaks a line, and no blank line holds one.

`Fitting` is the condition on a class and a text. There is one lemma for each function that cuts,
since each of them decides the classes of its own pieces.

Main statement: `fitting_tokenize`.
-/

import FeatureFile.Proofs.Token.Tiling

namespace FeatureFile

open Text (isIndent isBreak)

/-! ## §A Texts that fit a class -/

/-- **`Fitting kind cs`** — a text that tokens of the kind may have: white space is spaces and tabs,
a keyword is one of its spellings, and nothing is asked of the other kinds. -/
def Fitting : TokenKind → List Char → Prop
  | .whitespace, cs => ∀ c ∈ cs, isIndent c = true
  | .keyword k, cs => ∃ word, (word, k) ∈ Keyword.spellings ∧ word.toList = cs
  | _, _ => True

/-- A spelling begins with a character that is not blank. -/
theorem head_of_mem_spellings {word : String} {k : Keyword} (h : (word, k) ∈ Keyword.spellings) :
    ∀ c ∈ word.toList.head?, isIndent c = false ∧ isBreak c = false := by
  have hall : ∀ entry ∈ Keyword.spellings,
      entry.1.toList.head?.all (fun c => !isIndent c && !isBreak c) = true := by decide
  intro c hc
  have hhead := hall _ h
  rw [Option.mem_def.mp hc] at hhead
  simpa using hhead

namespace Token

/-! ## §B The pieces of a line -/

/-- A run that begins with a space or a tab is made of these. -/
theorem isIndent_of_mem_run {run : List Char}
    (h : run.IsChain fun a b => (isIndent a == isIndent b) = true)
    (hhead : run.head?.any isIndent = true) : ∀ c ∈ run, isIndent c = true := by
  induction run with
  | nil => exact fun _ h => absurd h List.not_mem_nil
  | cons c rest ih =>
    have hc : isIndent c = true := hhead
    refine List.forall_mem_cons.mpr ⟨hc, ?_⟩
    cases rest with
    | nil => exact fun _ h => absurd h List.not_mem_nil
    | cons d rest =>
      obtain ⟨hcd, hrest⟩ := List.isChain_cons_cons.mp h
      exact ih hrest ((eq_of_beq hcd).symm.trans hc)

theorem fitting_wordLexemes (cs : List Char) : ∀ p ∈ wordLexemes cs, Fitting p.1 p.2 := by
  intro p hp
  obtain ⟨run, hrun, rfl⟩ := List.mem_map.mp hp
  dsimp only
  split
  · rename_i hhead
    exact isIndent_of_mem_run (List.isChain_of_mem_splitBy hrun) hhead
  · trivial

theorem fitting_tagRunLexemes {runs : List (List Char)}
    (h : ∀ run ∈ runs, run.IsChain fun a b => (isIndent a == isIndent b) = true) :
    ∀ p ∈ tagRunLexemes runs, Fitting p.1 p.2 := by
  induction runs with
  | nil => exact fun _ h => absurd h List.not_mem_nil
  | cons run rest ih =>
    obtain ⟨hrun, hrest⟩ := List.forall_mem_cons.mp h
    rw [tagRunLexemes]
    split
    · rename_i hhead
      exact List.forall_mem_cons.mpr ⟨isIndent_of_mem_run hrun hhead, ih hrest⟩
    · split
      · exact List.forall_mem_singleton.mpr trivial
      · exact List.forall_mem_cons.mpr ⟨trivial, ih hrest⟩

theorem fitting_tagLexemes (cs : List Char) : ∀ p ∈ tagLexemes cs, Fitting p.1 p.2 :=
  fitting_tagRunLexemes fun _ hrun => List.isChain_of_mem_splitBy hrun

/-- The run at the head of a text that begins with a space or a tab. -/
theorem fitting_indent {c : Char} (hc : isIndent c = true) (cs : List Char) :
    Fitting .whitespace (c :: cs.takeWhile isIndent) :=
  List.forall_mem_cons.mpr ⟨hc, fun _ hd => List.mem_takeWhile_imp hd⟩

theorem fitting_stepLexemes (cs : List Char) : ∀ p ∈ stepLexemes cs, Fitting p.1 p.2 := by
  fun_induction stepLexemes cs with
  | case1 => exact fun _ h => absurd h List.not_mem_nil
  | case2 c cs hc ih => exact List.forall_mem_cons.mpr ⟨fitting_indent hc cs, ih⟩
  | case3 c cs _ name after _ ih =>
    simp only [List.forall_mem_cons]
    exact ⟨trivial, trivial, trivial, ih⟩
  | case4 c cs _ _ r ih => exact List.forall_mem_cons.mpr ⟨trivial, ih⟩

theorem fitting_tableLexemes (cs : List Char) : ∀ p ∈ tableLexemes cs, Fitting p.1 p.2 := by
  fun_induction tableLexemes cs with
  | case1 => exact fun _ h => absurd h List.not_mem_nil
  | case2 c cs hc ih => exact List.forall_mem_cons.mpr ⟨fitting_indent hc cs, ih⟩
  | case3 c cs _ _ ih => exact List.forall_mem_cons.mpr ⟨trivial, ih⟩
  | case4 c cs _ _ ih => exact List.forall_mem_cons.mpr ⟨trivial, ih⟩

/-- The keyword that a line begins with is written in one of its spellings. -/
theorem mem_spellings_of_keywordAt? {cs spelling : List Char} {k : Keyword}
    (h : keywordAt? cs = some (k, spelling)) : Fitting (.keyword k) spelling := by
  obtain ⟨⟨word, keyword⟩, hmem, hentry⟩ := List.exists_of_findSome?_eq_some h
  simp only [Option.ite_none_right_eq_some, Option.some.injEq, Prod.mk.injEq] at hentry
  obtain ⟨-, -, rfl, rfl⟩ := hentry
  exact ⟨word, hmem, rfl⟩

theorem fitting_afterKeyword (k : Keyword) (cs : List Char) :
    ∀ p ∈ afterKeyword k cs, Fitting p.1 p.2 := by
  unfold afterKeyword
  split
  · exact fitting_stepLexemes cs
  · cases cs with
    | nil => exact fun _ h => absurd h List.not_mem_nil
    | cons c rest => exact List.forall_mem_cons.mpr ⟨trivial, fitting_wordLexemes rest⟩

theorem fitting_plainLexemes (cs : List Char) : ∀ p ∈ (plainLexemes cs).1, Fitting p.1 p.2 := by
  unfold plainLexemes
  split
  · exact List.forall_mem_singleton.mpr trivial
  · exact fitting_tagLexemes cs
  · exact fitting_tableLexemes cs
  · split
    · exact List.forall_mem_cons.mpr ⟨trivial, fitting_wordLexemes _⟩
    · split
      · rename_i k spelling hk
        exact List.forall_mem_cons.mpr
          ⟨mem_spellings_of_keywordAt? hk, fitting_afterKeyword k _⟩
      · exact fitting_wordLexemes cs

theorem fitting_bodyLexemes (doc : Option DocDelimiter) (body : List Char) :
    ∀ p ∈ (bodyLexemes doc body).1, Fitting p.1 p.2 := by
  unfold bodyLexemes
  split
  · exact fun _ h => absurd h List.not_mem_nil
  · cases doc with
    | none => exact fitting_plainLexemes body
    | some d =>
      simp only [docLexemes]
      split
      · exact List.forall_mem_cons.mpr ⟨trivial, fitting_wordLexemes _⟩
      · exact List.forall_mem_singleton.mpr trivial

theorem fitting_contentLexemes (doc : Option DocDelimiter) (cs : List Char) :
    ∀ p ∈ (contentLexemes doc cs).1, Fitting p.1 p.2 := by
  simp only [contentLexemes]
  split
  · exact fitting_bodyLexemes doc _
  · refine List.forall_mem_cons.mpr ⟨?_, fitting_bodyLexemes doc _⟩
    exact fun _ hc => List.mem_takeWhile_imp hc

/-! ## §C The tokens of a source -/

theorem fitting_lexemes (doc : Option DocDelimiter) (ls : List Line) :
    ∀ p ∈ lexemes doc ls, Fitting p.1 p.2 := by
  induction ls generalizing doc with
  | nil => exact fun _ h => absurd h List.not_mem_nil
  | cons l rest ih =>
    show ∀ p ∈ (lineLexemes doc l).1 ++ lexemes (lineLexemes doc l).2 rest, Fitting p.1 p.2
    refine List.forall_mem_append.mpr ⟨?_, ih _⟩
    simp only [lineLexemes]
    split
    · exact fitting_contentLexemes doc l.content
    · exact List.forall_mem_append.mpr
        ⟨fitting_contentLexemes doc l.content, List.forall_mem_singleton.mpr trivial⟩

theorem fitting_place (offset : Nat) {pieces : List Lexeme} (h : ∀ p ∈ pieces, Fitting p.1 p.2) :
    ∀ t ∈ place offset pieces, Fitting t.kind t.text.toList := by
  induction pieces generalizing offset with
  | nil => exact fun _ h => absurd h List.not_mem_nil
  | cons p rest ih =>
    obtain ⟨hp, hrest⟩ := List.forall_mem_cons.mp h
    refine List.forall_mem_cons.mpr ⟨?_, ih _ hrest⟩
    rwa [String.toList_ofList]

end Token

/-- **`fitting_tokenize`** — the text of every token fits its class. -/
theorem fitting_tokenize (source : String) :
    ∀ t ∈ tokenize source, Fitting t.kind t.text.toList :=
  Token.fitting_place 0 (Token.fitting_lexemes none _)

/-- A keyword begins with a character that neither indents nor breaks a line. -/
theorem Fitting.head_of_keyword {t : Token} (h : Fitting t.kind t.text.toList)
    (hkeyword : t.keyword? ≠ none) :
    ∀ c ∈ t.text.toList.head?, isIndent c = false ∧ isBreak c = false := by
  obtain ⟨kind, span, text⟩ := t
  cases kind with
  | keyword k =>
    obtain ⟨word, hmem, hword⟩ := h
    rw [← hword]
    exact head_of_mem_spellings hmem
  | _ => exact absurd rfl hkeyword

end FeatureFile
