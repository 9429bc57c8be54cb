/-
# FeatureFile.Proofs.Token.StepLine — the line of a keyword

A keyword stands at the start of a line, behind its indentation alone. What follows it up to the line
break is read as a title, or behind a step keyword as the text of a step, and behind the break the
source is read on outside every doc string. So a source with such a token is four texts
(`KeywordLine`, `StepLine`): what stands before the keyword, the keyword, the rest of its line, and
what stands behind the line.

Main statements: `keywordLine_of_token`, and its case of steps, `stepLine_of_token`.
-/

import FeatureFile.Proofs.Token.Join
import FeatureFile.Proofs.Token.Classes

namespace FeatureFile

open Text (isIndent isBreak byteLength)

/-! ## §A Keywords in a stream -/

namespace LineCut

/-- A keyword is found by the look-up of keywords alone, which decides how the line is cut. -/
theorem next_keyword {place : LinePlace} {doc : Option Token.DocDelimiter} {line : List Char}
    {k : Keyword} (h : (next place doc line).kind = .keyword k) :
    place = .lineStart ∧ doc = none ∧ indentLength line = 0 ∧
      ∃ word, Token.keywordAt? line = some (k, word) ∧
        Token.plainLexemes line =
          ((.keyword k, word) :: Token.afterKeyword k (line.drop word.length), none) := by
  have hfound := found_next place doc line
  generalize next place doc line = cut at h hfound
  cases hfound with
  | inside hinside => exact absurd h (hinside.kind_ne rfl)
  | indent => cases h
  | delimiter => cases h
  | keyword hplace hdoc hindent hkeyword hpieces =>
    obtain rfl := TokenKind.keyword.inj h
    exact ⟨hplace, hdoc, hindent, _, hkeyword, hpieces⟩

end LineCut

namespace TokenStream

/-- Behind some of its tokens a stream is one that has the others to give. -/
theorem exists_remaining {s : TokenStream} {a b : List Token}
    (h : Token.place s.offset s.remaining = a ++ b) :
    ∃ s' : TokenStream, Token.place s'.offset s'.remaining = b := by
  induction a generalizing s with
  | nil => exact ⟨s, h⟩
  | cons t a ih =>
    rcases s.next_spec with ⟨-, hrem⟩ | ⟨kind, cs, s', hgives⟩
    · rw [hrem] at h
      cases h
    · rw [hgives.remaining_eq, Token.place] at h
      have hrest := (List.cons.inj h).2
      rw [← hgives.offset_eq] at hrest
      exact ih hrest

/-- A stream gives a keyword at the start of a line alone, outside every doc string. -/
theorem remaining_of_keyword {s : TokenStream} {t : Token} {k : Keyword} (h : s.next.1 = some t)
    (hk : t.kind = .keyword k) :
    ∃ word, Token.keywordAt? s.line = some (k, word) ∧
      s.remaining =
        (.keyword k, word) :: (Token.afterKeyword k (s.line.drop word.length) ++
          Token.lexemes none (lines s.afterLine)) := by
  have hcut : s.cut.kind = .keyword k := (congrArg (·.1.kind) (emit_of_next h).2).trans hk
  unfold cut at hcut
  split at hcut
  · cases hcut
  · obtain ⟨hplace, hdoc, hindent, word, hkeyword, hpieces⟩ := LineCut.next_keyword hcut
    refine ⟨word, hkeyword, ?_⟩
    have hcontent : Token.contentLexemes none s.line = Token.plainLexemes s.line := by
      cases hline : s.line with
      | nil =>
        obtain ⟨hne, hpre, -⟩ := Token.spec_of_keywordAt? hkeyword
        rw [hline] at hpre
        exact absurd (List.prefix_nil.mp hpre) hne
      | cons c cs =>
        rw [LineCut.indentLength, hline, List.takeWhile_cons] at hindent
        refine Token.contentLexemes_body ?_ none cs
        cases hc : isIndent c with
        | false => rfl
        | true => simp [hc] at hindent
    rw [remaining, hplace, hdoc]
    simp only [LinePlace.lexemes, hcontent, hpieces, List.cons_append]

end TokenStream

/-! ## §B The four texts -/

/-- **`KeywordLine source a t b k rest after`** — the token of a keyword among the tokens of a source,
with the rest of its line and what stands behind the line. -/
structure KeywordLine (source : String) (a : List Token) (t : Token) (b : List Token) (k : Keyword)
    (rest after : List Char) : Prop where
  source_eq : source.toList = textOfTokens a ++ (t.text.toList ++ (rest ++ after))
  line : ∀ c ∈ t.text.toList ++ rest, isBreak c = false
  after_break : ∀ c ∈ after.head?, isBreak c = true
  keyword_eq : Token.keywordAt? (t.text.toList ++ rest) = some (k, t.text.toList)
  behind_eq : b =
    Token.place t.span.stop (Token.afterKeyword k rest ++ Token.lexemes none (lines after))

/-- **The line of a keyword.** -/
theorem keywordLine_of_token {source : String} {a b : List Token} {t : Token} {k : Keyword}
    (h : tokenize source = a ++ t :: b) (hk : t.kind = .keyword k) :
    ∃ rest after, KeywordLine source a t b k rest after := by
  have hsource : Token.place (TokenStream.ofSource source).offset
      (TokenStream.ofSource source).remaining = a ++ t :: b := by
    rw [← h, TokenStream.ofSource, TokenStream.remaining_lineStart]
    rfl
  obtain ⟨s, hs⟩ := TokenStream.exists_remaining hsource
  have hnext : s.next.1 = some t := by
    have houtput := s.output_eq 0
    rwa [hs] at houtput
  obtain ⟨word, hkeyword, hremaining⟩ := TokenStream.remaining_of_keyword hnext hk
  obtain ⟨-, hpre, -⟩ := Token.spec_of_keywordAt? hkeyword
  rw [hremaining, Token.place] at hs
  obtain ⟨rfl, rfl⟩ := List.cons.inj hs
  have hline : word ++ s.line.drop word.length = s.line := List.prefix_iff_eq_append.mp hpre
  refine ⟨s.line.drop word.length, s.afterLine, ?_, ?_, s.isBreak_head_afterLine, ?_, rfl⟩
  · have htext := textOfTokens_tokenize source
    rw [h, textOfTokens, List.flatMap_append, List.flatMap_cons] at htext
    rw [← htext]
    congr 2
    have hcuts := (Token.cuts_afterKeyword k (s.line.drop word.length)).append
      (Token.cuts_lexemes none (lines s.afterLine))
    rw [flatMap_chars_lines] at hcuts
    exact (textOfTokens_place _ _).trans hcuts.join
  · rw [String.toList_ofList, hline]
    exact s.isBreak_of_mem_line
  · rw [String.toList_ofList, hline]
    exact hkeyword

/-- **`StepLine source a t b k rest after`** — the token of a step keyword among the tokens of a
source, with the rest of its line and what stands behind the line. -/
structure StepLine (source : String) (a : List Token) (t : Token) (b : List Token)
    (k : StepKeyword) (rest after : List Char) : Prop where
  source_eq : source.toList = textOfTokens a ++ (t.text.toList ++ (rest ++ after))
  rest_line : ∀ c ∈ rest, isBreak c = false
  after_break : ∀ c ∈ after.head?, isBreak c = true
  keyword_eq : Token.keywordAt? (t.text.toList ++ rest) = some (.step k, t.text.toList)
  behind_eq : b =
    Token.place t.span.stop (Token.stepLexemes rest ++ Token.lexemes none (lines after))

/-- **The line of a step keyword.** -/
theorem stepLine_of_token {source : String} {a b : List Token} {t : Token} {k : StepKeyword}
    (h : tokenize source = a ++ t :: b) (hk : t.kind = .keyword (.step k)) :
    ∃ rest after, StepLine source a t b k rest after := by
  obtain ⟨rest, after, hline⟩ := keywordLine_of_token h hk
  exact ⟨rest, after, hline.source_eq, fun c hc => hline.line c (List.mem_append_right _ hc),
    hline.after_break, hline.keyword_eq, hline.behind_eq⟩

end FeatureFile
