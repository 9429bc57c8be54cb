/-
# FeatureFile.Proofs.Token.Headed — which token is a keyword

Whether a word is a keyword can be told from the text: it is the first text of its line, the line does
not start inside a doc string, and what stands behind the word ends the keyword (`Heads`). No tokens
are needed for that, and no order of the spellings either, since no line begins with two keywords of
the table (`eq_of_matches`).

Main statements: `keywordIn?_of_perm` and `keyword_iff_heads`.
-/

import FeatureFile.Proofs.Indent.LastKeyword
import FeatureFile.Proofs.Token.Locality
import FeatureFile.Proofs.Token.TableRow

namespace FeatureFile

open Text (isIndent isBreak)

/-! ## §A The table of keywords -/

namespace Keyword

/-- **`k.Ends rest`** — what stands behind a spelling ends the keyword: a colon behind that of a block,
and a space, a tab or the end of the line behind that of a step. -/
def Ends (k : Keyword) (rest : List Char) : Prop :=
  if k.isStep then ∀ c ∈ rest.head?, isIndent c = true else rest.head? = some ':'

/-- **`Matches entry line`** — a line begins with an entry of a table of keywords. -/
def Matches (entry : String × Keyword) (line : List Char) : Prop :=
  ∃ rest, line = entry.1.toList ++ rest ∧ entry.2.Ends rest

/-- Whether a text behind a spelling ends the keyword. -/
def endsBefore (k : Keyword) (rest : List Char) : Bool :=
  if k.isStep then rest.head?.all isIndent else rest.head? == some ':'

theorem endsBefore_iff {k : Keyword} {rest : List Char} : k.endsBefore rest = true ↔ k.Ends rest := by
  unfold endsBefore Ends
  split
  · exact Option.all_eq_true _ _
  · exact beq_iff_eq

theorem endsBefore_append {k : Keyword} {a : List Char} (ha : a ≠ []) (b : List Char) :
    k.endsBefore (a ++ b) = k.endsBefore a := by
  rw [endsBefore, endsBefore, List.head?_append_of_ne_nil _ ha]

/-- No spelling continues another one with what would end it. -/
theorem spellings_apart : ∀ entry ∈ spellings, ∀ entry' ∈ spellings,
    entry.1.toList <+: entry'.1.toList → entry = entry' ∨
      entry.1.toList.length < entry'.1.toList.length ∧
        entry.2.endsBefore (entry'.1.toList.drop entry.1.toList.length) = false := by
  decide +kernel

theorem eq_of_beginning {entry entry' : String × Keyword} {line : List Char}
    (hmem : entry ∈ spellings) (hmem' : entry' ∈ spellings) (h : Matches entry line)
    (h' : Matches entry' line) (hbeginning : entry.1.toList <+: entry'.1.toList) : entry = entry' := by
  obtain ⟨rest, rfl, hends⟩ := h
  obtain ⟨rest', heq, -⟩ := h'
  refine (spellings_apart entry hmem entry' hmem' hbeginning).resolve_right fun ⟨hlt, hfalse⟩ => ?_
  obtain ⟨more, hmore⟩ := hbeginning
  have hne : more ≠ [] := by
    rintro rfl
    rw [← hmore, List.append_nil] at hlt
    exact Nat.lt_irrefl _ hlt
  rw [← hmore, List.drop_left] at hfalse
  rw [← hmore, List.append_assoc] at heq
  rw [← endsBefore_iff, List.append_cancel_left heq, endsBefore_append hne, hfalse] at hends
  cases hends

/-- **`eq_of_matches`** — no line begins with two entries of the table. -/
theorem eq_of_matches {entry entry' : String × Keyword} {line : List Char}
    (hmem : entry ∈ spellings) (hmem' : entry' ∈ spellings) (h : Matches entry line)
    (h' : Matches entry' line) : entry = entry' := by
  have hpre : entry.1.toList <+: line := h.imp fun _ h => h.1.symm
  have hpre' : entry'.1.toList <+: line := h'.imp fun _ h => h.1.symm
  rcases List.prefix_or_prefix_of_prefix hpre hpre' with hbeginning | hbeginning
  · exact eq_of_beginning hmem hmem' h h' hbeginning
  · exact (eq_of_beginning hmem' hmem h' h hbeginning).symm

end Keyword

namespace Token

open Keyword (Matches)

/-- The keyword and the spelling of an entry, if a line begins with it. -/
def entryAt? (line : List Char) (entry : String × Keyword) : Option (Keyword × List Char) :=
  if entry.1.toList.isPrefixOf line then
    if entry.2.endsBefore (line.drop entry.1.length) then some (entry.2, entry.1.toList) else none
  else none

/-- The first entry of a table that a line begins with. -/
def keywordIn? (table : List (String × Keyword)) (line : List Char) : Option (Keyword × List Char) :=
  table.findSome? (entryAt? line)

theorem keywordAt?_eq (line : List Char) : keywordAt? line = keywordIn? Keyword.spellings line := rfl

theorem entryAt?_eq_some_iff {entry : String × Keyword} {line word : List Char} {k : Keyword} :
    entryAt? line entry = some (k, word) ↔
      Matches entry line ∧ entry.2 = k ∧ entry.1.toList = word := by
  have hmatches : Matches entry line ↔
      entry.1.toList.isPrefixOf line = true ∧
        entry.2.endsBefore (line.drop entry.1.length) = true := by
    rw [List.isPrefixOf_iff_prefix, ← String.length_toList]
    constructor
    · rintro ⟨rest, rfl, hends⟩
      rw [List.drop_left]
      exact ⟨⟨rest, rfl⟩, Keyword.endsBefore_iff.mpr hends⟩
    · rintro ⟨⟨rest, rfl⟩, hends⟩
      rw [List.drop_left] at hends
      exact ⟨rest, rfl, Keyword.endsBefore_iff.mp hends⟩
  rw [hmatches]
  simp [entryAt?, and_assoc]

/-- **`keywordIn?_eq_some_iff`** — in a table that holds each spelling once, in any order, the look-up
finds what the line begins with. -/
theorem keywordIn?_eq_some_iff {table : List (String × Keyword)} (h : table.Perm Keyword.spellings)
    {line word : List Char} {k : Keyword} :
    keywordIn? table line = some (k, word) ↔
      ∃ spelling, (spelling, k) ∈ Keyword.spellings ∧ spelling.toList = word ∧
        Matches (spelling, k) line := by
  constructor
  · intro hfound
    obtain ⟨entry, hmem, hentry⟩ := List.exists_of_findSome?_eq_some hfound
    obtain ⟨hmatches, rfl, rfl⟩ := entryAt?_eq_some_iff.mp hentry
    exact ⟨entry.1, h.mem_iff.mp hmem, rfl, hmatches⟩
  · rintro ⟨spelling, hmem, rfl, hmatches⟩
    have hentry : entryAt? line (spelling, k) = some (k, spelling.toList) :=
      entryAt?_eq_some_iff.mpr ⟨hmatches, rfl, rfl⟩
    obtain ⟨⟨k', word'⟩, hfound⟩ : ∃ found, keywordIn? table line = some found :=
      Option.isSome_iff_exists.mp <| List.findSome?_isSome_iff.mpr
        ⟨_, h.mem_iff.mpr hmem, by rw [hentry]; rfl⟩
    -- Whatever is found first is the same entry.
    obtain ⟨entry, hmem', hentry'⟩ := List.exists_of_findSome?_eq_some hfound
    obtain ⟨hmatches', rfl, rfl⟩ := entryAt?_eq_some_iff.mp hentry'
    obtain rfl := Keyword.eq_of_matches (h.mem_iff.mp hmem') hmem hmatches' hmatches
    exact hfound

/-- **`keywordIn?_of_perm`** — the order of the table does not count. -/
theorem keywordIn?_of_perm {table : List (String × Keyword)} (h : table.Perm Keyword.spellings) :
    keywordIn? table = keywordAt? := by
  funext line
  rw [keywordAt?_eq]
  refine Option.ext fun found => ?_
  obtain ⟨k, word⟩ := found
  rw [keywordIn?_eq_some_iff h, keywordIn?_eq_some_iff (List.Perm.refl _)]

end Token

/-! ## §B Lines in a text -/

/-- **`LineAt cs before content after`** — the contents of a line stand in a text behind whole lines. -/
structure LineAt (cs before content after : List Char) : Prop where
  eq : cs = before ++ (content ++ after)
  ends : EndsInBreak before
  line : ∀ c ∈ content, isBreak c = false
  after_break : BeginsInBreak after

theorem LineAt.cons {c : Char} {cs before content after : List Char}
    (h : LineAt cs before content after) (hc : before = [] → isBreak c = true) :
    LineAt (c :: cs) (c :: before) content after := by
  refine ⟨congrArg (c :: ·) h.eq, fun d hd => ?_, h.line, h.after_break⟩
  cases before with
  | nil => exact Option.some.inj hd ▸ hc rfl
  | cons e before =>
    rw [List.getLast?_cons_cons] at hd
    exact h.ends d hd

/-- **`exists_lineAt`** — the lines of a text stand in it one behind the other. -/
theorem exists_lineAt {cs : List Char} {front back : List Line} {l : Line}
    (h : lines cs = front ++ l :: back) :
    ∃ before after, LineAt cs before l.content after ∧ lines before = front := by
  have hfirst {cs ending : List Char} (hbreak : BeginsInBreak cs) {l : Line} {back' : List Line}
      (h : (⟨[], ending⟩ : Line) :: back' = l :: back) :
      ∃ before after, LineAt cs before l.content after ∧ lines before = [] := by
    obtain ⟨rfl, -⟩ := List.cons.inj h
    exact ⟨[], cs, ⟨rfl, by simp [EndsInBreak], by simp, hbreak⟩, rfl⟩
  fun_induction lines cs generalizing front l with
  | case1 => simp at h
  | case2 rest ih =>
    cases front with
    | nil => exact hfirst (by simp [BeginsInBreak, isBreak]) h
    | cons x front =>
      obtain ⟨rfl, hrest⟩ := List.cons.inj h
      obtain ⟨before, after, hline, rfl⟩ := ih hrest
      refine ⟨'\r' :: '\n' :: before, after, ?_, rfl⟩
      exact (hline.cons fun _ => rfl).cons fun hnil => by cases hnil
  | case3 c rest hcrlf hc ih =>
    cases front with
    | nil => exact hfirst (by simpa [BeginsInBreak] using hc) h
    | cons x front =>
      obtain ⟨rfl, hrest⟩ := List.cons.inj h
      obtain ⟨before, after, hline, rfl⟩ := ih hrest
      refine ⟨c :: before, after, hline.cons fun _ => hc, ?_⟩
      -- The break is not the first half of one.
      have hlength : breakLength (c :: (before ++ [])) = 1 := by
        refine breakLength_eq_one (fun tail hcr hnewline => ?_) (by simp)
        exact hcrlf (tail ++ (l.content ++ after)) hcr (by rw [hline.eq, hnewline]; rfl)
      rw [List.append_nil] at hlength
      rw [lines_cons_of_isBreak hc, hlength]
      rfl
  | case4 c rest hcrlf hbreak ih =>
    have hc : isBreak c = false := Bool.eq_false_iff.mpr hbreak
    cases hlines : lines rest with
    | nil =>
      rw [hlines] at h
      have hrest : rest = [] := by
        by_contra hne
        exact lines_ne_nil hne hlines
      cases front with
      | cons x front => simp [Line.push] at h
      | nil =>
        obtain ⟨rfl, -⟩ := List.cons.inj h
        refine ⟨[], [], ⟨by simp [hrest], by simp [EndsInBreak], ?_, by simp [BeginsInBreak]⟩, rfl⟩
        exact List.forall_mem_singleton.mpr hc
    | cons first more =>
      rw [hlines] at h
      cases front with
      | nil =>
        obtain ⟨rfl, rfl⟩ := List.cons.inj h
        obtain ⟨before, after, hline, hnil⟩ := @ih [] _ hlines
        obtain rfl : before = [] := by
          by_contra hne
          exact lines_ne_nil hne hnil
        exact ⟨[], after, ⟨congrArg (c :: ·) hline.eq, hline.ends,
          List.forall_mem_cons.mpr ⟨hc, hline.line⟩, hline.after_break⟩, rfl⟩
      | cons x front =>
        obtain ⟨rfl, rfl⟩ := List.cons.inj h
        obtain ⟨before, after, hline, hfront⟩ := @ih (first :: front) _ hlines
        refine ⟨c :: before, after, hline.cons fun hnil => ?_, ?_⟩
        · rw [hnil] at hfront
          cases hfront
        · rw [lines_cons_of_not_isBreak hc, hfront]
          rfl

/-! ## §C Keywords among pieces -/

namespace Token

/-- Pieces without keywords. -/
theorem keyword_not_mem {pieces : List Lexeme} (h : ∀ kind ∈ kinds pieces, kind.keyword? = none)
    (k : Keyword) (word : List Char) : (.keyword k, word) ∉ pieces := by
  intro hmem
  have hnone := h (.keyword k) (List.mem_map_of_mem (f := Prod.fst) hmem)
  cases hnone

theorem keyword_not_mem_of_isTrivia {pieces : List Lexeme}
    (h : ∀ piece ∈ pieces, piece.1.isTrivia = true) (k : Keyword) (word : List Char) :
    (.keyword k, word) ∉ pieces := by
  intro hmem
  have htrivia := h _ hmem
  cases htrivia

/-- A keyword among the pieces of a line stands behind its indentation, outside every doc string. -/
theorem keyword_of_lineLexemes {doc : Option DocDelimiter} {l : Line} {a b : List Lexeme}
    {k : Keyword} {word : List Char} (h : (lineLexemes doc l).1 = a ++ (.keyword k, word) :: b) :
    doc = none ∧ keywordAt? (l.content.dropWhile isIndent) = some (k, word) ∧
      a = indentLexemes l.content := by
  rw [lineLexemes_body] at h
  have hindent := keyword_not_mem_of_isTrivia (isTrivia_indentLexemes l.content) k word
  have hbreak := keyword_not_mem_of_isTrivia (isTrivia_breakLexemes l.ending) k word
  have hbody : (.keyword k, word) ∈ (bodyLexemes doc (l.content.dropWhile isIndent)).1 := by
    have hmem : ((.keyword k, word) : Lexeme) ∈ a ++ (.keyword k, word) :: b := by simp
    rw [← h] at hmem
    simpa [hindent, hbreak] using hmem
  generalize l.content.dropWhile isIndent = body at h hbody ⊢
  unfold bodyLexemes at h hbody
  split at hbody
  · exact absurd hbody List.not_mem_nil
  · rename_i hne
    simp only [hne, Bool.false_eq_true, if_false] at h
    cases doc with
    | some d => exact absurd hbody (keyword_not_mem (keyword?_of_mem_docLexemes d body) k word)
    | none =>
      cases hfound : keywordAt? body with
      | none => exact absurd hbody (keyword_not_mem (keyword?_of_mem_plainLexemes hfound) k word)
      | some found =>
        obtain ⟨k', word'⟩ := found
        simp only [plainLexemes_of_keywordAt? hfound, List.cons_append] at h
        have hafter : ((.keyword k, word) : Lexeme) ∉
            afterKeyword k' (body.drop word'.length) ++ breakLexemes l.ending := by
          rw [List.mem_append, not_or]
          exact ⟨keyword_not_mem keyword?_of_mem_afterKeyword k word, hbreak⟩
        obtain ⟨hfront, heq, -⟩ := (List.append_cons_inj_of_notMem hindent hafter).mp h
        obtain ⟨hk, rfl⟩ := Prod.mk.inj heq
        obtain rfl := TokenKind.keyword.inj hk
        exact ⟨rfl, rfl, hfront.symm⟩

/-- **`exists_line_of_keyword`** — a keyword among the pieces of lines. -/
theorem exists_line_of_keyword {doc : Option DocDelimiter} {ls : List Line} {a b : List Lexeme}
    {k : Keyword} {word : List Char} (h : lexemes doc ls = a ++ (.keyword k, word) :: b) :
    ∃ front l back, ls = front ++ l :: back ∧ docAfter doc front = none ∧
      keywordAt? (l.content.dropWhile isIndent) = some (k, word) ∧
      a = lexemes doc front ++ indentLexemes l.content := by
  induction ls generalizing doc a with
  | nil => simp [lexemes] at h
  | cons l ls ih =>
    replace h : (lineLexemes doc l).1 ++ lexemes (lineLexemes doc l).2 ls =
        a ++ (.keyword k, word) :: b := h
    rcases List.append_eq_append_iff.mp h with ⟨a', rfl, hrest⟩ | ⟨b', hline, hb⟩
    · obtain ⟨front, l', back, rfl, hdoc, hkeyword, rfl⟩ := ih hrest
      exact ⟨l :: front, l', back, rfl, hdoc, hkeyword, (List.append_assoc ..).symm⟩
    · cases b' with
      | nil =>
        -- The keyword is the first piece of the lines behind this one.
        obtain ⟨front, l', back, rfl, hdoc, hkeyword, hnil⟩ := ih (a := []) hb.symm
        rw [List.append_nil] at hline
        refine ⟨l :: front, l', back, rfl, hdoc, hkeyword, ?_⟩
        rw [← hline]
        show _ = (lineLexemes doc l).1 ++ lexemes (lineLexemes doc l).2 front ++ _
        rw [List.append_assoc, ← hnil, List.append_nil]
      | cons piece b' =>
        obtain ⟨rfl, -⟩ := List.cons.inj hb
        obtain ⟨rfl, hkeyword, rfl⟩ := keyword_of_lineLexemes hline
        exact ⟨[], l, ls, rfl, rfl, hkeyword, rfl⟩

/-- Tokens in front of one of them are the pieces in front of its piece. -/
theorem exists_of_place_eq {offset : Nat} {pieces : List Lexeme} {a b : List Token} {t : Token}
    (h : place offset pieces = a ++ t :: b) :
    ∃ front back, pieces = front ++ (t.kind, t.text.toList) :: back ∧
      textOfTokens a = front.flatMap Prod.snd := by
  induction pieces generalizing offset a with
  | nil => simp [place] at h
  | cons piece pieces ih =>
    obtain ⟨kind, cs⟩ := piece
    cases a with
    | nil =>
      obtain ⟨rfl, -⟩ := List.cons.inj h
      exact ⟨[], pieces, by simp, rfl⟩
    | cons u a =>
      obtain ⟨rfl, hrest⟩ := List.cons.inj h
      obtain ⟨front, back, rfl, htext⟩ := ih hrest
      refine ⟨(kind, cs) :: front, back, rfl, ?_⟩
      rw [textOfTokens, List.flatMap_cons, List.flatMap_cons, String.toList_ofList]
      exact congrArg (cs ++ ·) htext

end Token

/-! ## §D Keywords in a source -/

/-- **`openBehind ls`** — the doc string that is open behind lines: a line that begins with a delimiter
opens one, and the next line that begins with the same delimiter closes it. -/
def HeadedLine.openBehind (ls : List Line) : Option Token.DocDelimiter :=
  ls.foldl (fun doc l => HeadedLine.docBehind doc (l.content.dropWhile isIndent)) none

theorem HeadedLine.openBehind_eq (ls : List Line) :
    HeadedLine.openBehind ls = Token.docAfter none ls := by
  simp only [HeadedLine.openBehind, Token.docAfter, Token.snd_lineLexemes]

/-- A phase is that of a doc string up to the next delimiter. -/
theorem Phase.doc_of_after {ph ph' : Phase} {k : TokenKind} (h : ph.after k = some ph') :
    (ph' == doc) = ((ph == doc) != (k == .docStringDelimiter)) := by
  cases k with
  | keyword k => cases ph <;> cases k <;> cases h <;> rfl
  | _ => cases ph <;> cases h <;> rfl

theorem Phase.doc_of_runs {ph ph' : Phase} {ks : List TokenKind} (h : ph.Runs ks ph') :
    (ph' == doc) =
      ((ph == doc) != decide (ks.countP (· == .docStringDelimiter) % 2 = 1)) := by
  induction h with
  | nil => simp
  | @cons ph ph₁ ph' k ks hk _ ih =>
    rw [ih, doc_of_after hk, List.countP_cons]
    cases k == .docStringDelimiter with
    | false => simp
    | true =>
      have hmod := Nat.mod_two_eq_zero_or_one (ks.countP (· == .docStringDelimiter))
      rcases hmod with hmod | hmod <;> simp [hmod, Nat.add_mod]

/-- **`isSome_openBehind`** — lines leave a doc string open if they hold an odd number of delimiters. -/
theorem isSome_openBehind (source : String) :
    (HeadedLine.openBehind (lines source.toList)).isSome =
      decide (Builder.delimiters (tokenize source) % 2 = 1) := by
  have hbegin : Phase.free.Begins none := Or.inl rfl
  obtain ⟨ph, hruns, hends⟩ := Token.runs_lexemes_docAfter hbegin (lines source.toList)
  have hcount : Builder.delimiters (tokenize source) =
      (Token.kinds (Token.lexemes none (lines source.toList))).countP
        (· == .docStringDelimiter) := by
    rw [tokenize, ← Token.map_kind_place 0, List.countP_map]
    rfl
  rw [HeadedLine.openBehind_eq, hcount]
  have hdoc := Phase.doc_of_runs hruns
  rw [show (Phase.free == Phase.doc) = false from rfl, Bool.false_bne] at hdoc
  cases hopen : Token.docAfter none (lines source.toList) with
  | none =>
    rw [hopen] at hends
    rcases hends with rfl | rfl <;> exact hdoc
  | some d =>
    rw [hopen] at hends
    obtain rfl : ph = .doc := hends
    exact hdoc

/-- **`Heads source k before indent word rest after`** — behind whole lines that leave no doc string
open stands a line that reads, after its indentation, a spelling of the keyword and what ends it. -/
structure Heads (source : List Char) (k : Keyword) (before indent word rest after : List Char) :
    Prop where
  lineAt : LineAt source before (indent ++ (word ++ rest)) after
  closed : HeadedLine.openBehind (lines before) = none
  blanks : ∀ c ∈ indent, isIndent c = true
  spelling : ∃ spelling, (spelling, k) ∈ Keyword.spellings ∧ spelling.toList = word
  ends : k.Ends rest

theorem Heads.keywordAt? {source before indent word rest after : List Char} {k : Keyword}
    (h : Heads source k before indent word rest after) :
    Token.keywordAt? (word ++ rest) = some (k, word) := by
  obtain ⟨spelling, hmem, rfl⟩ := h.spelling
  rw [Token.keywordAt?_eq, Token.keywordIn?_eq_some_iff (List.Perm.refl _)]
  exact ⟨spelling, hmem, rfl, rest, rfl, h.ends⟩

/-- The pieces of a source up to a keyword that heads a line. -/
theorem Heads.lexemes_eq {source before indent word rest after : List Char} {k : Keyword}
    (h : Heads source k before indent word rest after) :
    ∃ front back, Token.lexemes none (lines source) = front ++ (.keyword k, word) :: back ∧
      front.flatMap Prod.snd = before ++ indent := by
  obtain ⟨spelling, hmem, rfl⟩ := h.spelling
  have hne := Token.ne_nil_of_mem_spellings hmem
  have hhead : ∀ c ∈ (spelling.toList ++ rest).head?, isIndent c = false := by
    rw [List.head?_append_of_ne_nil _ hne]
    exact fun c hc => (head_of_mem_spellings hmem c hc).1
  have hbody : (indent ++ (spelling.toList ++ rest)).dropWhile isIndent = spelling.toList ++ rest :=
    dropWhile_indent h.blanks hhead
  -- The line begins with none of the characters that a break is made of.
  have hwhole : before.getLast? = some '\r' →
      (indent ++ (spelling.toList ++ rest) ++ after).head? ≠ some '\n' := by
    intro _ hnewline
    have hcontent : indent ++ (spelling.toList ++ rest) ≠ [] := by simp [hne]
    rw [List.head?_append_of_ne_nil _ hcontent] at hnewline
    have hfalse := h.lineAt.line '\n' (List.mem_of_mem_head? hnewline)
    cases hfalse
  have hlines : lines source =
      lines before ++ lines (indent ++ (spelling.toList ++ rest) ++ after) := by
    rw [h.lineAt.eq, lines_append_of_endsInBreak h.lineAt.ends hwhole]
  have hpieces : Token.contentLexemes none (spelling.toList ++ rest) =
      ((.keyword k, spelling.toList) :: Token.afterKeyword k rest, none) := by
    obtain ⟨c, cs, hcs⟩ := List.exists_cons_of_ne_nil hne
    have hplain := Token.plainLexemes_of_keywordAt? h.keywordAt?
    rw [List.drop_left] at hplain
    rw [← hplain, hcs, List.cons_append]
    refine Token.contentLexemes_body (hhead c ?_) none _
    rw [hcs]
    rfl
  refine ⟨Token.lexemes none (lines before) ++ Token.indentLexemes (indent ++ (spelling.toList ++ rest)),
    Token.afterKeyword k rest ++ Token.lexemes none (lines after), ?_, ?_⟩
  · rw [hlines, Token.lexemes_append, ← HeadedLine.openBehind_eq, h.closed,
      lexemes_lines none h.lineAt.line h.lineAt.after_break, Token.contentLexemes_eq, hbody, hpieces]
    simp only [List.append_assoc, List.cons_append]
  · have hbefore := (Token.cuts_lexemes none (lines before)).join
    rw [flatMap_chars_lines] at hbefore
    have hindent : (indent ++ (spelling.toList ++ rest)).takeWhile isIndent = indent := by
      have hsplit := List.takeWhile_append_dropWhile (p := isIndent)
        (l := indent ++ (spelling.toList ++ rest))
      rw [hbody] at hsplit
      exact List.append_cancel_right hsplit
    rw [List.flatMap_append, Token.join_indentLexemes, hbefore, hindent]

/-- **`keyword_iff_heads`** — a token is a keyword if and only if it heads a line. -/
theorem keyword_iff_heads {source : String} {front word : List Char} {k : Keyword} :
    (∃ a t b, tokenize source = a ++ t :: b ∧ textOfTokens a = front ∧ t.kind = .keyword k ∧
      t.text.toList = word) ↔
      ∃ before indent rest after, front = before ++ indent ∧
        Heads source.toList k before indent word rest after := by
  constructor
  · rintro ⟨a, t, b, htokens, rfl, hkind, rfl⟩
    obtain ⟨pieces, back, hpieces, htext⟩ := Token.exists_of_place_eq htokens
    rw [hkind] at hpieces
    obtain ⟨front, l, after, hlines, hdoc, hkeyword, rfl⟩ := Token.exists_line_of_keyword hpieces
    obtain ⟨before, behind, hline, rfl⟩ := exists_lineAt hlines
    rw [Token.keywordAt?_eq, Token.keywordIn?_eq_some_iff (List.Perm.refl _)] at hkeyword
    obtain ⟨spelling, hmem, hword, rest, hrest, hends⟩ := hkeyword
    have hcontent : l.content = l.content.takeWhile isIndent ++ (t.text.toList ++ rest) := by
      rw [← hword, ← hrest, List.takeWhile_append_dropWhile]
    rw [hcontent] at hline
    refine ⟨before, l.content.takeWhile isIndent, rest, behind, ?_, hline, ?_, ?_,
      ⟨spelling, hmem, hword⟩, hends⟩
    · have hbefore := (Token.cuts_lexemes none (lines before)).join
      rw [flatMap_chars_lines] at hbefore
      rw [htext, List.flatMap_append, Token.join_indentLexemes, hbefore]
    · rw [HeadedLine.openBehind_eq, hdoc]
    · exact fun _ hc => List.mem_takeWhile_imp hc
  · rintro ⟨before, indent, rest, after, rfl, hheads⟩
    obtain ⟨front, back, hpieces, htext⟩ := hheads.lexemes_eq
    rw [tokenize, hpieces, Token.place_append]
    exact ⟨_, _, _, rfl, (textOfTokens_place _ _).trans htext, rfl, String.toList_ofList⟩

end FeatureFile
