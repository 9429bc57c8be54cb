/-
# FeatureFile.Proofs.Token.Tiling — tokens cover their source

The tokens of a source text lie end to end: none is empty, the first begins at the first byte, each
begins where the one before it ends, and the last ends at the last byte. Every bound is a character
boundary, and the text of a token is the piece of the source between its bounds.

The lexer never looks at an offset, so the argument has two halves. `Cuts` says that pieces are a
text cut into non-empty parts, and there is one lemma for each function that cuts (§A to §C).
`place` then turns the cutting into the tiling, by one induction on the pieces (§D).
-/

import FeatureFile.Token.Lexer
import Mathlib.Data.List.SplitBy
import Mathlib.Data.List.TakeWhile

namespace FeatureFile

open Text (isBlank isIndent isBreak byteLength)

/-! ## §A Cutting a text into pieces -/

/-- **`Cuts pieces cs`** — the pieces are `cs` cut into non-empty parts, in order. -/
structure Cuts (pieces : List Lexeme) (cs : List Char) : Prop where
  join : pieces.flatMap Prod.snd = cs
  ne_nil : ∀ p ∈ pieces, p.2 ≠ []

namespace Cuts

theorem nil : Cuts [] [] := ⟨rfl, by simp⟩

theorem cons {a cs : List Char} {pieces : List Lexeme} (h : Cuts pieces cs) (kind : TokenKind)
    (ha : a ≠ []) : Cuts ((kind, a) :: pieces) (a ++ cs) := by
  refine ⟨?_, ?_⟩
  · rw [List.flatMap_cons, h.join]
  · intro p hp
    rcases List.mem_cons.mp hp with rfl | hp
    · exact ha
    · exact h.ne_nil p hp

theorem append {p q : List Lexeme} {a b : List Char} (hp : Cuts p a) (hq : Cuts q b) :
    Cuts (p ++ q) (a ++ b) := by
  refine ⟨?_, ?_⟩
  · rw [List.flatMap_append, hp.join, hq.join]
  · intro x hx
    rcases List.mem_append.mp hx with hx | hx
    · exact hp.ne_nil x hx
    · exact hq.ne_nil x hx

theorem single {kind : TokenKind} {a : List Char} (ha : a ≠ []) : Cuts [(kind, a)] a := by
  have h := nil.cons kind ha
  rwa [List.append_nil] at h

/-- A text with no piece is empty. -/
theorem eq_nil {cs : List Char} (h : Cuts [] cs) : cs = [] := h.join.symm

end Cuts

namespace Token

/-! ## §B The pieces of a line -/

theorem cuts_wordLexemes (cs : List Char) : Cuts (wordLexemes cs) cs := by
  refine ⟨?_, ?_⟩
  · simp only [wordLexemes, List.flatMap_map]
    rw [List.flatMap_id', List.flatten_splitBy]
  · intro p hp
    obtain ⟨run, hrun, rfl⟩ := List.mem_map.mp hp
    exact List.ne_nil_of_mem_splitBy hrun

theorem cuts_tagRunLexemes (runs : List (List Char)) (h : ∀ run ∈ runs, run ≠ []) :
    Cuts (tagRunLexemes runs) runs.flatten := by
  induction runs with
  | nil => exact Cuts.nil
  | cons run rest ih =>
    have hrun : run ≠ [] := h run (by simp)
    have hrest := ih fun r hr => h r (List.mem_cons_of_mem run hr)
    rw [tagRunLexemes, List.flatten_cons]
    split
    · exact hrest.cons _ hrun
    · split
      · exact Cuts.single (by simp [hrun])
      · exact hrest.cons _ hrun

theorem cuts_tagLexemes (cs : List Char) : Cuts (tagLexemes cs) cs := by
  have h := cuts_tagRunLexemes (cs.splitBy fun a b => isIndent a == isIndent b)
    fun _ hrun => List.ne_nil_of_mem_splitBy hrun
  rwa [List.flatten_splitBy] at h

/-- What a step parameter is made of. -/
theorem eq_of_parameter? {cs name after : List Char} (h : parameter? cs = some (name, after)) :
    cs = '<' :: (name ++ '>' :: after) ∧ name ≠ [] ∧ ∀ c ∈ name, isParameterChar c = true := by
  unfold parameter? at h
  split at h
  · rename_i rest
    split at h
    · rename_i c nm aft htake hdrop
      obtain ⟨rfl, rfl⟩ : c :: nm = name ∧ aft = after := by simpa using h
      refine ⟨?_, by simp, ?_⟩
      · rw [← htake, ← hdrop, List.takeWhile_append_dropWhile]
      · intro d hd
        rw [← htake] at hd
        exact List.mem_takeWhile_imp hd
    · simp at h
  · simp at h

theorem wordEnd_append (cs : List Char) : (wordEnd cs).1 ++ (wordEnd cs).2 = cs := by
  induction cs with
  | nil => rfl
  | cons c cs ih =>
    rw [wordEnd]
    split
    · rfl
    · rw [List.cons_append, ih]

theorem cuts_stepLexemes (cs : List Char) : Cuts (stepLexemes cs) cs := by
  fun_induction stepLexemes cs with
  | case1 => exact Cuts.nil
  | case2 c cs _ ih =>
    have h := ih.cons .whitespace (List.cons_ne_nil c (cs.takeWhile isIndent))
    rwa [List.cons_append, List.takeWhile_append_dropWhile] at h
  | case3 c cs _ name after hp ih =>
    obtain ⟨heq, hname, _⟩ := eq_of_parameter? hp
    rw [heq]
    exact ((ih.cons _ (List.cons_ne_nil '>' [])).cons _ hname).cons _ (List.cons_ne_nil '<' [])
  | case4 c cs _ _ _ ih =>
    have h := ih.cons .text (List.cons_ne_nil c (wordEnd cs).1)
    rwa [List.cons_append, wordEnd_append] at h

theorem cellEnd_append (cs : List Char) : (cellEnd cs).1 ++ (cellEnd cs).2 = cs := by
  fun_induction cellEnd cs <;> simp_all +zetaDelta

/-- Cutting trailing spaces and tabs leaves a beginning of the text. -/
theorem dropIndentEnd_isBeginning (cs : List Char) : Text.dropIndentEnd cs <+: cs := by
  obtain ⟨a, ha⟩ := List.dropWhile_suffix isIndent (l := cs.reverse)
  refine ⟨a.reverse, ?_⟩
  rw [Text.dropIndentEnd, ← List.reverse_append, ha, List.reverse_reverse]

theorem firstCell_isBeginning (cs : List Char) : firstCell cs <+: cs := by
  have h := dropIndentEnd_isBeginning (cellEnd cs).1
  exact h.trans ⟨(cellEnd cs).2, cellEnd_append cs⟩

theorem cuts_tableLexemes (cs : List Char) : Cuts (tableLexemes cs) cs := by
  fun_induction tableLexemes cs with
  | case1 => exact Cuts.nil
  | case2 c cs _ ih =>
    have h := ih.cons .whitespace (List.cons_ne_nil c (cs.takeWhile isIndent))
    rwa [List.cons_append, List.takeWhile_append_dropWhile] at h
  | case3 c cs _ _ ih => exact ih.cons _ (List.cons_ne_nil c [])
  | case4 c cs hindent hpipe ih =>
    obtain ⟨rest, hrest⟩ :=
      firstCell_cons cs (Bool.eq_false_iff.2 hindent) (Bool.eq_false_iff.2 hpipe)
    have hne : firstCell (c :: cs) ≠ [] := by
      rw [hrest]
      exact List.cons_ne_nil c rest
    have h := ih.cons .tableCell hne
    rwa [List.prefix_iff_eq_append.mp (firstCell_isBeginning (c :: cs))] at h

theorem DocDelimiter.ne_nil (d : DocDelimiter) : d.chars ≠ [] := by
  cases d <;> simp [DocDelimiter.chars]

/-- A text that begins with a delimiter is cut behind it. -/
theorem cuts_delimiter {d : DocDelimiter} {cs : List Char} (h : d.chars.isPrefixOf cs = true) :
    Cuts ((.docStringDelimiter, d.chars) :: wordLexemes (cs.drop d.chars.length)) cs := by
  have hcuts := (cuts_wordLexemes (cs.drop d.chars.length)).cons .docStringDelimiter d.ne_nil
  rwa [List.prefix_iff_eq_append.mp (List.isPrefixOf_iff_prefix.mp h)] at hcuts

theorem DocDelimiter.isPrefixOf_of_ofStart? {d : DocDelimiter} {cs : List Char}
    (h : DocDelimiter.ofStart? cs = some d) : d.chars.isPrefixOf cs = true :=
  List.find?_some (p := fun d : DocDelimiter => d.chars.isPrefixOf cs) h

/-- No spelling of a keyword is empty. -/
theorem ne_nil_of_mem_spellings {word : String} {k : Keyword}
    (h : (word, k) ∈ Keyword.spellings) : word.toList ≠ [] := by
  have hall : ∀ entry ∈ Keyword.spellings, entry.1 ≠ "" := by decide
  intro hnil
  exact hall _ h (String.toList_eq_nil_iff.mp hnil)

/-- What the look-up of a keyword says: its spelling stands at the beginning of the line, and what
follows ends the keyword. -/
theorem spec_of_keywordAt? {cs spelling : List Char} {k : Keyword}
    (h : keywordAt? cs = some (k, spelling)) :
    spelling ≠ [] ∧ spelling <+: cs ∧
      if k.isStep then (cs.drop spelling.length).head?.all isIndent = true
      else (cs.drop spelling.length).head? = some ':' := by
  obtain ⟨⟨word, keyword⟩, hmem, hentry⟩ := List.exists_of_findSome?_eq_some h
  simp only [Option.ite_none_right_eq_some, Option.some.injEq, Prod.mk.injEq] at hentry
  obtain ⟨hpre, hend, rfl, rfl⟩ := hentry
  refine ⟨ne_nil_of_mem_spellings hmem, List.isPrefixOf_iff_prefix.mp hpre, ?_⟩
  rw [String.length_toList]
  split at hend <;> simp_all

theorem cuts_afterKeyword (k : Keyword) (cs : List Char) : Cuts (afterKeyword k cs) cs := by
  unfold afterKeyword
  split
  · exact cuts_stepLexemes cs
  · cases cs with
    | nil => exact Cuts.nil
    | cons c rest => exact (cuts_wordLexemes rest).cons _ (List.cons_ne_nil c [])

theorem cuts_plainLexemes {cs : List Char} (h : cs ≠ []) : Cuts (plainLexemes cs).1 cs := by
  unfold plainLexemes
  split
  · exact Cuts.single h
  · exact cuts_tagLexemes cs
  · exact cuts_tableLexemes cs
  · split
    · rename_i d hd
      exact cuts_delimiter (DocDelimiter.isPrefixOf_of_ofStart? hd)
    · split
      · rename_i k spelling hk
        obtain ⟨hne, hpre, _⟩ := spec_of_keywordAt? hk
        have hcuts := (cuts_afterKeyword k (cs.drop spelling.length)).cons (.keyword k) hne
        rwa [List.prefix_iff_eq_append.mp hpre] at hcuts
      · exact cuts_wordLexemes cs

theorem cuts_docLexemes {d : DocDelimiter} {cs : List Char} (h : cs ≠ []) :
    Cuts (docLexemes d cs).1 cs := by
  unfold docLexemes
  split
  · rename_i hpre
    exact cuts_delimiter hpre
  · exact Cuts.single h

theorem cuts_bodyLexemes (doc : Option DocDelimiter) (body : List Char) :
    Cuts (bodyLexemes doc body).1 body := by
  unfold bodyLexemes
  split
  · rename_i hnil
    rw [List.isEmpty_iff.mp hnil]
    exact Cuts.nil
  · rename_i hne
    have hne := mt List.isEmpty_iff.mpr hne
    cases doc with
    | none => exact cuts_plainLexemes hne
    | some d => exact cuts_docLexemes hne

/-- The pieces of a line are its indentation and what its class makes of the rest. -/
theorem cuts_contentLexemes (doc : Option DocDelimiter) (cs : List Char) :
    Cuts (contentLexemes doc cs).1 cs := by
  have hbody := cuts_bodyLexemes doc (cs.dropWhile isIndent)
  have hjoin : cs.takeWhile isIndent ++ cs.dropWhile isIndent = cs :=
    List.takeWhile_append_dropWhile
  simp only [contentLexemes]
  split
  · rename_i hnil
    rw [List.isEmpty_iff.mp hnil, List.nil_append] at hjoin
    rw [hjoin] at hbody ⊢
    exact hbody
  · rename_i hne
    have hcuts := hbody.cons .whitespace (mt List.isEmpty_iff.mpr hne)
    rwa [hjoin] at hcuts

theorem cuts_lineLexemes (doc : Option DocDelimiter) (l : Line) :
    Cuts (lineLexemes doc l).1 l.chars := by
  have hcontent := cuts_contentLexemes doc l.content
  simp only [lineLexemes, Line.chars]
  split
  · rename_i hnil
    rwa [List.isEmpty_iff.mp hnil, List.append_nil]
  · rename_i hne
    exact hcontent.append (Cuts.single (mt List.isEmpty_iff.mpr hne))

/-! ## §C The pieces of a source -/

theorem cuts_lexemes (doc : Option DocDelimiter) (ls : List Line) :
    Cuts (lexemes doc ls) (ls.flatMap Line.chars) := by
  induction ls generalizing doc with
  | nil => exact Cuts.nil
  | cons l rest ih =>
    rw [lexemes, List.flatMap_cons]
    exact (cuts_lineLexemes doc l).append (ih _)

end Token

theorem Line.flatMap_chars_push (c : Char) (ls : List Line) :
    (Line.push c ls).flatMap Line.chars = c :: ls.flatMap Line.chars := by
  cases ls <;> simp [Line.push, Line.chars]

/-- The lines of a text, end to end, are the text. -/
theorem flatMap_chars_lines (cs : List Char) : (lines cs).flatMap Line.chars = cs := by
  fun_induction lines cs with
  | case1 => rfl
  | case2 rest ih => simp [Line.chars, ih]
  | case3 c rest _ _ ih => simp [Line.chars, ih]
  | case4 c rest _ _ ih => rw [Line.flatMap_chars_push, ih]

theorem cuts_source (cs : List Char) : Cuts (Token.lexemes none (lines cs)) cs := by
  have h := Token.cuts_lexemes none (lines cs)
  rwa [flatMap_chars_lines] at h

/-! ## §D The tokens of a source -/

/-- **`Tiles offset ts`** — the tokens lie end to end from an offset, and each is as long as its
text, which is not empty. -/
inductive Tiles : Nat → List Token → Prop
  | nil {offset : Nat} : Tiles offset []
  | cons {offset : Nat} {t : Token} {ts : List Token} :
      t.span.start = offset → t.span.stop = offset + byteLength t.text.toList →
      t.text.toList ≠ [] → Tiles t.span.stop ts → Tiles offset (t :: ts)

/-- The texts of tokens, end to end. -/
def textOfTokens (ts : List Token) : List Char := ts.flatMap (·.text.toList)

theorem tiles_place {pieces : List Lexeme} (h : ∀ p ∈ pieces, p.2 ≠ []) (offset : Nat) :
    Tiles offset (Token.place offset pieces) := by
  induction pieces generalizing offset with
  | nil => exact .nil
  | cons p rest ih =>
    obtain ⟨kind, cs⟩ := p
    have hrest := ih (fun q hq => h q (List.mem_cons_of_mem _ hq)) (offset + byteLength cs)
    exact .cons rfl (by simp) (by simpa using h (kind, cs) (by simp)) hrest

theorem textOfTokens_place (offset : Nat) (pieces : List Lexeme) :
    textOfTokens (Token.place offset pieces) = pieces.flatMap Prod.snd := by
  induction pieces generalizing offset with
  | nil => rfl
  | cons p rest ih =>
    obtain ⟨kind, cs⟩ := p
    simp only [Token.place, textOfTokens, List.flatMap_cons, String.toList_ofList]
    exact congrArg (cs ++ ·) (ih _)

/-- The tokens of a source lie end to end from its beginning. -/
theorem tiles_tokenize (source : String) : Tiles 0 (tokenize source) :=
  tiles_place (cuts_source source.toList).ne_nil 0

/-- The texts of the tokens of a source, end to end, are the source. -/
theorem textOfTokens_tokenize (source : String) :
    textOfTokens (tokenize source) = source.toList := by
  rw [tokenize, textOfTokens_place, (cuts_source source.toList).join]

namespace Tiles

/-- Where the second of two stretches of tokens begins. -/
theorem split {offset : Nat} {a b : List Token} (h : Tiles offset (a ++ b)) :
    Tiles offset a ∧ Tiles (offset + byteLength (textOfTokens a)) b := by
  induction a generalizing offset with
  | nil => exact ⟨.nil, h⟩
  | cons t ts ih =>
    cases h with
    | cons hstart hstop hne hrest =>
      obtain ⟨ha, hb⟩ := ih hrest
      refine ⟨.cons hstart hstop hne ha, ?_⟩
      rw [textOfTokens, List.flatMap_cons, Text.byteLength_append, ← Nat.add_assoc, ← hstop]
      exact hb

/-- A token begins behind all tokens before it, and it is as long as its text. -/
theorem at_split {offset : Nat} {a b : List Token} {t : Token} (h : Tiles offset (a ++ t :: b)) :
    t.span.start = offset + byteLength (textOfTokens a) ∧
      t.span.stop = t.span.start + byteLength t.text.toList ∧ t.text.toList ≠ [] := by
  obtain ⟨-, hb⟩ := h.split
  cases hb with
  | cons hstart hstop hne _ => exact ⟨hstart, hstart ▸ hstop, hne⟩

theorem isChain {offset : Nat} {ts : List Token} (h : Tiles offset ts) :
    ts.IsChain fun a b => a.span.stop = b.span.start := by
  induction h with
  | nil => exact .nil
  | @cons _ t ts _ _ _ hrest ih =>
    cases hrest with
    | nil => exact .singleton t
    | cons hstart _ _ _ => exact .cons_cons hstart.symm ih

theorem le_start {offset : Nat} {ts : List Token} (h : Tiles offset ts) :
    ∀ t ∈ ts, offset ≤ t.span.start := by
  induction h with
  | nil => simp
  | @cons offset t ts hstart hstop hne _ ih =>
    intro u hu
    rcases List.mem_cons.mp hu with rfl | hu
    · omega
    · have hle := ih u hu
      omega

/-- Tokens that lie end to end begin behind one another. -/
theorem pairwise_start {offset : Nat} {ts : List Token} (h : Tiles offset ts) :
    ts.Pairwise fun t u => t.span.start < u.span.start := by
  induction h with
  | nil => exact List.Pairwise.nil
  | @cons offset t ts hstart hstop hne hrest ih =>
    refine List.pairwise_cons.mpr ⟨?_, ih⟩
    intro u hu
    have hle := hrest.le_start u hu
    have hpos := Text.byteLength_pos hne
    omega

/-- A token that stands before another begins before it. -/
theorem start_lt {offset : Nat} {ts : List Token} (h : Tiles offset ts) {i j : Nat} {t u : Token}
    (hi : ts[i]? = some t) (hj : ts[j]? = some u) (hlt : i < j) : t.span.start < u.span.start := by
  obtain ⟨hilt, rfl⟩ := List.getElem?_eq_some_iff.mp hi
  obtain ⟨hjlt, rfl⟩ := List.getElem?_eq_some_iff.mp hj
  exact List.pairwise_iff_getElem.mp h.pairwise_start i j hilt hjlt hlt

/-- Of two tokens that begin at the same offset there is only one. -/
theorem eq_of_start {offset : Nat} {ts : List Token} (h : Tiles offset ts) {t u : Token}
    (ht : t ∈ ts) (hu : u ∈ ts) (heq : t.span.start = u.span.start) : t = u := by
  obtain ⟨i, hi⟩ := List.mem_iff_getElem?.mp ht
  obtain ⟨j, hj⟩ := List.mem_iff_getElem?.mp hu
  rcases Nat.lt_trichotomy i j with hlt | rfl | hgt
  · exact absurd heq (Nat.ne_of_lt (h.start_lt hi hj hlt))
  · exact Option.some.inj (hi.symm.trans hj)
  · exact absurd heq.symm (Nat.ne_of_lt (h.start_lt hj hi hgt))

/-- A token stands in one place. -/
theorem index_unique {offset : Nat} {ts : List Token} (h : Tiles offset ts) {i j : Nat} {t : Token}
    (hi : ts[i]? = some t) (hj : ts[j]? = some t) : i = j := by
  rcases Nat.lt_trichotomy i j with hlt | heq | hgt
  · exact absurd (h.start_lt hi hj hlt) (Nat.lt_irrefl _)
  · exact heq
  · exact absurd (h.start_lt hj hi hgt) (Nat.lt_irrefl _)

/-- A token that begins before another stands before it. -/
theorem index_lt {offset : Nat} {ts : List Token} (h : Tiles offset ts) {i j : Nat} {t u : Token}
    (hi : ts[i]? = some t) (hj : ts[j]? = some u) (hlt : t.span.start < u.span.start) : i < j := by
  rcases Nat.lt_trichotomy i j with hlt' | rfl | hgt
  · exact hlt'
  · obtain rfl := Option.some.inj (hi.symm.trans hj)
    exact absurd hlt (Nat.lt_irrefl _)
  · exact absurd hlt (Nat.lt_asymm (h.start_lt hj hi hgt))

end Tiles

/-- **`Tiling source ts`** — the tokens cover the source without gaps, in order, at character
boundaries. -/
structure Tiling (source : List Char) (ts : List Token) : Prop where
  /-- No token is empty. -/
  start_lt_stop : ∀ t ∈ ts, t.span.start < t.span.stop
  /-- The first token begins at the first byte. -/
  first_start : ∀ t, ts.head? = some t → t.span.start = 0
  /-- Each token begins where the one before it ends. -/
  adjacent : ts.IsChain fun a b => a.span.stop = b.span.start
  /-- The last token ends at the last byte. -/
  last_stop : ∀ t, ts.getLast? = some t → t.span.stop = byteLength source
  /-- Both ends of a token are character boundaries. -/
  boundary : ∀ t ∈ ts,
    Text.isBoundary t.span.start source = true ∧ Text.isBoundary t.span.stop source = true
  /-- The text of a token is the piece of the source that it covers. -/
  text_eq_slice : ∀ t ∈ ts, t.text.toList = Text.slice t.span.start t.span.stop source
  /-- The texts of the tokens, end to end, are the source. -/
  text_eq : textOfTokens ts = source

/-- Where a token of a tiled source stands in it. -/
theorem Tiles.position {ts a b : List Token} {t : Token} (h : Tiles 0 ts) (hts : ts = a ++ t :: b) :
    textOfTokens ts = textOfTokens a ++ (t.text.toList ++ textOfTokens b) ∧
      t.span.start = byteLength (textOfTokens a) ∧
      t.span.stop = byteLength (textOfTokens a) + byteLength t.text.toList ∧
      t.text.toList ≠ [] := by
  subst hts
  obtain ⟨hstart, hstop, hne⟩ := h.at_split
  rw [Nat.zero_add] at hstart
  refine ⟨?_, hstart, hstart ▸ hstop, hne⟩
  simp [textOfTokens, List.flatMap_append]

/-- Tokens that lie end to end from the beginning cover their own text. -/
theorem Tiles.tiling {ts : List Token} (h : Tiles 0 ts) : Tiling (textOfTokens ts) ts where
  start_lt_stop t ht := by
    obtain ⟨a, b, hab⟩ := List.append_of_mem ht
    obtain ⟨_, hstart, hstop, hne⟩ := h.position hab
    have := Text.byteLength_pos hne
    omega
  first_start t ht := by
    obtain ⟨rest, hrest⟩ := List.head?_eq_some_iff.mp ht
    exact (h.position (a := []) hrest).2.1
  adjacent := h.isChain
  last_stop t ht := by
    obtain ⟨a, ha⟩ := List.getLast?_eq_some_iff.mp ht
    obtain ⟨htext, _, hstop, _⟩ := h.position ha
    rw [htext, hstop]
    simp [textOfTokens]
  boundary t ht := by
    obtain ⟨a, b, hab⟩ := List.append_of_mem ht
    obtain ⟨htext, hstart, hstop, _⟩ := h.position hab
    rw [htext, hstart, hstop]
    refine ⟨Text.isBoundary_byteLength _ _, ?_⟩
    rw [← Text.byteLength_append, ← List.append_assoc]
    exact Text.isBoundary_byteLength _ _
  text_eq_slice t ht := by
    obtain ⟨a, b, hab⟩ := List.append_of_mem ht
    obtain ⟨htext, hstart, hstop, _⟩ := h.position hab
    rw [htext, hstart, hstop, Text.slice_byteLength]
  text_eq := rfl

/-- The tokens of a source cover it. -/
theorem tiling_tokenize (source : String) : Tiling source.toList (tokenize source) := by
  have h := (tiles_tokenize source).tiling
  rwa [textOfTokens_tokenize] at h

end FeatureFile
