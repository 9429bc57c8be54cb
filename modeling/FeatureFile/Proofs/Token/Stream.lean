/-
# FeatureFile.Proofs.Token.Stream — reading one token at a time reads the same tokens

A stream that is asked again and again gives the tokens of its source one after the other, and then
nothing however often it is asked.

The stream decides each token from its place in the line, while the lexer cuts whole lines. The
bridge is `LinePlace.lexemes`: what a whole-line cut makes of the rest of a line that is entered at
a place. One token of the stream takes exactly one piece off it (`agrees_next`), so what remains of
a stream (`TokenStream.remaining`) loses its first piece at each step.

What kinds of tokens there are in a line, and where the stream goes on behind each, is said once
(`LineCut.found_next`).
-/

import FeatureFile.Proofs.Token.Tiling
import FeatureFile.Token.Stream
import Mathlib.Data.List.DropRight

namespace FeatureFile

open Text (isIndent isBreak byteLength)

namespace Token

/-! ## §A The first run of a line -/

/-- A line of runs begins with the run of its first character. -/
theorem splitBy_isIndent_cons (c : Char) (cs : List Char) :
    (c :: cs).splitBy (fun a b => isIndent a == isIndent b) =
      (c :: cs.takeWhile fun d => isIndent d == isIndent c) ::
        (cs.dropWhile fun d => isIndent d == isIndent c).splitBy
          fun a b => isIndent a == isIndent b := by
  have hrun : ∀ d ∈ c :: cs.takeWhile fun d => isIndent d == isIndent c,
      isIndent d = isIndent c := by
    intro d hd
    rcases List.mem_cons.mp hd with rfl | hd
    · rfl
    · have h := List.mem_takeWhile_imp (p := fun d => isIndent d == isIndent c) hd
      exact eq_of_beq h
  have hchain : (c :: cs.takeWhile fun d => isIndent d == isIndent c).IsChain
      fun a b => (isIndent a == isIndent b) = true := by
    apply List.Pairwise.isChain
    refine List.pairwise_of_forall_mem_list fun a ha b hb => ?_
    rw [hrun a ha, hrun b hb, beq_self_eq_true]
  -- The run and what follows it differ where they meet.
  have hmeet : ∀ x ∈ (c :: cs.takeWhile fun d => isIndent d == isIndent c).getLast?,
      ∀ y ∈ (cs.dropWhile fun d => isIndent d == isIndent c).head?,
        (isIndent x == isIndent y) = false := by
    intro x hx y hy
    rw [hrun x (List.mem_of_mem_getLast? hx)]
    have hy' := List.head?_dropWhile_not (fun d => isIndent d == isIndent c) cs
    rw [Option.mem_def.mp hy] at hy'
    rw [Bool.beq_comm]
    exact hy'
  have happ := List.splitBy_append hmeet
  rw [List.cons_append, List.takeWhile_append_dropWhile,
    List.splitBy_of_isChain (List.cons_ne_nil _ _) hchain] at happ
  exact happ

theorem takeWhile_same_of_indent {c : Char} (hc : isIndent c = true) (cs : List Char) :
    (cs.takeWhile fun d => isIndent d == isIndent c) = cs.takeWhile isIndent ∧
      (cs.dropWhile fun d => isIndent d == isIndent c) = cs.dropWhile isIndent := by
  have h : (fun d => isIndent d == isIndent c) = isIndent := by
    funext d
    rw [hc, beq_true]
  rw [h]
  exact ⟨rfl, rfl⟩

theorem takeWhile_same_of_word {c : Char} (hc : isIndent c = false) (cs : List Char) :
    (cs.takeWhile fun d => isIndent d == isIndent c) = cs.takeWhile (fun d => !isIndent d) ∧
      (cs.dropWhile fun d => isIndent d == isIndent c) = cs.dropWhile fun d => !isIndent d := by
  have h : (fun d => isIndent d == isIndent c) = fun d => !isIndent d := by
    funext d
    rw [hc, beq_false]
  rw [h]
  exact ⟨rfl, rfl⟩

theorem wordLexemes_indent {c : Char} (hc : isIndent c = true) (cs : List Char) :
    wordLexemes (c :: cs) =
      (.whitespace, c :: cs.takeWhile isIndent) :: wordLexemes (cs.dropWhile isIndent) := by
  obtain ⟨htake, hdrop⟩ := takeWhile_same_of_indent hc cs
  simp only [wordLexemes, splitBy_isIndent_cons, htake, hdrop, List.map_cons]
  simp [hc]

theorem wordLexemes_word {c : Char} (hc : isIndent c = false) (cs : List Char) :
    wordLexemes (c :: cs) =
      (.text, c :: cs.takeWhile fun d => !isIndent d) ::
        wordLexemes (cs.dropWhile fun d => !isIndent d) := by
  obtain ⟨htake, hdrop⟩ := takeWhile_same_of_word hc cs
  simp only [wordLexemes, splitBy_isIndent_cons, htake, hdrop, List.map_cons]
  simp [hc]

theorem tagLexemes_indent {c : Char} (hc : isIndent c = true) (cs : List Char) :
    tagLexemes (c :: cs) =
      (.whitespace, c :: cs.takeWhile isIndent) :: tagLexemes (cs.dropWhile isIndent) := by
  obtain ⟨htake, hdrop⟩ := takeWhile_same_of_indent hc cs
  simp only [tagLexemes, splitBy_isIndent_cons, htake, hdrop, tagRunLexemes]
  simp [hc]

theorem tagLexemes_comment (cs : List Char) :
    tagLexemes ('#' :: cs) = [(.comment, '#' :: cs)] := by
  rw [tagLexemes, splitBy_isIndent_cons, tagRunLexemes, List.flatten_splitBy, List.cons_append,
    List.takeWhile_append_dropWhile]
  rfl

theorem tagLexemes_tag {c : Char} (hc : isIndent c = false) (hhash : c ≠ '#') (cs : List Char) :
    tagLexemes (c :: cs) =
      (.tag, c :: cs.takeWhile fun d => !isIndent d) ::
        tagLexemes (cs.dropWhile fun d => !isIndent d) := by
  obtain ⟨htake, hdrop⟩ := takeWhile_same_of_word hc cs
  simp only [tagLexemes, splitBy_isIndent_cons, htake, hdrop, tagRunLexemes]
  simp [hc, hhash]

/-- The indentation of a line is a piece of its own, and the rest is read as a line without it. -/
theorem contentLexemes_indent {c : Char} (hc : isIndent c = true) (doc : Option DocDelimiter)
    (cs : List Char) :
    contentLexemes doc (c :: cs) =
      ((.whitespace, c :: cs.takeWhile isIndent) ::
          (contentLexemes doc (cs.dropWhile isIndent)).1,
        (contentLexemes doc (cs.dropWhile isIndent)).2) := by
  have htake : (cs.dropWhile isIndent).takeWhile isIndent = [] := by
    rw [List.takeWhile_eq_nil_iff]
    intro h
    simpa using List.dropWhile_get_zero_not isIndent cs h
  have hdrop : (cs.dropWhile isIndent).dropWhile isIndent = cs.dropWhile isIndent :=
    List.dropWhile_idempotent isIndent cs
  simp only [contentLexemes, List.takeWhile_cons, List.dropWhile_cons, hc, if_true, htake, hdrop,
    List.isEmpty_cons, List.isEmpty_nil, Bool.false_eq_true, if_false]

theorem contentLexemes_nil (doc : Option DocDelimiter) : contentLexemes doc [] = ([], doc) := rfl

/-- A line without indentation is what its class makes of it. -/
theorem contentLexemes_body {c : Char} (hc : isIndent c = false) (doc : Option DocDelimiter)
    (cs : List Char) :
    contentLexemes doc (c :: cs) =
      match doc with
      | some d => docLexemes d (c :: cs)
      | none => plainLexemes (c :: cs) := by
  have hindent : (c :: cs).takeWhile isIndent = [] :=
    List.takeWhile_cons_of_neg (Bool.eq_false_iff.mp hc)
  have hbody : (c :: cs).dropWhile isIndent = c :: cs :=
    List.dropWhile_cons_of_neg (Bool.eq_false_iff.mp hc)
  unfold contentLexemes
  rw [hindent, hbody]
  cases doc <;> rfl

end Token

/-! ## §B One token of a line -/

/-- The pieces of a step from the closing bracket of a parameter on. -/
def Token.closingLexemes : List Char → List Lexeme
  | [] => []
  | c :: rest => (.parameterEnd, [c]) :: stepLexemes rest

/-- The pieces of a step from the name of a parameter on. -/
def Token.nameLexemes (line : List Char) : List Lexeme :=
  let length := max (line.takeWhile (· != '>')).length 1
  if line.isEmpty then []
  else (.parameterName, line.take length) :: closingLexemes (line.drop length)

/-- **`place.lexemes doc line`** — what whole-line cutting makes of a rest of a line that is entered
at a place, and the doc string that is open behind the line. -/
def LinePlace.lexemes (place : LinePlace) (doc : Option Token.DocDelimiter) (line : List Char) :
    List Lexeme × Option Token.DocDelimiter :=
  match place with
  | .lineStart => Token.contentLexemes doc line
  | .colon => (match line with | [] => [] | c :: rest => (.colon, [c]) :: Token.wordLexemes rest, doc)
  | .words => (Token.wordLexemes line, doc)
  | .step => (Token.stepLexemes line, doc)
  | .parameterName => (Token.nameLexemes line, doc)
  | .parameterEnd => (Token.closingLexemes line, doc)
  | .tags => (Token.tagLexemes line, doc)
  | .table => (Token.tableLexemes line, doc)

/-- Behind the opening bracket of a parameter come its name and its closing bracket. -/
theorem Token.nameLexemes_parameter {name : List Char} (hne : name ≠ [])
    (hname : ∀ c ∈ name, isParameterChar c = true) (after : List Char) :
    nameLexemes (name ++ '>' :: after) =
      (.parameterName, name) :: (.parameterEnd, ['>']) :: stepLexemes after := by
  have htake : (name ++ '>' :: after).takeWhile (· != '>') = name := by
    rw [List.takeWhile_append_of_pos]
    · simp
    · intro c hc
      have h := hname c hc
      simp only [isParameterChar, Bool.not_eq_true', Bool.or_eq_false_iff] at h
      simp only [bne, h.1.2, Bool.not_false]
  have hlen : max name.length 1 = name.length :=
    Nat.max_eq_left (List.length_pos_iff.mpr hne)
  have hempty : (name ++ '>' :: after).isEmpty = false := by simp
  simp only [nameLexemes, htake, hlen, hempty, Bool.false_eq_true, if_false, List.take_left,
    List.drop_left, closingLexemes]

namespace LineCut

/-- **`cut.Agrees line all`** — the token is the first piece of `all`, and the other pieces are
those of the rest of the line entered where the token leaves it. -/
def Agrees (cut : LineCut) (line : List Char)
    (all : List Lexeme × Option Token.DocDelimiter) : Prop :=
  ∃ a b, line = a ++ b ∧ a.length = max cut.length 1 ∧
    all = ((cut.kind, a) :: (cut.place.lexemes cut.doc b).1, (cut.place.lexemes cut.doc b).2)

/-- A line that begins with a space or a tab begins with a token of these. -/
theorem agrees_orIndent {place : LinePlace} {doc : Option Token.DocDelimiter} {c : Char}
    {cs : List Char} {cut : LineCut} {all : List Lexeme × Option Token.DocDelimiter}
    (hindent : isIndent c = true → all =
      ((.whitespace, c :: cs.takeWhile isIndent) ::
        (place.lexemes doc (cs.dropWhile isIndent)).1,
        (place.lexemes doc (cs.dropWhile isIndent)).2))
    (hword : isIndent c = false → cut.Agrees (c :: cs) all) :
    (orIndent place doc (c :: cs) cut).Agrees (c :: cs) all := by
  unfold orIndent indentLength
  cases hc : isIndent c with
  | true =>
    have hlen : ((c :: cs).takeWhile isIndent).length = (cs.takeWhile isIndent).length + 1 := by
      rw [List.takeWhile_cons, if_pos hc, List.length_cons]
    rw [hlen, if_pos (Nat.succ_pos _)]
    refine ⟨c :: cs.takeWhile isIndent, cs.dropWhile isIndent, ?_, ?_, hindent hc⟩
    · rw [List.cons_append, List.takeWhile_append_dropWhile]
    · rw [List.length_cons]
      exact (Nat.max_eq_left (Nat.succ_pos _)).symm
  | false =>
    have hlen : ((c :: cs).takeWhile isIndent).length = 0 := by
      rw [List.takeWhile_cons, if_neg (by simp [hc]), List.length_nil]
    rw [hlen, if_neg (Nat.lt_irrefl 0)]
    exact hword hc

/-- The cut behind a first word. -/
theorem agrees_word {kind : TokenKind} {place : LinePlace} {doc : Option Token.DocDelimiter}
    {c : Char} {cs : List Char} {all : List Lexeme × Option Token.DocDelimiter}
    (hc : isIndent c = false)
    (hall : all = ((kind, c :: cs.takeWhile fun d => !isIndent d) ::
      (place.lexemes doc (cs.dropWhile fun d => !isIndent d)).1,
      (place.lexemes doc (cs.dropWhile fun d => !isIndent d)).2)) :
    (LineCut.mk kind (wordLength (c :: cs)) place doc).Agrees (c :: cs) all := by
  refine ⟨c :: cs.takeWhile fun d => !isIndent d, cs.dropWhile fun d => !isIndent d, ?_, ?_, hall⟩
  · rw [List.cons_append, List.takeWhile_append_dropWhile]
  · simp only [wordLength, List.takeWhile_cons, hc, Bool.not_false, if_true, List.length_cons]
    omega

theorem agrees_ofWords (doc : Option Token.DocDelimiter) (c : Char) (cs : List Char) :
    (ofWords doc (c :: cs)).Agrees (c :: cs) (Token.wordLexemes (c :: cs), doc) := by
  refine agrees_orIndent (fun hc => ?_) (fun hc => agrees_word hc ?_)
  · rw [Token.wordLexemes_indent hc]
    rfl
  · rw [Token.wordLexemes_word hc]
    rfl

theorem agrees_ofTags (doc : Option Token.DocDelimiter) (c : Char) (cs : List Char) :
    (ofTags doc (c :: cs)).Agrees (c :: cs) (Token.tagLexemes (c :: cs), doc) := by
  refine agrees_orIndent (fun hc => ?_) (fun hc => ?_)
  · rw [Token.tagLexemes_indent hc]
    rfl
  · split
    · rename_i hhash
      obtain rfl : c = '#' := by simpa using hhash
      refine ⟨'#' :: cs, [], (List.append_nil _).symm, ?_, ?_⟩
      · simp
      · rw [Token.tagLexemes_comment]
        rfl
    · rename_i hhash
      refine agrees_word hc ?_
      rw [Token.tagLexemes_tag hc (by simpa using hhash)]
      rfl

theorem agrees_ofTable (doc : Option Token.DocDelimiter) (c : Char) (cs : List Char) :
    (ofTable doc (c :: cs)).Agrees (c :: cs) (Token.tableLexemes (c :: cs), doc) := by
  refine agrees_orIndent (fun hc => ?_) (fun hc => ?_)
  · rw [Token.tableLexemes, if_pos hc]
    rfl
  · split
    · rename_i hpipe
      obtain rfl : c = '|' := by simpa using hpipe
      refine ⟨['|'], cs, rfl, rfl, ?_⟩
      rw [Token.tableLexemes, if_neg (by simp [hc]), if_pos (by simp)]
      rfl
    · rename_i hpipe
      have hpipe : (c == '|') = false := by simpa using hpipe
      obtain ⟨rest, hrest⟩ := Token.firstCell_cons cs hc hpipe
      refine ⟨Token.firstCell (c :: cs), (c :: cs).drop (Token.firstCell (c :: cs)).length, ?_, ?_,
        ?_⟩
      · exact (List.prefix_iff_eq_append.mp (Token.firstCell_isBeginning (c :: cs))).symm
      · rw [hrest, List.length_cons]
        exact (Nat.max_eq_left (Nat.succ_pos _)).symm
      · rw [Token.tableLexemes, if_neg (by simp [hc]), if_neg (by simp [hpipe])]
        rfl

theorem agrees_ofStep (doc : Option Token.DocDelimiter) (c : Char) (cs : List Char) :
    (ofStep doc (c :: cs)).Agrees (c :: cs) (Token.stepLexemes (c :: cs), doc) := by
  refine agrees_orIndent (fun hc => ?_) (fun hc => ?_)
  · rw [Token.stepLexemes, if_pos hc]
    rfl
  · have hneg : ¬isIndent c = true := by simp [hc]
    cases hp : Token.parameter? (c :: cs) with
    | none =>
      rw [if_neg (by simp)]
      refine ⟨c :: (Token.wordEnd cs).1, (Token.wordEnd cs).2, ?_, ?_, ?_⟩
      · rw [List.cons_append, Token.wordEnd_append]
      · simp
      · rw [Token.stepLexemes, if_neg hneg]
        split
        · simp_all
        · rfl
    | some found =>
      obtain ⟨name, after⟩ := found
      obtain ⟨heq, hne, hname⟩ := Token.eq_of_parameter? hp
      rw [if_pos (by simp)]
      obtain ⟨rfl, rfl⟩ := List.cons.inj heq
      refine ⟨['<'], name ++ '>' :: after, rfl, rfl, ?_⟩
      simp only [LinePlace.lexemes, Token.nameLexemes_parameter hne hname]
      rw [Token.stepLexemes, if_neg hneg]
      split
      · simp_all
      · simp_all

/-- The cut behind a delimiter of a doc string. -/
theorem agrees_delimiter {d : Token.DocDelimiter} {line : List Char}
    (h : d.chars.isPrefixOf line = true) (doc : Option Token.DocDelimiter) :
    (LineCut.mk .docStringDelimiter d.chars.length .words doc).Agrees line
      ((.docStringDelimiter, d.chars) :: Token.wordLexemes (line.drop d.chars.length), doc) := by
  refine ⟨d.chars, line.drop d.chars.length, ?_, ?_, rfl⟩
  · exact (List.prefix_iff_eq_append.mp (List.isPrefixOf_iff_prefix.mp h)).symm
  · exact (Nat.max_eq_left (List.length_pos_iff.mpr d.ne_nil)).symm

theorem agrees_ofPlain (c : Char) (cs : List Char) :
    (ofPlain (c :: cs)).Agrees (c :: cs) (Token.plainLexemes (c :: cs)) := by
  by_cases hhash : c = '#'
  · subst hhash
    exact ⟨'#' :: cs, [], (List.append_nil _).symm, by simp [ofPlain], rfl⟩
  by_cases hat : c = '@'
  · subst hat
    exact agrees_ofTags none '@' cs
  by_cases hpipe : c = '|'
  · subst hpipe
    exact agrees_ofTable none '|' cs
  simp only [ofPlain, Token.plainLexemes, List.head?_cons, Option.some.injEq, hhash, hat, hpipe,
    imp_self]
  cases hdoc : Token.DocDelimiter.ofStart? (c :: cs) with
  | some d => exact agrees_delimiter (Token.DocDelimiter.isPrefixOf_of_ofStart? hdoc) (some d)
  | none =>
    cases hk : Token.keywordAt? (c :: cs) with
    | none => exact agrees_ofWords none c cs
    | some found =>
      obtain ⟨k, spelling⟩ := found
      obtain ⟨hne, hpre, -⟩ := Token.spec_of_keywordAt? hk
      refine ⟨spelling, (c :: cs).drop spelling.length, ?_, ?_, ?_⟩
      · exact (List.prefix_iff_eq_append.mp hpre).symm
      · exact (Nat.max_eq_left (List.length_pos_iff.mpr hne)).symm
      · cases hstep : k.isStep with
        | true => simp only [Token.afterKeyword, hstep, if_true]; rfl
        | false => simp only [Token.afterKeyword, hstep, Bool.false_eq_true, if_false]; rfl

theorem agrees_ofDoc (d : Token.DocDelimiter) (c : Char) (cs : List Char) :
    (ofDoc d (c :: cs)).Agrees (c :: cs) (Token.docLexemes d (c :: cs)) := by
  unfold ofDoc Token.docLexemes
  split
  · rename_i hpre
    exact agrees_delimiter hpre none
  · exact ⟨c :: cs, [], (List.append_nil _).symm, by simp, rfl⟩

/-- The next token of a line is the first piece of what is left of it. -/
theorem agrees_next (place : LinePlace) (doc : Option Token.DocDelimiter) (c : Char)
    (cs : List Char) : (next place doc (c :: cs)).Agrees (c :: cs) (place.lexemes doc (c :: cs)) := by
  cases place with
  | lineStart =>
    refine agrees_orIndent (fun hc => Token.contentLexemes_indent hc doc cs) (fun hc => ?_)
    simp only [LinePlace.lexemes, Token.contentLexemes_body hc]
    cases doc with
    | none => exact agrees_ofPlain c cs
    | some d => exact agrees_ofDoc d c cs
  | colon => exact ⟨[c], cs, rfl, rfl, rfl⟩
  | words => exact agrees_ofWords doc c cs
  | step => exact agrees_ofStep doc c cs
  | parameterName =>
    refine ⟨_, _, (List.take_append_drop _ _).symm, ?_, rfl⟩
    have h := ((c :: cs).takeWhile_sublist (· != '>')).length_le
    rw [List.length_take]
    simp only [next, List.length_cons] at h ⊢
    omega
  | parameterEnd => exact ⟨[c], cs, rfl, rfl, rfl⟩
  | tags => exact agrees_ofTags doc c cs
  | table => exact agrees_ofTable doc c cs

/-! ## §C What one token can be -/

/-- Whether a token of the kind neither opens anything at the start of a line nor breaks one. -/
def isInner : TokenKind → Bool
  | .keyword _ | .docStringDelimiter | .newline => false
  | _ => true

/-- **`cut.Inside doc`** — a token within a line: the stream goes on within the line behind it, and with
the same doc string. -/
structure Inside (doc : Option Token.DocDelimiter) (cut : LineCut) : Prop where
  doc_eq : cut.doc = doc
  place_ne : cut.place ≠ .lineStart
  inner : isInner cut.kind = true

/-- **`Found place doc line cut`** — what the next token of a line can be. All but the tokens within
the line are found from its start alone. -/
inductive Found (place : LinePlace) (doc : Option Token.DocDelimiter) (line : List Char) :
    LineCut → Prop
  | inside {cut : LineCut} (h : cut.Inside doc) : Found place doc line cut
  | indent (hplace : place = .lineStart) :
    Found place doc line ⟨.whitespace, indentLength line, .lineStart, doc⟩
  | delimiter {length : Nat} {behind : Option Token.DocDelimiter} (hplace : place = .lineStart)
    (hbehind : behind.isSome = !doc.isSome) :
    Found place doc line ⟨.docStringDelimiter, length, .words, behind⟩
  | keyword {k : Keyword} {spelling : List Char} (hplace : place = .lineStart) (hdoc : doc = none)
    (hindent : indentLength line = 0) (hkeyword : Token.keywordAt? line = some (k, spelling))
    (hpieces : Token.plainLexemes line =
      ((.keyword k, spelling) :: Token.afterKeyword k (line.drop spelling.length), none)) :
    Found place doc line
      ⟨.keyword k, spelling.length, if k.isStep then .step else .colon, none⟩

theorem Inside.kind_ne {doc : Option Token.DocDelimiter} {cut : LineCut} (h : cut.Inside doc)
    {kind : TokenKind} (hkind : isInner kind = false) : cut.kind ≠ kind := by
  rintro rfl
  rw [h.inner] at hkind
  cases hkind

theorem inside_orIndent {cut : LineCut} {place : LinePlace} {doc : Option Token.DocDelimiter}
    (line : List Char) (hplace : place ≠ .lineStart) (h : cut.Inside doc) :
    (orIndent place doc line cut).Inside doc := by
  unfold orIndent
  split
  · exact ⟨rfl, hplace, rfl⟩
  · exact h

theorem inside_ofWords (doc : Option Token.DocDelimiter) (line : List Char) :
    (ofWords doc line).Inside doc :=
  inside_orIndent line (by simp) ⟨rfl, by simp, rfl⟩

theorem inside_ofStep (doc : Option Token.DocDelimiter) (line : List Char) :
    (ofStep doc line).Inside doc := by
  refine inside_orIndent line (by simp) ?_
  split <;> exact ⟨rfl, by simp, rfl⟩

theorem inside_ofTags (doc : Option Token.DocDelimiter) (line : List Char) :
    (ofTags doc line).Inside doc := by
  refine inside_orIndent line (by simp) ?_
  split <;> exact ⟨rfl, by simp, rfl⟩

theorem inside_ofTable (doc : Option Token.DocDelimiter) (line : List Char) :
    (ofTable doc line).Inside doc := by
  refine inside_orIndent line (by simp) ?_
  split <;> exact ⟨rfl, by simp, rfl⟩

theorem found_ofPlain {line : List Char} (hindent : indentLength line = 0) :
    Found .lineStart none line (ofPlain line) := by
  unfold ofPlain
  split
  · exact .inside ⟨rfl, by simp, rfl⟩
  · exact .inside (inside_ofTags none line)
  · exact .inside (inside_ofTable none line)
  · rename_i hhash hat hpipe
    split
    · exact .delimiter rfl rfl
    · rename_i hdoc
      split
      · rename_i k spelling hkeyword
        refine .keyword rfl rfl hindent hkeyword ?_
        unfold Token.plainLexemes
        split
        · exact absurd ‹_› hhash
        · exact absurd ‹_› hat
        · exact absurd ‹_› hpipe
        · simp only [hdoc, hkeyword]
      · exact .inside (inside_ofWords none line)

theorem found_ofDoc (d : Token.DocDelimiter) (line : List Char) :
    Found .lineStart (some d) line (ofDoc d line) := by
  unfold ofDoc
  split
  · exact .delimiter rfl rfl
  · exact .inside ⟨rfl, by simp, rfl⟩

/-- **One token of a line.** -/
theorem found_next (place : LinePlace) (doc : Option Token.DocDelimiter) (line : List Char) :
    Found place doc line (next place doc line) := by
  cases place with
  | lineStart =>
    show Found .lineStart doc line (orIndent .lineStart doc line _)
    unfold orIndent
    split
    · exact .indent rfl
    · rename_i hlen
      cases doc with
      | none => exact found_ofPlain (Nat.eq_zero_of_not_pos hlen)
      | some d => exact found_ofDoc d line
  | colon => exact .inside ⟨rfl, by simp [next], rfl⟩
  | words => exact .inside (inside_ofWords doc line)
  | step => exact .inside (inside_ofStep doc line)
  | parameterName => exact .inside ⟨rfl, by simp [next], rfl⟩
  | parameterEnd => exact .inside ⟨rfl, by simp [next], rfl⟩
  | tags => exact .inside (inside_ofTags doc line)
  | table => exact .inside (inside_ofTable doc line)

end LineCut

/-! ## §D What remains of a stream -/

theorem lines_cons_of_not_isBreak {c : Char} (hc : isBreak c = false) (rest : List Char) :
    lines (c :: rest) = Line.push c (lines rest) := by
  rw [lines.eq_def (c :: rest)]
  split
  · rename_i heq
    simp at heq
  · rename_i heq
    obtain ⟨rfl, -⟩ := List.cons.inj heq
    exact absurd hc (by decide)
  · rename_i heq
    obtain ⟨rfl, rfl⟩ := List.cons.inj heq
    rw [if_neg (by simp [hc])]

/-- The number of characters of the line break at the head of a text. -/
def breakLength (cs : List Char) : Nat := if ['\r', '\n'].isPrefixOf cs then 2 else 1

theorem lines_cons_of_isBreak {c : Char} (hc : isBreak c = true) (rest : List Char) :
    lines (c :: rest) =
      ⟨[], (c :: rest).take (breakLength (c :: rest))⟩ ::
        lines ((c :: rest).drop (breakLength (c :: rest))) := by
  rw [lines.eq_def (c :: rest)]
  split
  · rename_i heq
    simp at heq
  · rename_i heq
    rw [heq]
    simp [breakLength, List.isPrefixOf]
  · rename_i d more hcrlf heq
    obtain ⟨rfl, rfl⟩ := List.cons.inj heq
    have hlen : breakLength (c :: rest) = 1 := by
      rw [breakLength, if_neg]
      intro h
      obtain ⟨after, hafter⟩ := List.isPrefixOf_iff_prefix.mp h
      obtain ⟨rfl, rfl⟩ := List.cons.inj hafter
      exact hcrlf after rfl rfl
    rw [if_pos hc, hlen]
    rfl

theorem length_take_breakLength (c : Char) (rest : List Char) :
    ((c :: rest).take (breakLength (c :: rest))).length = max (breakLength (c :: rest)) 1 := by
  unfold breakLength
  split
  · rename_i h
    obtain ⟨after, hafter⟩ := List.isPrefixOf_iff_prefix.mp h
    rw [← hafter]
    rfl
  · rfl

/-- Characters before a line break belong to its line. -/
theorem lines_append {line : List Char} (hline : ∀ c ∈ line, isBreak c = false)
    (after : List Char) : lines (line ++ after) = line.foldr Line.push (lines after) := by
  induction line with
  | nil => rfl
  | cons c line ih =>
    rw [List.cons_append, lines_cons_of_not_isBreak (hline c (by simp)),
      ih fun d hd => hline d (List.mem_cons_of_mem c hd), List.foldr_cons]

theorem foldr_push_nil {line : List Char} (h : line ≠ []) :
    line.foldr Line.push [] = [⟨line, []⟩] := by
  induction line with
  | nil => exact absurd rfl h
  | cons c line ih =>
    cases line with
    | nil => rfl
    | cons d line => rw [List.foldr_cons, ih (List.cons_ne_nil d line)]; rfl

theorem foldr_push_cons (line : List Char) (l : Line) (ls : List Line) :
    line.foldr Line.push (l :: ls) = { l with content := line ++ l.content } :: ls := by
  induction line with
  | nil => rfl
  | cons c line ih => rw [List.foldr_cons, ih]; rfl

/-- Reading a text line by line begins with what stands before its first line break. -/
theorem lexemes_lines (doc : Option Token.DocDelimiter) {line after : List Char}
    (hline : ∀ c ∈ line, isBreak c = false) (hafter : ∀ c ∈ after.head?, isBreak c = true) :
    Token.lexemes doc (lines (line ++ after)) =
      (Token.contentLexemes doc line).1 ++
        Token.lexemes (Token.contentLexemes doc line).2 (lines after) := by
  rw [lines_append hline]
  cases after with
  | nil =>
    cases line with
    | nil => rfl
    | cons c line =>
      have hnil : lines [] = [] := rfl
      rw [hnil, foldr_push_nil (List.cons_ne_nil c line)]
      simp [Token.lexemes, Token.lineLexemes]
  | cons c rest =>
    rw [lines_cons_of_isBreak (hafter c rfl), foldr_push_cons]
    simp only [Token.lexemes, Token.lineLexemes, List.append_nil, Token.contentLexemes_nil]
    split <;> simp only [List.nil_append, List.append_assoc]

namespace TokenStream

/-- What follows the line that a stream stands in. -/
def afterLine (s : TokenStream) : List Char := s.rest.dropWhile fun c => !isBreak c

theorem line_append_afterLine (s : TokenStream) : s.line ++ s.afterLine = s.rest :=
  List.takeWhile_append_dropWhile

theorem isBreak_of_mem_line (s : TokenStream) : ∀ c ∈ s.line, isBreak c = false := by
  intro c hc
  simpa using List.mem_takeWhile_imp hc

theorem isBreak_head_afterLine (s : TokenStream) : ∀ c ∈ s.afterLine.head?, isBreak c = true := by
  intro c hc
  have h := List.head?_dropWhile_not (fun c => !isBreak c) s.rest
  rw [afterLine] at hc
  rw [Option.mem_def.mp hc] at h
  simpa using h

/-- The pieces that a stream has still to give. -/
def remaining (s : TokenStream) : List Lexeme :=
  (s.place.lexemes s.doc s.line).1 ++
    Token.lexemes (s.place.lexemes s.doc s.line).2 (lines s.afterLine)

/-- At the start of a line, what remains is the text read line by line. -/
theorem remaining_lineStart (rest : List Char) (offset : Nat) (doc : Option Token.DocDelimiter) :
    (mk rest offset .lineStart doc).remaining = Token.lexemes doc (lines rest) := by
  have h := lexemes_lines doc (isBreak_of_mem_line ⟨rest, offset, .lineStart, doc⟩)
    (isBreak_head_afterLine ⟨rest, offset, .lineStart, doc⟩)
  rw [line_append_afterLine] at h
  exact h.symm

/-! ## §E One step and all steps -/

theorem lexemes_nil (place : LinePlace) (doc : Option Token.DocDelimiter) :
    place.lexemes doc [] = ([], doc) := by
  cases place with
  | step => simp [LinePlace.lexemes, Token.stepLexemes]
  | table => simp [LinePlace.lexemes, Token.tableLexemes]
  | _ => rfl

theorem next_of_nil {s : TokenStream} (h : s.rest = []) : s.next = (none, s) := by
  rw [next, h]

theorem next_of_ne_nil {s : TokenStream} (h : s.rest ≠ []) :
    s.next = (some (s.emit s.cut).1, (s.emit s.cut).2) := by
  obtain ⟨c, cs, hrest⟩ := List.exists_cons_of_ne_nil h
  rw [next, hrest]

/-- A stream that gives a token has cut it off its text. -/
theorem emit_of_next {s : TokenStream} {t : Token} (h : s.next.1 = some t) :
    s.rest ≠ [] ∧ s.emit s.cut = (t, s.next.2) := by
  by_cases hrest : s.rest = []
  · rw [next_of_nil hrest] at h
    cases h
  · rw [next_of_ne_nil hrest] at h ⊢
    exact ⟨hrest, by rw [← Option.some.inj h]⟩

/-- The line of a stream that begins with characters of one line, and what follows it. -/
theorem line_of_rest {s : TokenStream} {a b : List Char} (h : s.rest = a ++ b)
    (ha : ∀ c ∈ a, isBreak c = false) (hb : ∀ c ∈ b.head?, isBreak c = true) :
    s.line = a ∧ s.afterLine = b := by
  have ha' : ∀ c ∈ a, (!isBreak c) = true := fun c hc => by simp [ha c hc]
  have hcut : b.takeWhile (fun c => !isBreak c) = [] ∧
      b.dropWhile (fun c => !isBreak c) = b := by
    cases b with
    | nil => exact ⟨rfl, rfl⟩
    | cons c rest =>
      have hc : isBreak c = true := hb c rfl
      simp [hc]
  rw [line, afterLine, h, List.takeWhile_append_of_pos ha', List.dropWhile_append_of_pos ha',
    hcut.1, hcut.2, List.append_nil]
  exact ⟨rfl, rfl⟩

/-- What a cut takes off a stream. -/
theorem emit_of_rest {s : TokenStream} {cut : LineCut} {a b : List Char} (h : s.rest = a ++ b)
    (hlen : a.length = max cut.length 1) :
    s.emit cut =
      (⟨cut.kind, ⟨s.offset, s.offset + byteLength a, Nat.le_add_right _ _⟩, String.ofList a⟩,
        ⟨b, s.offset + byteLength a, cut.place, cut.doc⟩) := by
  have htake : s.rest.take (max cut.length 1) = a := by rw [h, ← hlen, List.take_left]
  have hdrop : s.rest.drop (max cut.length 1) = b := by rw [h, ← hlen, List.drop_left]
  simp only [emit, htake, hdrop]

/-- **`s.Gives kind a s'`** — the stream gives a token of a kind and a text, which is the first of
the pieces that remain, and goes on with the others. -/
structure Gives (s : TokenStream) (kind : TokenKind) (a : List Char) (s' : TokenStream) :
    Prop where
  next_eq : s.next =
    (some ⟨kind, ⟨s.offset, s.offset + byteLength a, Nat.le_add_right _ _⟩, String.ofList a⟩, s')
  offset_eq : s'.offset = s.offset + byteLength a
  remaining_eq : s.remaining = (kind, a) :: s'.remaining

/-- A cut gives a token if it takes the first piece off what remains. -/
theorem gives_of_cut {s : TokenStream} {a b : List Char} (h : s.rest = a ++ b) (hne : a ≠ [])
    (hlen : a.length = max s.cut.length 1)
    (hrem : s.remaining =
      (s.cut.kind, a) :: (mk b (s.offset + byteLength a) s.cut.place s.cut.doc).remaining) :
    s.Gives s.cut.kind a ⟨b, s.offset + byteLength a, s.cut.place, s.cut.doc⟩ := by
  refine ⟨?_, rfl, hrem⟩
  rw [next_of_ne_nil (by simp [h, hne]), emit_of_rest h hlen]

/-- At a line break the stream gives it and goes on at the start of the next line. -/
theorem gives_break {s : TokenStream} {c : Char} {rest : List Char} (h : s.rest = c :: rest)
    (hc : isBreak c = true) : ∃ kind a s', s.Gives kind a s' := by
  have hcut : s.cut = ⟨.newline, breakLength (c :: rest), .lineStart, s.doc⟩ := by
    rw [cut, h, List.head?_cons, if_pos (by simpa using hc)]
    rfl
  obtain ⟨hline, hafter⟩ := line_of_rest (a := []) h (by simp) (by simpa using hc)
  have hsplit : s.rest = (c :: rest).take (breakLength (c :: rest)) ++
      (c :: rest).drop (breakLength (c :: rest)) := by
    rw [h, List.take_append_drop]
  have hlen : ((c :: rest).take (breakLength (c :: rest))).length =
      max (breakLength (c :: rest)) 1 := length_take_breakLength c rest
  refine ⟨_, _, _, gives_of_cut hsplit ?_ ?_ ?_⟩
  · intro hnil
    rw [hnil, List.length_nil] at hlen
    omega
  · rw [hcut, hlen]
  · rw [hcut, remaining_lineStart, remaining, hline, hafter, lexemes_nil,
      lines_cons_of_isBreak hc]
    have hne : ((c :: rest).take (breakLength (c :: rest))).isEmpty = false := by
      rw [List.isEmpty_eq_false_iff, ← List.length_pos_iff, hlen]
      omega
    simp [Token.lexemes, Token.lineLexemes, Token.contentLexemes_nil, hne]

/-- Inside a line the stream gives the first piece of what is left of it. -/
theorem gives_line {s : TokenStream} {c : Char} {rest : List Char} (h : s.rest = c :: rest)
    (hc : isBreak c = false) : ∃ kind a s', s.Gives kind a s' := by
  obtain ⟨cs, hcs⟩ : ∃ cs, s.line = c :: cs := by
    refine ⟨rest.takeWhile fun c => !isBreak c, ?_⟩
    rw [line, h, List.takeWhile_cons, if_pos (by simp [hc])]
  have hcut : s.cut = .next s.place s.doc (c :: cs) := by
    rw [cut, h, List.head?_cons, if_neg (by simp [hc]), hcs]
  obtain ⟨a, b, hab, hlen, hall⟩ := LineCut.agrees_next s.place s.doc c cs
  rw [← hcut] at hlen hall
  have hsplit : s.rest = a ++ (b ++ s.afterLine) := by
    rw [← List.append_assoc, ← hab, ← hcs, line_append_afterLine]
  refine ⟨_, _, _, gives_of_cut hsplit ?_ hlen ?_⟩
  · intro hnil
    rw [hnil, List.length_nil] at hlen
    omega
  · have hb : ∀ d ∈ b, isBreak d = false := by
      intro d hd
      exact s.isBreak_of_mem_line d (by rw [hcs, hab]; exact List.mem_append_right a hd)
    obtain ⟨hline', hafter'⟩ := line_of_rest
      (s := ⟨b ++ s.afterLine, s.offset + byteLength a, s.cut.place, s.cut.doc⟩) rfl hb
      s.isBreak_head_afterLine
    rw [remaining, remaining, hline', hafter', hcs, hall]
    rfl

/-- **One step of a stream.** It is at its end, where nothing remains and it stays as it is, or it
gives the first of the pieces that remain and goes on with the others. -/
theorem next_spec (s : TokenStream) :
    (s.next = (none, s) ∧ s.remaining = []) ∨ ∃ kind a s', s.Gives kind a s' := by
  cases hrest : s.rest with
  | nil =>
    left
    obtain ⟨hline, hafter⟩ := line_of_rest (a := []) (b := []) hrest (by simp) (by simp)
    refine ⟨by rw [next, hrest], ?_⟩
    rw [remaining, hline, hafter, lexemes_nil]
    rfl
  | cons c rest =>
    right
    cases hc : isBreak c with
    | true => exact gives_break hrest hc
    | false => exact gives_line hrest hc

/-- **All steps of a stream.** What it gives are the tokens of the pieces that remain, and then
nothing. -/
theorem output_eq (s : TokenStream) (n : Nat) :
    s.output n = (Token.place s.offset s.remaining)[n]? := by
  induction n generalizing s with
  | zero =>
    rcases s.next_spec with ⟨hnext, hrem⟩ | ⟨kind, a, s', hgives⟩
    · rw [output, hnext, hrem]
      rfl
    · rw [output, hgives.next_eq, hgives.remaining_eq]
      rfl
  | succ n ih =>
    rcases s.next_spec with ⟨hnext, hrem⟩ | ⟨kind, a, s', hgives⟩
    · rw [output, hnext, ih, hrem]
      rfl
    · rw [output, hgives.next_eq, ih, hgives.offset_eq, hgives.remaining_eq]
      rfl

theorem output_ofSource (source : String) (n : Nat) :
    (ofSource source).output n = (tokenize source)[n]? := by
  rw [output_eq, ofSource, remaining_lineStart]
  rfl

end TokenStream

/-- **A source is read to its end, without gaps.** Asked again and again, a stream gives the tokens
of its source one after the other and then nothing for ever, and these tokens cover the source. -/
theorem stream_tiles_source (source : String) :
    (∀ n, (TokenStream.ofSource source).output n = (tokenize source)[n]?) ∧
      Tiling source.toList (tokenize source) :=
  ⟨TokenStream.output_ofSource source, tiling_tokenize source⟩

end FeatureFile
