/-
# FeatureFile.Proofs.Indent.LastKeyword — the keyword in front of an offset

What a line break inserts can be read off the lines of the source, with no tokens: it depends on the
last line outside every doc string that begins, behind its spaces and tabs, with a keyword in front
of the offset (`headedLines`). The break is the first one of the source, and the indentation is the
whole run of spaces and tabs of that line and what belongs below its keyword.

Keywords stand nowhere but at the start of such lines, and the token in front of one is the
indentation of its line or ends the line before (§B). The tokens lie in the order of their starts,
so those before an offset are a beginning of the list that a binary search finds (§C), and the last
keyword among them has the greatest start (§D).

Main statement: `lineBreakText?_readsLines`.
-/

import FeatureFile.Proofs.Indent.Repeat

namespace FeatureFile

open Text (isBreak isIndent byteLength)

/-! ## §A Headed lines -/

/-- A line that begins with a keyword: where the keyword starts, the run of spaces and tabs in front
of it, and the keyword. -/
structure HeadedLine where
  start : Nat
  indent : List Char
  keyword : Keyword
  deriving DecidableEq, Repr

namespace HeadedLine

/-- The doc string that is open behind a line without its indentation, given the one that is open
before it. -/
def docBehind (doc : Option Token.DocDelimiter) (body : List Char) : Option Token.DocDelimiter :=
  match doc with
  | none => Token.DocDelimiter.ofStart? body
  | some d => if d.chars.isPrefixOf body then none else some d

/-- A line at an offset as a headed line, if it is one. -/
def ofLine? (offset : Nat) (doc : Option Token.DocDelimiter) (l : Line) : Option HeadedLine :=
  if doc.isSome then none
  else
    (Token.keywordAt? (l.content.dropWhile isIndent)).map fun found =>
      let indent := l.content.takeWhile isIndent
      ⟨offset + byteLength indent, indent, found.1⟩

/-- The headed lines among lines that begin at an offset. -/
def ofLines (offset : Nat) (doc : Option Token.DocDelimiter) : List Line → List HeadedLine
  | [] => []
  | l :: rest =>
    (ofLine? offset doc l).toList ++
      ofLines (offset + byteLength l.chars) (docBehind doc (l.content.dropWhile isIndent)) rest

end HeadedLine

/-- **`headedLines source`** — the lines outside every doc string that begin, behind their spaces
and tabs, with a keyword. -/
def headedLines (source : String) : List HeadedLine :=
  HeadedLine.ofLines 0 none (lines source.toList)

/-- The first line break of a text; a line feed if it has none. -/
def firstBreak (cs : List Char) : List Char :=
  (((lines cs).map (·.ending)).find? fun ending => !ending.isEmpty).getD ['\n']

/-- A character that breaks no line does not change which break comes first. -/
theorem firstBreak_cons {c : Char} (hc : isBreak c = false) (cs : List Char) :
    firstBreak (c :: cs) = firstBreak cs := by
  rw [firstBreak, firstBreak, lines_cons_of_not_isBreak hc]
  cases lines cs <;> rfl

theorem firstBreak_of_isBreak {c : Char} (hc : isBreak c = true) (cs : List Char) :
    firstBreak (c :: cs) = (c :: cs).take (breakLength (c :: cs)) := by
  have hne : ((c :: cs).take (breakLength (c :: cs))).isEmpty = false := by
    unfold breakLength
    split <;> rfl
  rw [firstBreak, lines_cons_of_isBreak hc, List.map_cons, List.find?_cons_of_pos (by simp [hne])]
  rfl

/-- The ending of the lines is written like the first break. -/
theorem text_detect (cs : List Char) :
    (LineEnding.detect cs).text = String.ofList (firstBreak cs) := by
  induction cs with
  | nil => rfl
  | cons c cs ih =>
    cases hc : isBreak c with
    | false =>
      rw [firstBreak_cons hc, ← ih, LineEnding.detect, List.dropWhile_cons_of_pos (by simp [hc])]
      rfl
    | true =>
      rw [firstBreak_of_isBreak hc]
      have hbreak : c = '\n' ∨ c = '\r' := by simpa [isBreak] using hc
      obtain rfl | rfl := hbreak
      · rfl
      · rw [LineEnding.detect_carriageReturn]
        cases cs with
        | nil => rfl
        | cons d cs =>
          by_cases hd : d = '\n'
          · subst hd
            rfl
          · have hlength : breakLength ('\r' :: d :: cs) = 1 := by
              simpa [breakLength] using fun h => hd h.symm
            rw [if_neg (by simpa using hd), hlength]
            rfl

/-! ## §B The tokens of lines -/

namespace Token

theorem DocDelimiter.ofStart?_eq_none {cs : List Char} (h : cs.head? ≠ some '"')
    (h' : cs.head? ≠ some '`') : DocDelimiter.ofStart? cs = none := by
  cases hstart : DocDelimiter.ofStart? cs with
  | none => rfl
  | some d =>
    obtain ⟨rest, rfl⟩ := List.isPrefixOf_iff_prefix.mp (DocDelimiter.isPrefixOf_of_ofStart? hstart)
    cases d with
    | quotes => exact absurd rfl h
    | backticks => exact absurd rfl h'

/-- No keyword begins with a character that decides the class of a line. -/
theorem plainLexemes_of_keywordAt? {cs spelling : List Char} {k : Keyword}
    (h : keywordAt? cs = some (k, spelling)) :
    plainLexemes cs =
      ((.keyword k, spelling) :: afterKeyword k (cs.drop spelling.length), none) := by
  have hall : (Keyword.spellings.all fun entry =>
      ['#', '@', '|', '"', '`'].all fun c => entry.1.toList.head? != some c) = true := by decide
  have hhead : ∀ c ∈ ['#', '@', '|', '"', '`'], cs.head? ≠ some c := by
    obtain ⟨hne, ⟨rest, rfl⟩, -⟩ := spec_of_keywordAt? h
    obtain ⟨word, hmem, rfl⟩ := mem_spellings_of_keywordAt? h
    intro c hc
    rw [List.head?_append_of_ne_nil _ hne]
    exact bne_iff_ne.mp (List.all_eq_true.mp (List.all_eq_true.mp hall _ hmem) c hc)
  unfold plainLexemes
  split
  · rename_i heq
    exact absurd heq (hhead '#' (by decide))
  · rename_i heq
    exact absurd heq (hhead '@' (by decide))
  · rename_i heq
    exact absurd heq (hhead '|' (by decide))
  · rw [DocDelimiter.ofStart?_eq_none (hhead '"' (by decide)) (hhead '`' (by decide))]
    simp only [h]

theorem keyword?_of_isLoose {k : TokenKind} (h : Phase.isLoose k = true) : k.keyword? = none := by
  cases k with
  | keyword => exact absurd h (by simp [Phase.isLoose])
  | _ => rfl

theorem keyword?_of_mem_afterKeyword {k : Keyword} {cs : List Char} :
    ∀ kind ∈ kinds (afterKeyword k cs), kind.keyword? = none := by
  intro kind hkind
  rcases mem_kinds_afterKeyword kind hkind with hloose | hparameter
  · exact keyword?_of_isLoose hloose
  · simp only [List.mem_cons, List.not_mem_nil, or_false] at hparameter
    rcases hparameter with rfl | rfl | rfl <;> rfl

/-- Outside doc strings a line that begins with no keyword holds none. -/
theorem keyword?_of_mem_plainLexemes {cs : List Char} (h : keywordAt? cs = none) :
    ∀ kind ∈ kinds (plainLexemes cs).1, kind.keyword? = none := by
  unfold plainLexemes
  split
  · exact List.forall_mem_singleton.mpr rfl
  · exact fun kind hkind => keyword?_of_isLoose (isLoose_tagLexemes cs kind hkind)
  · exact fun kind hkind => keyword?_of_isLoose (isLoose_tableLexemes cs kind hkind)
  · split
    · exact List.forall_mem_cons.mpr
        ⟨rfl, fun kind hkind => keyword?_of_isLoose (isLoose_wordLexemes _ kind hkind)⟩
    · simp only [h]
      exact fun kind hkind => keyword?_of_isLoose (isLoose_wordLexemes cs kind hkind)

theorem keyword?_of_mem_docLexemes (d : DocDelimiter) (cs : List Char) :
    ∀ kind ∈ kinds (docLexemes d cs).1, kind.keyword? = none := by
  unfold docLexemes
  split
  · exact List.forall_mem_cons.mpr
      ⟨rfl, fun kind hkind => keyword?_of_isLoose (isLoose_wordLexemes _ kind hkind)⟩
  · exact List.forall_mem_singleton.mpr rfl

/-- A line leaves open what its delimiters say. -/
theorem snd_lineLexemes (doc : Option DocDelimiter) (l : Line) :
    (lineLexemes doc l).2 = HeadedLine.docBehind doc (l.content.dropWhile isIndent) := by
  show (bodyLexemes doc (l.content.dropWhile isIndent)).2 = _
  generalize l.content.dropWhile isIndent = body
  unfold bodyLexemes HeadedLine.docBehind
  cases doc with
  | some d =>
    split
    · rename_i hnil
      rw [List.isEmpty_iff.mp hnil]
      cases d <;> rfl
    · simp only [docLexemes]
      split <;> rfl
  | none =>
    split
    · rename_i hnil
      rw [List.isEmpty_iff.mp hnil]
      rfl
    · have hother {c : Char} (h : body.head? = some c) (hc : c ≠ '"') (hc' : c ≠ '`') :
          DocDelimiter.ofStart? body = none :=
        DocDelimiter.ofStart?_eq_none (by simpa [h] using hc) (by simpa [h] using hc')
      simp only [plainLexemes]
      split
      · rename_i heq
        exact (hother heq (by decide) (by decide)).symm
      · rename_i heq
        exact (hother heq (by decide) (by decide)).symm
      · rename_i heq
        exact (hother heq (by decide) (by decide)).symm
      · split
        · rename_i hstart
          exact hstart.symm
        · rename_i hstart
          rw [hstart]
          split <;> rfl

end Token

/-- What stands in front of a token, as an indentation: the text of the token before it if that is
white space. -/
def indentBehind : Option Token → List Char
  | some t => if t.kind = .whitespace then t.text.toList else []
  | none => []

/-- The keywords among tokens, each with the white space in front of it. -/
def keywordTokens (prev : Option Token) : List Token → List HeadedLine
  | [] => []
  | t :: rest =>
    (t.keyword?.map fun keyword => HeadedLine.mk t.span.start (indentBehind prev) keyword).toList ++
      keywordTokens (some t) rest

theorem keywordTokens_append (prev : Option Token) (a b : List Token) :
    keywordTokens prev (a ++ b) = keywordTokens prev a ++ keywordTokens (a.getLast?.or prev) b := by
  induction a generalizing prev with
  | nil => rfl
  | cons t a ih =>
    have hlast : ((t :: a).getLast?.or prev) = a.getLast?.or (some t) := by
      cases a <;> rfl
    rw [List.cons_append, keywordTokens, keywordTokens, ih, hlast, List.append_assoc]

theorem keywordTokens_eq_nil {prev : Option Token} {ts : List Token}
    (h : ∀ t ∈ ts, t.keyword? = none) : keywordTokens prev ts = [] := by
  induction ts generalizing prev with
  | nil => rfl
  | cons t ts ih =>
    obtain ⟨ht, hts⟩ := List.forall_mem_cons.mp h
    rw [keywordTokens, ht, ih hts]
    rfl

/-- A keyword with the white space in front of it is one of the tokens. -/
theorem exists_of_mem_keywordTokens {prev : Option Token} {ts : List Token} {l : HeadedLine}
    (h : l ∈ keywordTokens prev ts) :
    ∃ t ∈ ts, t.span.start = l.start ∧ t.keyword? = some l.keyword := by
  induction ts generalizing prev with
  | nil => exact absurd h List.not_mem_nil
  | cons t ts ih =>
    rcases List.mem_append.mp h with h | h
    · obtain ⟨k, hk, rfl⟩ := Option.map_eq_some_iff.mp (Option.mem_toList.mp h)
      exact ⟨t, List.mem_cons_self, rfl, hk⟩
    · obtain ⟨u, hu, hstart⟩ := ih h
      exact ⟨u, List.mem_cons_of_mem _ hu, hstart⟩

namespace Token

/-- Pieces that are no keywords. -/
theorem keywordTokens_place {prev : Option Token} {pieces : List Lexeme}
    (h : ∀ kind ∈ kinds pieces, kind.keyword? = none) (offset : Nat) :
    keywordTokens prev (place offset pieces) = [] := by
  refine keywordTokens_eq_nil fun t ht => h t.kind ?_
  rw [← map_kind_place offset]
  exact List.mem_map_of_mem ht

theorem keyword?_of_isTrivia {k : TokenKind} (h : k.isTrivia = true) : k.keyword? = none := by
  cases k with
  | keyword => exact absurd h (by simp [TokenKind.isTrivia])
  | _ => rfl

/-- A line without its indentation holds a keyword only if it begins with one, outside every doc
string. -/
theorem keywordTokens_body (prev : Option Token) (doc : Option DocDelimiter) (body : List Char)
    (offset : Nat) :
    keywordTokens prev (place offset (bodyLexemes doc body).1) =
      (if doc.isSome then none
        else (keywordAt? body).map fun found =>
          HeadedLine.mk offset (indentBehind prev) found.1).toList := by
  unfold bodyLexemes
  split
  · rename_i hnil
    rw [List.isEmpty_iff.mp hnil]
    cases doc <;> rfl
  · cases doc with
    | some d => exact keywordTokens_place (keyword?_of_mem_docLexemes d body) offset
    | none =>
      cases hkeyword : keywordAt? body with
      | none => exact keywordTokens_place (keyword?_of_mem_plainLexemes hkeyword) offset
      | some found =>
        obtain ⟨k, spelling⟩ := found
        simp only [plainLexemes_of_keywordAt? hkeyword, place, keywordTokens,
          keywordTokens_place keyword?_of_mem_afterKeyword]
        rfl

/-- A line is its indentation, what stands behind it, and its break. -/
theorem lineLexemes_body (doc : Option DocDelimiter) (l : Line) :
    (lineLexemes doc l).1 =
      indentLexemes l.content ++
        ((bodyLexemes doc (l.content.dropWhile isIndent)).1 ++ breakLexemes l.ending) := by
  simp only [lineLexemes, contentLexemes, indentLexemes, breakLexemes]
  split <;> split <;> simp

theorem indentBehind_indent {prev : Option Token} (hprev : indentBehind prev = [])
    (cs : List Char) (offset : Nat) :
    indentBehind ((place offset (indentLexemes cs)).getLast?.or prev) = cs.takeWhile isIndent := by
  unfold indentLexemes
  split
  · rename_i hnil
    rw [List.isEmpty_iff.mp hnil]
    exact hprev
  · simp [place, indentBehind]

theorem join_indentLexemes (cs : List Char) :
    (indentLexemes cs).flatMap Prod.snd = cs.takeWhile isIndent := by
  unfold indentLexemes
  split
  · rename_i hnil
    rw [List.isEmpty_iff.mp hnil]
    rfl
  · exact List.append_nil _

/-- The keyword of a line, with the whole indentation in front of it. -/
theorem keywordTokens_line {prev : Option Token} (hprev : indentBehind prev = [])
    (doc : Option DocDelimiter) (l : Line) (offset : Nat) :
    keywordTokens prev (place offset (lineLexemes doc l).1) =
      (HeadedLine.ofLine? offset doc l).toList := by
  have htrivia {pieces : List Lexeme} (h : ∀ piece ∈ pieces, piece.1.isTrivia = true) :
      ∀ kind ∈ kinds pieces, kind.keyword? = none := by
    intro kind hkind
    obtain ⟨piece, hpiece, rfl⟩ := List.mem_map.mp hkind
    exact keyword?_of_isTrivia (h piece hpiece)
  rw [lineLexemes_body, place_append, keywordTokens_append,
    keywordTokens_place (htrivia (isTrivia_indentLexemes l.content)), List.nil_append,
    place_append, keywordTokens_append, keywordTokens_body, indentBehind_indent hprev,
    join_indentLexemes, keywordTokens_place (htrivia (isTrivia_breakLexemes l.ending)),
    List.append_nil]
  rfl

/-- Behind a line break no indentation has begun. -/
theorem indentBehind_line (prev : Option Token) (doc : Option DocDelimiter) {l : Line}
    (hending : l.ending ≠ []) (offset : Nat) :
    indentBehind ((place offset (lineLexemes doc l).1).getLast?.or prev) = [] := by
  have hbreak : breakLexemes l.ending = [(.newline, l.ending)] :=
    if_neg (by simpa using hending)
  rw [lineLexemes_body, ← List.append_assoc, hbreak, place_append]
  simp [place, indentBehind]

theorem keywordTokens_lexemes {prev : Option Token} (hprev : indentBehind prev = [])
    {ls : List Line} (h : Broken ls) (doc : Option DocDelimiter) (offset : Nat) :
    keywordTokens prev (place offset (lexemes doc ls)) = HeadedLine.ofLines offset doc ls := by
  induction ls generalizing prev doc offset with
  | nil => rfl
  | cons l rest ih =>
    rw [lexemes, place_append, keywordTokens_append, keywordTokens_line hprev,
      (cuts_lineLexemes doc l).join, snd_lineLexemes, HeadedLine.ofLines]
    congr 1
    by_cases hending : l.ending = []
    · rw [h.eq_nil hending]
      rfl
    · exact ih (indentBehind_line prev doc hending offset) h.tail _ _

end Token

/-- **The keywords of a source** stand at the beginning of its headed lines, and nowhere else. -/
theorem keywordTokens_tokenize (source : String) :
    keywordTokens none (tokenize source) = headedLines source :=
  Token.keywordTokens_lexemes rfl (broken_lines source.toList) none 0

/-! ## §C The tokens in front of an offset -/

/-- Where a condition ceases to hold between two numbers, by halving. -/
def partitionPoint (p : Nat → Bool) (low high : Nat) : Nat :=
  if low < high then
    let middle := (low + high) / 2
    if p middle then partitionPoint p (middle + 1) high else partitionPoint p low middle
  else low
  termination_by high - low

theorem partitionPoint_eq {p : Nat → Bool} {low high n : Nat} (hlow : low ≤ n) (hhigh : n ≤ high)
    (h : ∀ i < high, (p i = true ↔ i < n)) : partitionPoint p low high = n := by
  fun_induction partitionPoint p low high with
  | case1 low high hlt middle hp ih =>
    have hmiddle := (h middle (by omega)).mp hp
    exact ih hmiddle hhigh h
  | case2 low high hlt middle hp ih =>
    have hmiddle : ¬middle < n := fun hlt => hp ((h middle (by omega)).mpr hlt)
    exact ih hlow (by omega) fun i hi => h i (by omega)
  | case3 low high hge => omega

/-- The number of tokens that start before an offset, by binary search. -/
def countBefore (tokens : List Token) (offset : Nat) : Nat :=
  partitionPoint (fun i => tokens[i]?.any fun t => t.span.start < offset) 0 tokens.length

section Ordered

variable {tokens : List Token}
  (hordered : tokens.Pairwise fun t u => t.span.start < u.span.start)

include hordered

/-- Behind the first token that does not start before an offset, none does. -/
theorem le_start_of_mem_dropWhile {offset : Nat} :
    ∀ t ∈ tokens.dropWhile fun t => t.span.start < offset, offset ≤ t.span.start := by
  induction tokens with
  | nil => simp
  | cons t tokens ih =>
    obtain ⟨ht, hrest⟩ := List.pairwise_cons.mp hordered
    by_cases hlt : t.span.start < offset
    · rw [List.dropWhile_cons_of_pos (by simpa using hlt)]
      exact ih hrest
    · rw [List.dropWhile_cons_of_neg (by simpa using hlt)]
      refine List.forall_mem_cons.mpr ⟨by omega, fun u hu => ?_⟩
      have := ht u hu
      omega

/-- A binary search finds the tokens that start before an offset. -/
theorem take_countBefore (offset : Nat) :
    tokens.take (countBefore tokens offset) = tokens.takeWhile fun t => t.span.start < offset := by
  have happend := List.takeWhile_append_dropWhile (p := fun t : Token => t.span.start < offset)
    (l := tokens)
  have hback : ∀ t ∈ tokens.dropWhile fun t => t.span.start < offset, offset ≤ t.span.start :=
    le_start_of_mem_dropWhile hordered
  have hfront : ∀ t ∈ tokens.takeWhile fun t => t.span.start < offset, t.span.start < offset :=
    fun t ht => by simpa using List.mem_takeWhile_imp ht
  have hprefix := List.takeWhile_prefix (l := tokens) fun t => t.span.start < offset
  generalize tokens.takeWhile (fun t => t.span.start < offset) = front at happend hfront hprefix ⊢
  generalize tokens.dropWhile (fun t => t.span.start < offset) = back at happend hback
  have hcount : countBefore tokens offset = front.length := by
    refine partitionPoint_eq (Nat.zero_le _) hprefix.length_le fun i hi => ?_
    obtain ⟨t, hget⟩ : ∃ t, tokens[i]? = some t := ⟨_, List.getElem?_eq_getElem hi⟩
    rw [hget, Option.any_some, decide_eq_true_eq]
    rw [← happend] at hget
    rcases Nat.lt_or_ge i front.length with hlt | hge
    · rw [List.getElem?_append_left hlt] at hget
      exact iff_of_true (hfront t (List.mem_of_getElem? hget)) hlt
    · rw [List.getElem?_append_right hge] at hget
      have := hback t (List.mem_of_getElem? hget)
      omega
  rw [hcount]
  exact (List.prefix_iff_eq_take.mp hprefix).symm

/-- The keywords among the tokens in front of an offset are those that start before it. -/
theorem keywordTokens_takeWhile (prev : Option Token) (offset : Nat) :
    keywordTokens prev (tokens.takeWhile fun t => t.span.start < offset) =
      (keywordTokens prev tokens).filter fun l => l.start < offset := by
  conv_rhs => rw [← List.takeWhile_append_dropWhile (p := fun t : Token => t.span.start < offset)
    (l := tokens), keywordTokens_append, List.filter_append]
  rw [List.filter_eq_self.mpr, List.filter_eq_nil_iff.mpr, List.append_nil]
  · intro l hl
    obtain ⟨t, ht, hstart, -⟩ := exists_of_mem_keywordTokens hl
    have := le_start_of_mem_dropWhile hordered t ht
    simp only [decide_eq_true_eq]
    omega
  · intro l hl
    obtain ⟨t, ht, hstart, -⟩ := exists_of_mem_keywordTokens hl
    have hlt : t.span.start < offset := by simpa using List.mem_takeWhile_imp ht
    simp only [decide_eq_true_eq]
    omega

end Ordered

/-! ## §D The last keyword -/

/-- A keyword as a headed line: where it starts, and the indentation that is looked up for it. -/
def foundLine (tokens : List Token) (found : Nat × Token × Keyword) : HeadedLine :=
  ⟨found.2.1.span.start, (baseIndent tokens found.1).toList, found.2.2⟩

/-- The indentation that is looked up is the white space in front of a token. -/
theorem baseIndent_split (front back : List Token) :
    (baseIndent (front ++ back) front.length).toList = indentBehind front.getLast? := by
  unfold baseIndent
  split
  · rename_i hnil
    rw [List.length_eq_zero_iff.mp hnil]
    rfl
  · rw [List.getElem?_append_left (by omega), ← List.getLast?_eq_getElem?]
    cases front.getLast? with
    | none => rfl
    | some t =>
      simp only [indentBehind]
      split <;> rfl

/-- A scan from the last token to the first finds the last keyword. -/
theorem scan_eq_getLast? (front back : List Token) :
    (front.zipIdx.reverse.findSome? fun (t, index) =>
        t.keyword?.map fun keyword => (index, t, keyword)).map (foundLine (front ++ back)) =
      (keywordTokens none front).getLast? := by
  induction front using List.reverseRecOn generalizing back with
  | nil => rfl
  | append_singleton front t ih =>
    have hsplit : front ++ [t] ++ back = front ++ t :: back := by simp
    rw [hsplit, List.zipIdx_append, List.reverse_append, keywordTokens_append, Option.or_none]
    cases hkeyword : t.keyword? with
    | none => simpa [keywordTokens, hkeyword] using ih (t :: back)
    | some keyword =>
      simp [keywordTokens, hkeyword, foundLine, baseIndent_split]

theorem lastKeywordBefore?_eq_getLast? {tokens : List Token}
    (hordered : tokens.Pairwise fun t u => t.span.start < u.span.start) (offset : Nat) :
    (lastKeywordBefore? tokens offset).map (foundLine tokens) =
      ((keywordTokens none tokens).filter fun l => l.start < offset).getLast? := by
  have hscan := scan_eq_getLast? (tokens.takeWhile fun t => t.span.start < offset)
    (tokens.dropWhile fun t => t.span.start < offset)
  rw [List.takeWhile_append_dropWhile, keywordTokens_takeWhile hordered] at hscan
  exact hscan

/-- Whatever starts before an offset is among the tokens that are scanned. -/
theorem mem_takeWhile_of_start {tokens : List Token}
    (hordered : tokens.Pairwise fun t u => t.span.start < u.span.start) {offset : Nat} {t : Token}
    (ht : t ∈ tokens) (hlt : t.span.start < offset) :
    t ∈ tokens.takeWhile fun t => t.span.start < offset := by
  rw [← List.takeWhile_append_dropWhile (p := fun t : Token => t.span.start < offset) (l := tokens)]
    at ht
  rcases List.mem_append.mp ht with h | h
  · exact h
  · have := le_start_of_mem_dropWhile hordered t h
    omega

/-- No keyword is found if and only if none starts before the offset. -/
theorem lastKeywordBefore?_eq_none_iff {tokens : List Token}
    (hordered : tokens.Pairwise fun t u => t.span.start < u.span.start) {offset : Nat} :
    lastKeywordBefore? tokens offset = none ↔
      ∀ t ∈ tokens, t.keyword? ≠ none → offset ≤ t.span.start := by
  refine List.findSome?_eq_none_iff.trans ⟨fun h t ht hkeyword => ?_, fun h => ?_⟩
  · by_contra hle
    have hlt : t.span.start < offset := Nat.lt_of_not_le hle
    obtain ⟨i, hi⟩ := List.mem_iff_getElem?.mp (mem_takeWhile_of_start hordered ht hlt)
    have hnone := h (t, i) (List.mem_reverse.mpr (List.mem_zipIdx_iff_getElem?.mpr hi))
    exact hkeyword (by simpa using hnone)
  · rintro ⟨t, i⟩ hmem
    have ht := List.mem_of_getElem? (List.mem_zipIdx_iff_getElem?.mp (List.mem_reverse.mp hmem))
    have hlt : t.span.start < offset := by simpa using List.mem_takeWhile_imp ht
    have hkeyword : t.keyword? = none := by
      by_contra hkeyword
      have := h t (List.takeWhile_subset _ ht) hkeyword
      omega
    show t.keyword?.map _ = none
    rw [hkeyword, Option.map_none]

/-- The last keyword before an offset starts there, and no keyword before the offset starts later.
-/
theorem greatest_of_lastKeywordBefore? {tokens : List Token}
    (hordered : tokens.Pairwise fun t u => t.span.start < u.span.start) {offset index : Nat}
    {t : Token} {keyword : Keyword}
    (h : lastKeywordBefore? tokens offset = some (index, t, keyword)) :
    t.keyword? = some keyword ∧ t.span.start < offset ∧
      ∀ u ∈ tokens, u.keyword? ≠ none → u.span.start < offset → u.span.start ≤ t.span.start := by
  obtain ⟨later, ⟨t', i⟩, earlier, hsplit, hfound, hlater⟩ := List.findSome?_eq_some_iff.mp h
  obtain ⟨k, hk, heq⟩ := Option.map_eq_some_iff.mp hfound
  obtain ⟨rfl, rfl, rfl⟩ : i = index ∧ t' = t ∧ k = keyword := by simpa using heq
  -- The tokens in front of the offset, in their order: earlier ones, the keyword, and later ones.
  have hfront : tokens.takeWhile (fun t => t.span.start < offset) =
      (earlier.map Prod.fst).reverse ++ t' :: (later.map Prod.fst).reverse := by
    have hzip := congrArg List.reverse hsplit
    rw [List.reverse_reverse] at hzip
    have hmap := congrArg (List.map Prod.fst) hzip
    rw [List.zipIdx_map_fst] at hmap
    rw [hmap]
    simp
  have hmem : t' ∈ tokens.takeWhile fun t => t.span.start < offset := by
    rw [hfront]
    simp
  refine ⟨hk, by simpa using List.mem_takeWhile_imp hmem, fun u hu hkeyword hlt => ?_⟩
  have hu' := mem_takeWhile_of_start hordered hu hlt
  have hpairs := hordered.sublist (List.takeWhile_sublist fun t => t.span.start < offset)
  rw [hfront] at hu' hpairs
  rcases List.mem_append.mp hu' with hearlier | hrest
  · exact Nat.le_of_lt ((List.pairwise_append.mp hpairs).2.2 u hearlier t' List.mem_cons_self)
  rcases List.mem_cons.mp hrest with rfl | hmem
  · exact Nat.le_refl _
  · obtain ⟨⟨u', j⟩, hx, rfl⟩ := List.mem_map.mp (List.mem_reverse.mp hmem)
    exact absurd (by simpa using hlater _ hx) hkeyword

/-- The last keyword before an offset is the one with the greatest start. -/
theorem lastKeywordBefore?_eq_some_iff {tokens : List Token}
    (hordered : tokens.Pairwise fun t u => t.span.start < u.span.start) {offset index : Nat}
    {t : Token} {keyword : Keyword} :
    lastKeywordBefore? tokens offset = some (index, t, keyword) ↔
      tokens[index]? = some t ∧ t.keyword? = some keyword ∧ t.span.start < offset ∧
        ∀ u ∈ tokens, u.keyword? ≠ none → u.span.start < offset → u.span.start ≤ t.span.start := by
  refine ⟨fun h => ?_, ?_⟩
  · exact ⟨getElem?_of_lastKeywordBefore? h, greatest_of_lastKeywordBefore? hordered h⟩
  rintro ⟨hget, hkeyword, hlt, hgreatest⟩
  have hmem := List.mem_of_getElem? hget
  cases h : lastKeywordBefore? tokens offset with
  | none =>
    have := (lastKeywordBefore?_eq_none_iff hordered).mp h t hmem (by simp [hkeyword])
    omega
  | some found =>
    obtain ⟨index', t', keyword'⟩ := found
    have hget' := getElem?_of_lastKeywordBefore? h
    obtain ⟨hkeyword', hlt', hgreatest'⟩ := greatest_of_lastKeywordBefore? hordered h
    have hle := hgreatest t' (List.mem_of_getElem? hget') (by simp [hkeyword']) hlt'
    have hge := hgreatest' t hmem (by simp [hkeyword]) hlt
    obtain ⟨hi, rfl⟩ := List.getElem?_eq_some_iff.mp hget
    obtain ⟨hi', rfl⟩ := List.getElem?_eq_some_iff.mp hget'
    -- Of two tokens that start at one place neither comes first.
    have hindex : index = index' := by
      rcases Nat.lt_trichotomy index index' with hbefore | heq | hbehind
      · have := List.pairwise_iff_getElem.mp hordered index index' hi hi' hbefore
        omega
      · exact heq
      · have := List.pairwise_iff_getElem.mp hordered index' index hi' hi hbehind
        omega
    subst hindex
    rw [Option.some.inj (hkeyword'.symm.trans hkeyword)]

/-- **`lineBreakText?_readsLines`** — what a line break inserts, read off the lines of the source:
the first break of the source, the whole indentation of the last headed line in front of the offset,
and what belongs below its keyword; nothing if there is no such line. The keyword is the token that
a binary search and a scan back from there find, the one with the greatest start below the offset.
-/
theorem lineBreakText?_readsLines (source : String) (offset : Nat) (o : IndentOptions) :
    (lineBreakText? source offset o = none ↔ ∀ l ∈ headedLines source, offset ≤ l.start) ∧
      lineBreakText? source offset o =
        (((headedLines source).filter fun l => l.start < offset).getLast?.map fun l =>
          String.ofList (firstBreak source.toList) ++ String.ofList l.indent ++
            indentText (l.keyword.levelsBelow o) o) ∧
      lastKeywordBefore? (tokenize source) offset =
        (((tokenize source).take (countBefore (tokenize source) offset)).zipIdx.reverse.findSome?
          fun (t, index) => t.keyword?.map fun keyword => (index, t, keyword)) ∧
      ∀ index t keyword, lastKeywordBefore? (tokenize source) offset = some (index, t, keyword) ↔
        (tokenize source)[index]? = some t ∧ t.keyword? = some keyword ∧ t.span.start < offset ∧
          ∀ u ∈ tokenize source, u.keyword? ≠ none → u.span.start < offset →
            u.span.start ≤ t.span.start := by
  have hordered := (tiles_tokenize source).pairwise_start
  have hread : lineBreakText? source offset o =
      (((headedLines source).filter fun l => l.start < offset).getLast?.map fun l =>
        String.ofList (firstBreak source.toList) ++ String.ofList l.indent ++
          indentText (l.keyword.levelsBelow o) o) := by
    rw [← keywordTokens_tokenize, ← lastKeywordBefore?_eq_getLast? hordered, Option.map_map]
    unfold lineBreakText?
    refine congrArg (Option.map · _) (funext fun found => ?_)
    rw [Function.comp_apply, foundLine, text_detect, String.ofList_toList]
  refine ⟨?_, hread, ?_, fun index t keyword => lastKeywordBefore?_eq_some_iff hordered⟩
  · rw [hread, Option.map_eq_none_iff, List.getLast?_eq_none_iff, List.filter_eq_nil_iff]
    simp
  · rw [take_countBefore hordered]
    rfl

end FeatureFile
