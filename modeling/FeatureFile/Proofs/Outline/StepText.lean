/-
# FeatureFile.Proofs.Outline.StepText — the texts of a step are read off its line

The texts of a step are put together from the elements on its line, while the line itself stands in
the source. Both are the same: the elements lie end to end over the line (`Element.Written.laid`),
and what they leave out at its end, or what is left out before the text, is blank and trimmed.

So every text of a step is a function of its line alone, whatever follows the line
(`parse_readsLines`), and the text up to a caret is a slice of the source, cut at a character
boundary (`parse_readsCarets`).
-/

import FeatureFile.Proofs.Outline.StepTree
import FeatureFile.Proofs.Text.Cuts

namespace FeatureFile

open Text (isBlank isIndent isBreak isBoundary byteLength byteSize)

/-! ## §A The elements of a text -/

namespace Laid

variable {a b : Nat} {ss ts : List Span}

theorem split (h : Laid a (ss ++ ts) b) : ∃ m, Laid a ss m ∧ Laid m ts b := by
  induction ss generalizing a with
  | nil => exact ⟨a, .nil, h⟩
  | cons s ss ih =>
    cases h with
    | cons hstart hlt hrest =>
      obtain ⟨m, hleft, hright⟩ := ih hrest
      exact ⟨m, .cons hstart hlt hleft, hright⟩

theorem le_start_of_mem {s : Span} (h : Laid a ss b) (hs : s ∈ ss) : a ≤ s.start := by
  obtain ⟨left, right, rfl⟩ := List.append_of_mem hs
  obtain ⟨m, hleft, hright⟩ := h.split
  rw [hright.head_start]
  by_cases hnil : left = []
  · subst hnil
    cases hleft
    exact Nat.le_refl a
  · exact Nat.le_of_lt (hleft.lt hnil)

/-- Spans that lie end to end stand one behind the other. -/
theorem pairwise (h : Laid a ss b) : ss.Pairwise fun s t => s.stop ≤ t.start := by
  induction ss generalizing a with
  | nil => exact .nil
  | cons s ss ih =>
    cases h with
    | cons _ _ hrest => exact .cons (fun t ht => hrest.le_start_of_mem ht) (ih hrest)

theorem start_lt_of_mem {s : Span} (h : Laid a ss b) (hs : s ∈ ss) : s.start < b := by
  obtain ⟨left, right, rfl⟩ := List.append_of_mem hs
  obtain ⟨m, -, hright⟩ := h.split
  rw [hright.head_start]
  exact hright.lt (List.cons_ne_nil s right)

end Laid

theorem Text.byteLength_brackets (name : List Char) :
    byteLength ('<' :: (name ++ ['>'])) = byteLength name + 2 := by
  obtain ⟨hopen, hclose⟩ := byteLength_bracket
  rw [← List.singleton_append, byteLength_append, byteLength_append, hopen, hclose]
  omega

namespace Element

variable {offset : Nat} {cs : List Char} {es : List Element}

/-- **`e.Sized`** — the span of an element is as long as its text. -/
def Sized (e : Element) : Prop := e.span.stop = e.span.start + byteLength e.text

theorem textOf_cons (e : Element) (es : List Element) : textOf (e :: es) = e.text ++ textOf es :=
  List.flatMap_cons

theorem textOf_append (a b : List Element) : textOf (a ++ b) = textOf a ++ textOf b :=
  List.flatMap_append

@[simp] theorem text_ofPiece (index : Nat) (kind : TokenKind) (offset : Nat) (cs : List Char) :
    (token index (Token.ofPiece kind offset cs)).text = cs := by
  rw [text, tokens, List.flatMap_singleton]
  exact String.toList_ofList

/-- A parameter is written as its name in brackets. -/
@[simp] theorem text_parameter (id : Nat) (span : Span) (index offset : Nat) (name : List Char) :
    (node id .stepParameter span (ofName index offset name)).text = '<' :: (name ++ ['>']) := by
  simp [text, tokens, ofName, tokensOf, Token.ofPiece]

/-- Elements that lie end to end reach as far as their texts. -/
theorem stop_of_laid {start stop : Nat} (h : Laid start (es.map span) stop)
    (hsized : ∀ e ∈ es, e.Sized) : stop = start + byteLength (textOf es) := by
  induction es generalizing start with
  | nil =>
    cases h
    rfl
  | cons e es ih =>
    obtain ⟨he, hes⟩ := List.forall_mem_cons.mp hsized
    cases h with
    | cons hstart _ hrest =>
      rw [ih hrest hes, he, hstart, textOf_cons, Text.byteLength_append, Nat.add_assoc]

namespace Written

/-- What an element of a text stands for: it is not empty, begins where the text begins, is as long
as it is written, and the others are the elements of the rest. -/
theorem of_cons {e : Element} (h : Written offset cs (e :: es)) :
    ∃ rest, cs = e.text ++ rest ∧ e.text ≠ [] ∧ e.span.start = offset ∧ e.Sized ∧
      Written e.span.stop rest es := by
  cases h with
  | @white _ _ c cs _ _ hrest =>
    rw [Sized, text_ofPiece]
    refine ⟨cs.dropWhile isIndent, ?_, List.cons_ne_nil _ _, rfl, rfl, hrest⟩
    rw [List.cons_append, List.takeWhile_append_dropWhile]
  | @parameter _ index id _ _ name after _ _ hparameter hrest =>
    obtain ⟨hstart, hstop⟩ := coverAll_ofName index offset name
    rw [Sized, text_parameter, span, hstart, hstop, Text.byteLength_brackets]
    refine ⟨after, ?_, List.cons_ne_nil _ _, rfl, rfl, hrest⟩
    rw [(Token.eq_of_parameter? hparameter).1, List.cons_append, List.append_assoc,
      List.singleton_append]
  | @word _ _ c cs _ _ _ hrest =>
    rw [Sized, text_ofPiece]
    refine ⟨(Token.wordEnd cs).2, ?_, List.cons_ne_nil _ _, rfl, rfl, hrest⟩
    rw [List.cons_append, Token.wordEnd_append]

theorem eq_nil (h : Written offset [] es) : es = [] := by
  cases h
  rfl

theorem sized (h : Written offset cs es) : ∀ e ∈ es, e.Sized := by
  induction es generalizing offset cs with
  | nil => exact fun _ h => absurd h List.not_mem_nil
  | cons e es ih =>
    obtain ⟨rest, -, -, -, he, hes⟩ := h.of_cons
    exact List.forall_mem_cons.mpr ⟨he, ih hes⟩

/-- **The elements of a text are written as the text.** -/
theorem textOf_eq (h : Written offset cs es) : textOf es = cs := by
  induction es generalizing offset cs with
  | nil =>
    cases h
    rfl
  | cons e es ih =>
    obtain ⟨rest, rfl, -, -, -, hes⟩ := h.of_cons
    rw [textOf_cons, ih hes]

/-- **The elements of a text lie end to end over it.** -/
theorem laid (h : Written offset cs es) :
    Laid offset (es.map span) (offset + byteLength cs) := by
  induction es generalizing offset cs with
  | nil =>
    cases h
    exact .nil
  | cons e es ih =>
    obtain ⟨rest, rfl, hne, hstart, he, hes⟩ := h.of_cons
    have hpos := Text.byteLength_pos hne
    have hrest := ih hes
    rw [he, hstart, Nat.add_assoc, ← Text.byteLength_append] at hrest
    refine .cons hstart (by rw [he]; omega) ?_
    rwa [he, hstart]

/-- White space is written in spaces and tabs. -/
theorem isIndent_of_white (h : Written offset cs es) :
    ∀ e ∈ es, e.isToken (· = .whitespace) = true → ∀ c ∈ e.text, isIndent c = true := by
  induction h with
  | nil => exact fun _ h => absurd h List.not_mem_nil
  | white hc _ ih =>
    refine List.forall_mem_cons.mpr ⟨fun _ => ?_, ih⟩
    rw [text_ofPiece]
    exact List.forall_mem_cons.mpr ⟨hc, fun _ hd => List.mem_takeWhile_imp hd⟩
  | parameter _ _ _ ih => exact List.forall_mem_cons.mpr ⟨fun h => absurd h Bool.false_ne_true, ih⟩
  | word _ _ _ ih => exact List.forall_mem_cons.mpr ⟨fun h => absurd h Bool.false_ne_true, ih⟩

theorem isIndent_of_mem_textOf (h : Written offset cs es) {white : List Element}
    (hsubset : white ⊆ es) (hwhite : ∀ e ∈ white, e.isToken (· = .whitespace) = true) :
    ∀ c ∈ textOf white, isIndent c = true := by
  intro c hc
  obtain ⟨e, he, hc⟩ := List.mem_flatMap.mp hc
  exact h.isIndent_of_white e (hsubset he) (hwhite e he) c hc

/-- Where a text begins with no space or tab, its elements begin with no white space. -/
theorem head_of_isIndent (h : Written offset cs es) (hcs : ∀ c ∈ cs.head?, isIndent c = false) :
    ∀ e ∈ es.head?, e.isToken (· = .whitespace) = false := by
  cases h with
  | nil => exact fun _ h => by cases h
  | @white _ _ c _ _ hc _ =>
    rw [hcs c rfl] at hc
    cases hc
  | parameter => exact fun e he => by cases he; rfl
  | word => exact fun e he => by cases he; rfl

theorem dropWhile_eq_self (h : Written offset cs es) (hcs : ∀ c ∈ cs.head?, isIndent c = false) :
    es.dropWhile (·.isToken (· = .whitespace)) = es := by
  cases es with
  | nil => rfl
  | cons e es => exact List.dropWhile_cons_of_neg (by simp [h.head_of_isIndent hcs e rfl])

/-- The elements behind the white space that a text begins with are those of the text behind its
spaces and tabs. -/
theorem dropWhile (h : Written offset cs es) :
    Written (offset + byteLength (cs.takeWhile isIndent)) (cs.dropWhile isIndent)
      (es.dropWhile (·.isToken (· = .whitespace))) := by
  cases h with
  | nil => exact .nil offset
  | @white _ index c cs es hc hrest =>
    have hhead : ∀ d ∈ (cs.dropWhile isIndent).head?, isIndent d = false := fun d hd => by
      have hnot := List.head?_dropWhile_not isIndent cs
      rwa [show (cs.dropWhile isIndent).head? = some d from hd] at hnot
    rw [List.takeWhile_cons_of_pos hc, List.dropWhile_cons_of_pos hc,
      List.dropWhile_cons_of_pos (show isToken _ _ = true from rfl), hrest.dropWhile_eq_self hhead]
    exact hrest
  | @parameter _ _ _ c cs _ _ _ hc hparameter hrest =>
    rw [List.takeWhile_cons_of_neg (by simp [hc]), List.dropWhile_cons_of_neg (by simp [hc])]
    exact .parameter hc hparameter hrest
  | @word _ _ c cs _ hc hnone hrest =>
    rw [List.takeWhile_cons_of_neg (by simp [hc]), List.dropWhile_cons_of_neg (by simp [hc])]
    exact .word hc hnone hrest

end Written

end Element

/-! ## §B The line of a step in its source -/

/-- The line of a text from an offset on: up to the next line break, or to the end. -/
def Text.lineFrom (offset : Nat) (cs : List Char) : List Char :=
  match splitAt? offset cs with
  | some (_, after) => after.takeWhile (!isBreak ·)
  | none => []

/-- A line is what stands before a line break. -/
theorem Text.lineFrom_byteLength (before : List Char) {line after : List Char}
    (hline : ∀ c ∈ line, isBreak c = false) (hafter : ∀ c ∈ after.head?, isBreak c = true) :
    lineFrom (byteLength before) (before ++ (line ++ after)) = line := by
  have hall : ∀ c ∈ line, (!isBreak c) = true := fun c hc => by rw [hline c hc]; rfl
  rw [lineFrom, splitAt?_byteLength]
  show (line ++ after).takeWhile _ = line
  rw [List.takeWhile_append_of_pos hall]
  cases after with
  | nil => exact List.append_nil line
  | cons c after =>
    rw [List.takeWhile_cons_of_neg (by simp [hafter c rfl]), List.append_nil]

/-- No line break stands in a spelling of a keyword. -/
theorem isBreak_of_mem_spellings {word : String} {k : Keyword} (h : (word, k) ∈ Keyword.spellings) :
    ∀ c ∈ word.toList, isBreak c = false := by
  have hall : ∀ entry ∈ Keyword.spellings, entry.1.toList.all (!isBreak ·) = true := by decide
  intro c hc
  simpa using List.all_eq_true.mp (hall _ h) c hc

/-- No spelling of a keyword begins with a blank. -/
theorem isBlank_of_mem_spellings {word : String} {k : Keyword} (h : (word, k) ∈ Keyword.spellings) :
    ∀ c ∈ word.toList.head?, isBlank c = false := by
  have hall : ∀ entry ∈ Keyword.spellings, entry.1.toList.head?.all (!isBlank ·) = true := by
    decide
  intro c hc
  have hhead := hall _ h
  rw [Option.mem_def.mp hc] at hhead
  simpa using hhead

namespace Step

/-- The line that the step begins, as it stands in the source. -/
def sourceLine (source : String) (s : Step) : List Char :=
  Text.lineFrom s.node.span.start source.toList

/-- What the line says behind the keyword. -/
def restOfLine (source : String) (s : Step) : List Char :=
  (s.sourceLine source).drop s.keywordText.length

/-- **`s.StandsIn source`** — the line of the step in the source: the keyword is written in one of
its spellings, and behind it the elements on the line are those of the rest, but for white space at
the end. -/
structure StandsIn (source : String) (s : Step) : Prop where
  source_eq : ∃ before after, source.toList = before ++ (s.sourceLine source ++ after) ∧
    s.node.span.start = byteLength before
  sourceLine_eq : s.sourceLine source = s.keywordText.toList ++ s.restOfLine source
  keyword_eq : Token.keywordAt? (s.sourceLine source) =
    some (.step s.keyword, s.keywordText.toList)
  lineElements_eq : ∃ index, s.lineElements =
    .token index (.ofPiece (.keyword (.step s.keyword)) s.node.span.start s.keywordText.toList) ::
      s.bodyElements
  written : ∃ white, (∀ e ∈ white, e.isToken (· = .whitespace) = true) ∧
    Element.Written (s.node.span.start + byteSize s.keywordText) (s.restOfLine source)
      (s.bodyElements ++ white)

theorem WrittenAt.standsIn {source : String} {s : Step} {before word rest after : List Char}
    (h : s.WrittenAt source before word rest after) : s.StandsIn source := by
  obtain ⟨index, es, white, helements, hwhite, hwritten⟩ := h.elements
  obtain ⟨spelling, hmem, hspelling⟩ := Token.mem_spellings_of_keywordAt? h.keyword_eq
  have hkeyword : isKeyword (.token index (.ofPiece (.keyword (.step s.keyword))
      (byteLength before) word)) = true := rfl
  have hes : ∀ e ∈ es, isKeyword e = false := fun e he =>
    hwritten.isToken_eq rfl rfl e (List.mem_append_left _ he)
  have hword : s.keywordText = String.ofList word := by
    rw [keywordText, helements, List.find?_cons_of_pos hkeyword]
    exact congrArg String.ofList (Element.text_ofPiece index _ _ word)
  have hbody : s.bodyElements = es := by
    rw [bodyElements, helements, List.filter_cons_of_neg (by simp [hkeyword]),
      List.filter_eq_self.mpr fun e he => by rw [hes e he]; rfl]
  have hline : s.sourceLine source = word ++ rest := by
    have hbreak : ∀ c ∈ word ++ rest, isBreak c = false := by
      refine List.forall_mem_append.mpr ⟨?_, h.rest_line⟩
      rw [← hspelling]
      exact isBreak_of_mem_spellings hmem
    rw [sourceLine, h.start_eq, h.source_eq, ← List.append_assoc word]
    exact Text.lineFrom_byteLength before hbreak h.after_break
  have hrest : s.restOfLine source = rest := by
    rw [restOfLine, hline, hword, ← String.length_toList, String.toList_ofList, List.drop_left]
  refine ⟨⟨before, after, ?_, h.start_eq⟩, ?_, ?_, ⟨index, ?_⟩, ⟨white, hwhite, ?_⟩⟩
  · rw [hline, h.source_eq, List.append_assoc]
  · rw [hline, hrest, hword, String.toList_ofList]
  · rw [hline, h.keyword_eq, hword, String.toList_ofList]
  · rw [helements, hbody, hword, h.start_eq, String.toList_ofList]
  · rw [h.start_eq, hrest, hbody, byteSize, hword, String.toList_ofList]
    exact hwritten

end Step

theorem Outline.standsIn_of_mem {source : String} {s : Step} (hs : s ∈ (parse source).steps) :
    s.StandsIn source := by
  obtain ⟨before, word, rest, after, h⟩ := exists_writtenAt hs
  exact h.standsIn

/-! ## §C The texts of a step -/

namespace Step

/-- **`s.TextAt source before after`** — the elements of the text of a step in the source: what
stands before the first one, and what stands behind the last. -/
structure TextAt (source : String) (s : Step) (before after : List Char) : Prop where
  source_eq : source.toList = before ++ (Element.textOf s.textElements ++ after)
  start_eq : byteLength before = s.node.span.start + byteSize s.keywordText +
    byteLength ((s.restOfLine source).takeWhile isIndent)
  laid : Laid (byteLength before) (s.textElements.map Element.span)
    (byteLength before + byteLength (Element.textOf s.textElements))
  sized : ∀ e ∈ s.textElements, e.Sized
  text_eq : s.text = String.ofList (Text.trim (Element.textOf s.textElements))
  blank_iff : s.textElements = [] ↔ ∀ c ∈ s.restOfLine source, isIndent c = true

namespace StandsIn

variable {source : String} {s : Step}

theorem spelling (h : s.StandsIn source) :
    (s.keywordText, Keyword.step s.keyword) ∈ Keyword.spellings := by
  obtain ⟨word, hmem, hword⟩ := Token.mem_spellings_of_keywordAt? h.keyword_eq
  rwa [← String.toList_inj.mp hword]

/-- The rest of the line is what the elements are written as, and blanks. -/
theorem exists_blanks (h : s.StandsIn source) :
    ∃ blanks, (∀ c ∈ blanks, isIndent c = true) ∧
      s.restOfLine source = Element.textOf s.bodyElements ++ blanks := by
  obtain ⟨white, hwhite, hwritten⟩ := h.written
  refine ⟨Element.textOf white,
    hwritten.isIndent_of_mem_textOf (List.subset_append_right _ _) hwhite, ?_⟩
  rw [← hwritten.textOf_eq, Element.textOf_append]

theorem textElements_eq (h : s.StandsIn source) :
    s.textElements = s.bodyElements.dropWhile (·.isToken (· = .whitespace)) := by
  obtain ⟨index, hline⟩ := h.lineElements_eq
  obtain ⟨white, -, hwritten⟩ := h.written
  rw [textElements, hline, List.dropWhile_cons_of_pos rfl]
  refine Text.dropWhile_congr fun e he => ?_
  rw [isKeyword, hwritten.isToken_eq rfl rfl e (List.mem_append_left _ he), Bool.false_or]

theorem fullText_eq (h : s.StandsIn source) :
    s.fullText = String.ofList (Text.trim (s.sourceLine source)) := by
  obtain ⟨blanks, hblanks, hrest⟩ := h.exists_blanks
  obtain ⟨index, hline⟩ := h.lineElements_eq
  rw [fullText, hline, Element.textOf_cons, Element.text_ofPiece, h.sourceLine_eq, hrest,
    ← List.append_assoc, Text.trim_append_of_blank fun c hc =>
      Text.isBlank_of_isIndent (hblanks c hc)]

theorem text_eq (h : s.StandsIn source) :
    s.text = String.ofList (Text.trim (s.restOfLine source)) := by
  obtain ⟨blanks, hblanks, hrest⟩ := h.exists_blanks
  rw [text, hrest, Text.trim_append_of_blank fun c hc => Text.isBlank_of_isIndent (hblanks c hc)]

theorem text_suffix (h : s.StandsIn source) : s.text.toList <:+ s.fullText.toList := by
  rw [h.text_eq, h.fullText_eq, String.toList_ofList, String.toList_ofList, h.sourceLine_eq]
  exact Text.trim_suffix_trim (isBlank_of_mem_spellings h.spelling)
    (Token.ne_nil_of_mem_spellings h.spelling)

/-- Behind the leading white space stand the elements of the text, and what is left out at the end
of the line. -/
theorem exists_written_text (h : s.StandsIn source) :
    ∃ more, Element.Written (s.node.span.start + byteSize s.keywordText +
        byteLength ((s.restOfLine source).takeWhile isIndent))
      ((s.restOfLine source).dropWhile isIndent) (s.textElements ++ more) ∧
        (s.textElements = [] → more = []) := by
  obtain ⟨white, hwhite, hwritten⟩ := h.written
  have htext := hwritten.dropWhile
  rw [List.dropWhile_append, ← h.textElements_eq] at htext
  split at htext
  · rename_i hempty
    rw [List.dropWhile_eq_nil_iff.mpr hwhite] at htext
    rw [List.isEmpty_iff.mp hempty]
    exact ⟨[], htext, fun _ => rfl⟩
  · rename_i hempty
    exact ⟨white, htext, fun hnil => absurd (List.isEmpty_iff.mpr hnil) hempty⟩

/-- The leading white space is trimmed. -/
theorem text_eq_trim_textElements (h : s.StandsIn source) :
    s.text = String.ofList (Text.trim (Element.textOf s.textElements)) := by
  obtain ⟨white, -, hwritten⟩ := h.written
  have hsubset : s.bodyElements.takeWhile (·.isToken (· = .whitespace)) ⊆
      s.bodyElements ++ white := fun e he =>
    List.mem_append_left white ((List.takeWhile_sublist _).mem he)
  have hblank : ∀ c ∈ Element.textOf (s.bodyElements.takeWhile (·.isToken (· = .whitespace))),
      Text.isBlank c = true := fun c hc => Text.isBlank_of_isIndent
    (hwritten.isIndent_of_mem_textOf hsubset (fun _ he => List.mem_takeWhile_imp he) c hc)
  have hsplit := List.takeWhile_append_dropWhile (p := (·.isToken (· = .whitespace)))
    (l := s.bodyElements)
  rw [← h.textElements_eq] at hsplit
  rw [text, ← hsplit, Element.textOf_append, Text.trim_blank_append hblank]

/-- **The text of a step in the source.** -/
theorem exists_textAt (h : s.StandsIn source) : ∃ before after, s.TextAt source before after := by
  obtain ⟨before, after, hsource, hstart⟩ := h.source_eq
  obtain ⟨more, hwritten, hnil⟩ := h.exists_written_text
  have hsized : ∀ e ∈ s.textElements, e.Sized := fun e he =>
    hwritten.sized e (List.mem_append_left _ he)
  have hlength : byteLength (before ++ (s.keywordText.toList ++
      (s.restOfLine source).takeWhile isIndent)) = s.node.span.start + byteSize s.keywordText +
        byteLength ((s.restOfLine source).takeWhile isIndent) := by
    rw [Text.byteLength_append, Text.byteLength_append, hstart, Nat.add_assoc]
    rfl
  refine ⟨before ++ (s.keywordText.toList ++ (s.restOfLine source).takeWhile isIndent),
    Element.textOf more ++ after, ?_, hlength, ?_, hsized, h.text_eq_trim_textElements, ?_⟩
  · have hrest : s.restOfLine source = (s.restOfLine source).takeWhile isIndent ++
        (Element.textOf s.textElements ++ Element.textOf more) := by
      rw [← Element.textOf_append, hwritten.textOf_eq, List.takeWhile_append_dropWhile]
    rw [hsource, h.sourceLine_eq]
    conv_lhs => rw [hrest]
    simp only [List.append_assoc]
  · have hlaid := hwritten.laid
    rw [List.map_append, ← hlength] at hlaid
    obtain ⟨stop, hleft, -⟩ := hlaid.split
    rwa [← Element.stop_of_laid hleft hsized]
  · refine ⟨fun hte => ?_, fun hindent => ?_⟩
    · rw [hte, hnil hte] at hwritten
      exact List.dropWhile_eq_nil_iff.mp hwritten.textOf_eq.symm
    · rw [List.dropWhile_eq_nil_iff.mpr hindent] at hwritten
      exact (List.append_eq_nil_iff.mp hwritten.eq_nil).1

end StandsIn

end Step

/-! ## §D Texts and lines -/

namespace Outline

variable {source : String}

/-- A child begins before the node ends. -/
theorem start_lt_stop_of_child {x : Entry} (hx : x ∈ (parse source).entries) {e : Element}
    (he : e ∈ x.node.children) : e.span.start < x.node.span.stop := by
  obtain ⟨a, b, -, hlaid, hspan, -⟩ := placed_of_mem hx
  rw [hspan, (hlaid.coverAll (List.ne_nil_of_mem (List.mem_map_of_mem he))).2]
  exact hlaid.start_lt_of_mem (List.mem_map_of_mem he)

theorem textRange_of_textAt {s : Step} (hs : s ∈ (parse source).steps) {before after : List Char}
    (h : s.TextAt source before after) (hne : s.textElements ≠ []) :
    s.textRange.start = byteLength before ∧ s.textRange.stop = s.node.span.stop := by
  obtain ⟨⟨parent, hmem⟩, -⟩ := mem_steps_iff.mp hs
  have hlaid := h.laid
  cases htext : s.textElements with
  | nil => exact absurd htext hne
  | cons e es =>
    have hchild : e ∈ s.node.children := by
      have hmem : e ∈ s.textElements := by
        rw [htext]
        exact List.mem_cons_self
      have hline : e ∈ s.lineElements := (List.dropWhile_sublist _).mem hmem
      exact (List.takeWhile_sublist _).mem hline
    rw [htext] at hlaid
    have hlt := start_lt_stop_of_child hmem hchild
    rw [Step.textRange, htext]
    exact ⟨hlaid.head_start, Nat.max_eq_right (Nat.le_of_lt hlt)⟩

/-- **`o.ReadsLines source`** — the texts of a step are those of its line in the source. -/
structure ReadsLines (source : String) (o : Outline) : Prop extends ListsSteps source o where
  /-- The line begins at a character boundary. -/
  isBoundary_start : ∀ s ∈ o.steps, isBoundary s.node.span.start source.toList = true
  /-- The line begins with the keyword as written. -/
  keywordText_begins : ∀ s ∈ o.steps, s.keywordText.toList <+: s.sourceLine source
  /-- The keyword is written in one of its spellings. -/
  keywordText_mem : ∀ s ∈ o.steps,
    (s.keywordText, Keyword.step s.keyword) ∈ Keyword.spellings
  fullText_eq : ∀ s ∈ o.steps, s.fullText = String.ofList (Text.trim (s.sourceLine source))
  text_eq : ∀ s ∈ o.steps, s.text = String.ofList (Text.trim (s.restOfLine source))
  text_suffix : ∀ s ∈ o.steps, s.text.toList <:+ s.fullText.toList
  /-- The range of the text runs from the first character behind the keyword that is no space or tab
  to the end of the step. -/
  textRange_eq : ∀ s ∈ o.steps, (∃ c ∈ s.restOfLine source, isIndent c = false) →
    s.textRange.start = s.node.span.start + byteSize s.keywordText +
        byteLength ((s.restOfLine source).takeWhile isIndent) ∧
      s.textRange.stop = s.node.span.stop
  /-- It is empty at the end of the step when the line says nothing more. -/
  textRange_of_indent : ∀ s ∈ o.steps, (∀ c ∈ s.restOfLine source, isIndent c = true) →
    s.textRange = Span.empty s.node.span.stop
  /-- Steps with the same line have the same texts, whatever stands around the lines. -/
  eq_of_sourceLine : ∀ s ∈ o.steps, ∀ other : String, ∀ s' ∈ (parse other).steps,
    s'.sourceLine other = s.sourceLine source →
      s'.keyword = s.keyword ∧ s'.keywordText = s.keywordText ∧ s'.fullText = s.fullText ∧
        s'.text = s.text

/-- **Every text of a step is read off its line.** -/
theorem parse_readsLines (source : String) : (parse source).ReadsLines source where
  toListsSteps := parse_listsSteps source
  isBoundary_start s hs := by
    obtain ⟨before, after, hsource, hstart⟩ := (standsIn_of_mem hs).source_eq
    rw [hsource, hstart]
    exact Text.isBoundary_byteLength before _
  keywordText_begins s hs := by
    rw [(standsIn_of_mem hs).sourceLine_eq]
    exact List.prefix_append _ _
  keywordText_mem s hs := (standsIn_of_mem hs).spelling
  fullText_eq s hs := (standsIn_of_mem hs).fullText_eq
  text_eq s hs := (standsIn_of_mem hs).text_eq
  text_suffix s hs := (standsIn_of_mem hs).text_suffix
  textRange_eq s hs := by
    rintro ⟨c, hc, hindent⟩
    obtain ⟨before, after, h⟩ := (standsIn_of_mem hs).exists_textAt
    have hne : s.textElements ≠ [] := fun hnil => by
      rw [h.blank_iff.mp hnil c hc] at hindent
      cases hindent
    rw [← h.start_eq]
    exact textRange_of_textAt hs h hne
  textRange_of_indent s hs hindent := by
    obtain ⟨before, after, h⟩ := (standsIn_of_mem hs).exists_textAt
    rw [Step.textRange, h.blank_iff.mpr hindent]
    rfl
  eq_of_sourceLine s hs other s' hs' hline := by
    have h := standsIn_of_mem hs
    have h' := standsIn_of_mem hs'
    obtain ⟨hkeyword, hword⟩ : Keyword.step s'.keyword = Keyword.step s.keyword ∧
        s'.keywordText.toList = s.keywordText.toList := by
      have heq := h'.keyword_eq
      rw [hline, h.keyword_eq] at heq
      exact Prod.mk.inj (Option.some.inj heq.symm)
    have htext : s'.keywordText = s.keywordText := String.toList_inj.mp hword
    refine ⟨Keyword.step.inj hkeyword, htext, ?_, ?_⟩
    · rw [h.fullText_eq, h'.fullText_eq, hline]
    · rw [h.text_eq, h'.text_eq, Step.restOfLine, Step.restOfLine, hline, htext]

end Outline

/-! ## §E The text up to a caret -/

namespace Step

/-- **Gathering elements up to a caret cuts their text there.** -/
theorem gatherBefore_eq {es : List Element} {start stop : Nat}
    (h : Laid start (es.map Element.span) stop) (hsized : ∀ e ∈ es, e.Sized) (caret : Nat)
    (gathered : List Char) :
    gatherBefore caret gathered es =
      gathered ++ Text.takeBytes (caret - start) (Element.textOf es) := by
  induction es generalizing start gathered with
  | nil => exact (List.append_nil gathered).symm
  | cons e es ih =>
    obtain ⟨he, hes⟩ := List.forall_mem_cons.mp hsized
    rw [Element.Sized] at he
    cases h with
    | cons hstart _ hrest =>
      simp only [gatherBefore]
      rw [Element.textOf_cons]
      split
      · rw [show caret - start = 0 by omega, Text.takeBytes_zero, List.append_nil]
      · split
        · -- The caret stands in this element.
          have hcut : byteLength (gathered ++ e.text) - (e.span.stop - caret) =
              byteLength gathered + (caret - start) := by
            rw [Text.byteLength_append]
            omega
          rw [hcut, Text.takeBytes_append, Text.takeBytes_append_of_lt (by omega)]
        · have hpast : caret - start = byteLength e.text + (caret - e.span.stop) := by omega
          rw [ih hrest hes, hpast, Text.takeBytes_append, List.append_assoc]

namespace TextAt

variable {source : String} {s : Step} {before after : List Char}

theorem textBefore_eq (h : s.TextAt source before after) (caret : Nat) :
    s.textBefore caret = String.ofList
      (Text.trim (Text.takeBytes (caret - byteLength before) (Element.textOf s.textElements))) := by
  rw [textBefore, gatherBefore_eq h.laid h.sized, List.nil_append]

/-- The last element on the line is the last one of the text. -/
theorem exists_last (h : s.TextAt source before after) (hne : s.textElements ≠ []) :
    ∃ last ∈ s.lineElements.getLast?,
      last.span.stop = byteLength before + byteLength (Element.textOf s.textElements) := by
  have hlaid := h.laid
  obtain ⟨front, hfront⟩ : s.textElements <:+ s.lineElements := List.dropWhile_suffix _
  obtain hnil | ⟨inner, last, htext⟩ := List.eq_nil_or_concat' s.textElements
  · exact absurd hnil hne
  · refine ⟨last, ?_, ?_⟩
    · rw [← hfront, htext, ← List.append_assoc, List.getLast?_concat]
      rfl
    · conv at hlaid =>
        arg 2
        rw [htext, List.map_append]
      exact hlaid.last_stop

/-- **The text up to a caret is a slice of the source.** -/
theorem textBefore_eq_slice (h : s.TextAt source before after) {caret : Nat}
    (hcaret : byteLength before ≤ caret) :
    ∃ floor stop, IsGreatest {b | isBoundary b source.toList = true ∧ b ≤ caret} floor ∧
      stop = min floor (byteLength before + byteLength (Element.textOf s.textElements)) ∧
      byteLength before ≤ stop ∧ isBoundary (byteLength before) source.toList = true ∧
      isBoundary stop source.toList = true ∧
      s.textBefore caret =
        String.ofList (Text.trim (Text.slice (byteLength before) stop source.toList)) := by
  obtain ⟨k, rfl⟩ := Nat.exists_eq_add_of_le hcaret
  have hfloor := Text.min_byteLength_takeBytes k (Element.textOf s.textElements) after
  obtain ⟨rest, hrest⟩ := Text.takeBytes_prefix k (Element.textOf s.textElements)
  refine ⟨_, _, Text.isGreatest_floor _ source.toList, rfl, ?_⟩
  rw [h.source_eq, Text.takeBytes_append, Text.byteLength_append, Nat.add_min_add_left, hfloor]
  refine ⟨Nat.le_add_right _ _, Text.isBoundary_byteLength _ _, ?_, ?_⟩
  · have hboundary := Text.isBoundary_byteLength
      (before ++ Text.takeBytes k (Element.textOf s.textElements)) (rest ++ after)
    rwa [Text.byteLength_append, List.append_assoc, ← List.append_assoc _ rest, hrest] at hboundary
  · rw [h.textBefore_eq, Nat.add_sub_cancel_left, Text.slice_append_takeBytes]

end TextAt

end Step

namespace Outline

/-- **`o.ReadsCarets source`** — the text of a step up to a caret is the source from the first
element of its text up to the caret, or up to the last element on its line. -/
structure ReadsCarets (source : String) (o : Outline) : Prop extends ListsSteps source o where
  of_nil : ∀ s ∈ o.steps, s.textElements = [] → ∀ caret, s.textBefore caret = ""
  of_le_start : ∀ s ∈ o.steps, ∀ first ∈ s.textElements.head?, ∀ caret, caret ≤ first.span.start →
    s.textBefore caret = ""
  /-- Between them it is cut at the greatest character boundary not above the caret. -/
  slice_eq : ∀ s ∈ o.steps, ∀ first ∈ s.textElements.head?, ∃ last ∈ s.lineElements.getLast?,
    ∀ caret, first.span.start < caret →
      ∃ floor stop, IsGreatest {b | isBoundary b source.toList = true ∧ b ≤ caret} floor ∧
        stop = min floor last.span.stop ∧ first.span.start ≤ stop ∧
        isBoundary first.span.start source.toList = true ∧
        isBoundary stop source.toList = true ∧
        s.textBefore caret =
          String.ofList (Text.trim (Text.slice first.span.start stop source.toList))
  begins_text : ∀ s ∈ o.steps, ∀ caret, (s.textBefore caret).toList <+: s.text.toList
  mono : ∀ s ∈ o.steps, ∀ c₁ c₂, c₁ ≤ c₂ →
    (s.textBefore c₁).toList <+: (s.textBefore c₂).toList
  /-- Behind the last element on the line it is the whole text. -/
  eq_text : ∀ s ∈ o.steps, ∃ last ∈ s.lineElements.getLast?, ∀ caret, last.span.stop ≤ caret →
    s.textBefore caret = s.text

/-- **The text up to a caret.** -/
theorem parse_readsCarets (source : String) : (parse source).ReadsCarets source where
  toListsSteps := parse_listsSteps source
  of_nil s hs hnil caret := by
    rw [Step.textBefore, hnil]
    rfl
  of_le_start s hs first hfirst caret hcaret := by
    obtain ⟨before, after, h⟩ := (standsIn_of_mem hs).exists_textAt
    have hlaid := h.laid
    obtain ⟨es, hes⟩ := List.head?_eq_some_iff.mp hfirst
    rw [hes] at hlaid
    rw [h.textBefore_eq, show caret - byteLength before = 0 by rw [← hlaid.head_start]; omega,
      Text.takeBytes_zero]
    rfl
  slice_eq s hs first hfirst := by
    obtain ⟨before, after, h⟩ := (standsIn_of_mem hs).exists_textAt
    have hlaid := h.laid
    obtain ⟨es, hes⟩ := List.head?_eq_some_iff.mp hfirst
    obtain ⟨last, hlast, hstop⟩ := h.exists_last (by rw [hes]; exact List.cons_ne_nil _ _)
    refine ⟨last, hlast, fun caret hcaret => ?_⟩
    rw [hes] at hlaid
    rw [hstop, hlaid.head_start]
    exact h.textBefore_eq_slice (by rw [← hlaid.head_start]; omega)
  begins_text s hs caret := by
    obtain ⟨before, after, h⟩ := (standsIn_of_mem hs).exists_textAt
    rw [h.textBefore_eq, h.text_eq, String.toList_ofList, String.toList_ofList]
    exact Text.trim_prefix_trim (Text.takeBytes_prefix _ _)
  mono s hs c₁ c₂ hle := by
    obtain ⟨before, after, h⟩ := (standsIn_of_mem hs).exists_textAt
    rw [h.textBefore_eq, h.textBefore_eq, String.toList_ofList, String.toList_ofList]
    exact Text.trim_prefix_trim (Text.takeBytes_mono (by omega) _)
  eq_text s hs := by
    obtain ⟨before, after, h⟩ := (standsIn_of_mem hs).exists_textAt
    by_cases hnil : s.textElements = []
    · obtain ⟨index, hline⟩ := (standsIn_of_mem hs).lineElements_eq
      have hne : s.lineElements ≠ [] := by
        rw [hline]
        exact List.cons_ne_nil _ _
      obtain ⟨last, hlast⟩ := Option.isSome_iff_exists.mp (List.getLast?_isSome.mpr hne)
      refine ⟨last, hlast, fun caret _ => ?_⟩
      rw [h.text_eq, Step.textBefore, hnil]
      rfl
    · obtain ⟨last, hlast, hstop⟩ := h.exists_last hnil
      refine ⟨last, hlast, fun caret hcaret => ?_⟩
      rw [h.textBefore_eq, h.text_eq, Text.takeBytes_of_le (by omega)]

/-- A caret inside a character of two bytes. -/
example : (parse "Scenario: s\nGiven a café order").steps.map (·.textBefore 24) = ["a caf"] := by
  decide +kernel

end Outline

end FeatureFile
