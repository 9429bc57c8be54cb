/-
# FeatureFile.Proofs.Outline.StepParameters — the parameters of a step

A parameter is a name in angle brackets. The lexer finds parameters while it cuts words and white
space, and never looks inside a piece again; still it finds every place at which one stands
(`Element.Written.occurrences_eq`), since none begins inside a piece (`occurrences_append`).

In an example every parameter is replaced by a value at once. The line is the text before the first
parameter and each parameter with the text behind it (`Pieces`), and the replacement leaves these
texts as they are. Main statement: `Outline.parse_readsParameters`.
-/

import FeatureFile.Proofs.Outline.StepText

namespace FeatureFile

open Text (isBlank isIndent byteLength byteSize)

/-! ## §A Where parameters stand in a text -/

namespace Token

/-- **`IsParameterName name`** — what may stand between the brackets of a parameter: some
characters, none of them a bracket or a blank. -/
def IsParameterName (name : List Char) : Prop :=
  name ≠ [] ∧ ∀ c ∈ name, c ≠ '<' ∧ c ≠ '>' ∧ isBlank c = false

theorem isParameterChar_iff {c : Char} :
    isParameterChar c = true ↔ c ≠ '<' ∧ c ≠ '>' ∧ isBlank c = false := by
  simp [isParameterChar, and_assoc]

/-- **A text begins with a parameter** if a name in brackets stands there. -/
theorem parameter?_eq_some_iff {cs name after : List Char} :
    parameter? cs = some (name, after) ↔
      cs = '<' :: (name ++ '>' :: after) ∧ IsParameterName name := by
  constructor
  · intro h
    obtain ⟨hcs, hne, hname⟩ := eq_of_parameter? h
    exact ⟨hcs, hne, fun c hc => isParameterChar_iff.mp (hname c hc)⟩
  · rintro ⟨rfl, hne, hname⟩
    have hall : ∀ c ∈ name, isParameterChar c = true := fun c hc =>
      isParameterChar_iff.mpr (hname c hc)
    have hend : isParameterChar '>' = false := by decide
    have htake : (name ++ '>' :: after).takeWhile isParameterChar = name := by
      rw [List.takeWhile_append_of_pos hall, List.takeWhile_cons_of_neg (by simp [hend]),
        List.append_nil]
    have hdrop : (name ++ '>' :: after).dropWhile isParameterChar = '>' :: after := by
      rw [List.dropWhile_append_of_pos hall, List.dropWhile_cons_of_neg (by simp [hend])]
    obtain ⟨c, name, rfl⟩ := List.exists_cons_of_ne_nil hne
    simp only [parameter?, htake, hdrop]

/-- A parameter begins with its bracket. -/
theorem parameter?_cons_of_ne {c : Char} (h : c ≠ '<') (cs : List Char) :
    parameter? (c :: cs) = none := by
  cases hfound : parameter? (c :: cs) with
  | none => rfl
  | some found => exact absurd (List.cons.inj (eq_of_parameter? hfound).1).1 h

/-- No parameter begins inside a word. -/
theorem parameter?_of_wordEnd {cs x : List Char} (h : x <:+ (wordEnd cs).1) (hne : x ≠ []) :
    parameter? (x ++ (wordEnd cs).2) = none := by
  induction cs with
  | nil => exact absurd (List.suffix_nil.mp h) hne
  | cons c cs ih =>
    rw [wordEnd] at h ⊢
    split at h
    · exact absurd (List.suffix_nil.mp h) hne
    · rename_i hword
      rw [if_neg hword]
      rcases List.suffix_cons_iff.mp h with rfl | h
      · rw [List.cons_append, wordEnd_append]
        exact Option.not_isSome_iff_eq_none.mp fun hsome => hword (by rw [hsome, Bool.or_true])
      · exact ih h

/-- The places at which a parameter stands in a text at an offset, with its name. -/
def occurrences (offset : Nat) : List Char → List (Nat × List Char)
  | [] => []
  | c :: cs =>
    match parameter? (c :: cs) with
    | some (name, _) => (offset, name) :: occurrences (offset + c.utf8Size) cs
    | none => occurrences (offset + c.utf8Size) cs

/-- **`mem_occurrences_iff`** — a parameter stands where its name stands in brackets. -/
theorem mem_occurrences_iff {offset start : Nat} {name cs : List Char} :
    (start, name) ∈ occurrences offset cs ↔
      ∃ pre post, cs = pre ++ '<' :: (name ++ '>' :: post) ∧ IsParameterName name ∧
        start = offset + byteLength pre := by
  induction cs generalizing offset with
  | nil => simp [occurrences]
  | cons c cs ih =>
    -- It stands at the head of the text or behind it.
    have hbehind : (start, name) ∈ occurrences (offset + c.utf8Size) cs ↔
        ∃ pre post, c :: cs = (c :: pre) ++ '<' :: (name ++ '>' :: post) ∧ IsParameterName name ∧
          start = offset + byteLength (c :: pre) := by
      rw [ih]
      simp only [List.cons_append, List.cons.injEq, true_and, byteLength, Nat.add_assoc]
    have hcases : (∃ pre post, c :: cs = pre ++ '<' :: (name ++ '>' :: post) ∧
        IsParameterName name ∧ start = offset + byteLength pre) ↔
        (start = offset ∧ ∃ post, parameter? (c :: cs) = some (name, post)) ∨
          (start, name) ∈ occurrences (offset + c.utf8Size) cs := by
      rw [hbehind]
      simp only [parameter?_eq_some_iff]
      constructor
      · rintro ⟨pre, post, heq, hname, rfl⟩
        cases pre with
        | nil => exact Or.inl ⟨rfl, post, heq, hname⟩
        | cons d pre =>
          obtain ⟨rfl, -⟩ := List.cons.inj heq
          exact Or.inr ⟨pre, post, heq, hname, rfl⟩
      · rintro (⟨rfl, post, heq, hname⟩ | ⟨pre, post, heq, hname, rfl⟩)
        · exact ⟨[], post, heq, hname, rfl⟩
        · exact ⟨c :: pre, post, heq, hname, rfl⟩
    rw [hcases, occurrences]
    split
    · rename_i found _ hfound
      rw [hfound, List.mem_cons, Prod.mk.injEq]
      simp [eq_comm]
    · rename_i hnone
      simp [hnone]

example : occurrences 0 "<<a> <b c> <a>b>".toList = [(1, ['a']), (11, ['a'])] := by decide

/-- Where no parameter begins, none is found. -/
theorem occurrences_append (offset : Nat) {a b : List Char}
    (h : ∀ x, x <:+ a → x ≠ [] → parameter? (x ++ b) = none) :
    occurrences offset (a ++ b) = occurrences (offset + byteLength a) b := by
  induction a generalizing offset with
  | nil => rfl
  | cons c a ih =>
    have hhead := h (c :: a) List.suffix_rfl (List.cons_ne_nil c a)
    rw [List.cons_append] at hhead ⊢
    rw [occurrences, hhead, byteLength, ← Nat.add_assoc]
    exact ih _ fun x hx => h x (hx.trans (List.suffix_cons c a))

/-- Without the bracket that opens one, no parameter begins. -/
theorem occurrences_append_of_ne (offset : Nat) {a : List Char} (h : ∀ c ∈ a, c ≠ '<')
    (b : List Char) : occurrences offset (a ++ b) = occurrences (offset + byteLength a) b := by
  refine occurrences_append offset fun x hx hne => ?_
  obtain ⟨c, x, rfl⟩ := List.exists_cons_of_ne_nil hne
  exact parameter?_cons_of_ne (h c (hx.subset List.mem_cons_self)) _

end Token

/-! ## §B Parameters among elements -/

namespace StepParameter

/-- The parameter of a name at an offset. -/
def ofName (id index offset : Nat) (name : List Char) : StepParameter :=
  ⟨⟨id, .stepParameter, Span.coverAll ((Element.ofName index offset name).map Element.span),
    Element.ofName index offset name⟩⟩

variable (id index offset : Nat) (name : List Char)

@[simp] theorem name_ofName : (ofName id index offset name).name = String.ofList name := rfl

@[simp] theorem start_ofName : (ofName id index offset name).node.span.start = offset :=
  (Element.coverAll_ofName index offset name).1

@[simp] theorem stop_ofName :
    (ofName id index offset name).node.span.stop = offset + byteLength name + 2 :=
  (Element.coverAll_ofName index offset name).2

end StepParameter

namespace Step

/-- The parameter that an element is. -/
def parameter? (e : Element) : Option StepParameter := e.node?.bind StepParameter.ofNode?

theorem parameters_eq (s : Step) : s.parameters = s.lineElements.filterMap parameter? := rfl

theorem parameter?_ofName (id index offset : Nat) (name : List Char) :
    parameter? (.node id .stepParameter
      (Span.coverAll ((Element.ofName index offset name).map Element.span))
      (Element.ofName index offset name)) = some (.ofName id index offset name) := rfl

theorem span_of_parameter? {e : Element} {p : StepParameter} (h : parameter? e = some p) :
    p.node.span = e.span := by
  cases e with
  | token => cases h
  | node id kind span children =>
    simp only [parameter?, Element.node?, Option.bind_some, StepParameter.ofNode?,
      Option.ite_none_right_eq_some, Option.some.injEq] at h
    obtain ⟨-, rfl⟩ := h
    rfl

end Step

namespace Element.Written

open Step (parameter?)

variable {offset : Nat} {cs : List Char} {es : List Element}

/-- **The parameters among the elements of a text stand where parameters stand in it.** -/
theorem occurrences_eq (h : Written offset cs es) :
    (es.filterMap parameter?).map (fun p => (p.node.span.start, p.name.toList)) =
      Token.occurrences offset cs := by
  induction h with
  | nil => rfl
  | @white offset _ c cs es hc _ ih =>
    have hrun : ∀ d ∈ c :: cs.takeWhile isIndent, d ≠ '<' := by
      intro d hd heq
      have hindent : isIndent d = true := by
        rcases List.mem_cons.mp hd with rfl | hd
        · exact hc
        · exact List.mem_takeWhile_imp hd
      rw [heq] at hindent
      exact absurd hindent (by decide)
    have hskip := Token.occurrences_append_of_ne offset hrun (cs.dropWhile isIndent)
    rw [List.cons_append, List.takeWhile_append_dropWhile] at hskip
    rw [hskip, ← ih]
    rfl
  | @parameter offset index id c cs name after es _ hparameter _ ih =>
    obtain ⟨hcs, -, hname⟩ := Token.eq_of_parameter? hparameter
    obtain ⟨rfl, rfl⟩ := List.cons.inj hcs
    have hrest : ∀ d ∈ name ++ ['>'], d ≠ '<' := by
      refine List.forall_mem_append.mpr ⟨fun d hd => ?_, List.forall_mem_singleton.mpr (by decide)⟩
      exact (Token.isParameterChar_iff.mp (hname d hd)).1
    have hskip := Token.occurrences_append_of_ne (offset + '<'.utf8Size) hrest after
    rw [Text.byteLength_append, List.append_assoc, List.singleton_append] at hskip
    have hlength : offset + '<'.utf8Size + (byteLength name + byteLength ['>']) =
        offset + byteLength name + 2 := by
      rw [show '<'.utf8Size = 1 by decide, Text.byteLength_bracket.2]
      omega
    rw [Token.occurrences, hparameter, hskip, hlength, ← ih,
      List.filterMap_cons_some (Step.parameter?_ofName id index offset name), List.map_cons,
      StepParameter.start_ofName, StepParameter.name_ofName, String.toList_ofList]
  | @word offset _ c cs es _ hnone _ ih =>
    have hword : ∀ x, x <:+ c :: (Token.wordEnd cs).1 → x ≠ [] →
        Token.parameter? (x ++ (Token.wordEnd cs).2) = none := by
      intro x hx hne
      rcases List.suffix_cons_iff.mp hx with rfl | hx
      · rw [List.cons_append, Token.wordEnd_append]
        exact hnone
      · exact Token.parameter?_of_wordEnd hx hne
    have hskip := Token.occurrences_append offset hword
    rw [List.cons_append, Token.wordEnd_append] at hskip
    rw [hskip, ← ih]
    rfl

theorem stop_of_parameter (h : Written offset cs es) :
    ∀ p ∈ es.filterMap parameter?, p.node.span.stop = p.node.span.start + byteSize p.name + 2 := by
  induction h with
  | nil => exact fun _ h => absurd h List.not_mem_nil
  | white _ _ ih => exact ih
  | @parameter offset index id _ _ name _ _ _ _ _ ih =>
    rw [List.filterMap_cons_some (Step.parameter?_ofName id index offset name)]
    refine List.forall_mem_cons.mpr ⟨?_, ih⟩
    rw [StepParameter.stop_ofName, StepParameter.start_ofName, StepParameter.name_ofName, byteSize,
      String.toList_ofList]
  | word _ _ _ ih => exact ih

end Element.Written

/-! ## §C A text cut at its parameters -/

namespace StepParameter

/-- The parameter as it is written. -/
def written (p : StepParameter) : List Char := '<' :: (p.name.toList ++ ['>'])

/-- What the parameter stands for in an example: its value, or its name if it has none. -/
def valueIn (row : ExampleRow) (p : StepParameter) : List Char :=
  ((row.get? p.name).getD p.name).toList

/-- The text before the first parameter, and then a text for each parameter and what stands behind
it up to the next. -/
def fill (value : StepParameter → List Char) (head : List Char)
    (tail : List (StepParameter × List Char)) : List Char :=
  head ++ tail.flatMap fun q => value q.1 ++ q.2

theorem fill_append (value : StepParameter → List Char) (a head : List Char)
    (tail : List (StepParameter × List Char)) :
    fill value (a ++ head) tail = a ++ fill value head tail :=
  List.append_assoc a head _

theorem fill_cons (value : StepParameter → List Char) (p : StepParameter) (head : List Char)
    (tail : List (StepParameter × List Char)) :
    fill value [] ((p, head) :: tail) = value p ++ fill value head tail := by
  rw [fill, fill, List.nil_append, List.flatMap_cons, List.append_assoc]

end StepParameter

open StepParameter (written valueIn fill)

namespace Step

theorem elementForExample_token (row : ExampleRow) (index : Nat) (t : Token) :
    elementForExample row (.token index t) = (Element.token index t).text := rfl

theorem elementForExample_ofName (row : ExampleRow) (id index offset : Nat) (name : List Char) :
    elementForExample row (.node id .stepParameter
      (Span.coverAll ((Element.ofName index offset name).map Element.span))
      (Element.ofName index offset name)) = valueIn row (.ofName id index offset name) := rfl

end Step

/-- **`Pieces offset cs head tail`** — a text at an offset is cut at its parameters: it is what
stands before the first, and each as it is written with what stands behind it. -/
structure Pieces (offset : Nat) (cs head : List Char) (tail : List (StepParameter × List Char)) :
    Prop where
  text_eq : cs = fill written head tail
  start_eq : ∀ left q right, tail = left ++ q :: right →
    q.1.node.span.start = offset + byteLength (fill written head left)

namespace Pieces

variable {offset : Nat} {cs head : List Char} {tail : List (StepParameter × List Char)}

/-- Further text before the first parameter. -/
theorem append (a : List Char) (h : Pieces (offset + byteLength a) cs head tail) :
    Pieces offset (a ++ cs) (a ++ head) tail where
  text_eq := by rw [StepParameter.fill_append, ← h.text_eq]
  start_eq left q right htail := by
    rw [h.start_eq left q right htail, StepParameter.fill_append, Text.byteLength_append,
      Nat.add_assoc]

/-- A further parameter before the text. -/
theorem cons {p : StepParameter} (hp : p.node.span.start = offset)
    (h : Pieces (offset + byteLength p.written) cs head tail) :
    Pieces offset (p.written ++ cs) [] ((p, head) :: tail) where
  text_eq := by rw [StepParameter.fill_cons, ← h.text_eq]
  start_eq left q right htail := by
    cases left with
    | nil =>
      obtain ⟨rfl, -⟩ := List.cons.inj htail
      exact hp
    | cons first left =>
      obtain ⟨rfl, hrest⟩ := List.cons.inj htail
      rw [h.start_eq left q right hrest, StepParameter.fill_cons, Text.byteLength_append,
        Nat.add_assoc]

end Pieces

/-- **The elements of a text cut it at its parameters**, and in an example they are these pieces. -/
theorem Element.Written.exists_pieces {offset : Nat} {cs : List Char} {es : List Element}
    (h : Written offset cs es) :
    ∃ head tail, tail.map Prod.fst = es.filterMap Step.parameter? ∧ Pieces offset cs head tail ∧
      ∀ row, es.flatMap (Step.elementForExample row) = fill (valueIn row) head tail := by
  induction h with
  | nil offset => exact ⟨[], [], rfl, ⟨rfl, fun left q right h => by simp at h⟩, fun _ => rfl⟩
  | @white offset index c cs es _ _ ih =>
    obtain ⟨head, tail, htail, hpieces, hrow⟩ := ih
    have hcut := hpieces.append (c :: cs.takeWhile isIndent)
    rw [List.cons_append, List.takeWhile_append_dropWhile] at hcut
    refine ⟨_, tail, htail, hcut, fun row => ?_⟩
    rw [List.flatMap_cons, Step.elementForExample_token, Element.text_ofPiece, hrow,
      StepParameter.fill_append]
  | @parameter offset index id c cs name after es _ hparameter _ ih =>
    obtain ⟨head, tail, htail, hpieces, hrow⟩ := ih
    have hwritten :
        (StepParameter.ofName id index offset name).written = '<' :: (name ++ ['>']) := by
      rw [written, StepParameter.name_ofName, String.toList_ofList]
    rw [Nat.add_assoc, ← Text.byteLength_brackets, ← hwritten] at hpieces
    have hcut := hpieces.cons (StepParameter.start_ofName id index offset name)
    have hcs : c :: cs = (StepParameter.ofName id index offset name).written ++ after := by
      rw [hwritten, (Token.eq_of_parameter? hparameter).1, List.cons_append, List.append_assoc,
        List.singleton_append]
    refine ⟨[], (.ofName id index offset name, head) :: tail, ?_, hcs ▸ hcut, fun row => ?_⟩
    · rw [List.filterMap_cons_some (Step.parameter?_ofName id index offset name), List.map_cons,
        htail]
    · rw [List.flatMap_cons, Step.elementForExample_ofName, hrow, StepParameter.fill_cons]
  | @word offset index c cs es _ _ _ ih =>
    obtain ⟨head, tail, htail, hpieces, hrow⟩ := ih
    have hcut := hpieces.append (c :: (Token.wordEnd cs).1)
    rw [List.cons_append, Token.wordEnd_append] at hcut
    refine ⟨_, tail, htail, hcut, fun row => ?_⟩
    rw [List.flatMap_cons, Step.elementForExample_token, Element.text_ofPiece, hrow,
      StepParameter.fill_append]

/-! ## §D The parameters of a step -/

theorem Span.eq_of_bounds {s t : Span} (hstart : s.start = t.start) (hstop : s.stop = t.stop) :
    s = t := by
  obtain ⟨start, stop, _⟩ := s
  obtain ⟨start', stop', _⟩ := t
  obtain rfl : start = start' := hstart
  obtain rfl : stop = stop' := hstop
  rfl

namespace Step.StandsIn

variable {source : String} {s : Step}

/-- What is read off the elements of the body may be read off those of the whole rest of the line.
-/
theorem exists_written (h : s.StandsIn source) :
    ∃ es, Element.Written (s.node.span.start + byteSize s.keywordText) (s.restOfLine source) es ∧
      s.parameters = es.filterMap parameter? ∧
      ∀ row, s.textForExample row =
        String.ofList (Text.trim (es.flatMap (elementForExample row))) := by
  obtain ⟨index, hline⟩ := h.lineElements_eq
  obtain ⟨white, hwhite, hwritten⟩ := h.written
  have htoken : ∀ e ∈ white, ∃ index t, e = .token index t := by
    intro e he
    cases e with
    | token index t => exact ⟨index, t, rfl⟩
    | node => exact absurd (hwhite _ he) Bool.false_ne_true
  have hnone : ∀ e ∈ white, parameter? e = none := by
    intro e he
    obtain ⟨index, t, rfl⟩ := htoken e he
    rfl
  refine ⟨s.bodyElements ++ white, hwritten, ?_, fun row => ?_⟩
  · rw [parameters_eq, hline, List.filterMap_append, List.filterMap_eq_nil_iff.mpr hnone,
      List.append_nil]
    rfl
  · have htext : white.flatMap (elementForExample row) = Element.textOf white := by
      refine List.flatMap_congr fun e he => ?_
      obtain ⟨index, t, rfl⟩ := htoken e he
      exact elementForExample_token row index t
    rw [textForExample, List.flatMap_append, htext,
      Text.trim_append_of_blank fun c hc => Text.isBlank_of_isIndent
        (hwritten.isIndent_of_mem_textOf (List.subset_append_right _ _) hwhite c hc)]

end Step.StandsIn

namespace Outline

/-- **`o.ReadsParameters source`** — the parameters of a step are the names in brackets on its line
behind the keyword, and in an example each of them is replaced by its value. -/
structure ReadsParameters (source : String) (o : Outline) : Prop extends ListsSteps source o where
  ordered : ∀ s ∈ o.steps,
    s.parameters.Pairwise fun p q => p.node.span.stop ≤ q.node.span.start
  /-- Every name in brackets is a parameter, and nothing else is. -/
  mem_iff : ∀ s ∈ o.steps, ∀ (name : String) (span : Span),
    (∃ p ∈ s.parameters, p.name = name ∧ p.node.span = span) ↔
      ∃ pre post, s.restOfLine source = pre ++ '<' :: (name.toList ++ '>' :: post) ∧
        Token.IsParameterName name.toList ∧
        span.start = s.node.span.start + byteSize s.keywordText + byteLength pre ∧
        span.stop = span.start + byteSize name + 2
  /-- What stands between the parameters is kept, and they are replaced all at once. -/
  replaced : ∀ s ∈ o.steps, ∃ head tail, tail.map Prod.fst = s.parameters ∧
    Pieces (s.node.span.start + byteSize s.keywordText) (s.restOfLine source) head tail ∧
    ∀ row, s.textForExample row = String.ofList (Text.trim (fill (valueIn row) head tail))
  eq_text_of_nil : ∀ s ∈ o.steps, s.parameters = [] → ∀ row, s.textForExample row = s.text
  eq_text_of_self : ∀ s ∈ o.steps, ∀ row : ExampleRow,
    (∀ p ∈ s.parameters, row.get? p.name = some ("<" ++ p.name ++ ">")) →
      s.textForExample row = s.text

variable {source : String}

theorem pairwise_parameters {s : Step} (hs : s ∈ (parse source).steps) :
    s.parameters.Pairwise fun p q => p.node.span.stop ≤ q.node.span.start := by
  obtain ⟨es, hwritten, hparameters, -⟩ := (standsIn_of_mem hs).exists_written
  rw [hparameters, List.pairwise_filterMap]
  refine (List.pairwise_map.mp hwritten.laid.pairwise).imp fun hle p hp q hq => ?_
  rw [Step.span_of_parameter? hp, Step.span_of_parameter? hq]
  exact hle

theorem mem_parameters_iff {s : Step} (hs : s ∈ (parse source).steps) (name : String)
    (span : Span) :
    (∃ p ∈ s.parameters, p.name = name ∧ p.node.span = span) ↔
      ∃ pre post, s.restOfLine source = pre ++ '<' :: (name.toList ++ '>' :: post) ∧
        Token.IsParameterName name.toList ∧
        span.start = s.node.span.start + byteSize s.keywordText + byteLength pre ∧
        span.stop = span.start + byteSize name + 2 := by
  obtain ⟨es, hwritten, hparameters, -⟩ := (standsIn_of_mem hs).exists_written
  have hplaces : (∃ pre post, s.restOfLine source = pre ++ '<' :: (name.toList ++ '>' :: post) ∧
        Token.IsParameterName name.toList ∧
        span.start = s.node.span.start + byteSize s.keywordText + byteLength pre ∧
        span.stop = span.start + byteSize name + 2) ↔
      (span.start, name.toList) ∈ s.parameters.map (fun p => (p.node.span.start, p.name.toList)) ∧
        span.stop = span.start + byteSize name + 2 := by
    rw [hparameters, hwritten.occurrences_eq, Token.mem_occurrences_iff]
    constructor
    · rintro ⟨pre, post, hrest, hname, hstart, hstop⟩
      exact ⟨⟨pre, post, hrest, hname, hstart⟩, hstop⟩
    · rintro ⟨⟨pre, post, hrest, hname, hstart⟩, hstop⟩
      exact ⟨pre, post, hrest, hname, hstart, hstop⟩
  have hstop : ∀ p ∈ s.parameters, p.node.span.stop = p.node.span.start + byteSize p.name + 2 := by
    rw [hparameters]
    exact hwritten.stop_of_parameter
  rw [hplaces, List.mem_map]
  constructor
  · rintro ⟨p, hp, rfl, rfl⟩
    exact ⟨⟨p, hp, rfl⟩, hstop p hp⟩
  · rintro ⟨⟨p, hp, heq⟩, hspan⟩
    obtain ⟨hstart, hname⟩ := Prod.mk.inj heq
    obtain rfl := String.toList_inj.mp hname
    refine ⟨p, hp, rfl, Span.eq_of_bounds hstart ?_⟩
    rw [hstop p hp, hstart, hspan]

/-- In a row that gives every parameter back as it is written, the text stays as it is. -/
theorem textForExample_eq_text {s : Step} (hs : s ∈ (parse source).steps) (row : ExampleRow)
    (hrow : ∀ p ∈ s.parameters, row.get? p.name = some ("<" ++ p.name ++ ">")) :
    s.textForExample row = s.text := by
  obtain ⟨es, hwritten, hparameters, hexample⟩ := (standsIn_of_mem hs).exists_written
  obtain ⟨head, tail, htail, hpieces, hfill⟩ := hwritten.exists_pieces
  have hvalue : ∀ q ∈ tail, valueIn row q.1 ++ q.2 = written q.1 ++ q.2 := by
    intro q hq
    have hq : q.1 ∈ s.parameters := by
      rw [hparameters, ← htail]
      exact List.mem_map_of_mem hq
    rw [valueIn, hrow q.1 hq, written]
    simp
  rw [hexample, hfill, (standsIn_of_mem hs).text_eq, hpieces.text_eq, fill, fill,
    List.flatMap_congr hvalue]

/-- **The parameters of a step.** -/
theorem parse_readsParameters (source : String) : (parse source).ReadsParameters source where
  toListsSteps := parse_listsSteps source
  ordered _ hs := pairwise_parameters hs
  mem_iff _ hs := mem_parameters_iff hs
  replaced s hs := by
    obtain ⟨es, hwritten, hparameters, hrow⟩ := (standsIn_of_mem hs).exists_written
    obtain ⟨head, tail, htail, hpieces, hfill⟩ := hwritten.exists_pieces
    refine ⟨head, tail, htail.trans hparameters.symm, hpieces, fun row => ?_⟩
    rw [hrow, hfill]
  eq_text_of_nil s hs hnil row := textForExample_eq_text hs row (by rw [hnil]; simp)
  eq_text_of_self s hs row hrow := textForExample_eq_text hs row hrow

/-- A value is not read again, and a bracket outside every parameter stays. -/
example : (parse "Scenario: s\nGiven <<a> of <b c>").steps.map
    (·.textForExample ⟨[("a", "<b>")]⟩) = ["<<b> of <b c>"] := by
  decide +kernel

end Outline

end FeatureFile
