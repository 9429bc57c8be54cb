/-
# FeatureFile.Proofs.Token.Layout — what the layout of a source leaves out

Layout is how lines are broken and indented, and which blank lines and comments stand between them.
A `LayoutEdit` changes nothing else. What all edits keep is the list of `bodies`: the lines without
their indentation, and without those that are blank or a comment outside every doc string. Whether a
line is inside one is decided by the bodies before it, so the two lists go hand in hand
(`bodies_append`). Main statement: `bodies_of_edits`.

Two more facts about lines are used with it: every line but the last has a break (`Broken`), and a
doc string delimiter is the first significant token of its line (`Led`).
-/

import FeatureFile.Proofs.Token.Join
import Mathlib.Logic.Relation

namespace FeatureFile

open Text (isBreak isIndent)

/-! ## §A Lines without their indentation -/

theorem isBreak_of_isIndent {c : Char} (h : isIndent c = true) : isBreak c = false := by
  simp only [isIndent, Bool.or_eq_true, beq_iff_eq] at h
  rcases h with rfl | rfl <;> rfl

namespace Token

/-- The pieces of an indentation. -/
def indentLexemes (cs : List Char) : List Lexeme :=
  if (cs.takeWhile isIndent).isEmpty then [] else [(.whitespace, cs.takeWhile isIndent)]

/-- A line is its indentation and the line without it. -/
theorem contentLexemes_eq (doc : Option DocDelimiter) (cs : List Char) :
    contentLexemes doc cs =
      (indentLexemes cs ++ (contentLexemes doc (cs.dropWhile isIndent)).1,
        (contentLexemes doc (cs.dropWhile isIndent)).2) := by
  cases cs with
  | nil => rfl
  | cons c cs =>
    cases hc : isIndent c with
    | true => simp [contentLexemes_indent hc, indentLexemes, hc]
    | false => simp [indentLexemes, hc]

/-- The piece of a line break, if there is one. -/
def breakLexemes (ending : List Char) : List Lexeme :=
  if ending.isEmpty then [] else [(.newline, ending)]

/-- A line is its indentation, its body and its break. -/
theorem lineLexemes_eq (doc : Option DocDelimiter) (l : Line) :
    lineLexemes doc l =
      (indentLexemes l.content ++ ((contentLexemes doc (l.content.dropWhile isIndent)).1 ++
          breakLexemes l.ending),
        (contentLexemes doc (l.content.dropWhile isIndent)).2) := by
  simp only [lineLexemes, contentLexemes_eq doc l.content, breakLexemes]
  split
  · rw [List.append_nil]
  · rw [List.append_assoc]

theorem isTrivia_indentLexemes (cs : List Char) :
    ∀ piece ∈ indentLexemes cs, piece.1.isTrivia = true := by
  rw [indentLexemes]
  split
  · exact fun _ h => absurd h List.not_mem_nil
  · exact List.forall_mem_singleton.mpr rfl

theorem isTrivia_breakLexemes (ending : List Char) :
    ∀ piece ∈ breakLexemes ending, piece.1.isTrivia = true := by
  rw [breakLexemes]
  split
  · exact fun _ h => absurd h List.not_mem_nil
  · exact List.forall_mem_singleton.mpr rfl

/-- The doc string that is open after the contents of lines. -/
def docOpen (doc : Option DocDelimiter) (contents : List (List Char)) : Option DocDelimiter :=
  contents.foldl (fun doc cs => (contentLexemes doc cs).2) doc

/-- Whether a line without its indentation says nothing: it is blank, or a comment outside every doc
string. -/
def isIdle (doc : Option DocDelimiter) (body : List Char) : Bool :=
  body.isEmpty || doc.isNone && body.head? == some '#'

/-- **`bodies doc contents`** — lines without their indentation, and without those that say
nothing. -/
def bodies (doc : Option DocDelimiter) : List (List Char) → List (List Char)
  | [] => []
  | cs :: rest =>
    let body := cs.dropWhile isIndent
    if isIdle doc body then bodies doc rest else body :: bodies (contentLexemes doc cs).2 rest

/-- A line that says nothing holds trivia alone and opens and closes no doc string. -/
theorem contentLexemes_of_isIdle {doc : Option DocDelimiter} {body : List Char}
    (h : isIdle doc body = true) :
    (contentLexemes doc body).2 = doc ∧
      ∀ piece ∈ (contentLexemes doc body).1, piece.1.isTrivia = true := by
  rcases (Bool.or_eq_true _ _).mp h with hnil | hcomment
  · rw [List.isEmpty_iff.mp hnil]
    exact ⟨rfl, fun _ h => absurd h List.not_mem_nil⟩
  · obtain ⟨hdoc, hhead⟩ := (Bool.and_eq_true _ _).mp hcomment
    obtain rfl := Option.isNone_iff_eq_none.mp hdoc
    obtain ⟨rest, rfl⟩ := List.head?_eq_some_iff.mp (eq_of_beq hhead)
    have hindent : isIndent '#' = false := by decide
    rw [contentLexemes_body hindent]
    exact ⟨rfl, List.forall_mem_singleton.mpr rfl⟩

theorem bodies_append (doc : Option DocDelimiter) (a b : List (List Char)) :
    bodies doc (a ++ b) = bodies doc a ++ bodies (docOpen doc a) b := by
  induction a generalizing doc with
  | nil => rfl
  | cons cs a ih =>
    rw [List.cons_append, bodies, bodies]
    split
    · rename_i hidle
      have hdoc : (contentLexemes doc cs).2 = doc := by
        rw [contentLexemes_eq]
        exact (contentLexemes_of_isIdle hidle).1
      rw [ih, docOpen, docOpen, List.foldl_cons, hdoc]
    · rw [ih]
      rfl

/-- Of a line only what stands behind its indentation counts. -/
theorem bodies_cons_congr {cs cs' : List Char} (h : cs.dropWhile isIndent = cs'.dropWhile isIndent)
    (doc : Option DocDelimiter) (rest : List (List Char)) :
    bodies doc (cs :: rest) = bodies doc (cs' :: rest) := by
  rw [bodies, bodies, contentLexemes_eq doc cs, contentLexemes_eq doc cs', h]

/-- A line that says nothing may be left out. -/
theorem bodies_cons_of_isIdle {doc : Option DocDelimiter} {cs : List Char}
    (h : isIdle doc (cs.dropWhile isIndent) = true) (rest : List (List Char)) :
    bodies doc (cs :: rest) = bodies doc rest := by
  rw [bodies, if_pos h]

end Token

/-! ## §B Edits -/

/-- The contents of the lines of a source. -/
def contents (source : String) : List (List Char) := (lines source.toList).map (·.content)

/-- **`LayoutEdit a b`** — the one source becomes the other by a change of its layout. -/
inductive LayoutEdit (a b : String) : Prop
  /-- Other breaks between the same lines. -/
  | breaks : contents a = contents b → LayoutEdit a b
  /-- Another indentation of a line. -/
  | indent (before after : List (List Char)) (old new : List Char) :
      contents a = before ++ old :: after → contents b = before ++ new :: after →
      old.dropWhile isIndent = new.dropWhile isIndent → LayoutEdit a b
  /-- A new line of spaces and tabs. -/
  | blank (before after : List (List Char)) (new : List Char) :
      contents a = before ++ after → contents b = before ++ new :: after →
      (∀ c ∈ new, isIndent c = true) → LayoutEdit a b
  /-- A new line that is a comment, outside every doc string. -/
  | comment (before after : List (List Char)) (new : List Char) :
      contents a = before ++ after → contents b = before ++ new :: after →
      (new.dropWhile isIndent).head? = some '#' → Token.docOpen none before = none →
      LayoutEdit a b

/-- A new line that says nothing where it stands leaves the bodies as they are. -/
theorem bodies_of_isIdle {before after : List (List Char)} {new : List Char}
    (h : Token.isIdle (Token.docOpen none before) (new.dropWhile isIndent) = true) :
    Token.bodies none (before ++ new :: after) = Token.bodies none (before ++ after) := by
  rw [Token.bodies_append, Token.bodies_append, Token.bodies_cons_of_isIdle h]

theorem bodies_of_edit {a b : String} (h : LayoutEdit a b) :
    Token.bodies none (contents a) = Token.bodies none (contents b) := by
  cases h with
  | breaks h => rw [h]
  | indent before after old new ha hb h =>
    rw [ha, hb, Token.bodies_append, Token.bodies_append, Token.bodies_cons_congr h]
  | blank before after new ha hb h =>
    have hnil : new.dropWhile isIndent = [] := List.dropWhile_eq_nil_iff.mpr h
    rw [ha, hb, bodies_of_isIdle]
    rw [hnil]
    rfl
  | comment before after new ha hb h hdoc =>
    rw [ha, hb, bodies_of_isIdle]
    rw [hdoc, Token.isIdle, h]
    exact Bool.or_true _

/-- **`bodies_of_edits`** — no sequence of edits, forth or back, changes the bodies. -/
theorem bodies_of_edits {a b : String} (h : Relation.EqvGen LayoutEdit a b) :
    Token.bodies none (contents a) = Token.bodies none (contents b) := by
  induction h with
  | rel a b h => exact bodies_of_edit h
  | refl a => rfl
  | symm a b _ ih => exact ih.symm
  | trans a b c _ _ ih ih' => exact ih.trans ih'

/-! ## §C Breaks between lines -/

/-- **`Broken ls`** — every line but the last has a break. -/
def Broken : List Line → Prop
  | [] => True
  | [_] => True
  | l :: rest => l.ending ≠ [] ∧ Broken rest

theorem Broken.tail {l : Line} {rest : List Line} (h : Broken (l :: rest)) : Broken rest := by
  cases rest with
  | nil => trivial
  | cons => exact h.2

theorem Broken.eq_nil {l : Line} {rest : List Line} (h : Broken (l :: rest))
    (hending : l.ending = []) : rest = [] := by
  cases rest with
  | nil => rfl
  | cons => exact absurd hending h.1

theorem Broken.cons {l : Line} {rest : List Line} (h : Broken rest) (hl : l.ending ≠ []) :
    Broken (l :: rest) := by
  cases rest with
  | nil => trivial
  | cons => exact ⟨hl, h⟩

theorem broken_lines (cs : List Char) : Broken (lines cs) := by
  fun_induction lines cs with
  | case1 => trivial
  | case2 rest ih => exact ih.cons (List.cons_ne_nil _ _)
  | case3 c rest _ _ ih => exact ih.cons (List.cons_ne_nil _ _)
  | case4 c rest _ _ ih =>
    cases hlines : lines rest with
    | nil => trivial
    | cons l ls =>
      rw [hlines] at ih
      cases ls with
      | nil => trivial
      | cons => exact ih

/-! ## §D Delimiters at the start of lines -/

/-- Whether no significant token has been seen on the line after a token of a kind. -/
def TokenKind.keepsStart (lineStart : Bool) (k : TokenKind) : Bool :=
  k.isTrivia && (lineStart || k = .newline)

/-- **`Led lineStart ks`** — in tokens of these kinds, a doc string delimiter is the first
significant token of its line. -/
def Led (lineStart : Bool) : List TokenKind → Prop
  | [] => True
  | k :: ks => (k = .docStringDelimiter → lineStart = true) ∧ Led (k.keepsStart lineStart) ks

theorem led_append {lineStart : Bool} {a b : List TokenKind} (ha : Led lineStart a)
    (hb : Led (a.foldl TokenKind.keepsStart lineStart) b) : Led lineStart (a ++ b) := by
  induction a generalizing lineStart with
  | nil => exact hb
  | cons k a ih => exact ⟨ha.1, ih ha.2 hb⟩

/-- Where no delimiter stands nothing is asked. -/
theorem led_of_forall {lineStart : Bool} {ks : List TokenKind}
    (h : ∀ k ∈ ks, k ≠ .docStringDelimiter) : Led lineStart ks := by
  induction ks generalizing lineStart with
  | nil => trivial
  | cons k ks ih =>
    obtain ⟨hk, hks⟩ := List.forall_mem_cons.mp h
    exact ⟨fun hdelimiter => absurd hdelimiter hk, ih hks⟩

namespace Token

theorem ne_of_isLoose {k : TokenKind} (h : Phase.isLoose k = true) : k ≠ .docStringDelimiter := by
  rintro rfl
  cases h

theorem ne_of_mem_afterKeyword (k : Keyword) (cs : List Char) :
    ∀ kind ∈ kinds (afterKeyword k cs), kind ≠ .docStringDelimiter := by
  intro kind hkind
  rcases mem_kinds_afterKeyword kind hkind with hloose | hparameter
  · exact ne_of_isLoose hloose
  · rintro rfl
    simp at hparameter

theorem led_delimiter (d : DocDelimiter) (cs : List Char) :
    Led true (kinds ((.docStringDelimiter, d.chars) :: wordLexemes cs)) :=
  ⟨fun _ => rfl, led_of_forall fun k hk => ne_of_isLoose (isLoose_wordLexemes cs k hk)⟩

theorem led_plainLexemes (cs : List Char) : Led true (kinds (plainLexemes cs).1) := by
  unfold plainLexemes
  split
  · exact led_of_forall (by simp [kinds])
  · exact led_of_forall fun k hk => ne_of_isLoose (isLoose_tagLexemes cs k hk)
  · exact led_of_forall fun k hk => ne_of_isLoose (isLoose_tableLexemes cs k hk)
  · split
    · exact led_delimiter _ _
    · split
      · rename_i k spelling _
        refine led_of_forall (List.forall_mem_cons.mpr ⟨by simp, ?_⟩)
        exact ne_of_mem_afterKeyword k _
      · exact led_of_forall fun k hk => ne_of_isLoose (isLoose_wordLexemes cs k hk)

/-- A line without its indentation: only its first piece may be a delimiter. -/
theorem led_bodyLexemes (doc : Option DocDelimiter) (body : List Char) :
    Led true (kinds (bodyLexemes doc body).1) := by
  unfold bodyLexemes
  split
  · trivial
  · cases doc with
    | none => exact led_plainLexemes body
    | some d =>
      simp only [docLexemes]
      split
      · exact led_delimiter _ _
      · exact led_of_forall (by simp [kinds])

theorem led_contentLexemes (doc : Option DocDelimiter) (cs : List Char) :
    Led true (kinds (contentLexemes doc cs).1) := by
  simp only [contentLexemes]
  split
  · exact led_bodyLexemes doc _
  · -- The indentation is trivia, so the line has not begun behind it.
    refine ⟨fun h => ?_, led_bodyLexemes doc _⟩
    cases h

theorem led_lexemes {ls : List Line} (h : Broken ls) (doc : Option DocDelimiter) :
    Led true (kinds (lexemes doc ls)) := by
  induction ls generalizing doc with
  | nil => trivial
  | cons l rest ih =>
    rw [lexemes, kinds, List.map_append]
    by_cases hending : l.ending = []
    · obtain rfl := h.eq_nil hending
      refine led_append ?_ trivial
      simp only [lineLexemes, hending, List.isEmpty_nil, if_true]
      exact led_contentLexemes doc l.content
    · have hpieces : (lineLexemes doc l).1 =
          (contentLexemes doc l.content).1 ++ [(.newline, l.ending)] := by
        simp [lineLexemes, hending]
      rw [hpieces, List.map_append]
      refine led_append (led_append (led_contentLexemes doc l.content) ⟨by simp, trivial⟩) ?_
      rw [List.foldl_append]
      have hstart : ∀ lineStart : Bool,
          List.foldl TokenKind.keepsStart lineStart [.newline] = true := by decide
      rw [List.map_singleton, hstart]
      exact ih h.tail _

end Token

/-- **Doc string delimiters stand at the start of lines**, in every source. -/
theorem led_tokenize (source : String) : Led true ((tokenize source).map (·.kind)) := by
  rw [tokenize, Token.map_kind_place]
  exact Token.led_lexemes (broken_lines _) none

end FeatureFile
