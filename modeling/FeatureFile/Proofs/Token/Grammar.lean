/-
# FeatureFile.Proofs.Token.Grammar — which tokens may follow which

The kinds of the tokens of a source follow a small automaton. A step parameter is always three
tokens, and it stands only behind a step keyword on one line; inside a doc string there are only
words, blanks and line breaks until its delimiter comes. What else may follow what is open.

`Phase` is the state of the automaton, `Phase.Runs` its runs. Main statement: the tokens of every
source are a run (`runs_tokenize`). It is what the outline needs to know of the lexer.
-/

import FeatureFile.Token.Lexer

namespace FeatureFile

open Text (isIndent)

/-! ## §A Phases -/

/-- What the tokens so far have begun. -/
inductive Phase where
  /-- Nothing that the next token must respect. -/
  | free
  /-- The text of a step. -/
  | step
  /-- A step parameter that waits for its name. -/
  | name
  /-- A step parameter that waits for its end. -/
  | close
  /-- A doc string. -/
  | doc
  deriving DecidableEq, Repr

namespace Phase

/-- The phase after a token of a kind, when one may stand there. -/
def after : Phase → TokenKind → Option Phase
  | name, .parameterName => some close
  | name, _ => none
  | close, .parameterEnd => some step
  | close, _ => none
  | doc, .text | doc, .whitespace | doc, .newline => some doc
  | doc, .docStringDelimiter => some free
  | doc, _ => none
  | step, .parameterStart => some name
  | step, .text | step, .whitespace => some step
  | _, .parameterStart | _, .parameterName | _, .parameterEnd => none
  | _, .keyword (.step _) => some step
  | _, .docStringDelimiter => some doc
  | _, _ => some free

/-- What a token that begins nothing does outside doc strings. -/
theorem after_cases {ph ph' : Phase} {k : TokenKind} (hkeyword : k.keyword? = none)
    (hparameter : k ≠ .parameterStart) (hdelimiter : k ≠ .docStringDelimiter) (hdoc : ph ≠ doc)
    (h : ph.after k = some ph') :
    ph' = free ∨ ph = step ∧ (k = .text ∨ k = .whitespace) ∧ ph' = step ∨
      ph = name ∧ k = .parameterName ∧ ph' = close ∨ ph = close ∧ k = .parameterEnd ∧ ph' = step := by
  cases ph <;> cases k <;> simp_all [after, TokenKind.keyword?]

theorem after_keyword {ph ph' : Phase} {k : Keyword} (h : ph.after (.keyword k) = some ph') :
    ph ≠ doc ∧ ph' = if k.isStep then step else free := by
  cases ph <;> cases k <;> cases h <;> exact ⟨by decide, rfl⟩

/-- **`ph.Runs ks ph'`** — tokens of these kinds may follow in the one phase and lead to the
other. -/
inductive Runs : Phase → List TokenKind → Phase → Prop
  | nil {ph : Phase} : Runs ph [] ph
  | cons {ph ph' ph'' : Phase} {k : TokenKind} {ks : List TokenKind} :
      ph.after k = some ph' → Runs ph' ks ph'' → Runs ph (k :: ks) ph''

namespace Runs

theorem append {a b c : Phase} {ks ks' : List TokenKind} (h : a.Runs ks b) (h' : b.Runs ks' c) :
    a.Runs (ks ++ ks') c := by
  induction h with
  | nil => exact h'
  | cons hk _ ih => exact .cons hk (ih h')

theorem split {a c : Phase} {ks ks' : List TokenKind} (h : a.Runs (ks ++ ks') c) :
    ∃ b, a.Runs ks b ∧ b.Runs ks' c := by
  induction ks generalizing a with
  | nil => exact ⟨a, .nil, h⟩
  | cons k ks ih =>
    cases h with
    | cons hk hrest =>
      obtain ⟨b, hks, hks'⟩ := ih hrest
      exact ⟨b, .cons hk hks, hks'⟩

/-- Tokens that leave a phase as it is may stand in it in any number. -/
theorem of_forall {ph : Phase} {ks : List TokenKind} (h : ∀ k ∈ ks, ph.after k = some ph) :
    ph.Runs ks ph := by
  induction ks with
  | nil => exact .nil
  | cons k ks ih =>
    exact .cons (h k List.mem_cons_self) (ih fun k' hk' => h k' (List.mem_cons_of_mem k hk'))

end Runs

/-- The phases in which a line may begin, given the doc string that is open. -/
def Begins (ph : Phase) : Option Token.DocDelimiter → Prop
  | none => ph = free ∨ ph = step
  | some _ => ph = doc

/-- The kinds that begin nothing. -/
def isLoose : TokenKind → Bool
  | .colon | .whitespace | .newline | .comment | .tag | .text | .pipe | .tableCell => true
  | _ => false

theorem after_loose {ph : Phase} {k : TokenKind} (hph : ph.Begins none) (hk : isLoose k = true) :
    ∃ ph', ph.after k = some ph' ∧ ph'.Begins none := by
  rcases hph with rfl | rfl <;> cases k <;> first
    | exact ⟨_, rfl, Or.inl rfl⟩
    | exact ⟨_, rfl, Or.inr rfl⟩
    | exact absurd hk Bool.false_ne_true

/-- Outside doc strings tokens that begin nothing may stand in any number. -/
theorem runs_loose {ph : Phase} {ks : List TokenKind} (hph : ph.Begins none)
    (h : ∀ k ∈ ks, isLoose k = true) : ∃ ph', ph.Runs ks ph' ∧ ph'.Begins none := by
  induction ks generalizing ph with
  | nil => exact ⟨ph, .nil, hph⟩
  | cons k ks ih =>
    obtain ⟨next, hnext, hbegins⟩ := after_loose hph (h k List.mem_cons_self)
    obtain ⟨ph', hruns, hph'⟩ := ih hbegins fun k' hk' => h k' (List.mem_cons_of_mem k hk')
    exact ⟨ph', .cons hnext hruns, hph'⟩

end Phase

/-! ## §B Lines -/

namespace Token

open Phase

/-- The kinds of pieces. -/
def kinds (pieces : List Lexeme) : List TokenKind := pieces.map Prod.fst

theorem mem_kinds_wordLexemes {cs : List Char} {k : TokenKind} (h : k ∈ kinds (wordLexemes cs)) :
    k = .whitespace ∨ k = .text := by
  rw [kinds, wordLexemes, List.map_map] at h
  obtain ⟨run, -, rfl⟩ := List.mem_map.mp h
  simp only [Function.comp_apply]
  split
  · exact Or.inl rfl
  · exact Or.inr rfl

theorem isLoose_wordLexemes (cs : List Char) : ∀ k ∈ kinds (wordLexemes cs), isLoose k = true := by
  intro k hk
  rcases mem_kinds_wordLexemes hk with rfl | rfl <;> rfl

theorem isLoose_titleLexemes (cs : List Char) :
    ∀ k ∈ kinds (titleLexemes cs), isLoose k = true := by
  cases cs with
  | nil => exact fun _ h => absurd h List.not_mem_nil
  | cons c rest => exact List.forall_mem_cons.mpr ⟨rfl, isLoose_wordLexemes rest⟩

theorem runs_doc_wordLexemes (cs : List Char) : doc.Runs (kinds (wordLexemes cs)) doc := by
  refine .of_forall ?_
  intro k hk
  rcases mem_kinds_wordLexemes hk with rfl | rfl <;> rfl

theorem isLoose_tagLexemes (cs : List Char) : ∀ k ∈ kinds (tagLexemes cs), isLoose k = true := by
  unfold tagLexemes
  generalize cs.splitBy _ = runs
  induction runs with
  | nil => simp [tagRunLexemes, kinds]
  | cons run rest ih =>
    rw [tagRunLexemes]
    split
    · simpa [kinds, isLoose] using ih
    · split
      · simp [kinds, isLoose]
      · simpa [kinds, isLoose] using ih

theorem isLoose_tableLexemes (cs : List Char) :
    ∀ k ∈ kinds (tableLexemes cs), isLoose k = true := by
  fun_induction tableLexemes cs with
  | case1 => simp [kinds]
  | case2 c cs _ ih => simpa [kinds, isLoose] using ih
  | case3 c cs _ _ ih => simpa [kinds, isLoose] using ih
  | case4 c cs _ _ ih => simpa [kinds, isLoose] using ih

/-- The text of a step: parameters of three tokens each between words and blanks. -/
theorem runs_stepLexemes (cs : List Char) : step.Runs (kinds (stepLexemes cs)) step := by
  fun_induction stepLexemes cs with
  | case1 => exact .nil
  | case2 c cs _ ih => exact .cons rfl ih
  | case3 c cs _ name after _ ih => exact .cons rfl (.cons rfl (.cons rfl ih))
  | case4 c cs _ _ r ih => exact .cons rfl ih

/-- Behind a keyword stand tokens that begin nothing, and the placeholders of a step. -/
theorem mem_kinds_afterKeyword {k : Keyword} {cs : List Char} :
    ∀ kind ∈ kinds (afterKeyword k cs),
      isLoose kind = true ∨ kind ∈ [.parameterStart, .parameterName, .parameterEnd] := by
  unfold afterKeyword
  split
  · fun_induction stepLexemes cs with
    | case1 => simp [kinds]
    | case2 c cs _ ih => simpa [kinds, isLoose] using ih
    | case3 c cs _ name after _ ih => simpa [kinds, isLoose] using ih
    | case4 c cs _ _ r ih => simpa [kinds, isLoose] using ih
  · exact fun kind hkind => Or.inl (isLoose_titleLexemes cs kind hkind)

theorem runs_keyword {ph : Phase} (hph : ph.Begins none) (k : Keyword) (cs : List Char) :
    ∃ ph', ph.Runs (.keyword k :: kinds (afterKeyword k cs)) ph' ∧ ph'.Begins none := by
  unfold afterKeyword
  split
  · rename_i hstep
    refine ⟨step, .cons ?_ (runs_stepLexemes cs), Or.inr rfl⟩
    rcases hph with rfl | rfl <;> cases k <;> simp_all [after, Keyword.isStep, Keyword.stepKeyword?]
  · rename_i hblock
    have hfree : ph.after (.keyword k) = some free := by
      rcases hph with rfl | rfl <;> cases k <;>
        simp_all [after, Keyword.isStep, Keyword.stepKeyword?]
    obtain ⟨ph', hruns, hph'⟩ := runs_loose (Or.inl rfl) (isLoose_titleLexemes cs)
    exact ⟨ph', .cons hfree hruns, hph'⟩

/-- A line outside every doc string. -/
theorem runs_plainLexemes {ph : Phase} (hph : ph.Begins none) (cs : List Char) :
    ∃ ph', ph.Runs (kinds (plainLexemes cs).1) ph' ∧ ph'.Begins (plainLexemes cs).2 := by
  unfold plainLexemes
  split
  · exact runs_loose hph (by simp [kinds, isLoose])
  · exact runs_loose hph (isLoose_tagLexemes cs)
  · exact runs_loose hph (isLoose_tableLexemes cs)
  · split
    · rename_i d _
      refine ⟨doc, .cons ?_ (runs_doc_wordLexemes _), rfl⟩
      rcases hph with rfl | rfl <;> rfl
    · split
      · rename_i k spelling _
        exact runs_keyword hph k _
      · exact runs_loose hph (isLoose_wordLexemes cs)

/-- A line inside a doc string. -/
theorem runs_docLexemes (d : DocDelimiter) (cs : List Char) :
    ∃ ph', doc.Runs (kinds (docLexemes d cs).1) ph' ∧ ph'.Begins (docLexemes d cs).2 := by
  unfold docLexemes
  split
  · have hbegin : free.Begins none := Or.inl rfl
    obtain ⟨ph', hruns, hph'⟩ :=
      runs_loose hbegin (isLoose_wordLexemes (cs.drop d.chars.length))
    exact ⟨ph', .cons rfl hruns, hph'⟩
  · exact ⟨doc, .cons rfl .nil, rfl⟩

/-- Blanks leave the phase in which a line begins as it is. -/
theorem runs_whitespace {ph : Phase} {open? : Option DocDelimiter} (hph : ph.Begins open?) :
    ∃ ph', ph.after .whitespace = some ph' ∧ ph'.Begins open? := by
  cases open? with
  | none => exact after_loose hph rfl
  | some d => exact ⟨doc, by rw [hph]; rfl, rfl⟩

theorem runs_newline {ph : Phase} {open? : Option DocDelimiter} (hph : ph.Begins open?) :
    ∃ ph', ph.after .newline = some ph' ∧ ph'.Begins open? := by
  cases open? with
  | none => exact after_loose hph rfl
  | some d => exact ⟨doc, by rw [hph]; rfl, rfl⟩

theorem runs_bodyLexemes {ph : Phase} {open? : Option DocDelimiter} (hph : ph.Begins open?)
    (body : List Char) :
    ∃ ph', ph.Runs (kinds (bodyLexemes open? body).1) ph' ∧
      ph'.Begins (bodyLexemes open? body).2 := by
  unfold bodyLexemes
  split
  · exact ⟨ph, .nil, hph⟩
  · cases open? with
    | none => exact runs_plainLexemes hph _
    | some d =>
      rw [show ph = doc from hph]
      exact runs_docLexemes d _

theorem runs_contentLexemes {ph : Phase} {open? : Option DocDelimiter} (hph : ph.Begins open?)
    (cs : List Char) :
    ∃ ph', ph.Runs (kinds (contentLexemes open? cs).1) ph' ∧
      ph'.Begins (contentLexemes open? cs).2 := by
  simp only [contentLexemes]
  split
  · exact runs_bodyLexemes hph _
  · obtain ⟨next, hnext, hbegins⟩ := runs_whitespace hph
    obtain ⟨ph', hruns, hph'⟩ := runs_bodyLexemes hbegins (cs.dropWhile isIndent)
    exact ⟨ph', .cons hnext hruns, hph'⟩

theorem runs_lineLexemes {ph : Phase} {open? : Option DocDelimiter} (hph : ph.Begins open?)
    (l : Line) :
    ∃ ph', ph.Runs (kinds (lineLexemes open? l).1) ph' ∧ ph'.Begins (lineLexemes open? l).2 := by
  obtain ⟨ph', hruns, hph'⟩ := runs_contentLexemes hph l.content
  simp only [lineLexemes]
  split
  · exact ⟨ph', hruns, hph'⟩
  · obtain ⟨next, hnext, hbegins⟩ := runs_newline hph'
    refine ⟨next, ?_, hbegins⟩
    rw [kinds, List.map_append]
    exact hruns.append (.cons hnext .nil)

/-- Lines are a run, and it leads to a phase in which a line may begin behind them. -/
theorem runs_lexemes {ph : Phase} {open? : Option DocDelimiter} (hph : ph.Begins open?)
    (ls : List Line) :
    ∃ ph', ph.Runs (kinds (lexemes open? ls)) ph' ∧
      ph'.Begins (ls.foldl (fun doc l => (lineLexemes doc l).2) open?) := by
  induction ls generalizing ph open? with
  | nil => exact ⟨ph, .nil, hph⟩
  | cons l rest ih =>
    obtain ⟨next, hline, hbegins⟩ := runs_lineLexemes hph l
    obtain ⟨ph', hrest, hph'⟩ := ih hbegins
    refine ⟨ph', ?_, hph'⟩
    rw [lexemes, kinds, List.map_append]
    exact hline.append hrest

theorem map_kind_place (offset : Nat) (pieces : List Lexeme) :
    (place offset pieces).map (·.kind) = kinds pieces := by
  induction pieces generalizing offset with
  | nil => rfl
  | cons p rest ih =>
    obtain ⟨kind, cs⟩ := p
    exact congrArg (kind :: ·) (ih _)

end Token

/-- **The tokens of a source are a run of the automaton.** -/
theorem runs_tokenize (source : String) :
    ∃ ph, Phase.free.Runs ((tokenize source).map (·.kind)) ph := by
  have hbegin : Phase.free.Begins none := Or.inl rfl
  obtain ⟨ph, hruns, -⟩ := Token.runs_lexemes hbegin (lines source.toList)
  rw [tokenize, Token.map_kind_place]
  exact ⟨ph, hruns⟩

end FeatureFile
