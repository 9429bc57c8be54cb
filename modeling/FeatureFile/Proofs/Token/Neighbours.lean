/-
# FeatureFile.Proofs.Token.Neighbours — what a token is written as, and what stands beside it

A stream decides each token from its place in the line and from the rest of the line, and emits some
of them with a length of one and no look at the character. What makes this sound is an agreement
between the place and the rest of the line, which the token before has left behind: where a colon is
emitted there is one, and a name is followed by the bracket that closes it (`Standing`).

`Spot` is what the tokens so far allow. One token leads from a spot to the next, keeps the agreement
and is written as its class demands (`standing_next`); so all tokens of a source do
(`exists_spot_of_tokenize`).
-/

import FeatureFile.Proofs.Token.Locality
import FeatureFile.Proofs.Token.TableRow

namespace FeatureFile

open Text (isIndent isBreak isBlank)

/-! ## §A Texts -/

/-- **`Escapes cs`** — a text ends in an odd number of backslashes, so that the last of them escapes
what stands behind it. -/
def Escapes (cs : List Char) : Prop := (cs.reverse.takeWhile (· == '\\')).length % 2 = 1

theorem escapes_cons {c : Char} (hc : c ≠ '\\') (cs : List Char) : Escapes (c :: cs) ↔ Escapes cs := by
  rw [Escapes, Escapes, List.reverse_cons, List.takeWhile_append]
  split
  · rename_i hall
    simp [hc, hall]
  · rfl

theorem escapes_cons_cons (c : Char) (cs : List Char) : Escapes ('\\' :: c :: cs) ↔ Escapes cs := by
  by_cases hc : c = '\\'
  · subst hc
    rw [Escapes, Escapes, List.reverse_cons, List.reverse_cons, List.append_assoc,
      List.takeWhile_append]
    split
    · rename_i hall
      simp only [List.length_append, hall]
      simp
    · rfl
  · rw [← escapes_cons hc cs, Escapes, Escapes, List.reverse_cons, List.takeWhile_append, if_neg]
    -- The character stops the run of backslashes.
    intro hall
    have hmem : c ∈ (c :: cs).reverse.takeWhile (· == '\\') := by
      rw [(List.takeWhile_prefix _).eq_of_length hall]
      simp
    have hslash := List.mem_takeWhile_imp hmem
    exact hc (eq_of_beq hslash)

/-- **`IsCell cs`** — the text of a table cell: it is trimmed, and every pipe in it is escaped. -/
structure IsCell (cs : List Char) : Prop where
  trimmed : Trimmed cs
  escaped : ∀ before after, cs = before ++ '|' :: after → Escapes before

/-- **`IsName cs`** — the name of a step parameter: it is not empty, and it holds no angle bracket and
no white space. -/
structure IsName (cs : List Char) : Prop where
  ne_nil : cs ≠ []
  not_mem : ∀ c ∈ cs, c ≠ '<' ∧ c ≠ '>' ∧ isBlank c = false

/-- **`Spelled kind cs`** — how tokens of a class are written. Nothing is said here of words, of
comments and tags, and of keywords. -/
def Spelled : TokenKind → List Char → Prop
  | .whitespace, cs => ∀ c ∈ cs, isIndent c = true
  | .newline, cs => cs = ['\n'] ∨ cs = ['\r', '\n'] ∨ cs = ['\r']
  | .colon, cs => cs = [':']
  | .parameterStart, cs => cs = ['<']
  | .parameterName, cs => IsName cs
  | .parameterEnd, cs => cs = ['>']
  | .pipe, cs => cs = ['|']
  | .tableCell, cs => IsCell cs
  | _, _ => True

theorem head_dropWhile_isIndent (cs : List Char) :
    ∀ c ∈ (cs.dropWhile isIndent).head?, isIndent c = false := by
  intro c hc
  have hstop := List.head?_dropWhile_not isIndent cs
  rw [Option.mem_def.mp hc] at hstop
  simpa using hstop

namespace Token

/-- A pipe within the first cell of a row is escaped. -/
theorem escapes_of_cellEnd {cs before after : List Char}
    (h : (cellEnd cs).1 = before ++ '|' :: after) : Escapes before := by
  fun_induction cellEnd cs generalizing before with
  | case1 => simp at h
  | case2 =>
    cases before with
    | nil => simp at h
    | cons c before => simp at h
  | case3 c cs r =>
    rename_i ih
    have hcell : '\\' :: c :: (cellEnd cs).1 = before ++ '|' :: after := h
    cases before with
    | nil => cases hcell
    | cons d before =>
      obtain ⟨rfl, htail⟩ := List.cons.inj hcell
      cases before with
      | nil => rfl
      | cons e before =>
        obtain ⟨rfl, hrest⟩ := List.cons.inj htail
        exact (escapes_cons_cons c before).mpr (ih hrest)
  | case4 => simp at h
  | case5 c cs hend hescape hpipe r =>
    rename_i ih
    have hcell : c :: (cellEnd cs).1 = before ++ '|' :: after := h
    cases before with
    | nil =>
      obtain ⟨rfl, -⟩ := List.cons.inj hcell
      exact absurd rfl hpipe
    | cons d before =>
      obtain ⟨rfl, hrest⟩ := List.cons.inj hcell
      refine (escapes_cons ?_ before).mpr (ih hrest)
      rintro rfl
      cases cs with
      | nil => exact hend rfl rfl
      | cons e cs => exact hescape e cs rfl rfl

theorem head_cellEnd (cs : List Char) : ∀ c ∈ (cellEnd cs).2.head?, c = '|' := by
  fun_induction cellEnd cs with
  | case1 | case2 => exact fun _ h => by cases h
  | case3 | case5 =>
    rename_i ih
    exact ih
  | case4 c cs _ _ hpipe =>
    intro d hd
    rw [← Option.some.inj hd]
    exact eq_of_beq hpipe

/-- The first cell of a row is written as a cell. -/
theorem isCell_firstCell {c : Char} (cs : List Char) (hindent : isIndent c = false)
    (hpipe : (c == '|') = false) : IsCell (firstCell (c :: cs)) := by
  refine ⟨⟨?_, ?_⟩, ?_⟩
  · obtain ⟨rest, hrest⟩ := firstCell_cons cs hindent hpipe
    intro d hd
    rw [hrest] at hd
    exact Option.some.inj hd ▸ hindent
  · intro d hd
    rw [firstCell, Text.dropIndentEnd, List.getLast?_reverse] at hd
    exact head_dropWhile_isIndent _ d hd
  · intro before after heq
    obtain ⟨blanks, hblanks⟩ := dropIndentEnd_isBeginning (cellEnd (c :: cs)).1
    have hcell : (cellEnd (c :: cs)).1 = before ++ '|' :: (after ++ blanks) := by
      rw [← hblanks]
      show firstCell (c :: cs) ++ blanks = _
      rw [heq, List.append_assoc, List.cons_append]
    exact escapes_of_cellEnd hcell

end Token

/-! ## §B Spots -/

/-- What the tokens so far allow. -/
inductive Spot where
  /-- Behind nothing that the next token must respect. -/
  | loose
  /-- Behind white space. -/
  | blank
  /-- Behind a block keyword. -/
  | title
  /-- Behind the bracket that opens a step parameter. -/
  | name
  /-- Behind the name of a step parameter. -/
  | close
  /-- Behind a pipe. -/
  | pipe
  /-- Behind a pipe and white space. -/
  | pipeBlank
  deriving DecidableEq, Repr

namespace Spot

/-- The spot behind a token of a class, if one may stand there. -/
def after : Spot → TokenKind → Option Spot
  | title, .colon => some loose
  | name, .parameterName => some close
  | close, .parameterEnd => some loose
  | title, _ | name, _ | close, _ => none
  | _, .colon | _, .parameterName | _, .parameterEnd => none
  | loose, .whitespace => some blank
  | pipe, .whitespace => some pipeBlank
  | _, .whitespace => none
  | pipe, .tableCell | pipeBlank, .tableCell => some loose
  | _, .tableCell => none
  | _, .pipe => some pipe
  | _, .parameterStart => some name
  | _, .keyword k => some (if k.isStep then loose else title)
  | _, _ => some loose

/-- Whether a stream may find any text at a place. -/
def isRunning : LinePlace → Bool
  | .lineStart | .words | .step | .tags => true
  | _ => false

/-- **`Standing spot place line`** — the place of a stream and what is left of its line suit what the
tokens so far allow. -/
inductive Standing : Spot → LinePlace → List Char → Prop
  | loose {place : LinePlace} {line : List Char} (hplace : isRunning place = true) :
      Standing loose place line
  /-- Behind a cell, blanks may stand before the next pipe, and nothing else may. -/
  | cell {line : List Char} (hrow : ∀ c ∈ (line.dropWhile isIndent).head?, c = '|') :
      Standing loose .table line
  | blank {place : LinePlace} {line : List Char} (hloose : Standing loose place line)
      (hhead : ∀ c ∈ line.head?, isIndent c = false) : Standing blank place line
  | title {rest : List Char} : Standing title .colon (':' :: rest)
  | name {word rest : List Char} (hword : IsName word) :
      Standing name .parameterName (word ++ '>' :: rest)
  | close {rest : List Char} : Standing close .parameterEnd ('>' :: rest)
  | pipe {line : List Char} : Standing pipe .table line
  | pipeBlank {line : List Char} (hhead : ∀ c ∈ line.head?, isIndent c = false) :
      Standing pipeBlank .table line

variable {spot spot' : Spot} {place : LinePlace} {line : List Char}

theorem Standing.loose_or_blank (h : Standing spot place line) (hplace : isRunning place = true) :
    spot = .loose ∨ spot = .blank := by
  cases h with
  | loose => exact .inl rfl
  | blank => exact .inr rfl
  | _ => cases hplace

/-- Where a title, a name or its end is due, the line is not over. -/
theorem Standing.ne_nil (h : Standing spot place line)
    (hspot : spot = .title ∨ spot = .name ∨ spot = .close) : line ≠ [] := by
  cases h with
  | title | close => exact List.cons_ne_nil _ _
  | name => simp
  | loose | cell | blank | pipe | pipeBlank => simp at hspot

end Spot

/-! ## §C One token -/

namespace LineCut

open Spot (Standing isRunning)

/-- **`Leads spot spot' doc cut a b`** — a token that is cut off as the one text with the other behind
it leads from a spot to a spot, is written as its class demands and, if it is a word outside doc
strings, holds no space and no tab. -/
structure Leads (spot spot' : Spot) (doc : Option Token.DocDelimiter) (cut : LineCut)
    (a b : List Char) : Prop where
  after_eq : spot.after cut.kind = some spot'
  standing : Standing spot' cut.place b
  spelled : Spelled cut.kind a
  word : cut.kind = .text → doc = none → ∀ c ∈ a, isIndent c = false

/-- **`cut.Goes spot doc line`** — wherever a token of such a length ends in a line, it leads on. -/
def Goes (spot : Spot) (doc : Option Token.DocDelimiter) (line : List Char) (cut : LineCut) : Prop :=
  ∀ a b, line = a ++ b → a.length = max cut.length 1 → ∃ spot', Leads spot spot' doc cut a b

variable {spot spot' : Spot} {place : LinePlace} {doc : Option Token.DocDelimiter}
  {line x y : List Char} {cut : LineCut}

theorem goes_of_append (hline : line = x ++ y) (hne : x ≠ []) (hlen : cut.length = x.length)
    (h : Leads spot spot' doc cut x y) : cut.Goes spot doc line := by
  intro a b hab hlength
  have hpos := List.length_pos_iff.mpr hne
  obtain ⟨rfl, rfl⟩ := List.append_inj (hab.symm.trans hline) (by omega)
  exact ⟨spot', h⟩

/-- A run of spaces and tabs is taken as a whole, so no two of them meet. -/
theorem goes_orIndent (hplace : isRunning place = true ∨ place = .table)
    (h : Standing spot place line)
    (hword : (∀ c ∈ line.head?, isIndent c = false) → cut.Goes spot doc line) :
    (orIndent place doc line cut).Goes spot doc line := by
  unfold orIndent indentLength
  split
  · rename_i hpos
    have hne := List.length_pos_iff.mp hpos
    have hsplit := (List.takeWhile_append_dropWhile (p := isIndent) (l := line)).symm
    have hhead := head_dropWhile_isIndent line
    have hspelled : Spelled .whitespace (line.takeWhile isIndent) :=
      fun _ hc => List.mem_takeWhile_imp hc
    have hfirst (hhead : ∀ c ∈ line.head?, isIndent c = false) : False := by
      cases line with
      | nil => exact hne rfl
      | cons c cs =>
        rw [List.takeWhile_cons_of_neg (by simp [hhead c rfl])] at hne
        exact hne rfl
    cases h with
    | loose hrunning =>
      exact goes_of_append hsplit hne rfl
        ⟨rfl, .blank (.loose hrunning) hhead, hspelled, fun h => by cases h⟩
    | cell hrow =>
      have hbehind : ∀ c ∈ ((line.dropWhile isIndent).dropWhile isIndent).head?, c = '|' := by
        rwa [List.dropWhile_idempotent]
      exact goes_of_append hsplit hne rfl
        ⟨rfl, .blank (.cell hbehind) hhead, hspelled, fun h => by cases h⟩
    | pipe =>
      exact goes_of_append hsplit hne rfl
        ⟨rfl, .pipeBlank hhead, hspelled, fun h => by cases h⟩
    | blank _ hhead | pipeBlank hhead => exact (hfirst hhead).elim
    | title | name | close => rcases hplace with hplace | hplace <;> cases hplace
  · rename_i hpos
    refine hword fun c hc => ?_
    obtain ⟨rest, rfl⟩ := List.head?_eq_some_iff.mp hc
    by_contra hindent
    rw [List.takeWhile_cons_of_pos (by simpa using hindent)] at hpos
    exact hpos (Nat.succ_pos _)

/-- A token that begins nothing leads from a running place to a running place. -/
theorem leads_loose (hspot : spot = .loose ∨ spot = .blank)
    (hkind : cut.kind = .text ∨ cut.kind = .tag ∨ cut.kind = .comment ∨
      cut.kind = .docStringDelimiter) (hplace : isRunning cut.place = true)
    (hword : cut.kind = .text → doc = none → ∀ c ∈ x, isIndent c = false) :
    Leads spot .loose doc cut x y := by
  refine ⟨?_, .loose hplace, ?_, hword⟩
  · rcases hspot with rfl | rfl <;> rcases hkind with h | h | h | h <;> rw [h] <;> rfl
  · rcases hkind with h | h | h | h <;> rw [h] <;> trivial

/-- A word up to the next space or tab. -/
theorem goes_word {kind : TokenKind} (hspot : spot = .loose ∨ spot = .blank) (hne : line ≠ [])
    (hhead : ∀ c ∈ line.head?, isIndent c = false) (hkind : kind = .text ∨ kind = .tag)
    (hplace : isRunning place = true) :
    (LineCut.mk kind (wordLength line) place doc).Goes spot doc line := by
  have hsplit := (List.takeWhile_append_dropWhile (p := fun c => !isIndent c) (l := line)).symm
  refine goes_of_append hsplit ?_ rfl (leads_loose hspot (hkind.imp_right .inl) hplace ?_)
  · obtain ⟨c, cs, rfl⟩ := List.exists_cons_of_ne_nil hne
    rw [List.takeWhile_cons_of_pos (by simp [hhead c rfl])]
    exact List.cons_ne_nil _ _
  · intro _ _ c hc
    have hnot := List.mem_takeWhile_imp hc
    simpa using hnot

/-- What is left of a line as one token. -/
theorem goes_line {kind : TokenKind} {doc' : Option Token.DocDelimiter}
    (hspot : spot = .loose ∨ spot = .blank) (hne : line ≠ [])
    (hkind : kind = .comment ∨ kind = .text ∧ doc ≠ none) (hplace : isRunning place = true) :
    (LineCut.mk kind line.length place doc').Goes spot doc line := by
  refine goes_of_append (List.append_nil line).symm hne rfl (leads_loose hspot ?_ hplace ?_)
  · rcases hkind with rfl | ⟨rfl, -⟩
    · exact .inr (.inr (.inl rfl))
    · exact .inl rfl
  · intro htext hdoc
    rcases hkind with rfl | ⟨-, hsome⟩
    · cases htext
    · exact absurd hdoc hsome

theorem goes_delimiter {d : Token.DocDelimiter} {doc' : Option Token.DocDelimiter}
    (hspot : spot = .loose ∨ spot = .blank) (h : d.chars.isPrefixOf line = true) :
    (LineCut.mk .docStringDelimiter d.chars.length .words doc').Goes spot doc line := by
  obtain ⟨rest, rfl⟩ := List.isPrefixOf_iff_prefix.mp h
  exact goes_of_append rfl d.ne_nil rfl
    (leads_loose hspot (.inr (.inr (.inr rfl))) rfl fun h => by cases h)

theorem goes_ofWords (hne : line ≠ []) (h : Standing spot .words line) :
    (ofWords doc line).Goes spot doc line :=
  goes_orIndent (.inl rfl) h fun hhead =>
    goes_word (h.loose_or_blank rfl) hne hhead (.inl rfl) rfl

theorem goes_ofTags (hne : line ≠ []) (h : Standing spot .tags line) :
    (ofTags doc line).Goes spot doc line := by
  refine goes_orIndent (.inl rfl) h fun hhead => ?_
  have hspot := h.loose_or_blank rfl
  split
  · exact goes_line hspot hne (.inl rfl) rfl
  · exact goes_word hspot hne hhead (.inr rfl) rfl

/-- A word of a step ends before the next space, tab or parameter. -/
theorem isIndent_wordEnd (cs : List Char) : ∀ c ∈ (Token.wordEnd cs).1, isIndent c = false := by
  induction cs with
  | nil => exact fun _ h => absurd h List.not_mem_nil
  | cons c cs ih =>
    rw [Token.wordEnd]
    split
    · exact fun _ h => absurd h List.not_mem_nil
    · rename_i hword
      refine List.forall_mem_cons.mpr ⟨?_, ih⟩
      cases hc : isIndent c with
      | false => rfl
      | true => exact absurd (by rw [hc, Bool.true_or]) hword

theorem goes_ofStep (hne : line ≠ []) (h : Standing spot .step line) :
    (ofStep doc line).Goes spot doc line := by
  refine goes_orIndent (.inl rfl) h fun hhead => ?_
  have hspot := h.loose_or_blank rfl
  split
  · rename_i hparameter
    obtain ⟨⟨word, rest⟩, hfound⟩ := Option.isSome_iff_exists.mp hparameter
    obtain ⟨rfl, hne, hword⟩ := Token.eq_of_parameter? hfound
    have hname : IsName word := by
      refine ⟨hne, fun c hc => ?_⟩
      simpa [Token.isParameterChar, and_assoc] using hword c hc
    refine goes_of_append (x := ['<']) rfl (List.cons_ne_nil _ _) rfl
      ⟨?_, .name hname, rfl, fun h => by cases h⟩
    rcases hspot with rfl | rfl <;> rfl
  · obtain ⟨c, cs, rfl⟩ := List.exists_cons_of_ne_nil hne
    refine goes_of_append (x := c :: (Token.wordEnd cs).1) (y := (Token.wordEnd cs).2) ?_
      (List.cons_ne_nil _ _) rfl (leads_loose hspot (.inl rfl) rfl fun _ _ => ?_)
    · rw [List.cons_append, Token.wordEnd_append]
    · exact List.forall_mem_cons.mpr ⟨hhead c rfl, isIndent_wordEnd cs⟩

/-- A text is its trimming and a run of spaces and tabs. -/
theorem exists_blanks (cs : List Char) :
    ∃ blanks, (∀ c ∈ blanks, isIndent c = true) ∧ cs = Text.dropIndentEnd cs ++ blanks := by
  refine ⟨(cs.reverse.takeWhile isIndent).reverse, fun c hc => ?_, ?_⟩
  · exact List.mem_takeWhile_imp (List.mem_reverse.mp hc)
  · rw [Text.dropIndentEnd, ← List.reverse_append, List.takeWhile_append_dropWhile,
      List.reverse_reverse]

/-- Behind a cell stand blanks and then the next pipe, if any. -/
theorem goes_cell {c : Char} {cs : List Char} (hindent : isIndent c = false)
    (hpipe : (c == '|') = false) (hspot : spot = .pipe ∨ spot = .pipeBlank) :
    (LineCut.mk .tableCell (Token.firstCell (c :: cs)).length .table doc).Goes spot doc
      (c :: cs) := by
  obtain ⟨blanks, hblanks, hcell⟩ := exists_blanks (Token.cellEnd (c :: cs)).1
  have hsplit : c :: cs =
      Token.firstCell (c :: cs) ++ (blanks ++ (Token.cellEnd (c :: cs)).2) := by
    rw [Token.firstCell, ← List.append_assoc, ← hcell, Token.cellEnd_append]
  have hne : Token.firstCell (c :: cs) ≠ [] := by
    obtain ⟨rest, hrest⟩ := Token.firstCell_cons cs hindent hpipe
    rw [hrest]
    exact List.cons_ne_nil c rest
  have hnext := Token.head_cellEnd (c :: cs)
  have hbehind := dropWhile_indent hblanks fun d hd => by rw [hnext d hd]; rfl
  refine goes_of_append hsplit hne rfl ⟨?_, .cell ?_,
    Token.isCell_firstCell cs hindent hpipe, fun h => by cases h⟩
  · rcases hspot with rfl | rfl <;> rfl
  · rwa [hbehind]

theorem goes_ofTable (hne : line ≠ []) (h : Standing spot .table line) :
    (ofTable doc line).Goes spot doc line := by
  refine goes_orIndent (.inr rfl) h fun hhead => ?_
  obtain ⟨c, cs, rfl⟩ := List.exists_cons_of_ne_nil hne
  have hindent : isIndent c = false := hhead c rfl
  split
  · rename_i hpipe
    obtain rfl : c = '|' := by simpa using hpipe
    refine goes_of_append (x := ['|']) rfl (List.cons_ne_nil _ _) rfl
      ⟨?_, .pipe, rfl, fun h => by cases h⟩
    cases h <;> rfl
  · rename_i hpipe
    have hpipe : (c == '|') = false := by simpa using hpipe
    have hrow (hrow : ∀ d ∈ ((c :: cs).dropWhile isIndent).head?, d = '|') : False := by
      rw [List.dropWhile_cons_of_neg (by simp [hindent])] at hrow
      rw [hrow c rfl] at hpipe
      cases hpipe
    refine goes_cell hindent hpipe ?_
    cases h with
    | pipe => exact .inl rfl
    | pipeBlank => exact .inr rfl
    | loose hrunning => cases hrunning
    | cell hcell => exact (hrow hcell).elim
    | blank hloose =>
      cases hloose with
      | loose hrunning => cases hrunning
      | cell hcell => exact (hrow hcell).elim

/-- A block keyword stands before its colon. -/
theorem goes_keyword {k : Keyword} {word : List Char} (hspot : spot = .loose ∨ spot = .blank)
    (h : Token.keywordAt? line = some (k, word)) :
    (LineCut.mk (.keyword k) word.length (if k.isStep then .step else .colon) none).Goes spot none
      line := by
  obtain ⟨hne, ⟨rest, rfl⟩, hend⟩ := Token.spec_of_keywordAt? h
  rw [List.drop_left] at hend
  have hafter : spot.after (.keyword k) = some (if k.isStep then .loose else .title) := by
    rcases hspot with rfl | rfl <;> rfl
  refine goes_of_append rfl hne rfl ⟨hafter, ?_, trivial, fun h => by cases h⟩
  split at hend
  · rename_i hstep
    simp only [hstep, if_true]
    exact .loose rfl
  · rename_i hblock
    obtain ⟨title, rfl⟩ := List.head?_eq_some_iff.mp hend
    simp only [Bool.eq_false_iff.mpr hblock, Bool.false_eq_true, if_false]
    exact .title

/-- A spot at the start of a line is one at any place where a line may begin. -/
theorem standing_of_head (hspot : spot = .loose ∨ spot = .blank)
    (hhead : ∀ c ∈ line.head?, isIndent c = false) (h : Standing .loose place line) :
    Standing spot place line := by
  rcases hspot with rfl | rfl
  · exact h
  · exact .blank h hhead

theorem goes_ofPlain (hspot : spot = .loose ∨ spot = .blank) (hne : line ≠ [])
    (hhead : ∀ c ∈ line.head?, isIndent c = false) : (ofPlain line).Goes spot none line := by
  unfold ofPlain
  split
  · exact goes_line hspot hne (.inl rfl) rfl
  · exact goes_ofTags hne (standing_of_head hspot hhead (.loose rfl))
  · rename_i hpipe
    obtain ⟨cs, rfl⟩ := List.head?_eq_some_iff.mp hpipe
    refine goes_ofTable hne (standing_of_head hspot hhead (.cell fun c hc => ?_))
    exact (Option.some.inj hc).symm
  · split
    · rename_i d hd
      exact goes_delimiter hspot (Token.DocDelimiter.isPrefixOf_of_ofStart? hd)
    · split
      · rename_i k word hkeyword
        exact goes_keyword hspot hkeyword
      · exact goes_ofWords hne (standing_of_head hspot hhead (.loose rfl))

theorem goes_ofDoc {d : Token.DocDelimiter} (hspot : spot = .loose ∨ spot = .blank)
    (hne : line ≠ []) : (ofDoc d line).Goes spot (some d) line := by
  unfold ofDoc
  split
  · rename_i hpre
    exact goes_delimiter hspot hpre
  · exact goes_line hspot hne (.inr ⟨rfl, Option.some_ne_none d⟩) rfl

/-- **One token of a line.** -/
theorem goes_next (hne : line ≠ []) (h : Standing spot place line) :
    (next place doc line).Goes spot doc line := by
  cases place with
  | lineStart =>
    have hspot := h.loose_or_blank rfl
    refine goes_orIndent (.inl rfl) h fun hhead => ?_
    cases doc with
    | none => exact goes_ofPlain hspot hne hhead
    | some d => exact goes_ofDoc hspot hne
  | words => exact goes_ofWords hne h
  | step => exact goes_ofStep hne h
  | tags => exact goes_ofTags hne h
  | table => exact goes_ofTable hne h
  | colon =>
    cases h with
    | title =>
      exact goes_of_append (x := [':']) rfl (List.cons_ne_nil _ _) rfl
        ⟨rfl, .loose rfl, rfl, fun h => by cases h⟩
    | loose hrunning => cases hrunning
    | blank hloose => cases hloose with | loose hrunning => cases hrunning
  | parameterName =>
    cases h with
    | @name word rest hword =>
      have htake : (word ++ '>' :: rest).takeWhile (· != '>') = word := by
        rw [List.takeWhile_append_of_pos fun c hc => bne_iff_ne.mpr (hword.not_mem c hc).2.1]
        simp
      refine goes_of_append rfl hword.ne_nil ?_ ⟨rfl, .close, hword, fun h => by cases h⟩
      exact congrArg List.length htake
    | loose hrunning => cases hrunning
    | blank hloose => cases hloose with | loose hrunning => cases hrunning
  | parameterEnd =>
    cases h with
    | close =>
      exact goes_of_append (x := ['>']) rfl (List.cons_ne_nil _ _) rfl
        ⟨rfl, .loose rfl, rfl, fun h => by cases h⟩
    | loose hrunning => cases hrunning
    | blank hloose => cases hloose with | loose hrunning => cases hrunning

end LineCut

/-! ## §D All tokens -/

/-- **`WellWritten doc t`** — a token that is read while a doc string is open, or none, is written as
its class demands: it is not empty, no class but that of line breaks holds one, and outside doc strings
a word holds no space and no tab. -/
structure WellWritten (doc : Option Token.DocDelimiter) (t : Token) : Prop where
  ne_nil : t.text.toList ≠ []
  spelled : Spelled t.kind t.text.toList
  line : t.kind ≠ .newline → ∀ c ∈ t.text.toList, isBreak c = false
  word : t.kind = .text → doc = none → ∀ c ∈ t.text.toList, isIndent c = false

namespace TokenStream

open Spot (Standing)

variable {s : TokenStream} {spot : Spot}

/-- A line break is one of three texts. -/
theorem spelled_break {c : Char} (hc : isBreak c = true) (rest : List Char) :
    Spelled .newline ((c :: rest).take (breakLength (c :: rest))) := by
  unfold breakLength
  split
  · rename_i hboth
    obtain ⟨after, hafter⟩ := List.isPrefixOf_iff_prefix.mp hboth
    exact .inr (.inl (by rw [← hafter]; rfl))
  · have hbreak : c = '\n' ∨ c = '\r' := by simpa [isBreak] using hc
    rcases hbreak with rfl | rfl
    · exact .inl rfl
    · exact .inr (.inr rfl)

/-- At the end of its line a stream gives the break, which may stand behind all that is complete. -/
theorem standing_break {c : Char} {rest : List Char} (h : Standing spot s.place s.line)
    (hrest : s.rest = c :: rest) (hc : isBreak c = true) :
    ∃ t spot', s.next.1 = some t ∧ spot.after t.kind = some spot' ∧
      Standing spot' s.next.2.place s.next.2.line ∧ WellWritten s.doc t := by
  have hcut : s.cut = ⟨.newline, breakLength (c :: rest), .lineStart, s.doc⟩ := by
    rw [cut, hrest, List.head?_cons, if_pos (by simpa using hc)]
    rfl
  obtain ⟨hline, -⟩ := line_of_rest (a := []) hrest (by simp) (by simpa using hc)
  have hsplit : s.rest = (c :: rest).take (breakLength (c :: rest)) ++
      (c :: rest).drop (breakLength (c :: rest)) := by
    rw [hrest, List.take_append_drop]
  have hlen : ((c :: rest).take (breakLength (c :: rest))).length = max s.cut.length 1 := by
    rw [hcut]
    exact length_take_breakLength c rest
  have hopen := fun hspot => h.ne_nil hspot hline
  have hafter : spot.after .newline = some .loose := by
    cases spot with
    | title | name | close => exact absurd (by simp) hopen
    | loose | blank | pipe | pipeBlank => rfl
  rw [next_of_ne_nil (by simp [hrest]), emit_of_rest hsplit hlen, hcut]
  refine ⟨_, .loose, rfl, hafter, .loose rfl, ?_, ?_, fun h => absurd rfl h, fun h => by cases h⟩
  · rw [String.toList_ofList, ← List.length_pos_iff, hlen]
    omega
  · rw [String.toList_ofList]
    exact spelled_break hc rest

/-- Inside its line a stream gives the next token of it. -/
theorem standing_line {c : Char} {rest : List Char} (h : Standing spot s.place s.line)
    (hrest : s.rest = c :: rest) (hc : isBreak c = false) :
    ∃ t spot', s.next.1 = some t ∧ spot.after t.kind = some spot' ∧
      Standing spot' s.next.2.place s.next.2.line ∧ WellWritten s.doc t := by
  obtain ⟨cs, hcs⟩ : ∃ cs, s.line = c :: cs := by
    refine ⟨rest.takeWhile fun c => !isBreak c, ?_⟩
    rw [line, hrest, List.takeWhile_cons, if_pos (by simp [hc])]
  have hcut : s.cut = .next s.place s.doc s.line := by
    rw [cut, hrest, List.head?_cons, if_neg (by simp [hc])]
  obtain ⟨a, b, hab, hlen, -⟩ := LineCut.agrees_next s.place s.doc c cs
  rw [← hcs] at hab hlen
  obtain ⟨spot', hleads⟩ := LineCut.goes_next (by simp [hcs]) h a b hab hlen
  rw [← hcut] at hlen hleads
  have hsplit : s.rest = a ++ (b ++ s.afterLine) := by
    rw [← List.append_assoc, ← hab, line_append_afterLine]
  have hbreak : ∀ d ∈ a ++ b, isBreak d = false := hab ▸ s.isBreak_of_mem_line
  obtain ⟨hline, -⟩ := line_of_rest
    (s := ⟨b ++ s.afterLine, s.offset + Text.byteLength a, s.cut.place, s.cut.doc⟩) rfl
    (fun d hd => hbreak d (List.mem_append_right a hd)) s.isBreak_head_afterLine
  rw [next_of_ne_nil (by simp [hrest]), emit_of_rest hsplit hlen]
  refine ⟨_, spot', rfl, hleads.after_eq, ?_, ?_, ?_, fun _ => ?_, ?_⟩
  · rw [hline]
    exact hleads.standing
  · rw [String.toList_ofList, ← List.length_pos_iff, hlen]
    omega
  · rw [String.toList_ofList]
    exact hleads.spelled
  · rw [String.toList_ofList]
    exact fun d hd => hbreak d (List.mem_append_left b hd)
  · rw [String.toList_ofList]
    exact hleads.word

/-- **One step of a stream** leads from a spot to a spot and keeps the agreement of place and line. -/
theorem standing_next {t : Token} (h : Standing spot s.place s.line) (hnext : s.next.1 = some t) :
    ∃ spot', spot.after t.kind = some spot' ∧ Standing spot' s.next.2.place s.next.2.line ∧
      WellWritten s.doc t := by
  obtain ⟨c, rest, hrest⟩ := List.exists_cons_of_ne_nil (emit_of_next hnext).1
  have hstep : ∃ t spot', s.next.1 = some t ∧ spot.after t.kind = some spot' ∧
      Standing spot' s.next.2.place s.next.2.line ∧ WellWritten s.doc t := by
    cases hc : isBreak c with
    | true => exact standing_break h hrest hc
    | false => exact standing_line h hrest hc
  obtain ⟨u, spot', hu, hspot⟩ := hstep
  obtain rfl := Option.some.inj (hu.symm.trans hnext)
  exact ⟨spot', hspot⟩

end TokenStream

/-- **`Spot.behind ts`** — the spot behind tokens, if they may follow one another. -/
def Spot.behind (ts : List Token) : Option Spot := ts.foldlM (fun spot t => spot.after t.kind) .loose

theorem Spot.behind_concat (ts : List Token) (t : Token) :
    Spot.behind (ts ++ [t]) = (Spot.behind ts).bind (·.after t.kind) := by
  rw [Spot.behind, List.foldlM_append]
  simp [Spot.behind]

/-- **All steps.** Behind every token of a source there is a spot, and it suits the stream there. -/
theorem exists_spot_of_tokenize {source : String} {a b : List Token}
    (h : tokenize source = a ++ b) :
    ∃ spot, Spot.behind a = some spot ∧
      Spot.Standing spot ((TokenStream.ofSource source).behind a.length).place
        ((TokenStream.ofSource source).behind a.length).line := by
  induction a using List.reverseRecOn generalizing b with
  | nil => exact ⟨.loose, rfl, .loose rfl⟩
  | append_singleton a t ih =>
    rw [List.append_assoc] at h
    obtain ⟨spot, hspot, hstanding⟩ := ih h
    have hnext : ((TokenStream.ofSource source).behind a.length).next.1 = some t := by
      rw [TokenStream.next_ofSource, h]
      simp
    obtain ⟨spot', hafter, hstanding', -⟩ := TokenStream.standing_next hstanding hnext
    refine ⟨spot', ?_, ?_⟩
    · rw [Spot.behind_concat, hspot]
      exact hafter
    · rwa [List.length_append, List.length_singleton, TokenStream.behind_succ]

end FeatureFile
