/-
# FeatureFile.Proofs.Token.Join — one source behind another

Where a text ends in a line break, the lines of what follows begin afresh, and the only thing that
they are told is the doc string left open (`docAfter`). So the tokens of the two texts together are
those of the first and then those of the second, further on by the length of the first. One place
needs care: a carriage return at the end of the one text and a line feed at the start of the other
become one break. It is trivia on either side.

Main statement: `tokenize_append`.
-/

import FeatureFile.Proofs.Token.Grammar
import FeatureFile.Proofs.Token.Stream

namespace FeatureFile

open Text (isBreak byteLength byteSize)

/-! ## §A Further on -/

/-- The span further on by so many bytes. -/
def Span.shift (bytes : Nat) (s : Span) : Span :=
  ⟨s.start + bytes, s.stop + bytes, Nat.add_le_add_right s.start_le_stop bytes⟩

theorem Span.clamp_add (start bytes size : Nat) :
    Span.clamp (start + bytes) (bytes + size) = (Span.clamp start size).shift bytes := by
  have hmax : max (start + bytes) (bytes + size) = max start size + bytes := by omega
  simp only [clamp, shift, hmax]

theorem byteSize_append (p s : String) : byteSize (p ++ s) = byteSize p + byteSize s := by
  rw [byteSize, String.toList_append, Text.byteLength_append]
  rfl

namespace Token

/-- The token further on by so many bytes. -/
def shift (bytes : Nat) (t : Token) : Token := { t with span := t.span.shift bytes }

@[simp] theorem kind_shift (bytes : Nat) (t : Token) : (t.shift bytes).kind = t.kind := rfl

theorem place_add (offset bytes : Nat) (pieces : List Lexeme) :
    place (offset + bytes) pieces = (place offset pieces).map (shift bytes) := by
  induction pieces generalizing offset with
  | nil => rfl
  | cons piece rest ih =>
    obtain ⟨kind, cs⟩ := piece
    have hstop : offset + bytes + byteLength cs = offset + byteLength cs + bytes := by omega
    simp only [place, List.map_cons, ← ih, hstop]
    simp only [shift, Span.shift]

theorem place_append (offset : Nat) (a b : List Lexeme) :
    place offset (a ++ b) = place offset a ++ place (offset + byteLength (a.flatMap Prod.snd)) b := by
  induction a generalizing offset with
  | nil => rfl
  | cons piece rest ih =>
    obtain ⟨kind, cs⟩ := piece
    rw [List.cons_append, place, place, ih, List.flatMap_cons, Text.byteLength_append,
      List.cons_append, Nat.add_assoc]

/-! ## §B The doc string that lines leave open -/

/-- **`docAfter doc ls`** — the doc string that is open after lines. -/
def docAfter (doc : Option DocDelimiter) (ls : List Line) : Option DocDelimiter :=
  ls.foldl (fun doc l => (lineLexemes doc l).2) doc

theorem lexemes_append (doc : Option DocDelimiter) (a b : List Line) :
    lexemes doc (a ++ b) = lexemes doc a ++ lexemes (docAfter doc a) b := by
  induction a generalizing doc with
  | nil => rfl
  | cons l a ih =>
    simp only [List.cons_append, lexemes, ih, List.append_assoc]
    rfl

/-- The phase that lines lead to is one in which a line may begin after them. -/
theorem runs_lexemes_docAfter {ph : Phase} {doc : Option DocDelimiter} (hph : ph.Begins doc)
    (ls : List Line) :
    ∃ ph', ph.Runs (kinds (lexemes doc ls)) ph' ∧ ph'.Begins (docAfter doc ls) :=
  runs_lexemes hph ls

/-- Another break at the end of a line opens and closes no doc string. -/
theorem lexemes_singleton (doc : Option DocDelimiter) (content ending : List Char)
    (h : ending ≠ []) :
    lexemes doc [⟨content, ending⟩] = (contentLexemes doc content).1 ++ [(.newline, ending)] ∧
      docAfter doc [⟨content, ending⟩] = (contentLexemes doc content).2 := by
  have hending : ending.isEmpty = false := by simpa using h
  constructor
  · simp [lexemes, lineLexemes, hending]
  · rfl

end Token

/-! ## §C Lines of two texts -/

/-- **`EndsInBreak cs`** — a text is empty or ends in a line break. -/
def EndsInBreak (cs : List Char) : Prop := ∀ c ∈ cs.getLast?, isBreak c = true

instance (cs : List Char) : Decidable (EndsInBreak cs) :=
  decidable_of_iff (cs.getLast?.all isBreak = true) (Option.all_eq_true _ _)

theorem EndsInBreak.tail {c : Char} {cs : List Char} (h : EndsInBreak (c :: cs)) :
    EndsInBreak cs := by
  intro d hd
  apply h d
  cases cs with
  | nil => cases hd
  | cons e cs => rwa [List.getLast?_cons_cons]

theorem lines_ne_nil {cs : List Char} (h : cs ≠ []) : lines cs ≠ [] := by
  intro hnil
  have hchars := flatMap_chars_lines cs
  rw [hnil] at hchars
  exact h hchars.symm

theorem Line.push_append (c : Char) {a : List Line} (h : a ≠ []) (b : List Line) :
    Line.push c (a ++ b) = Line.push c a ++ b := by
  cases a with
  | nil => exact absurd rfl h
  | cons => rfl

/-- A break is one character long, unless it is a carriage return with a line feed behind it. -/
theorem breakLength_eq_one {c : Char} {rest more : List Char}
    (hrest : ∀ tail, c = '\r' → rest = '\n' :: tail → False)
    (hmore : rest = [] → c = '\r' → more.head? ≠ some '\n') :
    breakLength (c :: (rest ++ more)) = 1 := by
  rw [breakLength, if_neg]
  intro h
  obtain ⟨after, hafter⟩ := List.isPrefixOf_iff_prefix.mp h
  obtain ⟨rfl, hnext⟩ := List.cons.inj hafter
  cases rest with
  | nil => exact hmore rfl rfl (by rw [← show _ = more from hnext]; rfl)
  | cons d rest =>
    obtain ⟨rfl, -⟩ := List.cons.inj hnext
    exact hrest rest rfl rfl

/-- Behind a line break lines begin afresh, unless a carriage return waits for its line feed. -/
theorem lines_append_of_endsInBreak {a b : List Char} (ha : EndsInBreak a)
    (hsplit : a.getLast? = some '\r' → b.head? ≠ some '\n') :
    lines (a ++ b) = lines a ++ lines b := by
  fun_induction lines a with
  | case1 => rfl
  | case2 rest ih =>
    have hrest : lines (rest ++ b) = lines rest ++ lines b := by
      refine ih ha.tail.tail fun hlast => hsplit ?_
      cases rest with
      | nil => cases hlast
      | cons d rest => exact hlast
    show lines ('\r' :: '\n' :: (rest ++ b)) = _
    rw [lines, hrest]
    rfl
  | case3 c rest hcrlf hbreak ih =>
    have hrest : lines (rest ++ b) = lines rest ++ lines b := by
      refine ih ha.tail fun hlast => hsplit ?_
      cases rest with
      | nil => cases hlast
      | cons d rest => exact hlast
    have hlen : breakLength (c :: (rest ++ b)) = 1 := by
      refine breakLength_eq_one hcrlf ?_
      rintro rfl rfl
      exact hsplit rfl
    rw [List.cons_append, lines_cons_of_isBreak hbreak, hlen]
    show ⟨[], [c]⟩ :: lines (rest ++ b) = _
    rw [hrest]
    rfl
  | case4 c rest hcrlf hbreak ih =>
    have hc : isBreak c = false := Bool.eq_false_iff.mpr hbreak
    -- The line goes on, since the text ends in a break.
    have hne : rest ≠ [] := by
      rintro rfl
      exact hbreak (ha c rfl)
    have hrest : lines (rest ++ b) = lines rest ++ lines b := by
      refine ih ha.tail fun hlast => hsplit ?_
      obtain ⟨d, rest, rfl⟩ := List.exists_cons_of_ne_nil hne
      exact hlast
    rw [List.cons_append, lines_cons_of_not_isBreak hc, hrest,
      Line.push_append c (lines_ne_nil hne)]

/-- A carriage return at the end of a text, with and without the line feed behind it. -/
theorem lines_carriageReturn (a : List Char) :
    ∃ ls content, lines (a ++ ['\r']) = ls ++ [⟨content, ['\r']⟩] ∧
      lines (a ++ ['\r', '\n']) = ls ++ [⟨content, ['\r', '\n']⟩] := by
  fun_induction lines a with
  | case1 => exact ⟨[], [], rfl, rfl⟩
  | case2 rest ih =>
    obtain ⟨ls, content, hcr, hcrlf⟩ := ih
    refine ⟨⟨[], ['\r', '\n']⟩ :: ls, content, ?_, ?_⟩
    · exact congrArg (_ :: ·) hcr
    · exact congrArg (_ :: ·) hcrlf
  | case3 c rest hnot hbreak ih =>
    obtain ⟨ls, content, hcr, hcrlf⟩ := ih
    have hlen (more : List Char) : breakLength (c :: (rest ++ '\r' :: more)) = 1 :=
      breakLength_eq_one hnot fun _ _ h => absurd (Option.some.inj h) (by decide)
    refine ⟨⟨[], [c]⟩ :: ls, content, ?_, ?_⟩
    · rw [List.cons_append, lines_cons_of_isBreak hbreak, hlen]
      exact congrArg (_ :: ·) hcr
    · rw [List.cons_append, lines_cons_of_isBreak hbreak, hlen]
      exact congrArg (_ :: ·) hcrlf
  | case4 c rest hnot hbreak ih =>
    obtain ⟨ls, content, hcr, hcrlf⟩ := ih
    have hc : isBreak c = false := Bool.eq_false_iff.mpr hbreak
    rw [List.cons_append, List.cons_append, lines_cons_of_not_isBreak hc,
      lines_cons_of_not_isBreak hc, hcr, hcrlf]
    cases ls with
    | nil => exact ⟨[], c :: content, rfl, rfl⟩
    | cons l ls => exact ⟨{ l with content := c :: l.content } :: ls, content, rfl, rfl⟩

/-! ## §D Tokens of two texts -/

theorem byteLength_lexemes (doc : Option Token.DocDelimiter) (cs : List Char) :
    byteLength ((Token.lexemes doc (lines cs)).flatMap Prod.snd) = byteLength cs := by
  rw [(Token.cuts_lexemes doc (lines cs)).join, flatMap_chars_lines]

/-- **`Joined p s front gap rest`** — how the tokens of two texts together come from those of each:
trivia stands between the two, and as much of it as the second text begins with alone. -/
structure Joined (p s : String) (front gap rest : List Token) : Prop where
  first : ∃ gap', tokenize p = front ++ gap' ∧ ∀ t ∈ gap', t.isTrivia = true
  second : ∃ gap', tokenize s = gap' ++ rest ∧ gap'.length = gap.length ∧
    ∀ t ∈ gap', t.isTrivia = true
  both : tokenize (p ++ s) = front ++ (gap ++ rest.map (Token.shift (byteSize p)))
  gap_trivia : ∀ t ∈ gap, t.isTrivia = true

/-- The pieces of two texts between which a break is split: the first ends in one part of it, the
second begins with the other, and together they have it whole. -/
theorem lexemes_split {a b : List Char} (hdoc : Token.docAfter none (lines (a ++ ['\r'])) = none) :
    ∃ before after, Token.lexemes none (lines (a ++ ['\r'])) = before ++ [(.newline, ['\r'])] ∧
      Token.lexemes none (lines ('\n' :: b)) = (.newline, ['\n']) :: after ∧
      Token.lexemes none (lines (a ++ ['\r'] ++ '\n' :: b)) =
        before ++ (.newline, ['\r', '\n']) :: after := by
  obtain ⟨ls, content, hcr, hcrlf⟩ := lines_carriageReturn a
  have hlines : lines (a ++ ['\r'] ++ '\n' :: b) = ls ++ [⟨content, ['\r', '\n']⟩] ++ lines b := by
    rw [show a ++ ['\r'] ++ '\n' :: b = a ++ ['\r', '\n'] ++ b by simp, ← hcrlf]
    apply lines_append_of_endsInBreak
    · intro c hc
      rw [List.getLast?_append] at hc
      obtain rfl := Option.some.inj hc
      rfl
    · intro hlast
      rw [List.getLast?_append] at hlast
      exact absurd (Option.some.inj hlast) (by decide)
  obtain ⟨hpieces, hafter⟩ :=
    Token.lexemes_singleton (Token.docAfter none ls) content ['\r'] (List.cons_ne_nil _ _)
  obtain ⟨hpieces', hafter'⟩ :=
    Token.lexemes_singleton (Token.docAfter none ls) content ['\r', '\n'] (List.cons_ne_nil _ _)
  have hnone : Token.docAfter none (ls ++ [⟨content, ['\r', '\n']⟩]) = none := by
    rw [hcr, Token.docAfter, List.foldl_append] at hdoc
    rw [Token.docAfter, List.foldl_append]
    exact hafter'.trans (hafter.symm.trans hdoc)
  refine ⟨Token.lexemes none ls ++ (Token.contentLexemes (Token.docAfter none ls) content).1,
    Token.lexemes none (lines b), ?_, rfl, ?_⟩
  · rw [hcr, Token.lexemes_append, hpieces, List.append_assoc]
  · rw [hlines, Token.lexemes_append, hnone, Token.lexemes_append, hpieces']
    simp only [List.append_assoc, List.singleton_append]

/-- **`tokenize_append`** — behind a text that ends in a line break, outside every doc string, the
tokens of another text stand as they do alone. -/
theorem tokenize_append {p s : String} (hp : EndsInBreak p.toList)
    (hdoc : Token.docAfter none (lines p.toList) = none) :
    ∃ front gap rest, Joined p s front gap rest := by
  by_cases hsplit : p.toList.getLast? = some '\r' ∧ s.toList.head? = some '\n'
  · obtain ⟨hlast, hhead⟩ := hsplit
    obtain ⟨a, ha⟩ := List.getLast?_eq_some_iff.mp hlast
    obtain ⟨b, hb⟩ := List.head?_eq_some_iff.mp hhead
    rw [ha] at hdoc
    obtain ⟨before, after, hfirst, hsecond, hboth⟩ := lexemes_split (b := b) hdoc
    -- The break is one byte longer than its first part, and so is what stands before the rest.
    have hsize : byteSize p = byteLength (before.flatMap Prod.snd) + 1 := by
      rw [byteSize, ← byteLength_lexemes none, ha, hfirst, List.flatMap_append,
        Text.byteLength_append]
      rfl
    let width := byteLength (before.flatMap Prod.snd)
    have hfirst : tokenize p = Token.place 0 before ++ Token.place width [(.newline, ['\r'])] := by
      rw [tokenize, ha, hfirst, Token.place_append, Nat.zero_add]
    have hsecond : tokenize s = Token.place 0 [(.newline, ['\n'])] ++ Token.place 1 after := by
      rw [tokenize, hb, hsecond]
      rfl
    have hboth : tokenize (p ++ s) = Token.place 0 before ++
        (Token.place width [(.newline, ['\r', '\n'])] ++
          (Token.place 1 after).map (Token.shift (byteSize p))) := by
      rw [tokenize, String.toList_append, ha, hb, hboth, Token.place_append, Nat.zero_add,
        ← Token.place_add, hsize, show 1 + (width + 1) = width + 2 by omega]
      rfl
    exact ⟨Token.place 0 before, Token.place width [(.newline, ['\r', '\n'])], Token.place 1 after,
      ⟨_, hfirst, List.forall_mem_singleton.mpr rfl⟩,
      ⟨_, hsecond, rfl, List.forall_mem_singleton.mpr rfl⟩, hboth, List.forall_mem_singleton.mpr rfl⟩
  · have hlines : lines (p ++ s).toList = lines p.toList ++ lines s.toList := by
      rw [String.toList_append]
      exact lines_append_of_endsInBreak hp fun hlast hhead => hsplit ⟨hlast, hhead⟩
    have hnone : ∀ t ∈ ([] : List Token), t.isTrivia = true := fun _ h => absurd h List.not_mem_nil
    refine ⟨tokenize p, [], tokenize s, ⟨[], ?_, hnone⟩, ⟨[], rfl, rfl, hnone⟩, ?_, hnone⟩
    · exact (List.append_nil _).symm
    · rw [tokenize, hlines, Token.lexemes_append, hdoc, Token.place_append, byteLength_lexemes,
        Token.place_add]
      rfl

end FeatureFile
