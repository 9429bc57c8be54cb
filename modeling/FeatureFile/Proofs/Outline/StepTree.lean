/-
# FeatureFile.Proofs.Outline.StepTree — the elements on the line of a step

The text of a step becomes tokens and parameters. `Element.Written` says which, by the recursion
that cuts the text: spaces and tabs are a token, a name in angle brackets is a node of three tokens,
and what stands between is a token. While the line is read the step is the innermost node, and its
children and the trivia that waits are just these (`Builder.Writes`). Behind the line children may
join the step but none that it has is lost (`OpenPath.Keeps`).

So the line of a step is its keyword and the elements of the rest of the line, but for trailing
white space that may have gone elsewhere. Main statement: `Outline.exists_writtenAt`.
-/

import FeatureFile.Proofs.Outline.Openers
import FeatureFile.Step
import FeatureFile.Proofs.Token.StepLine

namespace FeatureFile

open Text (isIndent isBreak byteLength)

/-! ## §A Children that a node keeps -/

/-- **`n.Keeps kind es`** — an open node of the kind, or a node of the kind below it, has children
that begin with the given ones. -/
def OpenNode.Keeps (n : OpenNode) (kind : NodeKind) (es : List Element) : Prop :=
  (n.kind = kind ∧ es <+: n.children) ∨
    ∃ x ∈ Element.entriesOf (some n.id) n.children, x.node.kind = kind ∧ es <+: x.node.children

/-- Further children do no harm. -/
theorem OpenNode.Keeps.extend {n m : OpenNode} {kind : NodeKind} {es : List Element}
    (h : n.Keeps kind es) (hid : m.id = n.id) (hkind : m.kind = n.kind)
    (hchildren : n.children <+: m.children) : m.Keeps kind es := by
  obtain ⟨more, hmore⟩ := hchildren
  rcases h with ⟨hn, hes⟩ | ⟨x, hx, hxs⟩
  · exact Or.inl ⟨hkind.trans hn, hes.trans ⟨more, hmore⟩⟩
  · refine Or.inr ⟨x, ?_, hxs⟩
    rw [hid, ← hmore, Element.entriesOf_append]
    exact List.mem_append_left _ hx

/-- A node that is closed stands below the one that it is closed into. -/
theorem OpenNode.Keeps.push_close {n m : OpenNode} {kind : NodeKind} {es : List Element}
    (h : n.Keeps kind es) : (m.push n.close).Keeps kind es := by
  right
  have hbelow : ∀ x, x ∈ n.close.entries (some m.id) →
      x ∈ Element.entriesOf (some (m.push n.close).id) (m.push n.close).children := by
    intro x hx
    rw [OpenNode.children_push, Element.entriesOf_append]
    refine List.mem_append_right _ ?_
    rw [Element.entriesOf, Element.entriesOf, List.append_nil]
    exact hx
  rcases h with ⟨hkind, hes⟩ | ⟨x, hx, hxs⟩
  · exact ⟨_, hbelow _ List.mem_cons_self, hkind, hes⟩
  · exact ⟨x, hbelow x (List.mem_cons_of_mem _ hx), hxs⟩

namespace OpenPath

/-- **`p.Keeps kind es`** — on the path, open or closed, is a node of the kind whose children begin
with the given ones. -/
def Keeps (p : OpenPath) (kind : NodeKind) (es : List Element) : Prop :=
  ∃ n ∈ p.nodes, n.Keeps kind es

variable {p q : OpenPath} {kind : NodeKind} {es : List Element}

theorem Keeps.of_closes (h : p.Keeps kind es) (hcloses : p.Closes q) : q.Keeps kind es := by
  induction hcloses with
  | refl => exact h
  | @close top next outer q _ ih =>
    apply ih
    obtain ⟨n, hn, hkeeps⟩ := h
    rcases List.mem_cons.mp hn with rfl | hn
    · exact ⟨_, List.mem_cons_self, hkeeps.push_close⟩
    · rcases List.mem_cons.mp hn with rfl | hn
      · refine ⟨_, List.mem_cons_self, hkeeps.extend rfl rfl ?_⟩
        rw [OpenNode.children_push]
        exact List.prefix_append _ _
      · exact ⟨n, List.mem_cons_of_mem _ hn, hkeeps⟩

theorem Keeps.pushAll (h : p.Keeps kind es) (more : List Element) :
    (p.pushAll more).Keeps kind es := by
  rw [pushAll_eq]
  obtain ⟨n, hn, hkeeps⟩ := h
  rcases List.mem_cons.mp hn with rfl | hn
  · refine ⟨_, List.mem_cons_self, hkeeps.extend rfl rfl ?_⟩
    exact ⟨more, by simp [OpenNode.children]⟩
  · exact ⟨n, List.mem_cons_of_mem _ hn, hkeeps⟩

theorem Keeps.openAll (h : p.Keeps kind es) (next : Nat) (kinds : List NodeKind) :
    (p.openAll next kinds).Keeps kind es := by
  induction kinds generalizing p next with
  | nil => exact h
  | cons kind kinds ih =>
    obtain ⟨n, hn, hkeeps⟩ := h
    exact ih ⟨n, List.mem_cons_of_mem _ hn, hkeeps⟩ (next + 1)

end OpenPath

namespace Builder

variable {kind : NodeKind} {es : List Element}

/-- A node that is on the path which a token leaves open keeps its children. -/
theorem keeps_of_grown {b b' : Builder} {t : Token} {p : OpenPath} {kinds : List NodeKind}
    {faults : List Degradation.Kind} (h : p.Keeps kind es) (hgrown : b.Grown t p kinds faults b') :
    b'.path.Keeps kind es := by
  have hopen : ((p.pushAll b.pending.reverse).openAll b.nextId kinds).Keeps kind es :=
    (h.pushAll _).openAll _ _
  exact (hopen.pushAll [.token b.nextToken t]).of_closes hgrown.closes

/-- **One token.** -/
theorem keeps_step {b : Builder} (h : b.path.Keeps kind es) (t : Token) :
    (b.step t).path.Keeps kind es := by
  cases ht : t.isTrivia with
  | true =>
    rw [step_trivia b ht]
    exact h
  | false =>
    obtain ⟨p, kinds, faults, hplace, hgrown⟩ := step_grown b ht
    exact keeps_of_grown (h.of_closes hplace.closes) hgrown

/-- **A stretch of tokens.** -/
theorem keeps_foldl {b : Builder} (h : b.path.Keeps kind es) (ts : List Token) :
    (ts.foldl step b).path.Keeps kind es := by
  induction ts generalizing b with
  | nil => exact h
  | cons t ts ih => exact ih (keeps_step h t)

/-- **The end of the source.** -/
theorem exists_entry_of_endPath {b : Builder} (h : b.endPath.Keeps kind es) (size : Nat) :
    ∃ x ∈ (b.finish size).1.entries none, x.node.kind = kind ∧ es <+: x.node.children := by
  have hfill : OpenPath.Keeps ⟨b.endPath.top.fill b.pending, b.endPath.outer⟩ kind es := by
    rw [← pushAll_pending]
    exact h.pushAll _
  have hroot := hfill.of_closes (.closeAll _ fun _ => true)
  rw [finish_fst]
  obtain ⟨n, hn, hkeeps⟩ := hroot
  have hn : n = (OpenPath.closeAll ⟨b.endPath.top.fill b.pending, b.endPath.outer⟩
      fun _ => true).top := by
    rw [OpenPath.nodes, show (OpenPath.closeAll _ fun _ => true).outer = [] from
      OpenPath.closeWhile_true_outer _ _] at hn
    exact List.mem_singleton.mp hn
  subst hn
  rcases hkeeps with ⟨hkind, hes⟩ | ⟨x, hx, hxs⟩
  · exact ⟨_, List.mem_cons_self, hkind, hes⟩
  · exact ⟨x, List.mem_cons_of_mem _ hx, hxs⟩

theorem exists_entry_of_keeps {b : Builder} (h : b.path.Keeps kind es) (size : Nat) :
    ∃ x ∈ (b.finish size).1.entries none, x.node.kind = kind ∧ es <+: x.node.children :=
  exists_entry_of_endPath (h.of_closes b.closes_endPath) size

end Builder

/-! ## §B Elements of a text -/

/-- Each bracket is one byte long. -/
theorem Text.byteLength_bracket : byteLength ['<'] = 1 ∧ byteLength ['>'] = 1 := by decide

/-- The token of a piece at an offset. -/
def Token.ofPiece (kind : TokenKind) (offset : Nat) (cs : List Char) : Token :=
  ⟨kind, Span.ofLength offset (byteLength cs), String.ofList cs⟩

theorem Token.place_cons (offset : Nat) (kind : TokenKind) (cs : List Char) (pieces : List Lexeme) :
    place offset ((kind, cs) :: pieces) =
      ofPiece kind offset cs :: place (offset + byteLength cs) pieces := rfl

theorem Token.eq_ofPiece {t : Token} {offset : Nat} (hstart : t.span.start = offset)
    (hstop : t.span.stop = offset + byteLength t.text.toList) :
    t = ofPiece t.kind offset t.text.toList := by
  obtain ⟨kind, ⟨start, stop, hle⟩, text⟩ := t
  obtain rfl : start = offset := hstart
  obtain rfl : stop = start + byteLength text.toList := hstop
  simp [ofPiece, Span.ofLength]

namespace Element

/-- The children of a parameter of a name at an offset, its first token having a number. -/
def ofName (index offset : Nat) (name : List Char) : List Element :=
  [token index (Token.ofPiece .parameterStart offset ['<']),
    token (index + 1) (Token.ofPiece .parameterName (offset + 1) name),
    token (index + 2) (Token.ofPiece .parameterEnd (offset + 1 + byteLength name) ['>'])]

/-- The span of a parameter runs from the one bracket to the other. -/
theorem coverAll_ofName (index offset : Nat) (name : List Char) :
    (Span.coverAll ((ofName index offset name).map span)).start = offset ∧
      (Span.coverAll ((ofName index offset name).map span)).stop =
        offset + byteLength name + 2 := by
  obtain ⟨hopen, hclose⟩ := Text.byteLength_bracket
  simp only [ofName, List.map_cons, List.map_nil, span, Span.coverAll, List.foldl_cons,
    List.foldl_nil, Span.cover, Token.ofPiece, Span.ofLength, hopen, hclose]
  omega

/-- **`Written offset cs es`** — the elements are those of the text of a step at an offset: runs of
spaces and tabs, parameters, and words between them. -/
inductive Written : Nat → List Char → List Element → Prop
  | nil (offset : Nat) : Written offset [] []
  | white {offset index : Nat} {c : Char} {cs : List Char} {es : List Element} :
      isIndent c = true →
      Written (offset + byteLength (c :: cs.takeWhile isIndent)) (cs.dropWhile isIndent) es →
      Written offset (c :: cs)
        (token index (Token.ofPiece .whitespace offset (c :: cs.takeWhile isIndent)) :: es)
  | parameter {offset index id : Nat} {c : Char} {cs name after : List Char} {es : List Element} :
      isIndent c = false → Token.parameter? (c :: cs) = some (name, after) →
      Written (offset + byteLength name + 2) after es →
      Written offset (c :: cs)
        (node id .stepParameter (Span.coverAll ((ofName index offset name).map span))
          (ofName index offset name) :: es)
  | word {offset index : Nat} {c : Char} {cs : List Char} {es : List Element} :
      isIndent c = false → Token.parameter? (c :: cs) = none →
      Written (offset + byteLength (c :: (Token.wordEnd cs).1)) (Token.wordEnd cs).2 es →
      Written offset (c :: cs)
        (token index (Token.ofPiece .text offset (c :: (Token.wordEnd cs).1)) :: es)

end Element

/-! ## §C The line of a step is read -/

namespace Builder

variable {b b' b'' : Builder} {es es' : List Element}

/-- The children of the innermost node and the trivia that waits, in order. -/
def line (b : Builder) : List Element := b.path.top.children ++ b.pending.reverse

/-- **`b.Writes es b'`** — from `b`, in the text of a step, reading has led to `b'`: the innermost
node is the same one, and the elements have come to its children or wait to do so. -/
structure Writes (b : Builder) (es : List Element) (b' : Builder) : Prop where
  id_eq : b'.path.top.id = b.path.top.id
  kind_eq : b'.path.top.kind = b.path.top.kind
  inDocString_eq : b'.inDocString = b.inDocString
  atLineStart_eq : b'.atLineStart = b.atLineStart
  line_eq : b'.line = b.line ++ es
  kept : b.path.top.children <+: b'.path.top.children
  /-- Nothing but spaces and tabs waits, if that was so before. -/
  waiting : (∀ e ∈ b.pending, e.isToken (· = .whitespace) = true) →
    ∀ e ∈ b'.pending, e.isToken (· = .whitespace) = true

namespace Writes

theorem refl (b : Builder) : b.Writes [] b :=
  ⟨rfl, rfl, rfl, rfl, (List.append_nil _).symm, List.prefix_rfl, id⟩

theorem trans (h : b.Writes es b') (h' : b'.Writes es' b'') : b.Writes (es ++ es') b'' where
  id_eq := h'.id_eq.trans h.id_eq
  kind_eq := h'.kind_eq.trans h.kind_eq
  inDocString_eq := h'.inDocString_eq.trans h.inDocString_eq
  atLineStart_eq := h'.atLineStart_eq.trans h.atLineStart_eq
  line_eq := by rw [h'.line_eq, h.line_eq, List.append_assoc]
  kept := h.kept.trans h'.kept
  waiting hb := h'.waiting (h.waiting hb)

end Writes

/-- White space waits. -/
theorem writes_white (b : Builder) (offset : Nat) (cs : List Char) :
    b.Writes [.token b.nextToken (.ofPiece .whitespace offset cs)]
      (b.step (.ofPiece .whitespace offset cs)) := by
  rw [step_trivia b rfl]
  refine ⟨rfl, rfl, rfl, Bool.or_false _, ?_, List.prefix_rfl, fun hb => ?_⟩
  · simp [line]
  · exact List.forall_mem_cons.mpr ⟨rfl, hb⟩

/-- The waiting trivia and then an element join the innermost node. -/
theorem line_fill_push (n : OpenNode) (w : List Element) (e : Element) :
    ((n.fill w).push e).children = n.children ++ w.reverse ++ [e] := by
  rw [OpenNode.children_push, OpenNode.children_fill]

/-- A word joins the step. -/
theorem writes_word (hdoc : b.inDocString = false) (hline : b.atLineStart = false) (offset : Nat)
    (cs : List Char) :
    b.Writes [.token b.nextToken (.ofPiece .text offset cs)]
      (b.step (.ofPiece .text offset cs)) := by
  have hstep : b.step (.ofPiece .text offset cs) =
      b.begin.attach (.token b.nextToken (.ofPiece .text offset cs)) := by
    rw [step_significant b rfl, if_neg (by simp [hdoc]), hline]
    rfl
  rw [hstep, attach, withPath, flush_path]
  refine ⟨rfl, rfl, rfl, hline.symm, ?_, ?_, fun _ => ?_⟩
  · show ((b.path.top.fill b.pending).push _).children ++ [].reverse = _
    rw [line_fill_push, List.reverse_nil, List.append_nil]
    rfl
  · show _ <+: ((b.path.top.fill b.pending).push _).children
    rw [line_fill_push, List.append_assoc]
    exact List.prefix_append _ _
  · exact fun _ h => absurd h List.not_mem_nil

/-- The three tokens of a parameter become a node, which joins the step. -/
theorem writes_parameter (hdoc : b.inDocString = false) (hline : b.atLineStart = false)
    (offset : Nat) (name : List Char) :
    b.Writes
      [.node b.nextId .stepParameter
        (Span.coverAll ((Element.ofName b.nextToken offset name).map Element.span))
        (Element.ofName b.nextToken offset name)]
      (((b.step (.ofPiece .parameterStart offset ['<'])).step
        (.ofPiece .parameterName (offset + 1) name)).step
        (.ofPiece .parameterEnd (offset + 1 + byteLength name) ['>'])) := by
  have hopen : b.step (.ofPiece .parameterStart offset ['<']) =
      (b.begin.enter .stepParameter).attach
        (.token b.nextToken (.ofPiece .parameterStart offset ['<'])) := by
    rw [step_significant b rfl, if_neg (by simp [hdoc])]
    rfl
  have hname (c : Builder) (hc : c.inDocString = false) :
      c.step (.ofPiece .parameterName (offset + 1) name) =
        c.begin.attach (.token c.nextToken (.ofPiece .parameterName (offset + 1) name)) := by
    rw [step_significant c rfl, if_neg (by simp [hc])]
    rfl
  have hclose (c : Builder) (hc : c.inDocString = false) :
      c.step (.ofPiece .parameterEnd (offset + 1 + byteLength name) ['>']) =
        (c.begin.attach (.token c.nextToken
          (.ofPiece .parameterEnd (offset + 1 + byteLength name) ['>']))).withPath
          (·.closeOne .stepParameter) := by
    rw [step_significant c rfl, if_neg (by simp [hc])]
    rfl
  -- Behind its end the parameter is closed into the node that it was opened in.
  have htop : b.begin.flush.path.top = b.path.top.fill b.pending := by
    rw [flush_path]
    rfl
  rw [hopen, hname, hclose]
  · refine ⟨?_, ?_, rfl, hline.symm, ?_, ?_, fun _ => ?_⟩
    · show b.begin.flush.path.top.id = _
      rw [htop]
      rfl
    · show b.begin.flush.path.top.kind = _
      rw [htop]
      rfl
    · show (b.begin.flush.path.top.push _).children ++ [].reverse = _
      rw [htop, line_fill_push, List.reverse_nil, List.append_nil]
      rfl
    · show _ <+: (b.begin.flush.path.top.push _).children
      rw [htop, line_fill_push, List.append_assoc]
      exact List.prefix_append _ _
    · exact fun _ h => absurd h List.not_mem_nil
  · exact hdoc
  · exact hdoc

/-- **The text of a step.** -/
theorem writes_foldl (hdoc : b.inDocString = false) (hline : b.atLineStart = false) (offset : Nat)
    (rest : List Char) :
    ∃ es, Element.Written offset rest es ∧
      b.Writes es ((Token.place offset (Token.stepLexemes rest)).foldl step b) := by
  fun_induction Token.stepLexemes rest generalizing b offset with
  | case1 => exact ⟨[], .nil offset, .refl b⟩
  | case2 c cs hc ih =>
    have hone := b.writes_white offset (c :: cs.takeWhile isIndent)
    obtain ⟨es, hes, hrest⟩ := ih (hone.inDocString_eq.trans hdoc) (hone.atLineStart_eq.trans hline)
      (offset + byteLength (c :: cs.takeWhile isIndent))
    exact ⟨_, .white hc hes, hone.trans hrest⟩
  | case3 c cs hc name after hparameter ih =>
    have hone := writes_parameter hdoc hline offset name
    have hstop :
        offset + 1 + byteLength name + byteLength ['>'] = offset + byteLength name + 2 := by
      rw [Text.byteLength_bracket.2]
      omega
    obtain ⟨es, hes, hrest⟩ := ih (hone.inDocString_eq.trans hdoc) (hone.atLineStart_eq.trans hline)
      (offset + byteLength name + 2)
    rw [Token.place_cons, Token.place_cons, Token.place_cons, Text.byteLength_bracket.1,
      hstop]
    exact ⟨_, .parameter (Bool.eq_false_iff.mpr hc) hparameter hes, hone.trans hrest⟩
  | case4 c cs hc hnone r =>
    rename_i ih
    have hone := writes_word hdoc hline offset (c :: r.1)
    obtain ⟨es, hes, hrest⟩ := ih (hone.inDocString_eq.trans hdoc) (hone.atLineStart_eq.trans hline)
      (offset + byteLength (c :: r.1))
    exact ⟨_, .word (Bool.eq_false_iff.mpr hc) hnone hes, hone.trans hrest⟩

end Builder

/-! ## §D The line of a step -/

namespace Element

/-- The tokens among the elements of a text are words and white space. -/
theorem Written.isToken_eq {offset : Nat} {cs : List Char} {es : List Element}
    (h : Written offset cs es) {p : TokenKind → Bool} (htext : p .text = false)
    (hwhite : p .whitespace = false) : ∀ e ∈ es, e.isToken p = false := by
  induction h with
  | nil => exact fun _ h => absurd h List.not_mem_nil
  | white _ _ ih => exact List.forall_mem_cons.mpr ⟨hwhite, ih⟩
  | parameter _ _ _ ih => exact List.forall_mem_cons.mpr ⟨rfl, ih⟩
  | word _ _ _ ih => exact List.forall_mem_cons.mpr ⟨htext, ih⟩

/-- The first leaf of an element of a line that is no line break is no trivia, unless the element is
that leaf. -/
theorem head_leaf_of_onLine {e : Element} (h : e.OnLine) (hsolid : e.Solid) :
    (∃ i t, e = .token i t) ∨
      ∃ y ys, e.leaves = y :: ys ∧ y.2.isTrivia = false := by
  cases hsolid with
  | token i t => exact Or.inl ⟨i, t, rfl⟩
  | @node id kind children hne _ =>
    right
    obtain ⟨child, children, rfl⟩ := List.exists_cons_of_ne_nil hne
    have hchild := h.2 child List.mem_cons_self
    cases child with
    | token i t =>
      refine ⟨(i, t), Element.leavesOf children, rfl, ?_⟩
      have hkind : (!t.kind.isTrivia) = true := hchild
      simpa [Token.isTrivia] using hkind
    | node => cases hchild

/-- Behind the line the tokens that follow are white space and then a line break. So the elements of
a node that stand there before its first break are some of that white space. -/
theorem takeWhile_of_leaves {m w : List Element} {b rest : List (Nat × Token)}
    (hline : ∀ e ∈ m.takeWhile (!·.isBreak), e.OnLine) (hsolid : ∀ e ∈ m, e.Solid)
    (hw : ∀ e ∈ w, e.isToken (· = .whitespace) = true)
    (hrest : ∀ y ∈ rest.head?, y.2.kind = .newline)
    (h : leavesOf m ++ b = leavesOf w ++ rest) : m.takeWhile (!·.isBreak) <+: w := by
  induction m generalizing w with
  | nil => exact List.nil_prefix
  | cons e m ih =>
    cases hbreak : e.isBreak with
    | true =>
      rw [List.takeWhile_cons_of_neg (by simp [hbreak])]
      exact List.nil_prefix
    | false =>
      rw [List.takeWhile_cons_of_pos (by simp [hbreak])] at hline ⊢
      obtain ⟨honline, hrestLine⟩ := List.forall_mem_cons.mp hline
      obtain ⟨he, hrestSolid⟩ := List.forall_mem_cons.mp hsolid
      rw [leavesOf, List.append_assoc] at h
      -- The first leaf of the element is the next of the tokens.
      cases w with
      | nil =>
        exfalso
        rcases head_leaf_of_onLine honline he with ⟨i, t, rfl⟩ | ⟨y, ys, hy, htrivia⟩
        · have hkind : t.kind = .newline := hrest (i, t) (by rw [← show _ = rest from h]; rfl)
          simp [Element.isBreak, isToken, hkind] at hbreak
        · have hkind : y.2.kind = .newline := hrest y (by rw [← show _ = rest from h, hy]; rfl)
          rw [Token.isTrivia, hkind] at htrivia
          cases htrivia
      | cons x w =>
        obtain ⟨hx, hrestWhite⟩ := List.forall_mem_cons.mp hw
        cases x with
        | node => cases hx
        | token j u =>
          have hwhite : u.kind = .whitespace := of_decide_eq_true hx
          rcases head_leaf_of_onLine honline he with ⟨i, t, rfl⟩ | ⟨y, ys, hy, htrivia⟩
          · obtain ⟨hhead, htail⟩ := List.cons.inj h
            obtain ⟨rfl, rfl⟩ := Prod.mk.inj hhead
            exact (List.prefix_cons_inj _).mpr (ih hrestLine hrestSolid hrestWhite htail)
          · exfalso
            rw [hy] at h
            obtain ⟨rfl, -⟩ := List.cons.inj h
            rw [Token.isTrivia, hwhite] at htrivia
            cases htrivia

end Element

/-- Behind the end of a line the source goes on with a line break. -/
theorem Token.head_place_of_break {after : List Char} (h : ∀ c ∈ after.head?, isBreak c = true)
    (offset : Nat) :
    ∀ t ∈ (place offset (lexemes none (lines after))).head?, t.kind = .newline := by
  cases after with
  | nil => exact fun _ h => (by cases h)
  | cons c rest =>
    have hne : ((c :: rest).take (breakLength (c :: rest))).isEmpty = false := by
      rw [List.isEmpty_eq_false_iff, ← List.length_pos_iff, length_take_breakLength]
      omega
    rw [lines_cons_of_isBreak (h c rfl)]
    intro t ht
    simp only [lexemes, lineLexemes, contentLexemes_nil, hne, Bool.false_eq_true, if_false,
      List.nil_append, List.singleton_append, place_cons, List.head?_cons,
      Option.mem_some_iff] at ht
    rw [← ht]
    rfl

/-- Lists whose members go together one by one: the second has no member twice over one of the
first. -/
theorem eq_of_forall₂ {α β : Type} {R : α → β → Prop} {as : List α} {bs : List β}
    (h : List.Forall₂ R as bs) (hnodup : as.Nodup) {b b' : β} (hb : b ∈ bs) (hb' : b' ∈ bs)
    (hR : ∀ a a', R a b → R a' b' → a = a') : b = b' := by
  induction h with
  | nil => cases hb
  | @cons a c as bs hac hrest ih =>
    obtain ⟨hnot, hnodup⟩ := List.nodup_cons.mp hnodup
    rcases List.mem_cons.mp hb with hc | hmem <;> rcases List.mem_cons.mp hb' with hc' | hmem'
    · exact hc.trans hc'.symm
    · obtain ⟨a', ha', hR'⟩ := (exists_of_forall₂ hrest).2 b' hmem'
      rw [hR a a' (hc ▸ hac) hR'] at hnot
      exact absurd ha' hnot
    · obtain ⟨a', ha', hR'⟩ := (exists_of_forall₂ hrest).2 b hmem
      rw [← hR a' a hR' (hc' ▸ hac)] at hnot
      exact absurd ha' hnot
    · exact ih hnodup hmem hmem'

namespace Outline

variable {source : String}

/-- A keyword is the first token of one node alone. -/
theorem eq_of_head? {n n' : Node} {i : Nat} {t : Token}
    (hn : n ∈ (parse source).nodes.filter (·.kind.keyword?.isSome))
    (hn' : n' ∈ (parse source).nodes.filter (·.kind.keyword?.isSome))
    (hhead : n.children.head? = some (.token i t))
    (hhead' : n'.children.head? = some (.token i t)) : n = n' := by
  have hnodup : ((numbered (tokenize source)).filter (·.2.kind.keyword?.isSome)).Nodup := by
    refine List.Nodup.filter _ (List.Nodup.of_map Prod.fst ?_)
    rw [map_fst_numbered]
    exact List.nodup_range
  refine eq_of_forall₂ (forall₂_keywords source) hnodup hn hn' fun x x' hx hx' => ?_
  have hi := Option.some.inj (hx.head_eq.symm.trans hhead)
  have hi' := Option.some.inj (hx'.head_eq.symm.trans hhead')
  obtain ⟨h₁, h₂⟩ := Element.token.inj (hi.trans hi'.symm)
  exact Prod.ext h₁ h₂

/-- A node that a keyword opens begins with it. -/
theorem begins_of_keyword {n : Node} (hn : n ∈ (parse source).nodes.filter (·.kind.keyword?.isSome)) :
    ∃ i t k, (tokenize source)[i]? = some t ∧ t.kind = .keyword k ∧
      n.kind = .ofKeyword ((parse source).standsFor i k) k ∧
      n.children.head? = some (.token i t) := by
  obtain ⟨⟨i, t⟩, hx, hbegins⟩ := (exists_of_forall₂ (forall₂_keywords source)).2 _ hn
  obtain ⟨hnumbered, hkeyword⟩ := List.mem_filter.mp hx
  obtain ⟨k, hk, hopens⟩ := hbegins.kind_of_keyword hkeyword
  exact ⟨i, t, k, mem_numbered.mp hnumbered, hk, hopens, hbegins.head_eq⟩

/-- What stands before one of its tokens and behind it. -/
theorem exists_split {ts : List Token} {i : Nat} {t : Token} (h : ts[i]? = some t) :
    ∃ a b, ts = a ++ t :: b ∧ a.length = i := by
  obtain ⟨hi, heq⟩ := List.getElem?_eq_some_iff.mp h
  refine ⟨ts.take i, ts.drop (i + 1), ?_, List.length_take_of_le (by omega)⟩
  rw [← heq, ← List.drop_eq_getElem_cons hi, List.take_append_drop]

/-- A node begins where its first token does. -/
theorem start_of_head? {x : Entry} (hx : x ∈ (parse source).entries) {a b : List Token} {i : Nat}
    {t : Token} (htokens : tokenize source = a ++ t :: b)
    (hhead : x.node.children.head? = some (.token i t)) :
    x.node.span.start = byteLength (textOfTokens a) := by
  obtain ⟨a', b', htokens', hfirst, -⟩ := span_of_placed hx
  obtain ⟨children, hchildren⟩ := List.head?_eq_some_iff.mp hhead
  rw [show x.node.toElement.tokens = Element.tokensOf x.node.children from rfl, hchildren] at htokens'
  rw [hfirst, ← ((tiles_tokenize source).position htokens').2.1,
    ((tiles_tokenize source).position htokens).2.1]

/-- A step begins with its keyword. -/
theorem begins_of_step {s : Step} (hs : s ∈ (parse source).steps) :
    s.node ∈ (parse source).nodes.filter (·.kind.keyword?.isSome) ∧
      ∃ i t, (tokenize source)[i]? = some t ∧ t.kind = .keyword (.step s.keyword) ∧
        s.node.children.head? = some (.token i t) := by
  obtain ⟨⟨parent, hmem⟩, hkind⟩ := mem_steps_iff.mp hs
  have hnode : s.node ∈ (parse source).nodes.filter (·.kind.keyword?.isSome) := by
    refine List.mem_filter.mpr ⟨List.mem_map_of_mem hmem, ?_⟩
    rw [hkind]
    rfl
  obtain ⟨i, t, k, hget, hk, hopens, hhead⟩ := begins_of_keyword hnode
  refine ⟨hnode, i, t, hget, ?_, hhead⟩
  rw [hkind] at hopens
  cases k with
  | step k =>
    obtain ⟨hkeep, -⟩ := NodeKind.step.inj hopens
    rw [hk, hkeep]
  | _ => cases hopens

theorem solid_children_of_mem {x : Entry} (hx : x ∈ (parse source).entries) :
    ∀ e ∈ x.node.children, e.Solid := by
  rcases solid_cases hx with hnode | ⟨-, hsolid⟩
  · obtain ⟨parent, id, kind, span, below⟩ := x
    change Element.Solid (.node id kind span below) at hnode
    cases hnode with
    | node _ hall => exact hall
  · exact hsolid

end Outline

namespace Builder

/-- A keyword comes outside every doc string. -/
theorem inDocString_of_keyword {source : String} {a b : List Token} {t : Token} {k : Keyword}
    (h : tokenize source = a ++ t :: b) (hk : t.kind = .keyword k) :
    (a.foldl step {}).inDocString = false := by
  obtain ⟨ph, hruns⟩ := runs_tokenize source
  rw [h, List.map_append] at hruns
  obtain ⟨ph', hbefore, hbehind⟩ := hruns.split
  have hat : (a.foldl step {}).At ph' :=
    at_foldl judged_nil (show At {} .free from rfl) hbefore
  cases hbehind with
  | cons hafter _ =>
    rw [show (fun t : Token => t.kind) t = .keyword k from hk] at hafter
    cases hdoc : (a.foldl step {}).inDocString with
    | false => rfl
    | true => exact absurd (hat.inDocString hdoc) (Phase.after_keyword hafter).1

/-- A keyword opens its node, outside every doc string. -/
theorem step_keyword {b : Builder} {t : Token} {k : Keyword} (hdoc : b.inDocString = false)
    (hk : t.kind = .keyword k) :
    (b.step t).path.top.children = [.token b.nextToken t] ∧ (b.step t).pending = [] ∧
      (b.step t).path.top.kind = .ofKeyword (effective k b.lastConcrete).1 k ∧
      (b.step t).inDocString = false ∧ (b.step t).atLineStart = false := by
  have hsignificant : t.isTrivia = false := by rw [Token.isTrivia, hk]; rfl
  obtain ⟨p, kinds, faults, hplace, hgrown⟩ := step_grown b hsignificant
  have hpath : (b.step t).path = b.grownPath t p kinds := by
    rw [hgrown.path_eq, if_neg (by simp [hk])]
  refine ⟨?_, hgrown.pending_eq, ?_, ?_, hgrown.atLineStart_eq⟩
  · rw [hpath]
    cases hplace with
    | keyword => rfl
    | _ => simp_all [TokenKind.keyword?]
  · rw [hpath]
    cases hplace with
    | keyword _ hkeyword =>
      obtain rfl := TokenKind.keyword.inj (hk.symm.trans hkeyword)
      rfl
    | _ => simp_all [TokenKind.keyword?]
  · rw [hgrown.inDocString_eq, hdoc, hk]
    rfl

end Builder

/-- **`s.WrittenAt source before word rest after`** — a step in its source: what stands before it,
its keyword, the rest of its line, and what stands behind the line. Its elements on the line are the
keyword and those of the rest, but for white space at the end. -/
structure Step.WrittenAt (source : String) (s : Step) (before word rest after : List Char) :
    Prop where
  source_eq : source.toList = before ++ (word ++ (rest ++ after))
  rest_line : ∀ c ∈ rest, isBreak c = false
  after_break : ∀ c ∈ after.head?, isBreak c = true
  keyword_eq : Token.keywordAt? (word ++ rest) = some (.step s.keyword, word)
  start_eq : s.node.span.start = byteLength before
  elements : ∃ index es white,
    s.lineElements =
        .token index (.ofPiece (.keyword (.step s.keyword)) (byteLength before) word) :: es ∧
      (∀ e ∈ white, e.isToken (· = .whitespace) = true) ∧
      Element.Written (byteLength before + byteLength word) rest (es ++ white)

/-- **`c.HasRead source a t rest es`** — the builder behind the line of a step keyword: the step is
the innermost node, and what the line says has come to its children or waits to do so. -/
structure Builder.HasRead (c : Builder) (source : String) (a : List Token) (t : Token)
    (rest : List Char) (es : List Element) : Prop where
  reads : c.Reads (a ++ t :: Token.place t.span.stop (Token.stepLexemes rest))
  isStep : c.path.top.kind.isStep = true
  written : Element.Written t.span.stop rest es
  line_eq : c.line = .token a.length t :: es
  kept : [.token a.length t] <+: c.path.top.children
  waiting : ∀ e ∈ c.pending, e.isToken (· = .whitespace) = true
  behind : ∃ ts, tokenize source =
      (a ++ t :: Token.place t.span.stop (Token.stepLexemes rest)) ++ ts ∧
    (∀ u ∈ ts.head?, u.kind = .newline) ∧
    (tokenize source).foldl Builder.step {} = ts.foldl Builder.step c

namespace Outline

variable {source : String}

/-- Behind a stretch of tokens the numbers go on. -/
theorem exists_numbered_append (x y : List Token) :
    ∃ rest, numbered (x ++ y) = numbered x ++ rest ∧ rest.map Prod.snd = y := by
  induction y using List.reverseRecOn with
  | nil => exact ⟨[], by simp, rfl⟩
  | append_singleton y t ih =>
    obtain ⟨rest, hrest, hmap⟩ := ih
    refine ⟨rest ++ [((x ++ y).length, t)], ?_, ?_⟩
    · rw [← List.append_assoc, numbered_concat, hrest, List.append_assoc]
    · rw [List.map_append, hmap]
      rfl

/-- Where a numbered token stands, its number is the count of those before it. -/
theorem length_of_numbered {ts : List Token} {a b : List (Nat × Token)} {i : Nat} {t : Token}
    (h : numbered ts = a ++ (i, t) :: b) : a.length = i := by
  have hget : (numbered ts)[a.length]? = some (i, t) := by
    rw [h, List.getElem?_append_right (Nat.le_refl _), Nat.sub_self, List.getElem?_cons_zero]
  rw [numbered, List.getElem?_mapIdx, Option.map_eq_some_iff] at hget
  obtain ⟨u, -, hu⟩ := hget
  exact (Prod.mk.inj hu).1

/-- Behind one of its numbers a list goes on in one way. -/
theorem eq_of_numbered {ts : List Token} {a b x y : List (Nat × Token)} {i : Nat} {t u : Token}
    (h : numbered ts = a ++ (i, t) :: x) (h' : numbered ts = b ++ (i, u) :: y) : x = y := by
  have hlength := (length_of_numbered h).trans (length_of_numbered h').symm
  exact (List.cons.inj (List.append_inj (h.symm.trans h') hlength).2).2

theorem hasRead_of_stepLine {a b : List Token} {t : Token} {k : StepKeyword}
    {rest after : List Char} (htokens : tokenize source = a ++ t :: b)
    (hk : t.kind = .keyword (.step k)) (hline : StepLine source a t b k rest after) :
    ∃ c es, Builder.HasRead c source a t rest es := by
  have hreads := Builder.reads_foldl Builder.reads_nil a
  obtain ⟨hchildren, hpending, hkind, hdoc, hstart⟩ :=
    Builder.step_keyword (Builder.inDocString_of_keyword htokens hk) hk
  rw [show (a.foldl Builder.step {}).nextToken = a.length from hreads.nextToken_eq] at hchildren
  obtain ⟨es, hes, hwrites⟩ := Builder.writes_foldl hdoc hstart t.span.stop rest
  refine ⟨_, es, ?_, ?_, hes, ?_, ?_, hwrites.waiting (by simp [hpending]), ?_⟩
  · have hread := Builder.reads_foldl (Builder.reads_step hreads t)
      (Token.place t.span.stop (Token.stepLexemes rest))
    rwa [List.nil_append, List.append_assoc] at hread
  · rw [hwrites.kind_eq, hkind]
    rfl
  · rw [hwrites.line_eq, Builder.line, hchildren, hpending]
    rfl
  · rw [← hchildren]
    exact hwrites.kept
  · refine ⟨Token.place (t.span.stop + byteLength ((Token.stepLexemes rest).flatMap Prod.snd))
      (Token.lexemes none (lines after)), ?_, ?_, ?_⟩
    · rw [htokens, hline.behind_eq, Token.place_append, List.append_assoc, List.cons_append]
    · exact Token.head_place_of_break hline.after_break _
    · rw [htokens, hline.behind_eq, Token.place_append, List.foldl_append, List.foldl_cons,
        List.foldl_append]

/-- The children that a step has behind its line are its first ones at the end of the source. -/
theorem children_of_hasRead {s : Step} (hs : s ∈ (parse source).steps) {a : List Token} {t : Token}
    (hhead : s.node.children.head? = some (.token a.length t)) {rest : List Char}
    {c : Builder} {es : List Element} (hc : c.HasRead source a t rest es) :
    c.path.top.children <+: s.node.children := by
  obtain ⟨ts, -, -, hrun⟩ := hc.behind
  have hkeeps : c.path.Keeps c.path.top.kind c.path.top.children :=
    ⟨c.path.top, List.mem_cons_self, Or.inl ⟨rfl, List.prefix_rfl⟩⟩
  obtain ⟨x, hx, hkind, hchildren⟩ :=
    Builder.exists_entry_of_keeps (Builder.keeps_foldl hkeeps ts) (Text.byteSize source)
  rw [← hrun, ← root_eq] at hx
  -- It is the node of the keyword.
  have hnode : x.node ∈ (parse source).nodes.filter (·.kind.keyword?.isSome) := by
    refine List.mem_filter.mpr ⟨List.mem_map_of_mem hx, ?_⟩
    rw [hkind, isSome_keyword?_eq, hc.isStep, Bool.or_true]
  have hfirst : x.node.children.head? = some (.token a.length t) := by
    obtain ⟨more, hmore⟩ := hc.kept.trans hchildren
    rw [← hmore]
    rfl
  rw [← eq_of_head? hnode (begins_of_step hs).1 hfirst hhead]
  exact hchildren

/-- The numbered tokens below a step, behind the children that it has behind its line, are those
that wait there and those that follow. -/
theorem leaves_of_hasRead {s : Step} (hs : s ∈ (parse source).steps) {a : List Token} {t : Token}
    {rest : List Char} {c : Builder} {es more : List Element}
    (hc : c.HasRead source a t rest es) (hmore : c.path.top.children ++ more = s.node.children) :
    ∃ b ys, Element.leavesOf more ++ b = Element.leavesOf c.pending.reverse ++ ys ∧
      ∀ y ∈ ys.head?, y.2.kind = .newline := by
  obtain ⟨⟨parent, hmem⟩, -⟩ := mem_steps_iff.mp hs
  obtain ⟨ts, htokens, hnewline, -⟩ := hc.behind
  obtain ⟨children, -, -, hleaves, -⟩ := parse_spec source
  obtain ⟨front, b, hfront⟩ := Element.leaves_split none _ hmem
  obtain ⟨ys, hys, hmap⟩ := exists_numbered_append
    (a ++ t :: Token.place t.span.stop (Token.stepLexemes rest)) ts
  obtain ⟨first, hfirst⟩ := hc.kept
  have hkeyword : Element.leavesOf c.path.top.children =
      (a.length, t) :: Element.leavesOf first := by
    rw [← hfirst]
    rfl
  -- In the tree and in the run the keyword has the same number.
  have htree : numbered (tokenize source) = front ++ (a.length, t) ::
      (Element.leavesOf first ++ (Element.leavesOf more ++ b)) := by
    rw [← hleaves, hfront, ← hmore, Element.leavesOf_append, hkeyword]
    simp only [List.append_assoc, List.cons_append]
  have hrun : numbered (tokenize source) = OpenNode.leaves c.path.outer ++ (a.length, t) ::
      (Element.leavesOf first ++ (Element.leavesOf c.pending.reverse ++ ys)) := by
    have hpath : c.path.leaves = OpenNode.leaves c.path.outer ++
        Element.leavesOf c.path.top.children := rfl
    rw [htokens, hys, ← hc.reads.leaves_eq, Builder.leaves, hpath, hkeyword]
    simp only [List.append_assoc, List.cons_append]
  refine ⟨b, ys, List.append_cancel_left (eq_of_numbered htree hrun), ?_⟩
  cases ys with
  | nil => exact fun _ h => (by cases h)
  | cons y ys =>
    rw [← hmap] at hnewline
    intro z hz
    obtain rfl := Option.some.inj hz
    exact hnewline _ rfl

/-- The elements on the line of a step: its children when its line has been read, and then some of
the white space that waited. -/
theorem line_of_hasRead {s : Step} (hs : s ∈ (parse source).steps) {a : List Token} {t : Token}
    (hk : t.kind = .keyword (.step s.keyword))
    (hhead : s.node.children.head? = some (.token a.length t)) {rest : List Char} {c : Builder}
    {es : List Element} (hc : c.HasRead source a t rest es) :
    ∃ white, (∀ e ∈ white, e.isToken (· = .whitespace) = true) ∧
      s.lineElements ++ white = c.line := by
  obtain ⟨⟨parent, hmem⟩, hkind⟩ := mem_steps_iff.mp hs
  obtain ⟨more, hmore⟩ := children_of_hasRead hs hhead hc
  obtain ⟨b, ys, hleaves, hys⟩ := leaves_of_hasRead hs hc hmore
  have hbreak : ∀ e ∈ c.path.top.children, (!e.isBreak) = true := by
    intro e he
    have hline : e ∈ c.line := List.mem_append_left _ he
    rw [hc.line_eq] at hline
    rcases List.mem_cons.mp hline with rfl | hline
    · simp [Element.isBreak, Element.isToken, hk]
    · rw [Element.isBreak, hc.written.isToken_eq rfl rfl e hline]
      rfl
  have hline : s.lineElements = c.path.top.children ++ more.takeWhile (!·.isBreak) := by
    show s.node.children.takeWhile (!·.isBreak) = _
    rw [← hmore, List.takeWhile_append_of_pos hbreak]
  have honline : ∀ e ∈ more.takeWhile (!·.isBreak), e.OnLine := by
    intro e he
    refine (neat_of_mem hmem).line (by rw [hkind]; rfl) e ?_
    show e ∈ s.lineElements
    rw [hline]
    exact List.mem_append_right _ he
  have hsolid : ∀ e ∈ more, e.Solid := by
    intro e he
    refine solid_children_of_mem hmem e ?_
    show e ∈ s.node.children
    rw [← hmore]
    exact List.mem_append_right _ he
  have hwaiting : ∀ e ∈ c.pending.reverse, e.isToken (· = .whitespace) = true :=
    fun e he => hc.waiting e (List.mem_reverse.mp he)
  obtain ⟨white, hwhite⟩ := Element.takeWhile_of_leaves honline hsolid hwaiting hys hleaves
  refine ⟨white, fun e he => hwaiting e ?_, ?_⟩
  · rw [← hwhite]
    exact List.mem_append_right _ he
  · rw [hline, List.append_assoc, hwhite]
    rfl

/-- **The line of a step.** -/
theorem exists_writtenAt {s : Step} (hs : s ∈ (parse source).steps) :
    ∃ before word rest after, s.WrittenAt source before word rest after := by
  obtain ⟨-, i, t, hget, hk, hhead⟩ := begins_of_step hs
  obtain ⟨⟨parent, hmem⟩, -⟩ := mem_steps_iff.mp hs
  obtain ⟨a, b, htokens, rfl⟩ := exists_split hget
  obtain ⟨rest, after, hline⟩ := stepLine_of_token htokens hk
  obtain ⟨c, es, hc⟩ := hasRead_of_stepLine htokens hk hline
  obtain ⟨white, hwhite, helements⟩ := line_of_hasRead hs hk hhead hc
  obtain ⟨-, hstart, hstop, -⟩ := (tiles_tokenize source).position htokens
  refine ⟨textOfTokens a, t.text.toList, rest, after, hline.source_eq, hline.rest_line,
    hline.after_break, hline.keyword_eq, start_of_head? hmem htokens hhead, ?_⟩
  · rw [hc.line_eq] at helements
    have hwritten := hc.written
    rw [hstop] at hwritten
    cases hline : s.lineElements with
    | nil =>
      rw [hline, List.nil_append] at helements
      have hfalse := hwhite (.token a.length t) (by rw [helements]; exact List.mem_cons_self)
      simp [Element.isToken, hk] at hfalse
    | cons e es' =>
      rw [hline] at helements
      obtain ⟨rfl, rfl⟩ := List.cons.inj helements
      refine ⟨a.length, es', white, ?_, hwhite, hwritten⟩
      rw [← hk, ← Token.eq_ofPiece hstart hstop]

end Outline

end FeatureFile
