/-
# FeatureFile.Proofs.Outline.Growth — what one token does to the open nodes

Every token that is no trivia has the same effect on the builder. Some of the innermost nodes are
closed, the waiting trivia joins the innermost node that is left, some nodes are opened there inside
one another, and the token joins the last of them (`Builder.Grown`). Which nodes are closed, which
are opened and what is recorded is said by `Builder.Placement`, case by case.

`step_grown` is the inversion of one step: every significant token has a placement. All invariants of
a run follow from it, and no other proof opens the builder's functions.
-/

import FeatureFile.Proofs.Outline.Path

namespace FeatureFile

/-! ## §A What a block may hold -/

/-- **`parent.mayHold keyword`** — a node that the keyword opens belongs into nodes of the kind. -/
def NodeKind.mayHold (parent : NodeKind) : Keyword → Bool
  | .feature => parent = .file
  | .rule => parent = .feature
  | .background | .scenario | .scenarioOutline => parent = .feature || parent = .rule
  | .examples => parent = .scenario || parent = .scenarioOutline
  | .step _ => parent.holdsSteps

theorem NodeKind.beq_eq_decide_eq (a k : NodeKind) : (a == k) = decide (k = a) := by
  rw [Bool.eq_iff_iff, beq_iff_eq, decide_eq_true_iff, eq_comm]

namespace OpenPath

/-! ## §B Where closing stops -/

@[simp] theorem labels_push (p : OpenPath) (e : Element) : (p.push e).labels = p.labels := rfl

theorem labels_pushAll (p : OpenPath) (es : List Element) : (p.pushAll es).labels = p.labels := by
  rw [pushAll_eq]
  rfl

theorem kinds_eq (p : OpenPath) : p.kinds = p.labels.map Prod.snd := by
  simp [kinds, labels, OpenNode.labels, nodes]

/-- The nodes that are left open after closing some are the outer ones. -/
theorem labels_of_closes {p q : OpenPath} (h : p.Closes q) :
    ∃ closed, p.labels = closed ++ q.labels := by
  induction h with
  | refl => exact ⟨[], rfl⟩
  | @close top next outer q _ ih =>
    obtain ⟨closed, hclosed⟩ := ih
    exact ⟨(top.id, top.kind) :: closed, congrArg ((top.id, top.kind) :: ·) hclosed⟩

/-- Closing stops at the first node that fails the condition, or at the outermost. -/
theorem closeWhile_spec (f : NodeKind → Bool) (top : OpenNode) (outer : List OpenNode) :
    ∃ closed, OpenNode.labels (top :: outer) = closed ++ (closeWhile f top outer).labels ∧
      (∀ l ∈ closed, f l.2 = true) ∧
      (f (closeWhile f top outer).top.kind = false ∨ (closeWhile f top outer).outer = []) := by
  induction outer generalizing top with
  | nil => exact ⟨[], rfl, by simp, Or.inr rfl⟩
  | cons next outer ih =>
    rw [closeWhile]
    split
    · rename_i hf
      obtain ⟨closed, heq, hclosed, hstop⟩ := ih (next.push top.close)
      refine ⟨(top.id, top.kind) :: closed, congrArg ((top.id, top.kind) :: ·) heq, ?_, hstop⟩
      intro l hl
      rcases List.mem_cons.mp hl with rfl | hl
      · exact hf
      · exact hclosed l hl
    · rename_i hf
      exact ⟨[], rfl, by simp, Or.inl (by simpa using hf)⟩

theorem closeAll_spec (p : OpenPath) (f : NodeKind → Bool) :
    ∃ closed, p.labels = closed ++ (p.closeAll f).labels ∧ (∀ l ∈ closed, f l.2 = true) ∧
      (f (p.closeAll f).top.kind = false ∨ (p.closeAll f).outer = []) :=
  closeWhile_spec f p.top p.outer

/-- Where some open node satisfies a condition, closing the others stops at the innermost such. -/
theorem closeAll_top_of_any {p : OpenPath} {f : NodeKind → Bool} (h : p.kinds.any f = true) :
    f (p.closeAll fun k => !f k).top.kind = true := by
  obtain ⟨closed, heq, hclosed, hstop⟩ := closeAll_spec p fun k => !f k
  rcases hstop with hstop | hstop
  · simpa using hstop
  · -- Only the outermost node is left, so it is the one that satisfies the condition.
    rw [kinds_eq, heq, List.map_append, List.any_append, Bool.or_eq_true] at h
    rcases h with h | h
    · obtain ⟨k, hk, hfk⟩ := List.any_eq_true.mp h
      obtain ⟨l, hl, rfl⟩ := List.mem_map.mp hk
      have := hclosed l hl
      simp [hfk] at this
    · simpa [labels, OpenNode.labels, nodes, hstop] using h

end OpenPath

namespace Builder

/-! ## §C The effect of one token -/

/-- The open nodes `p` after waiting trivia has joined them, nodes are opened and a token is added. -/
def grownPath (b : Builder) (t : Token) (p : OpenPath) (kinds : List NodeKind) : OpenPath :=
  ((p.pushAll b.pending.reverse).openAll b.nextId kinds).push (.token b.nextToken t)

/-- What is wrong with the place of a keyword, given what was seen before, whether examples were
open, and the node that it is put into. -/
def keywordFaults (hasFeature late : Bool) (keyword : Keyword) (parent : NodeKind) :
    List Degradation.Kind :=
  match keyword with
  | .feature => if hasFeature then [.duplicateFeature] else []
  | keyword =>
    if parent.mayHold keyword then
      if keyword.isStep && late then [.stepAfterExamples] else []
    else [.misplaced keyword]

/-- Where a table that a pipe opens goes, before what is no container is closed. -/
def tablePath (p : OpenPath) : OpenPath :=
  (p.closeOne .tableRow).closeAll fun k => k = .stepParameter || k = .docString

/-- Where a doc string that a delimiter opens goes, before what is no container is closed. -/
def docStringPath (p : OpenPath) : OpenPath :=
  p.closeAll fun k => k = .stepParameter || k = .table || k = .tableRow || k = .docString

/-- **`b.Placement t p kinds faults`** — the token leaves the path `p` open, opens nodes of these
kinds on it, and has these faults recorded. -/
inductive Placement (b : Builder) (t : Token) :
    OpenPath → List NodeKind → List Degradation.Kind → Prop
  /-- Inside a doc string every token joins it. -/
  | inside : b.inDocString = true → Placement b t b.path [] []
  /-- A token that opens nothing joins the innermost node, or at the start of a line the innermost
  container. -/
  | join {p : OpenPath} :
      b.inDocString = false → t.kind.keyword? = none → t.kind ≠ .parameterStart →
      t.kind ≠ .docStringDelimiter →
      (p = b.path ∨ b.atLineStart = true ∧ p = b.path.closeLeaves) →
      (t.kind = .pipe → b.atLineStart = false) → Placement b t p [] []
  /-- A keyword opens its node in the innermost node that may hold it; where none may, nothing but
  leaves is closed. -/
  | keyword {p : OpenPath} {k : Keyword} {closed : List (Nat × NodeKind)} :
      b.inDocString = false → t.kind = .keyword k → b.path.closeLeaves.Closes p →
      b.path.closeLeaves.labels = closed ++ p.labels →
      (k ≠ .feature → ∀ l ∈ closed, l.2.mayHold k = false) → (k = .feature → p.outer = []) →
      (k ≠ .feature → p.top.kind.mayHold k = true ∨
        closed = [] ∧ ∀ l ∈ p.labels, l.2.mayHold k = false) →
      Placement b t p [.ofKeyword (effective k b.lastConcrete).1 k]
        (keywordFaults b.hasFeature (b.withPath OpenPath.closeLeaves).insideExamples k p.top.kind)
  /-- A bracket opens a parameter in the innermost node. -/
  | parameter :
      b.inDocString = false → t.kind = .parameterStart → Placement b t b.path [.stepParameter] []
  /-- A pipe behind a row of a table opens another row. -/
  | row :
      b.inDocString = false → t.kind = .pipe → (b.path.closeOne .tableRow).top.kind = .table →
      b.atLineStart = true → Placement b t (b.path.closeOne .tableRow) [.tableRow] []
  /-- A pipe elsewhere opens a table with a row. -/
  | table {p q : OpenPath} {faults : List Degradation.Kind} :
      b.inDocString = false → t.kind = .pipe → (b.path.closeOne .tableRow).top.kind ≠ .table →
      q = tablePath b.path →
      ((q.top.kind.isStep || q.top.kind = .examples) = true ∧ p = q ∧ faults = [] ∨
        (q.top.kind.isStep || q.top.kind = .examples) = false ∧ p = q.closeLeaves ∧
          faults = [.tableOutsideStep]) →
      b.atLineStart = true → Placement b t p [.table, .tableRow] faults
  /-- A delimiter opens a doc string. -/
  | docString {p q : OpenPath} {faults : List Degradation.Kind} :
      b.inDocString = false → t.kind = .docStringDelimiter →
      q = docStringPath b.path →
      (q.top.kind.isStep = true ∧ p = q ∧ faults = [] ∨
        q.top.kind.isStep = false ∧ p = q.closeLeaves ∧ faults = [.docStringOutsideStep]) →
      Placement b t p [.docString] faults

/-- The last concrete step keyword after a token: only keywords outside doc strings change it. -/
def lastAfter (b : Builder) (t : Token) : Option StepKeyword :=
  match t.kind with
  | .keyword k => if b.inDocString then b.lastConcrete else (effective k b.lastConcrete).2
  | _ => b.lastConcrete

theorem lastAfter_of_keyword?_eq_none (b : Builder) {t : Token} (h : t.kind.keyword? = none) :
    b.lastAfter t = b.lastConcrete := by
  unfold lastAfter
  split
  · rename_i hk
    rw [hk] at h
    cases h
  · rfl

theorem lastAfter_of_inDocString {b : Builder} (t : Token) (h : b.inDocString = true) :
    b.lastAfter t = b.lastConcrete := by
  unfold lastAfter
  split
  · rw [if_pos h]
  · rfl

/-- **`b.Grown t p kinds faults b'`** — the builder after a token with the placement. -/
structure Grown (b : Builder) (t : Token) (p : OpenPath) (kinds : List NodeKind)
    (faults : List Degradation.Kind) (b' : Builder) : Prop where
  /-- Only the bracket that ends a parameter closes a node behind itself. -/
  path_eq : b'.path =
    if t.kind = .parameterEnd ∧ b.inDocString = false then
      (b.grownPath t p kinds).closeOne .stepParameter
    else b.grownPath t p kinds
  nextId_eq : b'.nextId = b.nextId + kinds.length
  nextToken_eq : b'.nextToken = b.nextToken + 1
  pending_eq : b'.pending = []
  problems_eq : b'.problems.reverse = b.problems.reverse ++ faults.map (⟨·, t.span⟩)
  atLineStart_eq : b'.atLineStart = false
  inDocString_eq : b'.inDocString = (b.inDocString != (t.kind == .docStringDelimiter))
  hasFeature_eq : b'.hasFeature = (b.hasFeature || kinds.contains .feature)
  lastConcrete_eq : b'.lastConcrete = b.lastAfter t

/-- The builder with nodes closed down to a path and faults recorded at a span. -/
def settle (b : Builder) (p : OpenPath) (faults : List Degradation.Kind) (span : Span) : Builder :=
  { b with path := p, problems := (faults.map (⟨·, span⟩)).reverse ++ b.problems }

/-- The builder with nodes opened on its path and an element added to the last of them. -/
def grow (b : Builder) (kinds : List NodeKind) (e : Element) : Builder :=
  { b with
    path := ((b.path.pushAll b.pending.reverse).openAll b.nextId kinds).push e
    nextId := b.nextId + kinds.length
    pending := [] }

theorem attach_enter (b : Builder) (kind : NodeKind) (e : Element) :
    (b.enter kind).attach e = b.grow [kind] e := rfl

/-- A keyword closes nodes that may not hold it, and its faults are those of the node it is left
with. -/
theorem closeTo_eq (b : Builder) (keyword : Keyword) (span : Span) (allowed : NodeKind → Bool) :
    ∃ p closed, b.path.Closes p ∧ b.path.labels = closed ++ p.labels ∧
      (∀ l ∈ closed, allowed l.2 = false) ∧
      (allowed p.top.kind = true ∨ closed = [] ∧ ∀ l ∈ p.labels, allowed l.2 = false) ∧
      b.closeTo keyword span allowed =
        b.settle p (if allowed p.top.kind then [] else [.misplaced keyword]) span := by
  unfold closeTo
  split
  · rename_i hany
    obtain ⟨closed, heq, hclosed, -⟩ := OpenPath.closeAll_spec b.path fun k => !allowed k
    have htop := OpenPath.closeAll_top_of_any hany
    refine ⟨_, closed, .closeAll b.path _, heq, by simpa using hclosed, Or.inl htop, ?_⟩
    rw [if_pos htop]
    rfl
  · rename_i hany
    have hnone : ∀ l ∈ b.path.labels, allowed l.2 = false := by
      rw [OpenPath.kinds_eq, List.any_map, Bool.not_eq_true, List.any_eq_false] at hany
      simpa using hany
    refine ⟨b.path, [], .refl _, rfl, by simp, Or.inr ⟨rfl, hnone⟩, ?_⟩
    rw [hnone (b.path.top.id, b.path.top.kind) List.mem_cons_self]
    rfl

/-- The keywords that close nodes up to one that may hold them. -/
theorem makeRoom_of_closeTo {b : Builder} {keyword : Keyword} {span : Span}
    (h : b.makeRoom keyword span = b.closeTo keyword span fun k => k.mayHold keyword)
    (hfeature : keyword ≠ .feature) (hstep : keyword.isStep = false) :
    ∃ p closed, b.path.Closes p ∧ b.path.labels = closed ++ p.labels ∧
      (∀ l ∈ closed, l.2.mayHold keyword = false) ∧
      (p.top.kind.mayHold keyword = true ∨
        closed = [] ∧ ∀ l ∈ p.labels, l.2.mayHold keyword = false) ∧
      b.makeRoom keyword span =
        b.settle p (keywordFaults b.hasFeature b.insideExamples keyword p.top.kind) span := by
  obtain ⟨p, closed, hcloses, heq, hclosed, hstop, hto⟩ :=
    closeTo_eq b keyword span fun k => k.mayHold keyword
  refine ⟨p, closed, hcloses, heq, hclosed, hstop, ?_⟩
  rw [h, hto]
  congr 1
  cases keyword <;> simp_all [keywordFaults]

/-- A step is late when examples were open between it and the node that holds it. -/
theorem makeRoom_step (b : Builder) (k : StepKeyword) (span : Span) :
    ∃ p closed, b.path.Closes p ∧ b.path.labels = closed ++ p.labels ∧
      (∀ l ∈ closed, l.2.mayHold (.step k) = false) ∧
      (p.top.kind.mayHold (.step k) = true ∨
        closed = [] ∧ ∀ l ∈ p.labels, l.2.mayHold (.step k) = false) ∧
      b.makeRoom (.step k) span =
        b.settle p (keywordFaults b.hasFeature b.insideExamples (.step k) p.top.kind) span := by
  obtain ⟨p, closed, hcloses, heq, hclosed, hstop, hto⟩ :=
    closeTo_eq b (.step k) span NodeKind.holdsSteps
  refine ⟨p, closed, hcloses, heq, hclosed, hstop, ?_⟩
  have hkind : (b.settle p (if p.top.kind.holdsSteps then [] else [.misplaced (.step k)])
      span).topKind = p.top.kind := rfl
  simp only [makeRoom, hto, hkind, keywordFaults, NodeKind.mayHold, Keyword.isStep,
    Keyword.stepKeyword?]
  by_cases hholds : p.top.kind.holdsSteps = true
  · cases hlate : b.insideExamples <;> simp [hholds, settle, degrade]
  · simp [hholds]

theorem makeRoom_eq (b : Builder) (keyword : Keyword) (span : Span) :
    ∃ p closed, b.path.Closes p ∧ b.path.labels = closed ++ p.labels ∧
      (keyword ≠ .feature → ∀ l ∈ closed, l.2.mayHold keyword = false) ∧
      (keyword = .feature → p.outer = []) ∧
      (keyword ≠ .feature → p.top.kind.mayHold keyword = true ∨
        closed = [] ∧ ∀ l ∈ p.labels, l.2.mayHold keyword = false) ∧
      b.makeRoom keyword span =
        { b.settle p (keywordFaults b.hasFeature b.insideExamples keyword p.top.kind) span with
          hasFeature := b.hasFeature || keyword = .feature } := by
  -- A keyword other than `feature` leaves `hasFeature` as it is.
  have hother : ∀ k : Keyword, k ≠ .feature → (∃ p closed, b.path.Closes p ∧
      b.path.labels = closed ++ p.labels ∧ (∀ l ∈ closed, l.2.mayHold k = false) ∧
      (p.top.kind.mayHold k = true ∨ closed = [] ∧ ∀ l ∈ p.labels, l.2.mayHold k = false) ∧
      b.makeRoom k span =
        b.settle p (keywordFaults b.hasFeature b.insideExamples k p.top.kind) span) →
      ∃ p closed, b.path.Closes p ∧ b.path.labels = closed ++ p.labels ∧
        (k ≠ .feature → ∀ l ∈ closed, l.2.mayHold k = false) ∧ (k = .feature → p.outer = []) ∧
        (k ≠ .feature → p.top.kind.mayHold k = true ∨
          closed = [] ∧ ∀ l ∈ p.labels, l.2.mayHold k = false) ∧
        b.makeRoom k span =
          { b.settle p (keywordFaults b.hasFeature b.insideExamples k p.top.kind) span with
            hasFeature := b.hasFeature || k = .feature } := by
    rintro k hk ⟨p, closed, hcloses, heq, hclosed, hstop, hroom⟩
    refine ⟨p, closed, hcloses, heq, fun _ => hclosed, fun h => absurd h hk, fun _ => hstop, ?_⟩
    rw [hroom, decide_eq_false hk, Bool.or_false]
    rfl
  cases keyword with
  | feature =>
    obtain ⟨closed, heq, -, -⟩ := OpenPath.closeAll_spec b.path fun _ => true
    refine ⟨b.path.closeAll fun _ => true, closed, .closeAll _ _, heq, fun h => absurd rfl h,
      fun _ => OpenPath.closeWhile_true_outer _ _, fun h => absurd rfl h, ?_⟩
    cases h : b.hasFeature <;> simp [makeRoom, keywordFaults, settle, degrade, withPath, h]
  | rule => exact hother _ (by decide) (makeRoom_of_closeTo rfl (by decide) rfl)
  | background => exact hother _ (by decide) (makeRoom_of_closeTo rfl (by decide) rfl)
  | scenario => exact hother _ (by decide) (makeRoom_of_closeTo rfl (by decide) rfl)
  | scenarioOutline => exact hother _ (by decide) (makeRoom_of_closeTo rfl (by decide) rfl)
  | examples => exact hother _ (by decide) (makeRoom_of_closeTo rfl (by decide) rfl)
  | step k => exact hother _ (by simp) (makeRoom_step b k span)

theorem openRow_of_table {b : Builder} (span : Span) (e : Element)
    (h : (b.path.closeOne .tableRow).top.kind = .table) :
    b.openRow span e = (b.settle (b.path.closeOne .tableRow) [] span).grow [.tableRow] e :=
  congrArg (fun b => (enter b .tableRow).attach e) (if_pos h)

theorem openRow_of_held {b : Builder} (span : Span) (e : Element)
    (h : (b.path.closeOne .tableRow).top.kind ≠ .table)
    (hheld : ((tablePath b.path).top.kind.isStep || (tablePath b.path).top.kind = .examples) = true) :
    b.openRow span e = (b.settle (tablePath b.path) [] span).grow [.table, .tableRow] e := by
  simp only [openRow]
  split
  · rename_i htable
    exact absurd htable h
  · exact congrArg (fun b => ((enter b .table).enter .tableRow).attach e) (if_pos hheld)

theorem openRow_of_outside {b : Builder} (span : Span) (e : Element)
    (h : (b.path.closeOne .tableRow).top.kind ≠ .table)
    (hheld : ((tablePath b.path).top.kind.isStep || (tablePath b.path).top.kind = .examples) = false) :
    b.openRow span e =
      (b.settle (tablePath b.path).closeLeaves [.tableOutsideStep] span).grow
        [.table, .tableRow] e := by
  simp only [openRow]
  split
  · rename_i htable
    exact absurd htable h
  · exact congrArg (fun b => ((enter b .table).enter .tableRow).attach e)
      (if_neg (Bool.eq_false_iff.mp hheld))

theorem openDocString_of_step {b : Builder} (span : Span) (e : Element)
    (h : (docStringPath b.path).top.kind.isStep = true) :
    b.openDocString span e =
      { (b.settle (docStringPath b.path) [] span).grow [.docString] e with inDocString := true } :=
  congrArg (fun b => { (enter b .docString).attach e with inDocString := true }) (if_pos h)

theorem openDocString_of_outside {b : Builder} (span : Span) (e : Element)
    (h : (docStringPath b.path).top.kind.isStep = false) :
    b.openDocString span e =
      { (b.settle (docStringPath b.path).closeLeaves [.docStringOutsideStep] span).grow
          [.docString] e with inDocString := true } :=
  congrArg (fun b => { (enter b .docString).attach e with inDocString := true })
    (if_neg (Bool.eq_false_iff.mp h))

/-! ## §D The placement of a token -/

/-- The state in which a significant token is placed. -/
def begin (b : Builder) : Builder := { b with nextToken := b.nextToken + 1, atLineStart := false }

theorem reverse_settle (b : Builder) (p : OpenPath) (faults : List Degradation.Kind) (span : Span) :
    (b.settle p faults span).problems.reverse = b.problems.reverse ++ faults.map (⟨·, span⟩) := by
  simp [settle]

theorem grown_grow (b : Builder) {t : Token} (p : OpenPath) {kinds : List NodeKind}
    {faults : List Degradation.Kind} (hkeyword : t.kind.keyword? = none)
    (hend : t.kind ≠ .parameterEnd) (hkind : (t.kind == .docStringDelimiter) = false)
    (hfeature : kinds.contains .feature = false) :
    b.Grown t p kinds faults
      ((b.begin.settle p faults t.span).grow kinds (.token b.nextToken t)) := by
  refine ⟨(if_neg fun h => hend h.1).symm, rfl, rfl, rfl, reverse_settle b p faults t.span, rfl, ?_, ?_,
    (b.lastAfter_of_keyword?_eq_none hkeyword).symm⟩
  · rw [hkind, Bool.bne_false]
    rfl
  · rw [hfeature, Bool.or_false]
    rfl

theorem openKeyword_spec {b : Builder} {t : Token} {k : Keyword} (hdoc : b.inDocString = false)
    (hk : t.kind = .keyword k) :
    ∃ p kinds faults, b.Placement t p kinds faults ∧
      b.Grown t p kinds faults (b.begin.openKeyword k t.span (.token b.nextToken t)) := by
  obtain ⟨p, closed, hcloses, heq, hclosed, hfeature, hstop, hroom⟩ :=
    makeRoom_eq (b.begin.withPath OpenPath.closeLeaves) k t.span
  refine ⟨p, _, _, .keyword hdoc hk hcloses heq hclosed hfeature hstop, ?_⟩
  simp only [openKeyword, hroom, attach_enter]
  refine ⟨(if_neg (by simp [hk])).symm, rfl, rfl, rfl, reverse_settle b p _ t.span, rfl, ?_, ?_, ?_⟩
  · rw [show (t.kind == .docStringDelimiter) = false by simp [hk], Bool.bne_false]
    rfl
  · have hopens : ∀ stands, decide (k = .feature) =
        [NodeKind.ofKeyword stands k].contains .feature := by
      intro stands
      cases k <;> rfl
    exact congrArg (b.hasFeature || ·) (hopens _)
  · rw [lastAfter, hk, hdoc]
    rfl

theorem openRow_spec {b : Builder} {t : Token} (hdoc : b.inDocString = false)
    (hk : t.kind = .pipe) (hline : b.atLineStart = true) :
    ∃ p kinds faults, b.Placement t p kinds faults ∧
      b.Grown t p kinds faults ((b.begin).openRow t.span (.token b.nextToken t)) := by
  by_cases htable : (b.path.closeOne .tableRow).top.kind = .table
  · refine ⟨_, _, _, .row hdoc hk htable hline, ?_⟩
    rw [openRow_of_table (b := b.begin) _ _ htable]
    exact grown_grow b _ (by rw [hk]; rfl) (by simp [hk]) (by simp [hk]) rfl
  · cases hheld : (tablePath b.path).top.kind.isStep || (tablePath b.path).top.kind = .examples with
    | true =>
      refine ⟨_, _, _, .table hdoc hk htable rfl (Or.inl ⟨hheld, rfl, rfl⟩) hline, ?_⟩
      rw [openRow_of_held (b := b.begin) _ _ htable hheld]
      exact grown_grow b _ (by rw [hk]; rfl) (by simp [hk]) (by simp [hk]) rfl
    | false =>
      refine ⟨_, _, _, .table hdoc hk htable rfl (Or.inr ⟨hheld, rfl, rfl⟩) hline, ?_⟩
      rw [openRow_of_outside (b := b.begin) _ _ htable hheld]
      exact grown_grow b _ (by rw [hk]; rfl) (by simp [hk]) (by simp [hk]) rfl

theorem openDocString_spec {b : Builder} {t : Token} (hdoc : b.inDocString = false)
    (hk : t.kind = .docStringDelimiter) :
    ∃ p kinds faults, b.Placement t p kinds faults ∧
      b.Grown t p kinds faults ((b.begin).openDocString t.span (.token b.nextToken t)) := by
  have hopen : true = (b.inDocString != (t.kind == .docStringDelimiter)) := by
    rw [hdoc, hk]
    rfl
  have hlast := (b.lastAfter_of_keyword?_eq_none (t := t) (by rw [hk]; rfl)).symm
  cases hstep : (docStringPath b.path).top.kind.isStep with
  | true =>
    refine ⟨_, _, _, .docString hdoc hk rfl (Or.inl ⟨hstep, rfl, rfl⟩), ?_⟩
    rw [openDocString_of_step (b := b.begin) _ _ hstep]
    exact ⟨(if_neg (by simp [hk])).symm, rfl, rfl, rfl, reverse_settle b b.path _ t.span, rfl, hopen,
      (Bool.or_false _).symm, hlast⟩
  | false =>
    refine ⟨_, _, _, .docString hdoc hk rfl (Or.inr ⟨hstep, rfl, rfl⟩), ?_⟩
    rw [openDocString_of_outside (b := b.begin) _ _ hstep]
    exact ⟨(if_neg (by simp [hk])).symm, rfl, rfl, rfl, reverse_settle b b.path _ t.span, rfl, hopen,
      (Bool.or_false _).symm, hlast⟩

theorem attach_spec {b : Builder} {t : Token} {q : OpenPath} (hdoc : b.inDocString = false)
    (hkeyword : t.kind.keyword? = none) (hparameter : t.kind ≠ .parameterStart)
    (hend : t.kind ≠ .parameterEnd) (hdelimiter : t.kind ≠ .docStringDelimiter)
    (hq : q = b.path ∨ b.atLineStart = true ∧ q = b.path.closeLeaves)
    (hpipe : t.kind = .pipe → b.atLineStart = false) :
    ∃ p kinds faults, b.Placement t p kinds faults ∧
      b.Grown t p kinds faults ((b.begin.withPath fun _ => q).attach (.token b.nextToken t)) := by
  refine ⟨q, [], [], .join hdoc hkeyword hparameter hdelimiter hq hpipe, ?_⟩
  exact grown_grow b q hkeyword hend (by simpa using hdelimiter) rfl

/-- A word or a tag joins the innermost container when it begins a line. -/
theorem attach_word_spec {b : Builder} {t : Token} (hdoc : b.inDocString = false)
    (hkeyword : t.kind.keyword? = none) (hparameter : t.kind ≠ .parameterStart)
    (hend : t.kind ≠ .parameterEnd) (hdelimiter : t.kind ≠ .docStringDelimiter)
    (hpipe : t.kind ≠ .pipe) :
    ∃ p kinds faults, b.Placement t p kinds faults ∧
      b.Grown t p kinds faults
        (if b.atLineStart then
          (b.begin.withPath OpenPath.closeLeaves).attach (.token b.nextToken t)
        else b.begin.attach (.token b.nextToken t)) := by
  split
  · rename_i hline
    exact attach_spec hdoc hkeyword hparameter hend hdelimiter (Or.inr ⟨hline, rfl⟩)
      fun h => absurd h hpipe
  · exact attach_spec hdoc hkeyword hparameter hend hdelimiter (Or.inl rfl) fun h => absurd h hpipe

/-- A bracket that ends a parameter joins it and closes it. -/
theorem parameterEnd_spec {b : Builder} {t : Token} (hdoc : b.inDocString = false)
    (hk : t.kind = .parameterEnd) :
    ∃ p kinds faults, b.Placement t p kinds faults ∧
      b.Grown t p kinds faults
        ((b.begin.attach (.token b.nextToken t)).withPath (·.closeOne .stepParameter)) := by
  refine ⟨b.path, [], [], .join hdoc (by rw [hk]; rfl) (by simp [hk]) (by simp [hk])
    (Or.inl rfl) (by simp [hk]), ?_⟩
  refine ⟨(if_pos ⟨hk, hdoc⟩).symm, rfl, rfl, rfl, (List.append_nil _).symm, rfl, ?_,
    (Bool.or_false _).symm, (b.lastAfter_of_keyword?_eq_none (by rw [hk]; rfl)).symm⟩
  rw [show (t.kind == .docStringDelimiter) = false by simp [hk], Bool.bne_false]
  rfl

theorem placeToken_spec {b : Builder} (t : Token) (hdoc : b.inDocString = false) :
    ∃ p kinds faults, b.Placement t p kinds faults ∧
      b.Grown t p kinds faults (b.begin.placeToken b.atLineStart t (.token b.nextToken t)) := by
  unfold placeToken
  split
  · rename_i keyword hk
    exact openKeyword_spec hdoc hk
  · rename_i hk
    refine ⟨_, _, _, .parameter hdoc hk, ?_⟩
    exact grown_grow b b.path (by rw [hk]; rfl) (by simp [hk]) (by simp [hk]) rfl
  · rename_i hk
    exact parameterEnd_spec hdoc hk
  · rename_i hk
    exact openDocString_spec hdoc hk
  · rename_i hk
    split
    · rename_i hline
      exact openRow_spec hdoc hk hline
    · rename_i hline
      exact attach_spec hdoc (by rw [hk]; rfl) (by simp [hk]) (by simp [hk]) (by simp [hk])
        (Or.inl rfl) fun _ => Bool.eq_false_iff.mpr hline
  · rename_i hk
    exact attach_word_spec hdoc (by rw [hk]; rfl) (by simp [hk]) (by simp [hk]) (by simp [hk])
      (by simp [hk])
  · rename_i hk
    exact attach_word_spec hdoc (by rw [hk]; rfl) (by simp [hk]) (by simp [hk]) (by simp [hk])
      (by simp [hk])
  · rename_i hkeyword hparameter hend hdelimiter hpipe _ _
    refine attach_spec hdoc ?_ hparameter hend hdelimiter (Or.inl rfl) fun h => absurd h hpipe
    cases hk : t.kind <;> first | rfl | exact absurd hk (hkeyword _)

/-- **One significant token.** It has a placement, and the builder grows by it. -/
theorem step_grown (b : Builder) {t : Token} (h : t.isTrivia = false) :
    ∃ p kinds faults, b.Placement t p kinds faults ∧ b.Grown t p kinds faults (b.step t) := by
  simp only [step, h, if_false, Bool.false_eq_true]
  split
  · rename_i hdoc
    refine ⟨b.path, [], [], .inside hdoc, ?_⟩
    refine ⟨(if_neg (by simp [hdoc])).symm, rfl, rfl, rfl, (List.append_nil _).symm, rfl, ?_,
      (Bool.or_false _).symm, (lastAfter_of_inDocString t hdoc).symm⟩
    show (t.kind != TokenKind.docStringDelimiter) = _
    rw [hdoc, Bool.true_bne, bne]
  · rename_i hdoc
    exact placeToken_spec t (Bool.eq_false_iff.mpr hdoc)

/-- Trivia waits. -/
theorem step_trivia (b : Builder) {t : Token} (h : t.isTrivia = true) :
    b.step t = { b with
      nextToken := b.nextToken + 1
      pending := .token b.nextToken t :: b.pending
      atLineStart := b.atLineStart || t.kind = .newline } := by
  rw [step, if_pos h]

theorem Placement.closes {b : Builder} {t : Token} {p : OpenPath} {kinds : List NodeKind}
    {faults : List Degradation.Kind} (h : b.Placement t p kinds faults) : b.path.Closes p := by
  cases h with
  | inside => exact .refl _
  | join _ _ _ _ hp =>
    rcases hp with rfl | ⟨-, rfl⟩
    · exact .refl _
    · exact .closeLeaves _
  | keyword _ _ hcloses => exact (OpenPath.Closes.closeLeaves _).trans hcloses
  | parameter => exact .refl _
  | row => exact .closeOne _ _
  | table _ _ _ hq hheld =>
    have hcloses : b.path.Closes (tablePath b.path) :=
      (OpenPath.Closes.closeOne _ _).trans (.closeAll _ _)
    subst hq
    rcases hheld with ⟨-, rfl, -⟩ | ⟨-, rfl, -⟩
    · exact hcloses
    · exact hcloses.trans (.closeLeaves _)
  | docString _ _ hq hheld =>
    have hcloses : b.path.Closes (docStringPath b.path) := .closeAll _ _
    subst hq
    rcases hheld with ⟨-, rfl, -⟩ | ⟨-, rfl, -⟩
    · exact hcloses
    · exact hcloses.trans (.closeLeaves _)

/-- The end of the source: the last trivia joins an open node, and what is missing is recorded. -/
theorem finish_eq (b : Builder) (size : Nat) :
    ∃ p, b.path.Closes p ∧ b.finish size =
      ((p.pushAll b.pending.reverse).finish,
        b.problems.reverse ++
          ((if b.inDocString then [⟨.unclosedDocString, Span.clamp b.topStart size⟩] else []) ++
            if b.hasFeature then [] else [⟨.missingFeature, Span.clamp 0 size⟩])) := by
  have hproblems : ∀ (c : Builder) (tail : List Degradation),
      c.problems.reverse = b.problems.reverse ++ tail → c.hasFeature = b.hasFeature →
      (if c.hasFeature then c else c.degrade .missingFeature (Span.clamp 0 size)).problems.reverse =
        b.problems.reverse ++
          (tail ++ if b.hasFeature then [] else [⟨.missingFeature, Span.clamp 0 size⟩]) := by
    intro c tail hc hfeature
    rw [hfeature]
    cases b.hasFeature <;> simp [degrade, hc]
  have hpath : ∀ c : Builder,
      (if c.hasFeature then c else c.degrade .missingFeature (Span.clamp 0 size)).path = c.path := by
    intro c
    split <;> rfl
  cases hdoc : b.inDocString with
  | true =>
    refine ⟨b.path, .refl _, ?_⟩
    simp only [finish, hdoc, if_true, hpath]
    refine Prod.ext rfl (hproblems _ _ ?_ rfl)
    simp [degrade, flush]
  | false =>
    refine ⟨b.path.closeLeaves, .closeLeaves _, ?_⟩
    simp only [finish, hdoc, hpath, Bool.false_eq_true, if_false]
    refine Prod.ext rfl (hproblems _ _ ?_ rfl)
    simp [withPath, flush]

/-- All problems: those of the tokens, and those that the end of the source shows. -/
theorem finish_snd (b : Builder) (size : Nat) :
    (b.finish size).2 =
      b.problems.reverse ++
        ((if b.inDocString then [⟨.unclosedDocString, Span.clamp b.topStart size⟩] else []) ++
          if b.hasFeature then [] else [⟨.missingFeature, Span.clamp 0 size⟩]) := by
  obtain ⟨p, -, hfinish⟩ := finish_eq b size
  rw [hfinish]

end Builder

end FeatureFile
