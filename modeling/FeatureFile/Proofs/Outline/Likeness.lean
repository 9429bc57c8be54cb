/-
# FeatureFile.Proofs.Outline.Likeness — two builders side by side

Two sources may differ in ways that an outline does not show, or that it shows in another place. To
say so, two runs of the builder are compared. What they have in common is a `Likeness`: a relation
between open nodes, another between the trivia that waits, and further ones between tokens, numbers
and recorded problems, with the laws that building respects them. The builder decides by kinds
alone, so corresponding tokens keep any likeness: `Builder.Alike.step` for one token,
`Builder.Alike.foldl` for a stretch of them.

The root is told apart from the nodes inside it. It is where two runs may have a different past.
-/

import FeatureFile.Proofs.Outline.Growth
import Mathlib.Data.List.Forall2

namespace FeatureFile

/-! ## §A Likenesses -/

/-- The node with further children, given last first. -/
def OpenNode.fill (n : OpenNode) (reversed : List Element) : OpenNode :=
  { n with reversed := reversed ++ n.reversed }

/-- **`Likeness`** — what is the same in two runs of the builder. A flag of `true` marks the root: of
nodes it says that they are the roots, of waiting trivia that it would join the root. -/
structure Likeness where
  node : Bool → OpenNode → OpenNode → Prop
  /-- Waiting trivia, last first. -/
  trivia : Bool → List Element → List Element → Prop
  token : Token → Token → Prop
  /-- The numbers of nodes. -/
  number : Nat → Nat → Prop
  /-- The numbers of tokens. -/
  index : Nat → Nat → Prop
  /-- Recorded problems, last first. -/
  problems : List Degradation → List Degradation → Prop
  kind_of_node : ∀ {r n n'}, node r n n' → n.kind = n'.kind
  kind_of_token : ∀ {t t'}, token t t' → t.kind = t'.kind
  number_succ : ∀ {i i'}, number i i' → number (i + 1) (i' + 1)
  index_succ : ∀ {i i'}, index i i' → index (i + 1) (i' + 1)
  node_new : ∀ {i i'} kind, number i i' → node false ⟨i, kind, []⟩ ⟨i', kind, []⟩
  node_close : ∀ {r n n' m m'}, node false n n' → node r m m' →
    node r (m.push n.close) (m'.push n'.close)
  node_push : ∀ {r n n' i i' t t'}, node r n n' → index i i' → token t t' → t.isTrivia = false →
    node r (n.push (.token i t)) (n'.push (.token i' t'))
  node_fill : ∀ {r n n' w w'}, node r n n' → trivia r w w' → node r (n.fill w) (n'.fill w')
  trivia_nil : ∀ r, trivia r [] []
  trivia_cons : ∀ {r w w' i i' t t'}, trivia r w w' → index i i' → token t t' →
    t.isTrivia = true → trivia r (.token i t :: w) (.token i' t' :: w')
  /-- Trivia that would join an inner node may join the root. -/
  trivia_root : ∀ {w w'}, trivia false w w' → trivia true w w'
  problems_cons : ∀ {ps ps' t t'} kind, problems ps ps' → token t t' →
    problems (⟨kind, t.span⟩ :: ps) (⟨kind, t'.span⟩ :: ps')

namespace Likeness

variable {L : Likeness}

/-- Open nodes from the inside out, alike one by one; the last ones are the roots. -/
inductive Nodes (L : Likeness) : List OpenNode → List OpenNode → Prop
  | root {n n' : OpenNode} : L.node true n n' → Nodes L [n] [n']
  | inner {n n' : OpenNode} {ns ns' : List OpenNode} :
      L.node false n n' → Nodes L ns ns' → Nodes L (n :: ns) (n' :: ns')

/-- **`L.Paths p p'`** — the open nodes of two paths are alike. -/
def Paths (L : Likeness) (p p' : OpenPath) : Prop := L.Nodes p.nodes p'.nodes

/-- The innermost nodes of alike paths, as roots if they are. -/
theorem Nodes.cases_top {top top' : OpenNode} {outer outer' : List OpenNode}
    (h : L.Nodes (top :: outer) (top' :: outer')) :
    outer = [] ∧ outer' = [] ∧ L.node true top top' ∨
      outer ≠ [] ∧ L.node false top top' ∧ L.Nodes outer outer' := by
  cases h with
  | root htop => exact Or.inl ⟨rfl, rfl, htop⟩
  | inner htop houter =>
    refine Or.inr ⟨?_, htop, houter⟩
    cases houter with
    | root => exact List.cons_ne_nil _ _
    | inner => exact List.cons_ne_nil _ _

/-- Changing the innermost nodes alike, whether they are roots or not. -/
theorem Paths.with_top {p p' : OpenPath} (h : L.Paths p p') {n n' : OpenNode}
    (hn : L.node p.outer.isEmpty p.top p'.top → L.node p.outer.isEmpty n n') :
    L.Paths ⟨n, p.outer⟩ ⟨n', p'.outer⟩ := by
  obtain ⟨top, outer⟩ := p
  obtain ⟨top', outer'⟩ := p'
  rcases Nodes.cases_top h with ⟨rfl, rfl, htop⟩ | ⟨hne, htop, houter⟩
  · exact .root (hn htop)
  · have hflag : outer.isEmpty = false := by simpa using hne
    rw [hflag] at hn
    exact .inner (hn htop) houter

theorem Nodes.map_kind {ns ns' : List OpenNode} (h : L.Nodes ns ns') :
    ns.map (·.kind) = ns'.map (·.kind) := by
  induction h with
  | root h => rw [List.map_singleton, List.map_singleton, L.kind_of_node h]
  | inner h _ ih => rw [List.map_cons, List.map_cons, L.kind_of_node h, ih]

theorem Paths.kinds_eq {p p' : OpenPath} (h : L.Paths p p') : p.kinds = p'.kinds :=
  Nodes.map_kind h

theorem Paths.top_kind {p p' : OpenPath} (h : L.Paths p p') : p.top.kind = p'.top.kind :=
  (List.cons.inj h.kinds_eq).1

/-! ## §B Closing nodes -/

theorem Nodes.closeWhile {top top' : OpenNode} {outer outer' : List OpenNode}
    (h : L.Nodes (top :: outer) (top' :: outer')) (f : NodeKind → Bool) :
    L.Paths (OpenPath.closeWhile f top outer) (OpenPath.closeWhile f top' outer') := by
  induction outer generalizing top top' outer' with
  | nil =>
    cases h with
    | root h => exact .root h
    | inner _ h => cases h
  | cons next outer ih =>
    cases h with
    | inner htop hrest =>
      have hkind := L.kind_of_node htop
      cases outer' with
      | nil => cases hrest
      | cons next' outer' =>
        rw [OpenPath.closeWhile, OpenPath.closeWhile, ← hkind]
        split
        · -- The innermost node is closed into the next one, from which the walk goes on.
          apply ih
          cases hrest with
          | root hnext => exact .root (L.node_close htop hnext)
          | inner hnext houter => exact .inner (L.node_close htop hnext) houter
        · exact .inner htop hrest

theorem Paths.closeAll {p p' : OpenPath} (h : L.Paths p p') (f : NodeKind → Bool) :
    L.Paths (p.closeAll f) (p'.closeAll f) := Nodes.closeWhile h f

theorem Paths.closeLeaves {p p' : OpenPath} (h : L.Paths p p') :
    L.Paths p.closeLeaves p'.closeLeaves := h.closeAll _

theorem Paths.closeOne {p p' : OpenPath} (h : L.Paths p p') (kind : NodeKind) :
    L.Paths (p.closeOne kind) (p'.closeOne kind) := by
  obtain ⟨top, outer⟩ := p
  obtain ⟨top', outer'⟩ := p'
  cases h with
  | root h => exact .root h
  | inner htop hrest =>
    have hkind : top.kind = top'.kind := L.kind_of_node htop
    cases hrest with
    | root hnext =>
      simp only [OpenPath.closeOne, ← hkind]
      split
      · exact .root (L.node_close htop hnext)
      · exact .inner htop (.root hnext)
    | inner hnext houter =>
      simp only [OpenPath.closeOne, ← hkind]
      split
      · exact .inner (L.node_close htop hnext) houter
      · exact .inner htop (.inner hnext houter)

/-- Closing every node leaves the roots. -/
theorem Paths.finish {p p' : OpenPath} (h : L.Paths p p') :
    ∃ n n', L.node true n n' ∧ p.finish = n.close ∧ p'.finish = n'.close := by
  have hall := h.closeAll fun _ => true
  rcases Nodes.cases_top hall with ⟨-, -, hroot⟩ | ⟨hne, -⟩
  · exact ⟨_, _, hroot, rfl, rfl⟩
  · exact absurd (OpenPath.closeWhile_true_outer _ _) hne

/-- Trivia that waits may go on waiting while nodes are closed. -/
theorem trivia_of_closes {p q : OpenPath} {w w' : List Element}
    (h : L.trivia p.outer.isEmpty w w') (hcloses : p.Closes q) : L.trivia q.outer.isEmpty w w' := by
  induction hcloses with
  | refl => exact h
  | @close top next outer q _ ih =>
    refine ih ?_
    cases outer with
    | nil => exact L.trivia_root h
    | cons => exact h

/-- Giving alike trivia to the innermost nodes. -/
theorem Paths.fill {p p' : OpenPath} (h : L.Paths p p') {w w' : List Element}
    (hw : L.trivia p.outer.isEmpty w w') :
    L.Paths ⟨p.top.fill w, p.outer⟩ ⟨p'.top.fill w', p'.outer⟩ :=
  h.with_top fun htop => L.node_fill htop hw

end Likeness

/-! ## §C Alike builders -/

namespace Builder

variable {L : Likeness} {b b' : Builder}

/-- **`Alike L b b'`** — two builders are alike. -/
structure Alike (L : Likeness) (b b' : Builder) : Prop where
  paths : L.Paths b.path b'.path
  trivia : L.trivia b.path.outer.isEmpty b.pending b'.pending
  number : L.number b.nextId b'.nextId
  index : L.index b.nextToken b'.nextToken
  problems : L.problems b.problems b'.problems
  lastConcrete_eq : b.lastConcrete = b'.lastConcrete
  atLineStart_eq : b.atLineStart = b'.atLineStart
  inDocString_eq : b.inDocString = b'.inDocString
  hasFeature_eq : b.hasFeature = b'.hasFeature

theorem flush_path (b : Builder) : b.flush.path = ⟨b.path.top.fill b.pending, b.path.outer⟩ := by
  show b.path.pushAll b.pending.reverse = _
  rw [OpenPath.pushAll_eq, List.reverse_reverse]
  rfl

/-- The path that the last trivia joins. -/
def endPath (b : Builder) : OpenPath := if b.inDocString then b.path else b.path.closeLeaves

theorem closes_endPath (b : Builder) : b.path.Closes b.endPath := by
  rw [endPath]
  split
  · exact .refl _
  · exact .closeLeaves _

/-- The tree that is left at the end of the source. -/
theorem finish_fst (b : Builder) (size : Nat) :
    (b.finish size).1 =
      OpenPath.finish ⟨b.endPath.top.fill b.pending, b.endPath.outer⟩ := by
  have hpath : ∀ c : Builder, c.path = b.endPath → c.pending = b.pending →
      (if c.flush.hasFeature then c.flush
        else c.flush.degrade .missingFeature (Span.clamp 0 size)).path.finish =
        OpenPath.finish ⟨b.endPath.top.fill b.pending, b.endPath.outer⟩ := by
    intro c hc hpending
    rw [← hc, ← hpending, ← flush_path]
    split <;> rfl
  simp only [finish]
  refine hpath _ ?_ ?_
  · rw [endPath]
    split <;> rfl
  · split <;> rfl

/-- A significant token joins an open doc string, or is placed. -/
theorem step_significant (b : Builder) {t : Token} (h : t.isTrivia = false) :
    b.step t =
      if b.inDocString then
        { b.begin with inDocString := t.kind != TokenKind.docStringDelimiter }.attach
          (.token b.nextToken t)
      else b.begin.placeToken b.atLineStart t (.token b.nextToken t) := by
  rw [step, if_neg (Bool.eq_false_iff.mp h)]
  rfl

namespace Alike

theorem topKind_eq (h : Alike L b b') : b.topKind = b'.topKind := h.paths.top_kind

/-- Closing nodes alike. -/
theorem withPath (h : Alike L b b') {f : OpenPath → OpenPath}
    (hpaths : L.Paths (f b.path) (f b'.path)) (hcloses : b.path.Closes (f b.path)) :
    Alike L (b.withPath f) (b'.withPath f) where
  paths := hpaths
  trivia := Likeness.trivia_of_closes h.trivia hcloses
  number := h.number
  index := h.index
  problems := h.problems
  lastConcrete_eq := h.lastConcrete_eq
  atLineStart_eq := h.atLineStart_eq
  inDocString_eq := h.inDocString_eq
  hasFeature_eq := h.hasFeature_eq

theorem closeAll (h : Alike L b b') (f : NodeKind → Bool) :
    Alike L (b.withPath (·.closeAll f)) (b'.withPath (·.closeAll f)) :=
  h.withPath (h.paths.closeAll f) (.closeAll _ f)

theorem closeLeaves (h : Alike L b b') :
    Alike L (b.withPath OpenPath.closeLeaves) (b'.withPath OpenPath.closeLeaves) :=
  h.closeAll _

theorem closeOne (h : Alike L b b') (kind : NodeKind) :
    Alike L (b.withPath (·.closeOne kind)) (b'.withPath (·.closeOne kind)) :=
  h.withPath (h.paths.closeOne kind) (.closeOne _ kind)

theorem degrade (h : Alike L b b') (kind : Degradation.Kind) {t t' : Token} (ht : L.token t t') :
    Alike L (b.degrade kind t.span) (b'.degrade kind t'.span) :=
  { h with problems := L.problems_cons kind h.problems ht }

theorem flush (h : Alike L b b') : Alike L b.flush b'.flush where
  paths := by
    rw [flush_path, flush_path]
    exact h.paths.fill h.trivia
  trivia := L.trivia_nil _
  number := h.number
  index := h.index
  problems := h.problems
  lastConcrete_eq := h.lastConcrete_eq
  atLineStart_eq := h.atLineStart_eq
  inDocString_eq := h.inDocString_eq
  hasFeature_eq := h.hasFeature_eq

theorem enter (h : Alike L b b') (kind : NodeKind) : Alike L (b.enter kind) (b'.enter kind) where
  paths := .inner (L.node_new kind h.number) h.flush.paths
  trivia := L.trivia_nil _
  number := L.number_succ h.number
  index := h.index
  problems := h.problems
  lastConcrete_eq := h.lastConcrete_eq
  atLineStart_eq := h.atLineStart_eq
  inDocString_eq := h.inDocString_eq
  hasFeature_eq := h.hasFeature_eq

theorem attach (h : Alike L b b') {i i' : Nat} {t t' : Token} (hi : L.index i i')
    (ht : L.token t t') (hsignificant : t.isTrivia = false) :
    Alike L (b.attach (.token i t)) (b'.attach (.token i' t')) :=
  { h.flush with
    paths := h.flush.paths.with_top fun htop => L.node_push htop hi ht hsignificant
    trivia := L.trivia_nil _ }

/-! ## §D Placing a token -/

section Place

variable {i i' : Nat} {t t' : Token}

theorem closeTo (h : Alike L b b') (keyword : Keyword) (ht : L.token t t')
    (allowed : NodeKind → Bool) :
    Alike L (b.closeTo keyword t.span allowed) (b'.closeTo keyword t'.span allowed) := by
  rw [Builder.closeTo, Builder.closeTo, ← h.paths.kinds_eq]
  split
  · exact h.closeAll _
  · exact h.degrade _ ht

theorem insideExamples_eq (h : Alike L b b') : b.insideExamples = b'.insideExamples := by
  rw [insideExamples, insideExamples, h.paths.kinds_eq]

theorem makeRoom (h : Alike L b b') (keyword : Keyword) (ht : L.token t t') :
    Alike L (b.makeRoom keyword t.span) (b'.makeRoom keyword t'.span) := by
  cases keyword with
  | feature =>
    have hduplicate :
        Alike L (if b.hasFeature then b.degrade .duplicateFeature t.span else b)
          (if b'.hasFeature then b'.degrade .duplicateFeature t'.span else b') := by
      rw [← h.hasFeature_eq]
      split
      · exact h.degrade _ ht
      · exact h
    have hseen := { hduplicate with hasFeature_eq := rfl : Alike L
      { (if b.hasFeature then b.degrade .duplicateFeature t.span else b) with hasFeature := true }
      { (if b'.hasFeature then b'.degrade .duplicateFeature t'.span else b') with
        hasFeature := true } }
    exact hseen.closeAll _
  | rule => exact h.closeTo _ ht _
  | background | scenario | scenarioOutline => exact h.closeTo _ ht _
  | examples => exact h.closeTo _ ht _
  | step k =>
    have hclosed := h.closeTo (.step k) ht NodeKind.holdsSteps
    simp only [Builder.makeRoom, ← h.insideExamples_eq, ← hclosed.topKind_eq]
    split
    · exact hclosed.degrade _ ht
    · exact hclosed

theorem openKeyword (h : Alike L b b') (keyword : Keyword) (hi : L.index i i')
    (ht : L.token t t') (hsignificant : t.isTrivia = false) :
    Alike L (b.openKeyword keyword t.span (.token i t))
      (b'.openKeyword keyword t'.span (.token i' t')) := by
  have hroom := h.closeLeaves.makeRoom keyword ht
  simp only [Builder.openKeyword, ← hroom.lastConcrete_eq]
  apply attach _ hi ht hsignificant
  apply enter
  exact { hroom with lastConcrete_eq := rfl }

theorem openRow (h : Alike L b b') (hi : L.index i i') (ht : L.token t t')
    (hsignificant : t.isTrivia = false) :
    Alike L (b.openRow t.span (.token i t)) (b'.openRow t'.span (.token i' t')) := by
  have hrow := h.closeOne .tableRow
  have hheld := hrow.closeAll fun k => k = .stepParameter || k = .docString
  simp only [Builder.openRow, ← hrow.topKind_eq, ← hheld.topKind_eq]
  apply attach _ hi ht hsignificant
  apply enter
  split
  · exact hrow
  · apply enter
    split
    · exact hheld
    · exact hheld.closeLeaves.degrade _ ht

theorem openDocString (h : Alike L b b') (hi : L.index i i') (ht : L.token t t')
    (hsignificant : t.isTrivia = false) :
    Alike L (b.openDocString t.span (.token i t)) (b'.openDocString t'.span (.token i' t')) := by
  have hheld := h.closeAll fun k =>
    k = .stepParameter || k = .table || k = .tableRow || k = .docString
  simp only [Builder.openDocString, ← hheld.topKind_eq]
  refine { attach (enter ?_ .docString) hi ht hsignificant with inDocString_eq := rfl }
  split
  · exact hheld
  · exact hheld.closeLeaves.degrade _ ht

theorem placeToken (h : Alike L b b') (lineStart : Bool) (hi : L.index i i') (ht : L.token t t')
    (hsignificant : t.isTrivia = false) :
    Alike L (b.placeToken lineStart t (.token i t)) (b'.placeToken lineStart t' (.token i' t')) := by
  rw [Builder.placeToken, Builder.placeToken, ← L.kind_of_token ht]
  split
  · exact h.openKeyword _ hi ht hsignificant
  · exact (h.enter _).attach hi ht hsignificant
  · exact (h.attach hi ht hsignificant).closeOne _
  · exact h.openDocString hi ht hsignificant
  · split
    · exact h.openRow hi ht hsignificant
    · exact h.attach hi ht hsignificant
  · split
    · exact h.closeLeaves.attach hi ht hsignificant
    · exact h.attach hi ht hsignificant
  · split
    · exact h.closeLeaves.attach hi ht hsignificant
    · exact h.attach hi ht hsignificant
  · exact h.attach hi ht hsignificant

end Place

/-! ## §E Runs -/

/-- **One token.** Corresponding tokens keep builders alike. -/
theorem step (h : Alike L b b') {t t' : Token} (ht : L.token t t') :
    Alike L (b.step t) (b'.step t') := by
  have hkind := L.kind_of_token ht
  cases htrivia : t.isTrivia with
  | true =>
    have htrivia' : t'.isTrivia = true := by rwa [Token.isTrivia, ← hkind]
    rw [step_trivia b htrivia, step_trivia b' htrivia', ← hkind, ← h.atLineStart_eq]
    exact { h with
      trivia := L.trivia_cons h.trivia h.index ht htrivia
      index := L.index_succ h.index
      atLineStart_eq := rfl }
  | false =>
    have htrivia' : t'.isTrivia = false := by rwa [Token.isTrivia, ← hkind]
    have hbegun : Alike L b.begin b'.begin :=
      { h with index := L.index_succ h.index, atLineStart_eq := rfl }
    rw [step_significant b htrivia, step_significant b' htrivia', ← h.inDocString_eq,
      ← h.atLineStart_eq, ← hkind]
    split
    · refine attach ?_ h.index ht htrivia
      exact { hbegun with inDocString_eq := rfl }
    · exact hbegun.placeToken _ h.index ht htrivia

/-- **A stretch of tokens.** -/
theorem foldl (h : Alike L b b') {ts ts' : List Token} (hts : List.Forall₂ L.token ts ts') :
    Alike L (ts.foldl Builder.step b) (ts'.foldl Builder.step b') := by
  induction hts generalizing b b' with
  | nil => exact h
  | cons ht _ ih => exact ih (h.step ht)

/-- **The end of the source.** Alike builders leave alike trees. -/
theorem finish (h : Alike L b b') (size size' : Nat) :
    ∃ n n', L.node true n n' ∧ (b.finish size).1 = n.close ∧ (b'.finish size').1 = n'.close := by
  have hpaths : L.Paths b.endPath b'.endPath := by
    rw [endPath, endPath, ← h.inDocString_eq]
    split
    · exact h.paths
    · exact h.paths.closeLeaves
  rw [finish_fst, finish_fst]
  exact (hpaths.fill (Likeness.trivia_of_closes h.trivia b.closes_endPath)).finish

end Alike

end Builder

end FeatureFile
