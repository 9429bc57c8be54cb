/-
# FeatureFile.Proofs.Outline.StepLine — what stands on the line of a step

The text of a step is read off its children up to the first line break. These are tokens and
parameters, and a parameter holds significant tokens alone: tables and doc strings are opened at the
start of a line, so a line break stands before them (`Builder.Lined.fresh`), and the three tokens of
a parameter follow each other directly (`Builder.Lined.phase`).

`Neat` says so of the children of a node. While the outline is built, a node is closed into the node
around it; that this keeps the outer node neat is `Inside`. One token keeps all of it
(`Builder.lined_step`), so it holds of every outline (`Outline.neat_of_mem`).
-/

import FeatureFile.Proofs.Outline.Resync
import FeatureFile.Proofs.Token.Layout

namespace FeatureFile

open NodeKind (Stacked)

/-! ## §A Neat nodes -/

namespace Element

/-- Whether the element is a line break. -/
def isBreak (e : Element) : Bool := e.isToken (· = .newline)

/-- Whether the element is a token that is no trivia. -/
def isSignificant (e : Element) : Bool := e.isToken fun k => !k.isTrivia

/-- **`OnLine e`** — what stands on the line of a step: a token, or a parameter of significant
tokens. -/
def OnLine : Element → Prop
  | token .. => True
  | node _ kind _ children => kind = .stepParameter ∧ ∀ e ∈ children, e.isSignificant = true

theorem onLine_of_node?_eq_none {e : Element} (h : e.node? = none) : e.OnLine := by
  cases e with
  | token => trivial
  | node => cases h

end Element

/-- **`Neat kind children`** — the children of a node of some kind are as the line of a step needs
them. -/
structure Neat (kind : NodeKind) (children : List Element) : Prop where
  parameter : kind = .stepParameter → ∀ e ∈ children, e.isSignificant = true
  line : kind.isStep = true → ∀ e ∈ children.takeWhile (!·.isBreak), e.OnLine

theorem neat_nil (kind : NodeKind) : Neat kind [] :=
  ⟨fun _ _ h => absurd h List.not_mem_nil, fun _ _ h => absurd h List.not_mem_nil⟩

/-- What stands before the first line break, when children are added. -/
theorem mem_line_append {a b : List Element} {e : Element}
    (h : e ∈ (a ++ b).takeWhile (!·.isBreak)) :
    e ∈ a.takeWhile (!·.isBreak) ∨ e ∈ b ∧ a.any Element.isBreak = false := by
  induction a with
  | nil => exact Or.inr ⟨(List.takeWhile_sublist _).mem h, rfl⟩
  | cons x a ih =>
    cases hx : x.isBreak with
    | true =>
      rw [List.cons_append, List.takeWhile_cons_of_neg (by simp [hx])] at h
      exact absurd h List.not_mem_nil
    | false =>
      rw [List.cons_append, List.takeWhile_cons_of_pos (by simp [hx])] at h
      rw [List.takeWhile_cons_of_pos (by simp [hx]), List.any_cons, hx, Bool.false_or]
      rcases List.mem_cons.mp h with rfl | h
      · exact Or.inl List.mem_cons_self
      · exact (ih h).imp_left (List.mem_cons_of_mem x)

theorem Neat.append {kind : NodeKind} {a b : List Element} (h : Neat kind a)
    (hparameter : kind = .stepParameter → ∀ e ∈ b, e.isSignificant = true)
    (hline : kind.isStep = true → a.any Element.isBreak = false → ∀ e ∈ b, e.OnLine) :
    Neat kind (a ++ b) := by
  refine ⟨fun hkind e he => ?_, fun hkind e he => ?_⟩
  · rcases List.mem_append.mp he with he | he
    · exact h.parameter hkind e he
    · exact hparameter hkind e he
  · rcases mem_line_append he with he | ⟨he, hbreak⟩
    · exact h.line hkind e he
    · exact hline hkind hbreak e he

namespace OpenNode

/-- **`n.Good`** — an open node and all nodes below it are neat. -/
structure Good (n : OpenNode) : Prop where
  neat : Neat n.kind n.children
  below : ∀ x ∈ Element.entriesOf (some n.id) n.children, Neat x.node.kind x.node.children

/-- **`Inside n m`** — an open node stands in another: nothing stands in a parameter, and in a step
only parameters stand before the first line break. -/
def Inside (n m : OpenNode) : Prop :=
  m.kind ≠ .stepParameter ∧
    (m.kind.isStep = true → n.kind = .stepParameter ∨ m.children.any Element.isBreak = true)

theorem good_new (id : Nat) (kind : NodeKind) : Good ⟨id, kind, []⟩ :=
  ⟨neat_nil kind, fun _ h => absurd h List.not_mem_nil⟩

theorem Good.push_token {n : OpenNode} (h : n.Good) (i : Nat) {t : Token}
    (ht : t.isTrivia = false) : (n.push (.token i t)).Good := by
  have hsignificant : Element.isSignificant (.token i t) = true := by
    show (!t.kind.isTrivia) = true
    rw [show t.kind.isTrivia = false from ht]
    rfl
  refine ⟨?_, ?_⟩
  · rw [children_push]
    exact h.neat.append (fun _ => List.forall_mem_singleton.mpr hsignificant)
      fun _ _ => List.forall_mem_singleton.mpr trivial
  · rw [children_push, Element.entriesOf_append]
    exact fun x hx => h.below x ((List.mem_append.mp hx).resolve_right List.not_mem_nil)

/-- Trivia may join every node but a parameter. -/
theorem Good.fill {n : OpenNode} (h : n.Good) {w : List Element}
    (hw : ∀ e ∈ w, e.isTrivia = true) (hbare : n.kind = .stepParameter → w = []) :
    (n.fill w).Good := by
  have htokens : ∀ e ∈ w.reverse, e.node? = none := fun e he =>
    Element.node?_of_isTrivia (hw e (List.mem_reverse.mp he))
  refine ⟨?_, ?_⟩
  · rw [children_fill]
    refine h.neat.append (fun hkind => ?_) fun _ _ e he =>
      Element.onLine_of_node?_eq_none (htokens e he)
    rw [hbare hkind]
    exact fun _ h => absurd h List.not_mem_nil
  · rw [children_fill, Element.entriesOf_append, Element.entriesOf_of_tokens _ htokens,
      List.append_nil]
    exact h.below

/-- Closing a node into the one that it stands in. -/
theorem Good.push_close {n m : OpenNode} (hn : n.Good) (hm : m.Good) (h : n.Inside m) :
    (m.push n.close).Good := by
  refine ⟨?_, ?_⟩
  · rw [children_push]
    refine hm.neat.append (fun hkind => absurd hkind h.1) fun hstep hbreak => ?_
    refine List.forall_mem_singleton.mpr ?_
    rcases h.2 hstep with hparameter | hbroken
    · exact ⟨hparameter, hn.neat.parameter hparameter⟩
    · rw [hbreak] at hbroken
      cases hbroken
  · rw [children_push, Element.entriesOf_append]
    intro x hx
    rcases List.mem_append.mp hx with hx | hx
    · exact hm.below x hx
    · -- The node itself, and what is below it.
      rcases List.mem_cons.mp hx with rfl | hx
      · exact hn.neat
      · exact hn.below x ((List.mem_append.mp hx).resolve_right List.not_mem_nil)

end OpenNode

/-! ## §B Open nodes -/

namespace OpenPath

/-- **`p.Lined w`** — every open node is good and stands where it may, and no trivia `w` waits for a
parameter. -/
structure Lined (p : OpenPath) (w : List Element) : Prop where
  good : ∀ n ∈ p.nodes, n.Good
  inside : p.nodes.IsChain OpenNode.Inside
  bare : p.top.kind = .stepParameter → w = []

/-- Of the innermost node the others see the kind alone. -/
theorem isChain_inside_congr {n n' : OpenNode} {outer : List OpenNode} (hkind : n'.kind = n.kind)
    (h : (n :: outer).IsChain OpenNode.Inside) : (n' :: outer).IsChain OpenNode.Inside := by
  refine List.IsChain.imp_head ?_ h
  intro m hm
  rwa [OpenNode.Inside, hkind]

namespace Lined

variable {p q : OpenPath} {w : List Element}

theorem of_closes (h : p.Lined w) (hcloses : p.Closes q) : q.Lined w := by
  induction hcloses with
  | refl => exact h
  | @close top next outer q _ ih =>
    obtain ⟨htop, hrest⟩ := List.forall_mem_cons.mp h.good
    obtain ⟨hnext, houter⟩ := List.forall_mem_cons.mp hrest
    obtain ⟨hinside, hchain⟩ := List.isChain_cons_cons.mp h.inside
    apply ih
    refine ⟨?_, isChain_inside_congr (n := next) rfl hchain, fun hkind => absurd hkind hinside.1⟩
    exact List.forall_mem_cons.mpr ⟨htop.push_close hnext hinside, houter⟩

/-- Changing the innermost node. -/
theorem with_top (h : p.Lined w) {n : OpenNode} (hkind : n.kind = p.top.kind) (hn : n.Good) :
    Lined ⟨n, p.outer⟩ [] :=
  ⟨List.forall_mem_cons.mpr ⟨hn, (List.forall_mem_cons.mp h.good).2⟩,
    isChain_inside_congr hkind h.inside, fun _ => rfl⟩

theorem top_good (h : p.Lined w) : p.top.Good := h.good p.top List.mem_cons_self

theorem push_token (h : p.Lined w) (i : Nat) {t : Token} (ht : t.isTrivia = false) :
    (p.push (.token i t)).Lined [] :=
  h.with_top rfl (h.top_good.push_token i ht)

/-- The waiting trivia joins the innermost node. -/
theorem fill (h : p.Lined w) (hw : ∀ e ∈ w, e.isTrivia = true) :
    Lined ⟨p.top.fill w, p.outer⟩ [] :=
  h.with_top rfl (h.top_good.fill hw h.bare)

/-- A node is opened in the innermost one. -/
theorem enter (h : p.Lined w) (id : Nat) {kind : NodeKind} (hparameter : p.top.kind ≠ .stepParameter)
    (hline : p.top.kind.isStep = true →
      kind = .stepParameter ∨ p.top.children.any Element.isBreak = true) :
    Lined ⟨⟨id, kind, []⟩, p.nodes⟩ [] :=
  ⟨List.forall_mem_cons.mpr ⟨OpenNode.good_new id kind, h.good⟩,
    List.isChain_cons_cons.mpr ⟨⟨hparameter, hline⟩, h.inside⟩, fun _ => rfl⟩

end Lined

end OpenPath

/-! ## §C One token -/

theorem Phase.ne_of_after_trivia {ph ph' : Phase} {k : TokenKind} (hk : k.isTrivia = true)
    (h : ph.after k = some ph') : ph ≠ .name ∧ ph ≠ .close := by
  refine ⟨?_, ?_⟩ <;> rintro rfl <;> cases k <;> simp_all [after, TokenKind.isTrivia]

namespace Builder

variable {b b' : Builder} {t : Token} {p : OpenPath} {kinds : List NodeKind}
  {faults : List Degradation.Kind} {ph ph' : Phase}

/-- **`b.Lined ph`** — the builder in a phase of the tokens, as the lines of steps need it. -/
structure Lined (b : Builder) (ph : Phase) : Prop where
  path : b.path.Lined b.pending
  trivia : ∀ e ∈ b.pending, e.isTrivia = true
  /-- At the start of a line a line break waits, unless nothing has been opened. -/
  fresh : b.atLineStart = true → b.path.outer ≠ [] → b.pending.any Element.isBreak = true
  /-- A parameter is open only while its name or its end is expected. -/
  phase : b.topKind = .stepParameter → ph = .name ∨ ph = .close
  /-- An open doc string is the innermost node. -/
  docString : b.inDocString = true → b.topKind = .docString

theorem lined_new : Lined {} .free where
  path := by
    refine ⟨List.forall_mem_singleton.mpr (OpenNode.good_new 0 .file), .singleton _, ?_⟩
    exact fun _ => rfl
  trivia := fun _ h => absurd h List.not_mem_nil
  fresh := fun _ h => absurd rfl h
  phase := fun h => by cases h
  docString := fun h => by cases h

/-- Trivia does not come while the name or the end of a parameter is expected. -/
theorem lined_trivia (h : b.Lined ph) (hafter : ph.after t.kind = some ph')
    (ht : t.isTrivia = true) : (b.step t).Lined ph' := by
  have htop : b.topKind ≠ .stepParameter := by
    intro hkind
    obtain ⟨hname, hclose⟩ := Phase.ne_of_after_trivia ht hafter
    exact (h.phase hkind).elim hname hclose
  rw [step_trivia b ht]
  refine ⟨⟨h.path.good, h.path.inside, fun hkind => absurd hkind htop⟩, ?_, ?_, ?_, h.docString⟩
  · exact List.forall_mem_cons.mpr ⟨ht, h.trivia⟩
  · intro hstart houter
    rw [List.any_cons, Bool.or_eq_true]
    rcases (Bool.or_eq_true _ _).mp hstart with hstart | hbreak
    · exact Or.inr (h.fresh hstart houter)
    · exact Or.inl hbreak
  · exact fun hkind => absurd hkind htop

/-- A node inside which another is left open is itself inside one. -/
theorem outer_ne_nil_of_closes {q : OpenPath} (h : p.Closes q) (hq : q.outer ≠ []) :
    p.outer ≠ [] := by
  cases h with
  | refl => exact hq
  | close => exact List.cons_ne_nil _ _

/-- What stands in a step is a parameter, or it is opened at the start of a line. -/
theorem Lined.fill_break (h : b.Lined ph) (hcloses : b.path.Closes p) (hstacked : Stacked p.kinds)
    (hstart : b.atLineStart = true) (hstep : p.top.kind.isStep = true) :
    (p.top.fill b.pending).children.any Element.isBreak = true := by
  have houter : p.outer ≠ [] := by
    intro hnil
    rw [OpenPath.top_eq_file hstacked hnil] at hstep
    cases hstep
  rw [OpenNode.children_fill, List.any_append, List.any_reverse,
    h.fresh hstart (outer_ne_nil_of_closes hcloses houter), Bool.or_true]

/-- Nothing stands in a parameter. -/
theorem ne_stepParameter_of_standsIn {kind parent : NodeKind} (h : kind.standsIn parent = true) :
    parent ≠ .stepParameter := by
  rintro rfl
  cases kind <;> cases h

theorem isStep_of_standsIn_keyword {stands : StepKeyword} {k : Keyword} {parent : NodeKind}
    (h : (NodeKind.ofKeyword stands k).standsIn parent = true) : parent.isStep = false := by
  have hcontainer : parent.isContainer = true := by cases k <;> exact h
  cases parent <;> first | rfl | cases hcontainer

theorem lined_grownPath (h : b.Lined ph) (hplace : b.Placement t p kinds faults) (hat : b.At ph)
    (hb : Stacked b.path.kinds) (hafter : ph.after t.kind = some ph') (ht : t.isTrivia = false)
    (hstart : kinds ≠ [] → t.kind = .pipe ∨ t.kind = .docStringDelimiter → b.atLineStart = true) :
    (b.grownPath t p kinds).Lined [] := by
  have hp : Stacked p.kinds := OpenPath.stacked_of_closes hplace.closes hb
  have hstacked := stacked_grownPath hplace hat hb hafter
  have hfill : OpenPath.Lined ⟨p.top.fill b.pending, p.outer⟩ [] :=
    (h.path.of_closes hplace.closes).fill h.trivia
  have hbreak : b.atLineStart = true → p.top.kind.isStep = true →
      (p.top.fill b.pending).children.any Element.isBreak = true :=
    h.fill_break hplace.closes hp
  have hpush : p.pushAll b.pending.reverse = ⟨p.top.fill b.pending, p.outer⟩ := by
    rw [OpenPath.pushAll_eq, List.reverse_reverse]
    rfl
  rw [grownPath, hpush]
  apply OpenPath.Lined.push_token _ _ ht
  · exact []
  cases hplace with
  | inside => exact hfill
  | join => exact hfill
  | keyword =>
    -- What a keyword opens stands in a container, never in a step.
    rw [kinds_grownPath_one] at hstacked
    have hstands := hstacked.stands
    refine hfill.enter _ (ne_stepParameter_of_standsIn hstands) fun hstep => ?_
    rw [show (p.top.fill b.pending).kind.isStep = false from isStep_of_standsIn_keyword hstands]
      at hstep
    cases hstep
  | parameter =>
    rw [kinds_grownPath_one] at hstacked
    exact hfill.enter _ (ne_stepParameter_of_standsIn hstacked.stands) fun _ => Or.inl rfl
  | row _ hk =>
    -- A row begins a line, so the line of the step that holds it has ended.
    rw [kinds_grownPath_one] at hstacked
    refine hfill.enter _ (ne_stepParameter_of_standsIn hstacked.stands) fun hstep => ?_
    exact Or.inr (hbreak (hstart (List.cons_ne_nil _ _) (Or.inl hk)) hstep)
  | table _ hk =>
    rw [kinds_grownPath_two] at hstacked
    have hstands := (hstacked.suffix (a := [_])).stands
    refine OpenPath.Lined.enter (w := []) ?_ _ (by simp) (by simp [NodeKind.isStep])
    refine hfill.enter _ (ne_stepParameter_of_standsIn hstands) fun hstep => ?_
    exact Or.inr (hbreak (hstart (List.cons_ne_nil _ _) (Or.inl hk)) hstep)
  | docString _ hk =>
    rw [kinds_grownPath_one] at hstacked
    refine hfill.enter _ (ne_stepParameter_of_standsIn hstacked.stands) fun hstep => ?_
    exact Or.inr (hbreak (hstart (List.cons_ne_nil _ _) (Or.inr hk)) hstep)

/-- A pipe opens nodes only at the start of a line. -/
theorem Placement.atLineStart_of_pipe (h : b.Placement t p kinds faults) (hne : kinds ≠ [])
    (hk : t.kind = .pipe) : b.atLineStart = true := by
  cases h with
  | row _ _ _ hline => exact hline
  | table _ _ _ _ _ hline => exact hline
  | _ => simp_all

theorem top_grownPath (b : Builder) (t : Token) (p : OpenPath) :
    (b.grownPath t p []).top.kind = p.top.kind := (List.cons.inj (kinds_grownPath b t p)).1

/-- An open doc string is the innermost node, after a token. -/
theorem docString_step (h : b.inDocString = true → b.topKind = .docString)
    (hplace : b.Placement t p kinds faults) (hgrown : b.Grown t p kinds faults b')
    (hdoc : b'.inDocString = true) : b'.topKind = .docString := by
  rw [hgrown.inDocString_eq] at hdoc
  cases hplace with
  | inside hinside =>
    rw [topKind, hgrown.path_eq, if_neg (by simp [hinside])]
    exact (top_grownPath b t b.path).trans (h hinside)
  | docString _ hk =>
    rw [topKind, hgrown.path_eq, if_neg (by simp [hk])]
    rfl
  | _ => simp_all

/-- No parameter is open where nothing is expected, after a token. -/
theorem phase_step (h : b.Lined ph) (hb : Stacked b.path.kinds)
    (hplace : b.Placement t p kinds faults) (hgrown : b.Grown t p kinds faults b')
    (hafter : ph.after t.kind = some .free) : b'.topKind ≠ .stepParameter := by
  have hph : ph ≠ .name ∧ ph ≠ .close := by
    refine ⟨?_, ?_⟩ <;> rintro rfl <;> cases hk : t.kind <;> rw [hk] at hafter <;> cases hafter
  have htop : b.topKind ≠ .stepParameter := fun hkind => (h.phase hkind).elim hph.1 hph.2
  have hend : t.kind ≠ .parameterEnd := by
    intro hk
    rw [hk] at hafter
    cases ph <;> cases hafter
  rw [topKind, hgrown.path_eq, if_neg fun h => hend h.1]
  cases hplace with
  | inside =>
    rw [top_grownPath]
    exact htop
  | join _ _ _ _ hp =>
    rw [top_grownPath]
    rcases hp with rfl | ⟨-, rfl⟩
    · exact htop
    · intro hkind
      have hcontainer := OpenPath.closeLeaves_isContainer hb
      rw [hkind] at hcontainer
      cases hcontainer
  | @keyword _ k =>
    intro hkind
    have hkind : NodeKind.ofKeyword _ k = .stepParameter := hkind
    cases k <;> cases hkind
  | parameter _ hk =>
    rw [hk] at hafter
    cases ph <;> cases hafter
  | row => exact fun hkind => by cases hkind
  | table => exact fun hkind => by cases hkind
  | docString => exact fun hkind => by cases hkind

/-- **One significant token.** -/
theorem lined_significant (h : b.Lined ph) (hat : b.At ph) (hb : Stacked b.path.kinds)
    (hafter : ph.after t.kind = some ph') (ht : t.isTrivia = false)
    (hled : t.kind = .docStringDelimiter → b.atLineStart = true) : (b.step t).Lined ph' := by
  obtain ⟨p, kinds, faults, hplace, hgrown⟩ := step_grown b ht
  have hstart : kinds ≠ [] → t.kind = .pipe ∨ t.kind = .docStringDelimiter →
      b.atLineStart = true := fun hne hk => hk.elim (hplace.atLineStart_of_pipe hne) hled
  have hdoc : (b.step t).inDocString = true → (b.step t).topKind = .docString :=
    docString_step h.docString hplace hgrown
  refine ⟨?_, ?_, ?_, ?_, hdoc⟩
  · rw [hgrown.pending_eq]
    exact (lined_grownPath h hplace hat hb hafter ht hstart).of_closes hgrown.closes
  · rw [hgrown.pending_eq]
    exact fun _ h => absurd h List.not_mem_nil
  · rw [hgrown.atLineStart_eq]
    exact fun h => absurd h Bool.false_ne_true
  · intro hkind
    have hat' : (b.step t).At ph' := at_step hat hb hafter
    cases ph' with
    | free => exact absurd hkind (phase_step h hb hplace hgrown hafter)
    | step =>
      -- In its text a step is innermost, not one of its parameters.
      have hstep := hat'.2.2
      rw [hkind] at hstep
      cases hstep
    | name => exact Or.inl rfl
    | close => exact Or.inr rfl
    | doc =>
      rw [hdoc hat'] at hkind
      cases hkind

/-- **One token.** -/
theorem lined_step (h : b.Lined ph) (hat : b.At ph) (hb : Stacked b.path.kinds)
    (hafter : ph.after t.kind = some ph')
    (hled : t.kind = .docStringDelimiter → b.atLineStart = true) : (b.step t).Lined ph' := by
  cases ht : t.isTrivia with
  | true => exact lined_trivia h hafter ht
  | false => exact lined_significant h hat hb hafter ht hled

/-! ## §D Runs -/

/-- Whether the builder is at the start of a line is decided by the kinds of tokens. -/
theorem atLineStart_step (b : Builder) (t : Token) :
    (b.step t).atLineStart = t.kind.keepsStart b.atLineStart := by
  rw [TokenKind.keepsStart]
  cases ht : t.isTrivia with
  | true =>
    rw [step_trivia b ht, show t.kind.isTrivia = true from ht, Bool.true_and]
  | false =>
    obtain ⟨p, kinds, faults, -, hgrown⟩ := step_grown b ht
    rw [hgrown.atLineStart_eq, show t.kind.isTrivia = false from ht, Bool.false_and]

/-- Tokens whose delimiters begin lines go on so from the builder behind their first. -/
theorem led_step {ts : List Token} (h : Led b.atLineStart ((t :: ts).map (·.kind))) :
    Led (b.step t).atLineStart (ts.map (·.kind)) := by
  rw [atLineStart_step]
  exact h.2

/-- **A stretch of tokens.** -/
theorem lined_foldl {done ts : List Token} (h : b.Lined ph) (hjudged : b.Judged done)
    (hat : b.At ph) (hruns : ph.Runs (ts.map (·.kind)) ph')
    (hled : Led b.atLineStart (ts.map (·.kind))) : (ts.foldl step b).Lined ph' := by
  refine (foldl_induction
    (P := fun b _ ph ts => b.Lined ph ∧ Led b.atLineStart (ts.map (·.kind)))
    ?_ hjudged hat hruns ⟨h, hled⟩).1
  intro b done ph t ts ph' hj hat hafter ⟨hlined, hled⟩
  exact ⟨lined_step hlined hat hj.stacked hafter hled.1, led_step hled⟩

theorem lined_tokenize (source : String) :
    ∃ ph, ((tokenize source).foldl step {}).Lined ph := by
  obtain ⟨ph, hruns⟩ := runs_tokenize source
  have hat : At {} .free := rfl
  exact ⟨ph, lined_foldl lined_new judged_nil hat hruns (led_tokenize source)⟩

end Builder

namespace Outline

/-- **The nodes of an outline are neat.** -/
theorem neat_of_mem {source : String} {x : Entry} (hx : x ∈ (parse source).entries) :
    Neat x.node.kind x.node.children := by
  obtain ⟨ph, hlined⟩ := Builder.lined_tokenize source
  have hend := (hlined.path.of_closes (Builder.closes_endPath _)).fill hlined.trivia
  have hroot : OpenNode.Good (OpenPath.root _) :=
    (hend.of_closes (.closeAll _ fun _ => true)).top_good
  rw [entries, root_eq, Builder.finish_fst] at hx
  rcases List.mem_cons.mp hx with rfl | hx
  · exact hroot.neat
  · exact hroot.below x hx

end Outline

end FeatureFile
