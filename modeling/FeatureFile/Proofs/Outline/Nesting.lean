/-
# FeatureFile.Proofs.Outline.Nesting — which nodes stand in which

`Stacked` says which kinds may lie inside one another on the path of open nodes: rows in tables,
parameters in steps, tables and doc strings in steps or containers, everything else in containers,
and all in the file. `Builder.At` ties the builder to the phase of the tokens it has read: a step
parameter only begins when a step is the innermost node, and a doc string is open in the one exactly
when it is in the other. The two together are kept by every token that may follow
(`at_step`, `stacked_step`).
-/

import FeatureFile.Proofs.Outline.Run
import FeatureFile.Proofs.Token.Grammar

namespace FeatureFile

/-! ## §A Kinds that stand in one another -/

namespace NodeKind

/-- Whether nodes of a kind may stand in nodes of another kind, in the right place or not. -/
def standsIn (kind parent : NodeKind) : Bool :=
  match kind with
  | file => false
  | stepParameter => parent.isStep
  | tableRow => parent = table
  | table | docString => parent.isStep || parent.isContainer
  | _ => parent.isContainer

theorem ofKeyword_standsIn (stands : StepKeyword) (k : Keyword) {parent : NodeKind}
    (h : parent.isContainer = true) : (ofKeyword stands k).standsIn parent = true := by
  cases k <;> exact h

/-- **`Stacked ks`** — kinds of open nodes from the inside out. -/
inductive Stacked : List NodeKind → Prop
  | file : Stacked [file]
  | cons {kind parent : NodeKind} {ks : List NodeKind} :
      kind.standsIn parent = true → Stacked (parent :: ks) → Stacked (kind :: parent :: ks)

namespace Stacked

theorem suffix {a ks : List NodeKind} {k : NodeKind} (h : Stacked (a ++ k :: ks)) :
    Stacked (k :: ks) := by
  induction a with
  | nil => exact h
  | cons x a ih =>
    cases a with
    | nil =>
      cases h with
      | cons _ hrest => exact hrest
    | cons y a =>
      cases h with
      | cons _ hrest => exact ih hrest

theorem file_mem {ks : List NodeKind} (h : Stacked ks) : NodeKind.file ∈ ks := by
  induction h with
  | file => exact List.mem_cons_self
  | cons _ _ ih => exact List.mem_cons_of_mem _ ih

theorem stands {k parent : NodeKind} {ks : List NodeKind} (h : Stacked (k :: parent :: ks)) :
    k.standsIn parent = true := by
  cases h with
  | cons hstands _ => exact hstands

theorem eq_file {k : NodeKind} (h : Stacked [k]) : k = .file := by
  cases h
  rfl

/-- What lies around a container is a container. -/
theorem isContainer {ks : List NodeKind} {k : NodeKind} (h : Stacked (k :: ks))
    (hk : k.isContainer = true) : ∀ k' ∈ k :: ks, k'.isContainer = true := by
  generalize hl : k :: ks = l at h
  induction h generalizing k ks with
  | file =>
    intro k' hk'
    rw [List.mem_singleton.mp hk']
    rfl
  | @cons kind parent rest hstands _ ih =>
    obtain ⟨rfl, -⟩ := List.cons.inj hl
    have hparent : parent.isContainer = true := by
      cases k <;> simp_all [standsIn, NodeKind.isContainer]
    intro k' hk'
    rcases List.mem_cons.mp hk' with rfl | hk'
    · exact hk
    · exact ih hparent rfl k' hk'

/-- Behind parameters and doc strings there is a step or a container. -/
theorem held {closed ks : List NodeKind} {k : NodeKind} (h : Stacked (closed ++ k :: ks))
    (hclosed : ∀ c ∈ closed, c = .stepParameter ∨ c = .docString) (hne : closed ≠ []) :
    k.isStep = true ∨ k.isContainer = true := by
  obtain ⟨front, last, rfl⟩ := List.eq_nil_or_concat closed |>.resolve_left hne
  rw [List.concat_eq_append, List.append_assoc] at h
  have hstands := h.suffix.stands
  rcases hclosed last (by simp) with rfl | rfl
  · exact Or.inl hstands
  · simpa [standsIn] using hstands

end Stacked

end NodeKind

open NodeKind (Stacked)

namespace OpenPath

theorem stacked_of_closes {p q : OpenPath} (h : p.Closes q) (hp : Stacked p.kinds) :
    Stacked q.kinds := by
  obtain ⟨closed, hclosed⟩ := labels_of_closes h
  rw [kinds_eq, hclosed, List.map_append, ← kinds_eq] at hp
  exact hp.suffix

theorem closeLeaves_isContainer {p : OpenPath} (hp : Stacked p.kinds) :
    p.closeLeaves.top.kind.isContainer = true := by
  refine closeAll_top_of_any (List.any_eq_true.mpr ⟨.file, hp.file_mem, rfl⟩)

/-- A path whose innermost node is a container has no node to close before it. -/
theorem closeLeaves_of_isContainer {p : OpenPath} (h : p.top.kind.isContainer = true) :
    p.closeLeaves = p := by
  obtain ⟨top, outer⟩ := p
  cases outer with
  | nil => rfl
  | cons next outer =>
    show closeWhile (fun k => !k.isContainer) top (next :: outer) = _
    rw [closeWhile, if_neg]
    simpa using h

theorem top_eq_file {p : OpenPath} (hp : Stacked p.kinds) (h : p.outer = []) :
    p.top.kind = .file := by
  rw [kinds, h] at hp
  exact hp.eq_file

/-- The nodes that are left open when a row is closed: never a row. -/
theorem closeOne_top_ne {p : OpenPath} (hp : Stacked p.kinds) :
    (p.closeOne .tableRow).top.kind ≠ .tableRow := by
  obtain ⟨top, outer⟩ := p
  cases outer with
  | nil =>
    have hfile : top.kind = .file := hp.eq_file
    show top.kind ≠ _
    simp [hfile]
  | cons next outer =>
    simp only [closeOne]
    split
    · rename_i hrow
      have hstands : top.kind.standsIn next.kind = true := Stacked.stands hp
      rw [hrow] at hstands
      have hnext : next.kind = .table := by simpa [NodeKind.standsIn] using hstands
      show next.kind ≠ _
      simp [hnext]
    · rename_i hrow
      exact hrow

theorem kind_of_not_leaf {k : NodeKind} (hparameter : k ≠ .stepParameter) (htable : k ≠ .table)
    (hrow : k ≠ .tableRow) (hdoc : k ≠ .docString) : k.isStep = true ∨ k.isContainer = true := by
  cases k <;> simp_all [NodeKind.isStep, NodeKind.isContainer]

/-- A table that a pipe opens goes into a step or a container. -/
theorem tablePath_top {p : OpenPath} (hp : Stacked p.kinds)
    (htable : (p.closeOne .tableRow).top.kind ≠ .table) :
    (Builder.tablePath p).top.kind.isStep = true ∨
      (Builder.tablePath p).top.kind.isContainer = true := by
  have hq : Stacked (p.closeOne .tableRow).kinds := stacked_of_closes (.closeOne _ _) hp
  obtain ⟨closed, heq, hclosed, hstop⟩ := closeAll_spec (p.closeOne .tableRow)
    fun k => k = .stepParameter || k = .docString
  change _ = closed ++ (Builder.tablePath p).labels at heq
  change _ ∨ (Builder.tablePath p).outer = [] at hstop
  rcases hstop with hstop | hstop
  · by_cases hnil : closed = []
    · -- Nothing was closed, so the innermost node is neither a row nor a table.
      have hkinds : (p.closeOne .tableRow).kinds = (Builder.tablePath p).kinds := by
        rw [kinds_eq, heq, hnil, List.nil_append, kinds_eq]
      have htop := (List.cons.inj hkinds).1
      have hrow := closeOne_top_ne hp
      rw [htop] at htable hrow
      change ((Builder.tablePath p).top.kind = _ || (Builder.tablePath p).top.kind = _) = false
        at hstop
      simp only [Bool.or_eq_false_iff, decide_eq_false_iff_not] at hstop
      exact kind_of_not_leaf hstop.1 htable hrow hstop.2
    · rw [kinds_eq, heq, List.map_append, ← kinds_eq] at hq
      refine hq.held ?_ (by simpa using hnil)
      intro c hc
      obtain ⟨l, hl, rfl⟩ := List.mem_map.mp hc
      simpa using hclosed l hl
  · have hfile := top_eq_file (stacked_of_closes
      ((Closes.closeOne p .tableRow).trans (.closeAll _ _)) hp) hstop
    exact Or.inr (by rw [show (Builder.tablePath p).top.kind = _ from hfile]; rfl)

/-- A doc string that a delimiter opens goes into a step or a container. -/
theorem docStringPath_top {p : OpenPath} (hp : Stacked p.kinds) :
    (Builder.docStringPath p).top.kind.isStep = true ∨
      (Builder.docStringPath p).top.kind.isContainer = true := by
  obtain ⟨closed, -, -, hstop⟩ := closeAll_spec p
    fun k => k = .stepParameter || k = .table || k = .tableRow || k = .docString
  rcases hstop with hstop | hstop
  · simp only [Bool.or_eq_false_iff, decide_eq_false_iff_not] at hstop
    exact kind_of_not_leaf hstop.1.1.1 hstop.1.1.2 hstop.1.2 hstop.2
  · have hfile := top_eq_file (stacked_of_closes (.closeAll p _) hp) hstop
    exact Or.inr (by rw [show (Builder.docStringPath p).top.kind = _ from hfile]; rfl)

end OpenPath

namespace Builder

/-! ## §B The builder in a phase -/

/-- Closing a parameter leaves its step. -/
theorem closeOne_isStep {p : OpenPath} (hp : Stacked p.kinds) (htop : p.top.kind = .stepParameter) :
    (p.closeOne .stepParameter).top.kind.isStep = true := by
  obtain ⟨top, outer⟩ := p
  cases outer with
  | nil =>
    have hfile : top.kind = .file := hp.eq_file
    have htop : top.kind = .stepParameter := htop
    rw [hfile] at htop
    cases htop
  | cons next outer =>
    have hstands : top.kind.standsIn next.kind = true := Stacked.stands hp
    have htop : top.kind = .stepParameter := htop
    rw [htop] at hstands
    simp only [OpenPath.closeOne, htop, if_true]
    exact hstands

/-- **`b.At ph`** — what the builder holds open in a phase of the tokens. -/
def At (b : Builder) : Phase → Prop
  | .free => b.inDocString = false
  | .step => b.inDocString = false ∧ b.atLineStart = false ∧ b.topKind.isStep = true
  | .name | .close => b.inDocString = false ∧ b.atLineStart = false ∧ b.topKind = .stepParameter
  | .doc => b.inDocString = true

theorem At.inDocString {b : Builder} {ph : Phase} (h : b.At ph) (hdoc : b.inDocString = true) :
    ph = .doc := by
  cases ph <;> simp_all [At]

theorem kinds_grownPath (b : Builder) (t : Token) (p : OpenPath) :
    (b.grownPath t p []).kinds = p.kinds := by
  rw [grownPath, OpenPath.openAll, OpenPath.kinds_eq, OpenPath.labels_push,
    OpenPath.labels_pushAll, ← OpenPath.kinds_eq]

theorem kinds_grownPath_one (b : Builder) (t : Token) (p : OpenPath) (kind : NodeKind) :
    (b.grownPath t p [kind]).kinds = kind :: p.kinds := by
  rw [OpenPath.kinds_eq p, ← OpenPath.labels_pushAll p b.pending.reverse, ← OpenPath.kinds_eq]
  rfl

theorem kinds_grownPath_two (b : Builder) (t : Token) (p : OpenPath) (outer inner : NodeKind) :
    (b.grownPath t p [outer, inner]).kinds = inner :: outer :: p.kinds := by
  rw [OpenPath.kinds_eq p, ← OpenPath.labels_pushAll p b.pending.reverse, ← OpenPath.kinds_eq]
  rfl

/-- Where a table or a doc string is recorded as outside, its node is a container already, and
nothing is closed. -/
theorem outside_eq {p q : OpenPath} {held : Bool} {fault : Degradation.Kind}
    {faults : List Degradation.Kind}
    (htop : q.top.kind.isStep = true ∨ q.top.kind.isContainer = true)
    (hstep : q.top.kind.isStep = true → held = true)
    (h : held = true ∧ p = q ∧ faults = [] ∨
      held = false ∧ p = q.closeLeaves ∧ faults = [fault]) :
    p = q ∧ faults = if held then [] else [fault] := by
  rcases h with ⟨hheld, hp, hfaults⟩ | ⟨hheld, hp, hfaults⟩
  · exact ⟨hp, by rw [hfaults, hheld]; rfl⟩
  · have hcontainer := htop.resolve_left fun h => by simp [hstep h] at hheld
    refine ⟨hp.trans (OpenPath.closeLeaves_of_isContainer hcontainer), ?_⟩
    rw [hfaults, hheld]
    rfl

/-- What a token opens may stand where it is opened. -/
theorem stacked_grownPath {b : Builder} {t : Token} {p : OpenPath} {kinds : List NodeKind}
    {faults : List Degradation.Kind} {ph ph' : Phase} (hplace : b.Placement t p kinds faults)
    (hat : b.At ph) (hb : Stacked b.path.kinds) (hafter : ph.after t.kind = some ph') :
    Stacked (b.grownPath t p kinds).kinds := by
  have hp : Stacked p.kinds := OpenPath.stacked_of_closes hplace.closes hb
  cases hplace with
  | inside => rwa [kinds_grownPath]
  | join => rwa [kinds_grownPath]
  | keyword _ _ hcloses heq =>
    rw [kinds_grownPath_one]
    refine .cons (NodeKind.ofKeyword_standsIn _ _ ?_) hp
    -- Everything around the innermost container is a container.
    have hcontainer := OpenPath.closeLeaves_isContainer hb
    have hleaves := OpenPath.stacked_of_closes (.closeLeaves _) hb
    refine hleaves.isContainer hcontainer p.top.kind ?_
    show p.top.kind ∈ b.path.closeLeaves.kinds
    rw [OpenPath.kinds_eq, heq, List.map_append, ← OpenPath.kinds_eq]
    simp [OpenPath.kinds]
  | parameter hdoc hk =>
    rw [kinds_grownPath_one]
    refine .cons ?_ hp
    rw [hk] at hafter
    cases ph with
    | step => exact hat.2.2
    | free => simp [Phase.after] at hafter
    | name => simp [Phase.after] at hafter
    | close => simp [Phase.after] at hafter
    | doc => simp [Phase.after] at hafter
  | row _ _ htable =>
    rw [kinds_grownPath_one]
    refine .cons ?_ hp
    show decide (_ = _) = true
    simpa using htable
  | table _ _ htable hq hheld =>
    rw [kinds_grownPath_two]
    refine .cons rfl (.cons ?_ hp)
    have htop := OpenPath.tablePath_top hb htable
    subst hq
    obtain ⟨rfl, -⟩ := outside_eq htop (by simp_all) hheld
    simpa [NodeKind.standsIn] using htop
  | docString _ _ hq hheld =>
    rw [kinds_grownPath_one]
    refine .cons ?_ hp
    have htop := OpenPath.docStringPath_top hb
    subst hq
    obtain ⟨rfl, -⟩ := outside_eq htop id hheld
    simpa [NodeKind.standsIn] using htop

theorem stacked_step {b : Builder} {t : Token} {ph ph' : Phase} (hat : b.At ph)
    (hb : Stacked b.path.kinds) (hafter : ph.after t.kind = some ph') :
    Stacked (b.step t).path.kinds := by
  cases ht : t.isTrivia with
  | true => rwa [step_trivia b ht]
  | false =>
    obtain ⟨p, kinds, faults, hplace, hgrown⟩ := step_grown b ht
    exact OpenPath.stacked_of_closes hgrown.closes (stacked_grownPath hplace hat hb hafter)

/-- Trivia leaves the open nodes as they are, and only a line break begins a line. -/
theorem at_trivia {b : Builder} {t : Token} {ph ph' : Phase} (hat : b.At ph)
    (ht : t.isTrivia = true) (hafter : ph.after t.kind = some ph') : (b.step t).At ph' := by
  rw [step_trivia b ht]
  have hkind : t.kind = .whitespace ∨ t.kind = .newline ∨ t.kind = .comment := by
    rw [Token.isTrivia] at ht
    cases hk : t.kind <;> simp_all [TokenKind.isTrivia]
  rcases hkind with hk | hk | hk <;> rw [hk] at hafter <;> cases ph <;> cases hafter
  · exact hat
  · -- Blanks inside the text of a step.
    refine ⟨hat.1, ?_, hat.2.2⟩
    show (b.atLineStart || decide (t.kind = .newline)) = false
    rw [hat.2.1, hk]
    rfl
  · exact hat
  · exact hat
  · exact hat.1
  · exact hat
  · exact hat
  · exact hat.1

/-- A token that opens nothing. -/
theorem at_join {b b' : Builder} {t : Token} {p : OpenPath} {faults : List Degradation.Kind}
    {ph ph' : Phase} (hgrown : b.Grown t p [] faults b') (hat : b.At ph)
    (hstacked : Stacked b.path.kinds) (hdoc : b.inDocString = false)
    (hkeyword : t.kind.keyword? = none) (hparameter : t.kind ≠ .parameterStart)
    (hdelimiter : t.kind ≠ .docStringDelimiter)
    (hp : p = b.path ∨ b.atLineStart = true ∧ p = b.path.closeLeaves)
    (hafter : ph.after t.kind = some ph') : b'.At ph' := by
  have hdoc' : b'.inDocString = false := by
    rw [hgrown.inDocString_eq, hdoc]
    simpa using hdelimiter
  have htop : b.atLineStart = false → (b.grownPath t p []).kinds = b.path.kinds := by
    intro hline
    rw [kinds_grownPath]
    rcases hp with rfl | ⟨hline', -⟩
    · rfl
    · rw [hline] at hline'
      cases hline'
  have hpath : t.kind ≠ .parameterEnd → b'.path = b.grownPath t p [] := by
    intro hend
    rw [hgrown.path_eq, if_neg fun h => hend h.1]
  have hph : ph ≠ .doc := by
    rintro rfl
    rw [show b.inDocString = true from hat] at hdoc
    cases hdoc
  rcases Phase.after_cases hkeyword hparameter hdelimiter hph hafter with
    rfl | ⟨rfl, hk, rfl⟩ | ⟨rfl, hk, rfl⟩ | ⟨rfl, hk, rfl⟩
  · exact hdoc'
  · have hend : t.kind ≠ .parameterEnd := by rcases hk with hk | hk <;> simp [hk]
    have hkinds := (congrArg OpenPath.kinds (hpath hend)).trans (htop hat.2.1)
    exact ⟨hdoc', hgrown.atLineStart_eq, by rw [topKind, (List.cons.inj hkinds).1]; exact hat.2.2⟩
  · have hkinds := (congrArg OpenPath.kinds (hpath (by simp [hk]))).trans (htop hat.2.1)
    exact ⟨hdoc', hgrown.atLineStart_eq, (List.cons.inj hkinds).1.trans hat.2.2⟩
  · refine ⟨hdoc', hgrown.atLineStart_eq, ?_⟩
    have hkinds := htop hat.2.1
    rw [topKind, hgrown.path_eq, if_pos ⟨hk, hdoc⟩]
    -- The parameter is closed, and it stood in a step.
    exact closeOne_isStep (hkinds ▸ hstacked) ((List.cons.inj hkinds).1.trans hat.2.2)

theorem at_keyword {b b' : Builder} {t : Token} {p : OpenPath} {faults : List Degradation.Kind}
    {k : Keyword} {stands : StepKeyword} {ph ph' : Phase}
    (hgrown : b.Grown t p [.ofKeyword stands k] faults b') (hdoc : b.inDocString = false)
    (hk : t.kind = .keyword k) (hafter : ph.after t.kind = some ph') : b'.At ph' := by
  have hdoc' : b'.inDocString = false := by
    rw [hgrown.inDocString_eq, hdoc, hk]
    rfl
  rw [hk] at hafter
  obtain ⟨-, rfl⟩ := Phase.after_keyword hafter
  split
  · rename_i hstep
    refine ⟨hdoc', hgrown.atLineStart_eq, ?_⟩
    rw [topKind, hgrown.path_eq, if_neg (by simp [hk])]
    show (NodeKind.ofKeyword stands k).isStep = true
    cases k <;> simp_all [Keyword.isStep, Keyword.stepKeyword?, NodeKind.ofKeyword, NodeKind.isStep]
  · exact hdoc'

/-- **One token in its phase.** -/
theorem at_step {b : Builder} {t : Token} {ph ph' : Phase} (hat : b.At ph)
    (hstacked : Stacked b.path.kinds) (hafter : ph.after t.kind = some ph') :
    (b.step t).At ph' := by
  cases ht : t.isTrivia with
  | true => exact at_trivia hat ht hafter
  | false =>
    obtain ⟨p, kinds, faults, hplace, hgrown⟩ := step_grown b ht
    have hdocs := hgrown.inDocString_eq
    cases hplace with
    | inside hdoc =>
      obtain rfl := hat.inDocString hdoc
      rw [hdoc] at hdocs
      by_cases hk : t.kind = .docStringDelimiter
      · rw [hk] at hafter hdocs
        cases hafter
        exact hdocs
      · have hph : ph' = .doc := by
          cases hkind : t.kind <;> rw [hkind] at hafter hk <;> cases hafter <;> first
            | rfl
            | exact absurd rfl hk
        rw [hph]
        exact hdocs.trans (by simpa using hk)
    | join hdoc hkeyword hparameter hdelimiter hp =>
      exact at_join hgrown hat hstacked hdoc hkeyword hparameter hdelimiter hp hafter
    | keyword hdoc hk => exact at_keyword hgrown hdoc hk hafter
    | parameter hdoc hk =>
      rw [hdoc, hk] at hdocs
      have htop : (b.step t).topKind = .stepParameter := by
        rw [topKind, hgrown.path_eq, if_neg (by simp [hk])]
        rfl
      rw [hk] at hafter
      cases ph <;> cases hafter
      exact ⟨hdocs, hgrown.atLineStart_eq, htop⟩
    | row hdoc hk =>
      rw [hdoc, hk] at hdocs
      rw [hk] at hafter
      cases ph <;> cases hafter <;> exact hdocs
    | table hdoc hk =>
      rw [hdoc, hk] at hdocs
      rw [hk] at hafter
      cases ph <;> cases hafter <;> exact hdocs
    | docString hdoc hk =>
      rw [hdoc, hk] at hdocs
      rw [hk] at hafter
      cases ph <;> cases hafter
      · exact hdocs
      · exact hdocs
      · exact absurd (show b.inDocString = true from hat) (by simp [hdoc])

end Builder

end FeatureFile
