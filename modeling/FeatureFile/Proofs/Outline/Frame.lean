/-
# FeatureFile.Proofs.Outline.Frame — what nodes begin with, and what parameters and doc strings hold

Every node but the root and the tables begins with the token that opened it, a doc string holds
tokens alone, and a parameter holds its two brackets and its name and nothing else. The first is
settled when a node is opened, since its token joins it at once; the second by what may stand in
what. The third is settled when a parameter is closed: while it is open the tokens allow only its
name and then its end (`Phase`), so nothing closes it early and no trivia comes between
(`Builder.Framed`).

Main statement: `Outline.framed_of_mem`.
-/

import FeatureFile.Proofs.Outline.StepLine

namespace FeatureFile

open NodeKind (Stacked)

/-! ## §A Tokens of a parameter -/

namespace Phase

variable {ph ph' : Phase} {k : TokenKind}

theorem after_name (h : name.after k = some ph') : k = .parameterName ∧ ph' = close := by
  cases k <;> cases h
  exact ⟨rfl, rfl⟩

theorem after_close (h : close.after k = some ph') : k = .parameterEnd ∧ ph' = step := by
  cases k <;> cases h
  exact ⟨rfl, rfl⟩

/-- The name of a parameter is expected behind its opening bracket alone. -/
theorem eq_of_after_eq_name (h : ph.after k = some name) : ph = step ∧ k = .parameterStart := by
  cases ph <;> cases k with
  | keyword k => cases k <;> cases h
  | _ => first | exact ⟨rfl, rfl⟩ | cases h

/-- The end of a parameter is expected behind its name alone. -/
theorem eq_of_after_eq_close (h : ph.after k = some close) : ph = name ∧ k = .parameterName := by
  cases ph <;> cases k with
  | keyword k => cases k <;> cases h
  | _ => first | exact ⟨rfl, rfl⟩ | cases h

theorem eq_close_of_parameterEnd (h : ph.after .parameterEnd = some ph') : ph = close := by
  cases ph <;> first | rfl | cases h

end Phase

/-! ## §B Framed nodes -/

/-- The kind of an element that is a token. -/
def Element.tokenKind? : Element → Option TokenKind
  | token _ t => some t.kind
  | node .. => none

/-- **`Begun kind children`** — a node that is neither the root nor a table begins with a token. -/
def Begun (kind : NodeKind) (children : List Element) : Prop :=
  kind ≠ .file → kind ≠ .table → ∃ i t, children.head? = some (.token i t)

/-- The tokens of a parameter. -/
def parameterKinds : List (Option TokenKind) :=
  [some .parameterStart, some .parameterName, some .parameterEnd]

/-- **`Framed kind children`** — a closed node begins with a token, as a doc string it holds tokens
alone, and as a parameter it is complete. -/
structure Framed (kind : NodeKind) (children : List Element) : Prop where
  begun : Begun kind children
  docString : kind = .docString → ∀ e ∈ children, e.node? = none
  parameter : kind = .stepParameter → children.map Element.tokenKind? = parameterKinds

theorem Begun.append {kind : NodeKind} {a : List Element} (h : Begun kind a) (b : List Element) :
    Begun kind (a ++ b) := by
  intro hfile htable
  obtain ⟨i, t, hhead⟩ := h hfile htable
  exact ⟨i, t, by rw [List.head?_append, hhead]; rfl⟩

namespace OpenNode

/-- **`n.Sealed`** — an open node begins with a token, as a doc string it holds tokens alone, and all
nodes below it are framed. -/
structure Sealed (n : OpenNode) : Prop where
  begun : Begun n.kind n.children
  docString : n.kind = .docString → ∀ e ∈ n.children, e.node? = none
  below : ∀ x ∈ Element.entriesOf (some n.id) n.children, Framed x.node.kind x.node.children

theorem sealed_token (id : Nat) (kind : NodeKind) (i : Nat) (t : Token) :
    Sealed ⟨id, kind, [.token i t]⟩ :=
  ⟨fun _ _ => ⟨i, t, rfl⟩, fun _ => List.forall_mem_singleton.mpr rfl,
    fun _ h => absurd h List.not_mem_nil⟩

theorem sealed_table (id : Nat) : Sealed ⟨id, .table, []⟩ :=
  ⟨fun _ h => absurd rfl h, fun h => (by cases h), fun _ h => absurd h List.not_mem_nil⟩

theorem sealed_file (id : Nat) : Sealed ⟨id, .file, []⟩ :=
  ⟨fun h => absurd rfl h, fun h => (by cases h), fun _ h => absurd h List.not_mem_nil⟩

theorem Sealed.fill {n : OpenNode} (h : n.Sealed) {w : List Element}
    (hw : ∀ e ∈ w, e.node? = none) : (n.fill w).Sealed := by
  have hrev : ∀ e ∈ w.reverse, e.node? = none := fun e he => hw e (List.mem_reverse.mp he)
  refine ⟨?_, ?_, ?_⟩
  · rw [children_fill]
    exact h.begun.append _
  · intro hkind
    rw [children_fill]
    exact List.forall_mem_append.mpr ⟨h.docString hkind, hrev⟩
  · rw [children_fill, Element.entriesOf_append, Element.entriesOf_of_tokens _ hrev, List.append_nil]
    exact h.below

theorem Sealed.push_close {n m : OpenNode} (hn : n.Sealed) (hm : m.Sealed)
    (hdoc : m.kind ≠ .docString)
    (hparameter : n.kind = .stepParameter → n.children.map Element.tokenKind? = parameterKinds) :
    (m.push n.close).Sealed := by
  refine ⟨?_, fun hkind => absurd hkind hdoc, ?_⟩
  · rw [children_push]
    exact hm.begun.append _
  · rw [children_push, Element.entriesOf_append]
    intro x hx
    rcases List.mem_append.mp hx with hx | hx
    · exact hm.below x hx
    · rcases List.mem_cons.mp hx with rfl | hx
      · exact ⟨hn.begun, hn.docString, hparameter⟩
      · exact hn.below x ((List.mem_append.mp hx).resolve_right List.not_mem_nil)

end OpenNode

/-- Nothing stands in a doc string. -/
theorem Builder.ne_docString_of_standsIn {kind parent : NodeKind}
    (h : kind.standsIn parent = true) : parent ≠ .docString := by
  rintro rfl
  cases kind <;> cases h

namespace OpenPath

/-- Closing nodes frames them, where a parameter that is closed is complete. -/
theorem sealed_of_closes {p q : OpenPath} (h : ∀ n ∈ p.nodes, n.Sealed) (hstacked : Stacked p.kinds)
    (hparameter : p.top.kind = .stepParameter →
      p.top.children.map Element.tokenKind? = parameterKinds)
    (hcloses : p.Closes q) : ∀ n ∈ q.nodes, n.Sealed := by
  induction hcloses with
  | refl => exact h
  | @close top next outer q _ ih =>
    obtain ⟨htop, hrest⟩ := List.forall_mem_cons.mp h
    obtain ⟨hnext, houter⟩ := List.forall_mem_cons.mp hrest
    have hkinds : Stacked (top.kind :: next.kind :: outer.map (·.kind)) := hstacked
    have hne := Builder.ne_stepParameter_of_standsIn hkinds.stands
    have hdoc := Builder.ne_docString_of_standsIn hkinds.stands
    refine ih ?_ ?_ fun hkind => absurd hkind hne
    · exact List.forall_mem_cons.mpr ⟨htop.push_close hnext hdoc hparameter, houter⟩
    · exact hkinds.suffix (a := [_])

end OpenPath

namespace Builder

variable {b b' : Builder} {t : Token} {p : OpenPath} {kinds : List NodeKind}
  {faults : List Degradation.Kind} {ph ph' : Phase}

/-! ## §C One token -/

/-- A token opens nothing, one node, or a table with a row. -/
theorem Placement.kinds_cases (h : b.Placement t p kinds faults) :
    kinds = [] ∨ (∃ kind, kinds = [kind]) ∨ kinds = [.table, .tableRow] := by
  cases h with
  | inside => exact Or.inl rfl
  | join => exact Or.inl rfl
  | keyword => exact Or.inr (Or.inl ⟨_, rfl⟩)
  | parameter => exact Or.inr (Or.inl ⟨_, rfl⟩)
  | row => exact Or.inr (Or.inl ⟨_, rfl⟩)
  | table => exact Or.inr (Or.inr rfl)
  | docString => exact Or.inr (Or.inl ⟨_, rfl⟩)

theorem pushAll_pending (b : Builder) (p : OpenPath) :
    p.pushAll b.pending.reverse = ⟨p.top.fill b.pending, p.outer⟩ := by
  rw [OpenPath.pushAll_eq, List.reverse_reverse]
  rfl

theorem sealed_grownPath (hp : ∀ n ∈ p.nodes, n.Sealed) (hpending : ∀ e ∈ b.pending, e.node? = none)
    (hkinds : kinds = [] ∨ (∃ kind, kinds = [kind]) ∨ kinds = [.table, .tableRow]) :
    ∀ n ∈ (b.grownPath t p kinds).nodes, n.Sealed := by
  obtain ⟨htop, houter⟩ := List.forall_mem_cons.mp hp
  have hfill := htop.fill hpending
  rw [grownPath, pushAll_pending]
  rcases hkinds with rfl | ⟨kind, rfl⟩ | rfl
  · refine List.forall_mem_cons.mpr ⟨?_, houter⟩
    exact hfill.fill (w := [.token b.nextToken t]) (List.forall_mem_singleton.mpr rfl)
  · refine List.forall_mem_cons.mpr ⟨OpenNode.sealed_token _ _ _ _, ?_⟩
    exact List.forall_mem_cons.mpr ⟨hfill, houter⟩
  · refine List.forall_mem_cons.mpr ⟨OpenNode.sealed_token _ _ _ _, ?_⟩
    refine List.forall_mem_cons.mpr ⟨OpenNode.sealed_table _, ?_⟩
    exact List.forall_mem_cons.mpr ⟨hfill, houter⟩

/-- **`b.Framed ph`** — the nodes of the builder in a phase of the tokens: an open parameter holds
what the phase says. -/
structure Framed (b : Builder) (ph : Phase) : Prop where
  path : ∀ n ∈ b.path.nodes, n.Sealed
  name : ph = .name → b.path.top.children.map Element.tokenKind? = [some .parameterStart]
  close : ph = .close →
    b.path.top.children.map Element.tokenKind? = [some .parameterStart, some .parameterName]

theorem framed_new : Framed {} .free where
  path := List.forall_mem_singleton.mpr (OpenNode.sealed_file 0)
  name h := by cases h
  close h := by cases h

theorem framed_trivia (h : b.Framed ph) (ht : t.isTrivia = true)
    (hafter : ph.after t.kind = some ph') : (b.step t).Framed ph' := by
  rw [step_trivia b ht]
  have hkind : t.kind.isTrivia = true := ht
  refine ⟨h.path, ?_, ?_⟩
  · rintro rfl
    rw [(Phase.eq_of_after_eq_name hafter).2] at hkind
    cases hkind
  · rintro rfl
    rw [(Phase.eq_of_after_eq_close hafter).2] at hkind
    cases hkind

/-- Inside a parameter the next token joins it, and nothing waits before it. -/
theorem children_in_parameter (hlined : b.Lined ph) (hph : ph = .name ∨ ph = .close) (hat : b.At ph)
    (hplace : b.Placement t p kinds faults) (hafter : ph.after t.kind = some ph') :
    p = b.path ∧ kinds = [] ∧
      (b.grownPath t b.path []).top.children = b.path.top.children ++ [.token b.nextToken t] := by
  have htop : b.path.top.kind = .stepParameter ∧ b.atLineStart = false ∧ b.inDocString = false := by
    rcases hph with rfl | rfl <;> exact ⟨hat.2.2, hat.2.1, hat.1⟩
  obtain ⟨hkind, hline, hdoc⟩ := htop
  have ht : t.kind = .parameterName ∨ t.kind = .parameterEnd := by
    rcases hph with rfl | rfl
    · exact Or.inl (Phase.after_name hafter).1
    · exact Or.inr (Phase.after_close hafter).1
  have hjoin : p = b.path ∧ kinds = [] := by
    cases hplace with
    | inside hinside => simp [hdoc] at hinside
    | join _ _ _ _ hp =>
      rcases hp with rfl | ⟨hstart, -⟩
      · exact ⟨rfl, rfl⟩
      · simp [hline] at hstart
    | _ => rcases ht with ht | ht <;> simp_all
  refine ⟨hjoin.1, hjoin.2, ?_⟩
  rw [grownPath, pushAll_pending, hlined.path.bare hkind]
  show ((b.path.top.fill []).push _).children = _
  rw [OpenNode.children_push, OpenNode.children_fill, List.reverse_nil, List.append_nil]

/-- A token of a parameter that is open. -/
theorem framed_in_parameter (h : b.Framed ph) (hlined : b.Lined ph)
    (hph : ph = .name ∨ ph = .close) (hat : b.At ph) (hb : Stacked b.path.kinds)
    (hpending : ∀ e ∈ b.pending, e.node? = none) (hplace : b.Placement t p kinds faults)
    (hgrown : b.Grown t p kinds faults b') (hafter : ph.after t.kind = some ph') : b'.Framed ph' := by
  obtain ⟨rfl, rfl, hchildren⟩ := children_in_parameter hlined hph hat hplace hafter
  have hsealed : ∀ n ∈ (b.grownPath t b.path []).nodes, n.Sealed :=
    sealed_grownPath h.path hpending (Or.inl rfl)
  rcases hph with rfl | rfl
  · obtain ⟨hk, rfl⟩ := Phase.after_name hafter
    have hpath : b'.path = b.grownPath t b.path [] := by
      rw [hgrown.path_eq, if_neg (by simp [hk])]
    refine ⟨by rw [hpath]; exact hsealed, fun hname => (by cases hname), fun _ => ?_⟩
    rw [hpath, hchildren, List.map_append, h.name rfl]
    simp [Element.tokenKind?, hk]
  · obtain ⟨hk, rfl⟩ := Phase.after_close hafter
    refine ⟨?_, fun hname => (by cases hname), fun hclose => (by cases hclose)⟩
    refine OpenPath.sealed_of_closes hsealed ?_ (fun _ => ?_) hgrown.closes
    · rwa [kinds_grownPath]
    · rw [hchildren, List.map_append, h.close rfl]
      simp [Element.tokenKind?, parameterKinds, hk]

/-- A token where no parameter is open. -/
theorem framed_outside (h : b.Framed ph) (hlined : b.Lined ph)
    (hph : ¬ (ph = .name ∨ ph = .close)) (hat : b.At ph) (hb : Stacked b.path.kinds)
    (hpending : ∀ e ∈ b.pending, e.node? = none) (hplace : b.Placement t p kinds faults)
    (hgrown : b.Grown t p kinds faults b') (hafter : ph.after t.kind = some ph') : b'.Framed ph' := by
  have hp : ∀ n ∈ p.nodes, n.Sealed :=
    OpenPath.sealed_of_closes h.path hb (fun hkind => absurd (hlined.phase hkind) hph) hplace.closes
  have hend : t.kind ≠ .parameterEnd := by
    intro hk
    rw [hk] at hafter
    exact hph (Or.inr (Phase.eq_close_of_parameterEnd hafter))
  have hpath : b'.path = b.grownPath t p kinds := by
    rw [hgrown.path_eq, if_neg fun h => hend h.1]
  refine ⟨?_, ?_, ?_⟩
  · rw [hpath]
    exact sealed_grownPath hp hpending hplace.kinds_cases
  · rintro rfl
    obtain ⟨rfl, hk⟩ := Phase.eq_of_after_eq_name hafter
    have hdoc : b.inDocString = false := hat.1
    cases hplace with
    | parameter =>
      rw [hpath]
      show [some t.kind] = _
      rw [hk]
    | _ => simp_all
  · rintro rfl
    exact absurd (Or.inl (Phase.eq_of_after_eq_close hafter).1) hph

/-- **One token.** -/
theorem framed_step (h : b.Framed ph) (hlined : b.Lined ph) (hat : b.At ph)
    (hb : Stacked b.path.kinds) (hpending : ∀ e ∈ b.pending, e.node? = none)
    (hafter : ph.after t.kind = some ph') : (b.step t).Framed ph' := by
  cases ht : t.isTrivia with
  | true => exact framed_trivia h ht hafter
  | false =>
    obtain ⟨p, kinds, faults, hplace, hgrown⟩ := step_grown b ht
    by_cases hph : ph = .name ∨ ph = .close
    · exact framed_in_parameter h hlined hph hat hb hpending hplace hgrown hafter
    · exact framed_outside h hlined hph hat hb hpending hplace hgrown hafter

/-! ## §D Runs -/

/-- **A stretch of tokens.** -/
theorem framed_foldl {done ts : List Token} (h : b.Framed ph) (hlined : b.Lined ph)
    (hjudged : b.Judged done) (hat : b.At ph) (hruns : ph.Runs (ts.map (·.kind)) ph')
    (hled : Led b.atLineStart (ts.map (·.kind))) : (ts.foldl step b).Framed ph' := by
  refine (foldl_induction
    (P := fun b _ ph ts => b.Framed ph ∧ b.Lined ph ∧ Led b.atLineStart (ts.map (·.kind)))
    ?_ hjudged hat hruns ⟨h, hlined, hled⟩).1
  intro b done ph t ts ph' hj hat hafter ⟨hframed, hlined, hled⟩
  exact ⟨framed_step hframed hlined hat hj.stacked hj.reads.pending_token hafter,
    lined_step hlined hat hj.stacked hafter hled.1, led_step hled⟩

/-- At the end of a source no parameter is open. -/
theorem framed_tokenize (source : String) :
    (∀ n ∈ ((tokenize source).foldl step {}).path.nodes, n.Sealed) ∧
      ((tokenize source).foldl step {}).topKind ≠ .stepParameter := by
  have hbegin : Phase.free.Begins none := Or.inl rfl
  obtain ⟨ph, hruns, hph⟩ := Token.runs_lexemes_docAfter hbegin (lines source.toList)
  rw [← Token.map_kind_place 0] at hruns
  have hat : At {} .free := rfl
  have hlined : ((tokenize source).foldl step {}).Lined ph :=
    lined_foldl lined_new judged_nil hat hruns (led_tokenize source)
  have hframed : ((tokenize source).foldl step {}).Framed ph :=
    framed_foldl framed_new lined_new judged_nil hat hruns (led_tokenize source)
  refine ⟨hframed.path, fun hkind => ?_⟩
  cases hdoc : Token.docAfter none (lines source.toList) <;> rw [hdoc] at hph <;>
    rcases hlined.phase hkind with rfl | rfl <;> simp [Phase.Begins] at hph

end Builder

/-- **The nodes of an outline are framed.** -/
theorem Outline.framed_of_mem {source : String} {x : Entry} (hx : x ∈ (parse source).entries) :
    Framed x.node.kind x.node.children := by
  obtain ⟨hsealed, htop⟩ := Builder.framed_tokenize source
  have hjudged := Builder.judged_tokenize source
  rw [entries, root_eq, Builder.finish_fst] at hx
  generalize (tokenize source).foldl Builder.step {} = b at hsealed htop hjudged hx
  -- Closing the rest, then the last trivia, then the root alone is left.
  have hend := OpenPath.sealed_of_closes hsealed hjudged.stacked (fun h => absurd h htop)
    b.closes_endPath
  obtain ⟨hlast, houter⟩ := List.forall_mem_cons.mp hend
  have hfill : ∀ n ∈ OpenPath.nodes ⟨b.endPath.top.fill b.pending, b.endPath.outer⟩, n.Sealed :=
    List.forall_mem_cons.mpr ⟨hlast.fill hjudged.reads.pending_token, houter⟩
  have hstacked : Stacked b.endPath.kinds :=
    OpenPath.stacked_of_closes b.closes_endPath hjudged.stacked
  have hparameter : b.endPath.top.kind ≠ .stepParameter := by
    rw [Builder.endPath]
    split
    · exact htop
    · intro hkind
      have hcontainer := OpenPath.closeLeaves_isContainer hjudged.stacked
      rw [hkind] at hcontainer
      cases hcontainer
  have hcloses := OpenPath.Closes.closeAll
    ⟨b.endPath.top.fill b.pending, b.endPath.outer⟩ fun _ => true
  have hroot := (List.forall_mem_cons.mp
    (OpenPath.sealed_of_closes hfill hstacked (fun h => absurd h hparameter) hcloses)).1
  rcases List.mem_cons.mp hx with rfl | hx
  · refine ⟨hroot.begun, hroot.docString, fun hkind => ?_⟩
    have hfile := OpenPath.top_eq_file (OpenPath.stacked_of_closes hcloses hstacked)
      (OpenPath.closeWhile_true_outer _ _)
    rw [show _ = NodeKind.file from hfile] at hkind
    cases hkind
  · exact hroot.below x hx

end FeatureFile
