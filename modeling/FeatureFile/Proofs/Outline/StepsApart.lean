/-
# FeatureFile.Proofs.Outline.StepsApart — an offset touches one step at most

The step at an offset is looked up as the first one that holds the offset or ends at it. There is no
other, since steps do not lie inside one another and are not adjacent either: a line break stands
between any two. So the look-up finds the step at an offset whenever there is one.

Three facts come together. A step is opened inside containers alone (`Builder.around_step_foldl`),
so one of two steps lies behind the other. The one before ends with a significant token, since
something follows it. And the one behind begins with a keyword, before which no significant token
stands on its line (`leadsLine_of_keyword`).

Main statement: `parse_stepsApart`.
-/

import FeatureFile.Proofs.Outline.Edges
import FeatureFile.Proofs.Token.Locality

namespace FeatureFile

open NodeKind (Stacked)

/-! ## §A Keywords lead their lines -/

/-- Where a stream stands at the start of a line, it has given no significant token of it. -/
theorem TokenStream.leadsLine_of_lineStart (source : String) (n : Nat)
    (h : ((ofSource source).behind n).place = .lineStart) :
    leadsLine ((tokenize source).take n) = true := by
  induction n with
  | zero => rfl
  | succ n ih =>
    rw [behind_succ] at h
    rw [List.take_add_one, ← next_ofSource]
    generalize (ofSource source).behind n = s at h ih ⊢
    by_cases hrest : s.rest = []
    · rw [next_of_nil hrest] at h ⊢
      simpa using ih h
    · rw [next_of_ne_nil hrest] at h ⊢
      rw [Option.toList_some, leadsLine_concat]
      change s.cut.place = .lineStart at h
      show s.cut.kind.keepsStart _ = true
      unfold cut at h ⊢
      split
      · exact Bool.or_true _
      · rename_i hbreak
        rw [if_neg hbreak] at h
        obtain ⟨hplace, hkind⟩ := LineCut.lineStart_of_next h
        rw [hkind, ih hplace]
        rfl

/-- **A keyword leads its line.** -/
theorem leadsLine_of_keyword {source : String} {i : Nat} {t : Token} {k : Keyword}
    (h : (tokenize source)[i]? = some t) (hk : t.kind = .keyword k) :
    leadsLine ((tokenize source).take i) = true := by
  refine TokenStream.leadsLine_of_lineStart source i ?_
  rw [← TokenStream.next_ofSource] at h
  generalize (TokenStream.ofSource source).behind i = s at h ⊢
  have hcut : s.cut.kind = .keyword k :=
    (congrArg (·.1.kind) (TokenStream.emit_of_next h).2).trans hk
  unfold TokenStream.cut at hcut
  split at hcut
  · cases hcut
  · exact (LineCut.next_keyword hcut).1

/-- Between a significant token and the last line a line break stands. -/
theorem exists_newline_of_leadsLine {a b : List Token} {u : Token}
    (h : leadsLine (a ++ u :: b) = true) (hu : u.isTrivia = false) :
    ∃ v ∈ b, v.kind = .newline := by
  induction b using List.reverseRecOn with
  | nil =>
    rw [leadsLine_concat, TokenKind.keepsStart, show u.kind.isTrivia = false from hu] at h
    cases h
  | append_singleton b v ih =>
    by_cases hv : v.kind = .newline
    · exact ⟨v, by simp, hv⟩
    · rw [← List.cons_append, ← List.append_assoc, leadsLine_concat, TokenKind.keepsStart,
        decide_eq_false hv, Bool.or_false, Bool.and_eq_true] at h
      obtain ⟨w, hw, hkind⟩ := ih h.2
      exact ⟨w, List.mem_append_left _ hw, hkind⟩

/-! ## §B Steps stand in containers -/

theorem NodeKind.isContainer_of_isStep {kind : NodeKind} (h : kind.isStep = true) :
    kind.isContainer = false := by
  cases kind with
  | step => rfl
  | _ => cases h

namespace Builder

variable {b : Builder} {t : Token} {p : OpenPath} {kinds : List NodeKind}
  {faults : List Degradation.Kind}

/-- Where a token opens a step, nothing but containers is left open. -/
theorem Placement.around_step (h : b.Placement t p kinds faults) (hb : Stacked b.path.kinds)
    {kind : NodeKind} (hkind : kind ∈ kinds) (hstep : kind.isStep = true) :
    kinds = [kind] ∧ ∀ l ∈ p.labels, l.2.isContainer = true := by
  cases h with
  | keyword _ _ hcloses heq =>
    refine ⟨by rw [List.mem_singleton.mp hkind], fun l hl => ?_⟩
    have hleaves := OpenPath.stacked_of_closes (.closeLeaves _) hb
    refine hleaves.isContainer (OpenPath.closeLeaves_isContainer hb) l.2 ?_
    show l.2 ∈ b.path.closeLeaves.kinds
    rw [OpenPath.kinds_eq, heq]
    exact List.mem_map_of_mem (List.mem_append_right _ hl)
  | inside => cases hkind
  | join => cases hkind
  | parameter =>
    rw [List.mem_singleton.mp hkind] at hstep
    cases hstep
  | row =>
    rw [List.mem_singleton.mp hkind] at hstep
    cases hstep
  | docString =>
    rw [List.mem_singleton.mp hkind] at hstep
    cases hstep
  | table =>
    rcases List.mem_cons.mp hkind with rfl | hkind
    · cases hstep
    · rw [List.mem_singleton.mp hkind] at hstep
      cases hstep

/-- **Steps in containers.** Every node around the opening of a step is a container. -/
def StepsInContainers (trace : List Opening) : Prop :=
  ∀ op ∈ trace, op.kind.isStep = true → ∀ l ∈ op.around, l.2.isContainer = true

/-- **One token.** -/
theorem around_step {ts : List Token} (h : StepsInContainers b.path.trace) (hj : b.Judged ts)
    (t : Token) : StepsInContainers (b.step t).path.trace := by
  cases ht : t.isTrivia with
  | true =>
    rw [step_trivia b ht]
    exact h
  | false =>
    obtain ⟨p, kinds, faults, hplace, hgrown⟩ := step_grown b ht
    rw [hgrown.trace_eq hplace.closes hj.reads.pending_token]
    intro op hop hstep
    rcases List.mem_append.mp hop with hop | hop
    · exact h op hop hstep
    · have hkind : op.kind ∈ kinds :=
        (OpenPath.mem_openings (List.cons_ne_nil _ _) hop).2.1
      obtain ⟨hkinds, haround⟩ := hplace.around_step hj.stacked hkind hstep
      rw [hkinds] at hop
      rw [List.mem_singleton.mp hop]
      exact haround

/-- **A stretch of tokens.** -/
theorem around_step_foldl {done ts : List Token} {ph ph' : Phase}
    (h : StepsInContainers b.path.trace) (hj : b.Judged done) (hat : b.At ph)
    (hruns : ph.Runs (ts.map (·.kind)) ph') : StepsInContainers (ts.foldl step b).path.trace :=
  foldl_induction (P := fun b _ _ _ => StepsInContainers b.path.trace)
    (fun hj _ _ h => around_step h hj _) hj hat hruns h

end Builder

/-! ## §C Steps of an outline -/

theorem Span.touches_iff {s : Span} {offset : Nat} :
    s.touches offset = true ↔ s.start ≤ offset ∧ offset ≤ s.stop := by
  simp [Span.touches]

namespace Outline

variable {source : String} {x y : Entry}

/-- A node that holds a step below it is a container. -/
theorem isContainer_of_holds_step (hx : x ∈ (parse source).entries) (hholds : x.Holds y)
    (hne : y ≠ x) (hstep : y.node.kind.isStep = true) : x.node.kind.isContainer = true := by
  have hy := mem_of_holds hx hholds
  obtain ⟨ph, hruns⟩ := runs_tokenize source
  have hat : Builder.At {} .free := rfl
  have hnone : Builder.StepsInContainers (Builder.path {}).trace := by
    intro op hop hstep
    rw [List.mem_singleton.mp hop] at hstep
    cases hstep
  have hall := Builder.around_step_foldl hnone Builder.judged_nil hat hruns
  rw [← trace_parse] at hall
  obtain ⟨op, hop, hopened⟩ := (exists_of_forall₂ (forall₂_trace source)).1 y hy
  have hwithin := within_of_holds hx hholds
  rw [hopened.id_eq, within_iff_mem_chain hop] at hwithin
  obtain ⟨kind, hmem⟩ := hwithin
  -- The node around the step is found under its number, and it is of the kind noted there.
  have hnode : (parse source).node? x.node.id = some x.node :=
    (node?_eq_some_iff (ids_parse source)).mpr ⟨⟨x.parent, hx⟩, rfl⟩
  have hkind := (kind_of_mem_chain hop hmem).1
  rw [kind?, hnode, Option.map_some, Option.some_inj] at hkind
  have hlt := id_lt_of_holds hx hholds hne
  rcases List.mem_cons.mp hmem with heq | hmem
  · have hid : x.node.id = op.id := congrArg Prod.fst heq
    rw [← hopened.id_eq] at hid
    omega
  · rw [hkind]
    exact hall op hop (hopened.kind_eq ▸ hstep) _ hmem

/-- No step lies inside another one. -/
theorem eq_of_holds_step (hx : x ∈ (parse source).entries) (hxstep : x.node.kind.isStep = true)
    (hystep : y.node.kind.isStep = true) (hholds : x.Holds y) : y = x := by
  by_contra hne
  have hcontainer := isContainer_of_holds_step hx hholds hne hystep
  rw [NodeKind.isContainer_of_isStep hxstep] at hcontainer
  cases hcontainer

/-- Between a significant token and a keyword behind it a line ends. -/
theorem exists_newline_before_keyword {t u : Token} {k : Keyword} (hu : u ∈ tokenize source)
    (hsignificant : u.isTrivia = false) (ht : t ∈ tokenize source) (hk : t.kind = .keyword k)
    (hlt : u.span.start < t.span.start) :
    ∃ v ∈ tokenize source, v.kind = .newline ∧ u.span.stop ≤ v.span.start ∧
      v.span.stop ≤ t.span.start := by
  obtain ⟨i, hi⟩ := List.mem_iff_getElem?.mp hu
  obtain ⟨j, hj⟩ := List.mem_iff_getElem?.mp ht
  have hij := (tiles_tokenize source).index_lt hi hj hlt
  obtain ⟨a, b, htokens, rfl⟩ := exists_split hj
  have hleads := leadsLine_of_keyword hj hk
  rw [htokens, List.take_left] at hleads
  rw [htokens, List.getElem?_append_left hij] at hi
  obtain ⟨front, back, rfl, -⟩ := exists_split hi
  obtain ⟨v, hv, hnewline⟩ := exists_newline_of_leadsLine hleads hsignificant
  have hvmem : v ∈ tokenize source := by
    rw [htokens]
    simp [hv]
  have hpairs := (tiles_tokenize source).pairwise_start
  rw [htokens, List.append_assoc] at hpairs
  obtain ⟨huv, hrest⟩ := List.pairwise_cons.mp (List.pairwise_append.mp hpairs).2.1
  have hvt := (List.pairwise_append.mp hrest).2.2 v hv t List.mem_cons_self
  exact ⟨v, hvmem, hnewline, stop_le_start_of_lt hu hvmem (huv v (List.mem_append_left _ hv)),
    stop_le_start_of_lt hvmem ht hvt⟩

/-- A step begins with its keyword. -/
theorem exists_keyword_of_step (hx : x ∈ (parse source).entries)
    (hstep : x.node.kind.isStep = true) :
    ∃ t ∈ tokenize source, ∃ k, t.kind = .keyword k ∧ t.span.start = x.node.span.start := by
  have hroot : x.node.id ≠ 0 := by
    intro hzero
    rw [kind_of_root hx hzero] at hstep
    cases hstep
  obtain ⟨t, p, hopens, hopener⟩ := exists_opens hx hroot
  obtain ⟨op, htraces⟩ := exists_opening hopens
  have hget : (tokenize source)[op.start]? = some t := htraces.token_eq
  cases hkind : x.node.kind with
  | step keyword effective =>
    rw [hkind] at hopener
    exact ⟨t, List.mem_of_getElem? hget, .step keyword,
      (TokenKind.eq_keyword_iff hopener (.step keyword)).mpr rfl, (span_start_of_opens hopens).symm⟩
  | _ =>
    rw [hkind] at hstep
    cases hstep

/-- **A line break between steps.** Of two steps the one opened later begins on a later line. -/
theorem exists_newline_between (hx : x ∈ (parse source).entries) (hy : y ∈ (parse source).entries)
    (hxstep : x.node.kind.isStep = true) (hystep : y.node.kind.isStep = true)
    (hid : x.node.id < y.node.id) :
    ∃ t ∈ tokenize source, t.kind = .newline ∧ x.node.span.stop ≤ t.span.start ∧
      t.span.stop ≤ y.node.span.start := by
  have hbehind : x.node.span.stop ≤ y.node.span.start := by
    refine (holds_or_behind hx hy hid).resolve_left fun hholds => ?_
    rw [eq_of_holds_step hx hxstep hystep hholds] at hid
    omega
  have hroot : x.node.id ≠ 0 := by
    intro hzero
    rw [kind_of_root hx hzero] at hxstep
    cases hxstep
  have hstop : x.node.span.stop < Text.byteSize source :=
    calc x.node.span.stop ≤ y.node.span.start := hbehind
      _ < y.node.span.stop := start_lt_stop_of_mem hy (by omega)
      _ ≤ Text.byteSize source := stop_le_of_mem hy
  -- The first step ends with a significant token, and the second begins with a keyword.
  obtain ⟨u, hlast, hu⟩ := ends_of_stop_lt hx hroot hstop
  obtain ⟨c, hc⟩ := List.getLast?_eq_some_iff.mp hlast
  obtain ⟨humem, -, -, hend⟩ := span_of_token hx hc
  obtain ⟨t, ht, k, hk, hstart⟩ := exists_keyword_of_step hy hystep
  have hlt := (tiling_tokenize source).start_lt_stop u humem
  have hend := hend rfl
  rw [← hstart, ← hend] at hbehind ⊢
  exact exists_newline_before_keyword humem hu ht hk (by omega)

/-- What holds of the nodes of any two steps, the one with the smaller number first, holds of the
steps in order. -/
theorem pairwise_steps {R : Node → Node → Prop}
    (h : ∀ x ∈ (parse source).entries, ∀ y ∈ (parse source).entries, x.node.kind.isStep = true →
      y.node.kind.isStep = true → x.node.id < y.node.id → R x.node y.node) :
    (parse source).steps.Pairwise fun s s' => R s.node s'.node := by
  have hincreasing : (parse source).entries.Pairwise fun x y => x.node.id < y.node.id :=
    List.pairwise_map.mp (pairwise_ids (ids_parse source))
  have hstep : ∀ {n : Node} {s : Step}, Step.ofNode? n = some s →
      s.node = n ∧ n.kind.isStep = true := by
    intro n s hs
    obtain ⟨hnode, hkind⟩ := Step.ofNode?_eq_some_iff.mp hs
    exact ⟨hnode, by rw [hkind]; rfl⟩
  rw [steps, nodes, List.filterMap_map, List.pairwise_filterMap]
  refine hincreasing.imp_of_mem ?_
  intro x y hx hy hid s hs s' hs'
  obtain ⟨hxs, hxstep⟩ := hstep hs
  obtain ⟨hys, hystep⟩ := hstep hs'
  rw [hxs, hys]
  exact h x hx y hy hxstep hystep hid

/-- **`o.StepsApart source`** — the steps of a source are apart, and the look-up at an offset finds
the only one there is. -/
structure StepsApart (source : String) (o : Outline) : Prop extends ListsSteps source o where
  /-- As closed intervals the steps are disjoint, and they increase in document order. -/
  disjoint : o.steps.Pairwise fun s s' => s.node.span.stop < s'.node.span.start
  /-- No step lies inside another. -/
  unnested : ∀ s ∈ o.steps, ∀ s' ∈ o.steps, s'.node.id ∈ o.descendants s.node.id → s' = s
  /-- Between two steps, consecutive ones or not, there is a line break that belongs to neither. -/
  broken : o.steps.Pairwise fun s s' => ∃ t ∈ o.tokens, t.kind = .newline ∧
    s.node.span.stop ≤ t.span.start ∧ t.span.stop ≤ s'.node.span.start ∧
    t ∉ s.node.toElement.tokens ∧ t ∉ s'.node.toElement.tokens
  /-- An offset touches one step at most. -/
  touching_le_one : ∀ offset, (o.steps.filter fun s => s.node.span.touches offset).length ≤ 1
  /-- The step at an offset is the one that begins no later and ends no sooner. -/
  stepAt?_eq_some : ∀ offset s, o.stepAt? offset = some s ↔
    s ∈ o.steps ∧ s.node.span.start ≤ offset ∧ offset ≤ s.node.span.stop
  /-- Where there is none, none is found. -/
  stepAt?_eq_none : ∀ offset, o.stepAt? offset = none ↔
    ∀ s ∈ o.steps, ¬ (s.node.span.start ≤ offset ∧ offset ≤ s.node.span.stop)

theorem disjoint_steps (source : String) :
    (parse source).steps.Pairwise fun s s' => s.node.span.stop < s'.node.span.start := by
  refine pairwise_steps (R := fun n n' => n.span.stop < n'.span.start) ?_
  intro x hx y hy hxstep hystep hid
  obtain ⟨t, ht, -, hstart, hstop⟩ := exists_newline_between hx hy hxstep hystep hid
  have := (tiling_tokenize source).start_lt_stop t ht
  omega

/-- Of the steps that an offset touches there are not two. -/
theorem filter_touches (source : String) (offset : Nat) :
    (parse source).steps.filter (fun s => s.node.span.touches offset) =
      ((parse source).stepAt? offset).toList := by
  have hdisjoint := (disjoint_steps source).filter fun s => s.node.span.touches offset
  have htouches : ∀ s ∈ (parse source).steps.filter (fun s => s.node.span.touches offset),
      s.node.span.touches offset = true := fun s hs => (List.mem_filter.mp hs).2
  rw [stepAt?, ← List.head?_filter]
  cases hsteps : (parse source).steps.filter fun s => s.node.span.touches offset with
  | nil => rfl
  | cons s rest =>
    cases rest with
    | nil => rfl
    | cons s' rest =>
      rw [hsteps] at hdisjoint htouches
      have hlt := (List.pairwise_cons.mp hdisjoint).1 s' List.mem_cons_self
      have hs := Span.touches_iff.mp (htouches s List.mem_cons_self)
      have hs' := Span.touches_iff.mp (htouches s' (List.mem_cons_of_mem _ List.mem_cons_self))
      omega

theorem mem_steps_entry {s : Step} (hs : s ∈ (parse source).steps) :
    ∃ x ∈ (parse source).entries, x.node = s.node ∧ x.node.kind.isStep = true ∧
      x.node.kind = .step s.keyword s.effective := by
  obtain ⟨⟨parent, hmem⟩, hkind⟩ := mem_steps_iff.mp hs
  exact ⟨_, hmem, rfl, by rw [show _ = _ from hkind]; rfl, hkind⟩

/-- **Steps are apart.** In the outline of every source an offset touches one step at most, and the
look-up at the offset finds it. -/
theorem parse_stepsApart (source : String) : (parse source).StepsApart source := by
  constructor
  case toListsSteps => exact parse_listsSteps source
  case disjoint => exact disjoint_steps source
  case unnested =>
    intro s hs s' hs' hmem
    obtain ⟨x, hx, hxs, hxstep, hxkind⟩ := mem_steps_entry hs
    obtain ⟨y, hy, hys, hystep, hykind⟩ := mem_steps_entry hs'
    rw [← hxs, ← hys, mem_descendants_iff hx hy] at hmem
    obtain rfl := eq_of_holds_step hx hxstep hystep hmem
    obtain ⟨hkeyword, heffective⟩ := NodeKind.step.inj (hxkind.symm.trans hykind)
    obtain ⟨node, keyword, effective⟩ := s
    obtain ⟨node', keyword', effective'⟩ := s'
    obtain rfl : node' = node := hys.symm.trans hxs
    rw [show keyword = keyword' from hkeyword, show effective = effective' from heffective]
  case broken =>
    refine pairwise_steps (R := fun n n' => ∃ t ∈ tokenize source, t.kind = .newline ∧
      n.span.stop ≤ t.span.start ∧ t.span.stop ≤ n'.span.start ∧
      t ∉ n.toElement.tokens ∧ t ∉ n'.toElement.tokens) ?_
    intro x hx y hy hxstep hystep hid
    obtain ⟨t, ht, hkind, hstart, hstop⟩ := exists_newline_between hx hy hxstep hystep hid
    have hlt := (tiling_tokenize source).start_lt_stop t ht
    refine ⟨t, ht, hkind, hstart, hstop, fun hmem => ?_, fun hmem => ?_⟩
    · obtain ⟨c, d, hcd⟩ := List.append_of_mem hmem
      have := (span_of_token hx hcd).2.2.1
      omega
    · obtain ⟨c, d, hcd⟩ := List.append_of_mem hmem
      have := (span_of_token hy hcd).2.1
      omega
  case touching_le_one =>
    intro offset
    rw [filter_touches]
    cases (parse source).stepAt? offset <;> simp
  case stepAt?_eq_some =>
    intro offset s
    rw [← Span.touches_iff]
    refine Iff.trans ?_ (List.mem_filter (p := fun s : Step => s.node.span.touches offset))
    rw [filter_touches, Option.mem_toList]
  case stepAt?_eq_none =>
    intro offset
    rw [stepAt?, List.find?_eq_none]
    refine forall₂_congr fun s _ => ?_
    rw [Span.touches_iff]

end Outline

end FeatureFile
