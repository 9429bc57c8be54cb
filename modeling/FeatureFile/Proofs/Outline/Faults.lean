/-
# FeatureFile.Proofs.Outline.Faults — what is recorded is what the nodes show

The builder judges a construct when it opens its node, by looking at the path of open nodes at that
moment. `Opening.faults` judges the same opening afterwards: by its kind, the nodes around it, and
the nodes opened before it. The two agree at every token (`faults_eq`), so the recorded problems are
the verdicts over the trace of the tree (`Builder.Judged`), in order.

What the later verdict cannot see is where the path stood when a step came. That is the only place
where the node opened just before matters: until a container is opened, only leaves are closed, so
the containers around that node are the ones still open (`Builder.Judged.trail`).

A token has one fault at most, and inside a doc string none. So the problems come in the order of the
tokens, and no token has two (`Builder.inOrder_foldl`).
-/

import FeatureFile.Proofs.Outline.Nesting
import Mathlib.Data.List.DropRight

namespace FeatureFile

open NodeKind (Stacked)

/-! ## §A Verdicts -/

/-- The keyword that opens nodes of a kind. -/
def NodeKind.keyword? : NodeKind → Option Keyword
  | feature => some .feature
  | rule => some .rule
  | background => some .background
  | scenario => some .scenario
  | scenarioOutline => some .scenarioOutline
  | examples => some .examples
  | step keyword _ => some (.step keyword)
  | _ => none

theorem NodeKind.keyword?_ofKeyword (stands : StepKeyword) (k : Keyword) :
    (ofKeyword stands k).keyword? = some k := by
  cases k <;> rfl

theorem NodeKind.keyword?_eq_feature {kind : NodeKind} :
    kind.keyword? = some .feature ↔ kind = .feature := by
  cases kind <;> simp [keyword?]

/-- Whether a token of one kind opens nodes of another. -/
def TokenKind.opens (k : TokenKind) (kind : NodeKind) : Prop :=
  match k with
  | .keyword opener => kind.keyword? = some opener
  | .pipe => kind = .table ∨ kind = .tableRow
  | .docStringDelimiter => kind = .docString
  | .parameterStart => kind = .stepParameter
  | _ => False

/-- A node that a token opens is opened by a keyword exactly when the token is one. -/
theorem TokenKind.eq_keyword_iff {k : TokenKind} {kind : NodeKind} (h : k.opens kind)
    (opener : Keyword) : k = .keyword opener ↔ kind.keyword? = some opener := by
  cases k with
  | keyword word =>
    rw [show kind.keyword? = some word from h]
    simp
  | pipe => rcases h with rfl | rfl <;> simp [NodeKind.keyword?]
  | docStringDelimiter =>
    rw [show kind = .docString from h]
    simp [NodeKind.keyword?]
  | parameterStart =>
    rw [show kind = .stepParameter from h]
    simp [NodeKind.keyword?]
  | _ => exact False.elim h

namespace Opening

/-- A node and the nodes around it, from the inside out. -/
def chain (op : Opening) : List (Nat × NodeKind) := (op.id, op.kind) :: op.around

/-- Whether the node opened before stands in examples that end with this opening. -/
def late (before : List Opening) (op : Opening) : Bool :=
  match before.getLast? with
  | none => false
  | some prev =>
    (prev.chain.take (prev.chain.length - op.around.length)).any fun l => l.2 = .examples

/-- What is wrong with a node of a kind in a node of another kind, given what was opened before. -/
def faults (before : List Opening) (op : Opening) : List Degradation.Kind :=
  match op.around with
  | [] => []
  | (_, parent) :: _ =>
    match op.kind with
    | .file | .stepParameter | .tableRow => []
    | .table =>
      if parent.isStep || parent = .examples then [] else [.tableOutsideStep]
    | .docString => if parent.isStep then [] else [.docStringOutsideStep]
    | kind =>
      match kind.keyword? with
      | some keyword =>
        Builder.keywordFaults (before.any (·.kind = .feature)) (op.late before) keyword parent
      | none => []

/-- The problems of a node, at the token that opens it. -/
def verdict (tokens : List Token) (before : List Opening) (op : Opening) : List Degradation :=
  match tokens[op.start]? with
  | some t => (op.faults before).map (⟨·, t.span⟩)
  | none => []

end Opening

/-- The problems of nodes, in the order in which they were opened. -/
def verdicts (tokens : List Token) (before : List Opening) : List Opening → List Degradation
  | [] => []
  | op :: ops => op.verdict tokens before ++ verdicts tokens (before ++ [op]) ops

theorem verdicts_append (tokens : List Token) (before a b : List Opening) :
    verdicts tokens before (a ++ b) =
      verdicts tokens before a ++ verdicts tokens (before ++ a) b := by
  induction a generalizing before with
  | nil => simp [verdicts]
  | cons op a ih => simp [verdicts, ih]

theorem mem_verdicts {tokens : List Token} {before ops : List Opening} {d : Degradation} :
    d ∈ verdicts tokens before ops ↔
      ∃ a op b, ops = a ++ op :: b ∧ d ∈ op.verdict tokens (before ++ a) := by
  induction ops generalizing before with
  | nil => simp [verdicts]
  | cons op ops ih =>
    rw [verdicts, List.mem_append, ih]
    constructor
    · rintro (h | ⟨a, x, b, rfl, h⟩)
      · exact ⟨[], op, ops, rfl, by simpa using h⟩
      · exact ⟨op :: a, x, b, rfl, by simpa using h⟩
    · rintro ⟨a, x, b, hops, h⟩
      cases a with
      | nil =>
        obtain ⟨rfl, rfl⟩ := List.cons.inj hops
        exact Or.inl (by simpa using h)
      | cons y a =>
        obtain ⟨rfl, rfl⟩ := List.cons.inj hops
        exact Or.inr ⟨a, x, b, rfl, by simpa using h⟩

theorem Opening.verdict_of_getElem? {tokens : List Token} {before : List Opening} {op : Opening}
    {t : Token} (h : tokens[op.start]? = some t) :
    op.verdict tokens before = (op.faults before).map (⟨·, t.span⟩) := by
  rw [verdict, h]

/-- Tokens behind the last opening change no verdict. -/
theorem verdicts_concat {tokens : List Token} (t : Token) {before ops : List Opening}
    (h : ∀ op ∈ ops, op.around = [] ∨ op.start < tokens.length) :
    verdicts (tokens ++ [t]) before ops = verdicts tokens before ops := by
  induction ops generalizing before with
  | nil => rfl
  | cons op ops ih =>
    rw [verdicts, verdicts, ih fun x hx => h x (List.mem_cons_of_mem op hx)]
    congr 1
    rcases h op List.mem_cons_self with hroot | hlt
    · -- The root has no faults, wherever it is said to begin.
      have hnone : ∀ l : List Token, op.verdict l before = [] := by
        intro l
        rw [Opening.verdict, Opening.faults, hroot]
        split <;> rfl
      rw [hnone, hnone]
    · rw [Opening.verdict, Opening.verdict, List.getElem?_append_left hlt]

/-! ## §B New openings -/

namespace OpenPath

theorem mem_openings {start id : Nat} {around : List (Nat × NodeKind)} {kinds : List NodeKind}
    {op : Opening} (haround : around ≠ []) (h : op ∈ openings start around id kinds) :
    op.start = start ∧ op.kind ∈ kinds ∧ op.around ≠ [] := by
  induction kinds generalizing around id with
  | nil => simp [openings] at h
  | cons kind kinds ih =>
    rcases List.mem_cons.mp h with rfl | h
    · exact ⟨rfl, List.mem_cons_self, haround⟩
    · obtain ⟨hstart, hkind, hne⟩ := ih (List.cons_ne_nil _ _) h
      exact ⟨hstart, List.mem_cons_of_mem _ hkind, hne⟩

theorem any_kind_openings (start id : Nat) (around : List (Nat × NodeKind)) (kinds : List NodeKind) :
    (openings start around id kinds).any (·.kind = .feature) = kinds.contains .feature := by
  induction kinds generalizing around id with
  | nil => rfl
  | cons kind kinds ih =>
    rw [openings, List.any_cons, ih, List.contains_cons]
    exact congrArg (· || _) (NodeKind.beq_eq_decide_eq _ kind).symm

/-- The last of the nodes that are opened is the innermost. -/
theorem getLast?_openings (p : OpenPath) (start id : Nat) {kinds : List NodeKind} (h : kinds ≠ []) :
    ((openings start p.labels id kinds).getLast?).map Opening.chain =
      some (p.openAll id kinds).labels := by
  induction kinds generalizing p id with
  | nil => exact absurd rfl h
  | cons kind kinds ih =>
    cases kinds with
    | nil => rfl
    | cons next kinds =>
      rw [openings, openAll, ← ih ⟨⟨id, kind, []⟩, p.nodes⟩ (id + 1) (List.cons_ne_nil _ _)]
      rfl

/-- The open containers, from the inside out. -/
def containers (labels : List (Nat × NodeKind)) : List (Nat × NodeKind) :=
  labels.dropWhile fun l => !l.2.isContainer

theorem labels_closeLeaves {p : OpenPath} (hp : Stacked p.kinds) :
    p.closeLeaves.labels = containers p.labels := by
  obtain ⟨closed, heq, hclosed, -⟩ := closeAll_spec p fun k => !k.isContainer
  have htop := closeLeaves_isContainer hp
  change p.labels = closed ++ p.closeLeaves.labels at heq
  rw [containers, heq, List.dropWhile_append_of_pos hclosed]
  exact (List.dropWhile_cons_of_neg (by simpa using htop)).symm

theorem containers_closeOne (p : OpenPath) :
    containers (p.closeOne .stepParameter).labels = containers p.labels := by
  obtain ⟨top, outer⟩ := p
  cases outer with
  | nil => rfl
  | cons next outer =>
    simp only [closeOne]
    split
    · rename_i htop
      refine (List.dropWhile_cons_of_pos ?_).symm
      simp [htop, NodeKind.isContainer]
    · rfl

end OpenPath

namespace Builder

section Placed

variable {b : Builder} {t : Token} {p : OpenPath} {kinds : List NodeKind}
  {faults : List Degradation.Kind}

/-- A token opens nodes that tokens of its kind open. -/
theorem Placement.opens (h : b.Placement t p kinds faults) : ∀ kind ∈ kinds, t.kind.opens kind := by
  intro kind hkind
  cases h with
  | inside => simp at hkind
  | join => simp at hkind
  | keyword _ hk =>
    rw [hk, List.mem_singleton.mp hkind]
    exact NodeKind.keyword?_ofKeyword _ _
  | parameter _ hk =>
    rw [hk]
    exact List.mem_singleton.mp hkind
  | row _ hk =>
    rw [hk]
    exact Or.inr (List.mem_singleton.mp hkind)
  | table _ hk =>
    rw [hk]
    simpa [TokenKind.opens] using hkind
  | docString _ hk =>
    rw [hk]
    exact List.mem_singleton.mp hkind

/-- A feature is opened in the file. -/
theorem Placement.feature_around (h : b.Placement t p kinds faults) (hb : Stacked b.path.kinds)
    (hfeature : NodeKind.feature ∈ kinds) :
    kinds = [.feature] ∧ ∃ id, p.labels = [(id, .file)] := by
  have hp : Stacked p.kinds := OpenPath.stacked_of_closes h.closes hb
  cases h with
  | @keyword _ k _ _ _ _ _ _ houter =>
    have hk : k = .feature := by
      have hopened := congrArg NodeKind.keyword? (List.mem_singleton.mp hfeature)
      rw [NodeKind.keyword?_ofKeyword] at hopened
      exact (Option.some.inj hopened).symm
    have hnil := houter hk
    subst hk
    refine ⟨rfl, p.top.id, ?_⟩
    rw [OpenPath.labels, OpenPath.nodes, hnil]
    show [(p.top.id, p.top.kind)] = _
    rw [OpenPath.top_eq_file hp hnil]
  | _ => simp at hfeature

theorem labels_grownPath (b : Builder) (t : Token) (p : OpenPath) (kinds : List NodeKind) :
    (b.grownPath t p kinds).labels = (p.openAll b.nextId kinds).labels := by
  rw [grownPath, OpenPath.labels_push]
  have hopen : ∀ (q q' : OpenPath) (id : Nat) (ks : List NodeKind), q.labels = q'.labels →
      (q.openAll id ks).labels = (q'.openAll id ks).labels := by
    intro q q' id ks hq
    induction ks generalizing q q' id with
    | nil => exact hq
    | cons k ks ih => exact ih _ _ _ (congrArg ((id, k) :: ·) hq)
  exact hopen _ _ _ _ (OpenPath.labels_pushAll p _)

/-- A token that opens no node leaves the open containers as they are. -/
theorem Placement.containers_eq (h : b.Placement t p kinds faults) (hb : Stacked b.path.kinds)
    (hnil : kinds = []) : OpenPath.containers p.labels = OpenPath.containers b.path.labels := by
  cases h with
  | inside => rfl
  | join _ _ _ _ hp =>
    rcases hp with rfl | ⟨-, rfl⟩
    · rfl
    · rw [← OpenPath.labels_closeLeaves (OpenPath.stacked_of_closes (.closeLeaves _) hb),
        OpenPath.closeLeaves_of_isContainer (OpenPath.closeLeaves_isContainer hb),
        OpenPath.labels_closeLeaves hb]
  | _ => simp at hnil

/-- Whether a step is late is seen from the node opened before it. -/
theorem late_eq {before : List Opening} {prev : Opening} {closed : List (Nat × NodeKind)}
    {start id : Nat} {kind : NodeKind} (hb : Stacked b.path.kinds)
    (hprev : before.getLast? = some prev)
    (htrail : OpenPath.containers prev.chain = OpenPath.containers b.path.labels)
    (heq : b.path.closeLeaves.labels = closed ++ p.labels)
    (hclosed : ∀ l ∈ closed, l.2.holdsSteps = false) (htop : p.top.kind.holdsSteps = true) :
    (b.withPath OpenPath.closeLeaves).insideExamples =
      (Opening.mk start p.labels id kind).late before := by
  -- Before the step, the path is what is closed now and then the node that holds the step.
  have hinside : (b.withPath OpenPath.closeLeaves).insideExamples =
      (closed.map Prod.snd).contains .examples := by
    rw [insideExamples]
    show ((b.path.closeLeaves.kinds.takeWhile _).contains _) = _
    have hstop : (p.kinds.takeWhile fun k => !k.holdsSteps) = [] :=
      List.takeWhile_cons_of_neg (by simp [htop])
    rw [OpenPath.kinds_eq, heq, List.map_append, ← OpenPath.kinds_eq,
      List.takeWhile_append_of_pos, hstop, List.append_nil]
    intro k hk
    obtain ⟨l, hl, rfl⟩ := List.mem_map.mp hk
    simpa using hclosed l hl
  -- The node before stands in leaves and then in the same containers.
  have hchain : prev.chain =
      (prev.chain.takeWhile fun l => !l.2.isContainer) ++ (closed ++ p.labels) := by
    rw [← heq, OpenPath.labels_closeLeaves hb, ← htrail]
    exact List.takeWhile_append_dropWhile.symm
  have hlength : prev.chain.length - p.labels.length =
      ((prev.chain.takeWhile fun l => !l.2.isContainer) ++ closed).length := by
    have := congrArg List.length hchain
    rw [List.length_append, List.length_append] at this
    rw [List.length_append]
    omega
  rw [hinside, Opening.late, hprev]
  show _ = (prev.chain.take (prev.chain.length - p.labels.length)).any _
  rw [hlength]
  generalize hleaves : prev.chain.takeWhile (fun l => !l.2.isContainer) = leaves at hchain
  have hnone : leaves.any (fun l => l.2 = .examples) = false := by
    rw [List.any_eq_false]
    intro l hl
    rw [← hleaves] at hl
    have hleaf := List.all_eq_true.mp List.all_takeWhile l hl
    intro hexamples
    simp only [decide_eq_true_eq] at hexamples
    simp [hexamples, NodeKind.isContainer] at hleaf
  rw [hchain, ← List.append_assoc, List.take_left, List.any_append, hnone, Bool.false_or]
  rw [List.contains_eq_any_beq, List.any_map]
  exact congrArg (closed.any ·) (funext fun l => NodeKind.beq_eq_decide_eq _ l.2)

theorem keywordFaults_congr {hasFeature late late' : Bool} {k : Keyword} {parent : NodeKind}
    (h : k.isStep = true → parent.mayHold k = true → late = late') :
    keywordFaults hasFeature late k parent = keywordFaults hasFeature late' k parent := by
  cases k with
  | step k =>
    by_cases hholds : parent.mayHold (.step k) = true
    · rw [h rfl hholds]
    · simp [keywordFaults, hholds]
  | _ => simp [keywordFaults, Keyword.isStep, Keyword.stepKeyword?]

/-- A node that a keyword opens is judged as a keyword. -/
theorem faults_ofKeyword (before : List Opening) (start id : Nat) (p : OpenPath)
    (stands : StepKeyword) (k : Keyword) :
    (Opening.mk start p.labels id (.ofKeyword stands k)).faults before =
      keywordFaults (before.any (·.kind = .feature))
        ((Opening.mk start p.labels id (.ofKeyword stands k)).late before) k p.top.kind := by
  cases k <;> rfl

/-- **The verdict of the moment is the verdict afterwards.** -/
theorem Placement.faults_eq (h : b.Placement t p kinds faults) (hb : Stacked b.path.kinds)
    {before : List Opening} {prev : Opening} (hprev : before.getLast? = some prev)
    (htrail : OpenPath.containers prev.chain = OpenPath.containers b.path.labels)
    (hfeature : b.hasFeature = before.any (·.kind = .feature)) {tokens : List Token}
    {start : Nat} (ht : tokens[start]? = some t) (id : Nat) :
    verdicts tokens before (OpenPath.openings start p.labels id kinds) =
      faults.map (⟨·, t.span⟩) := by
  have hone : ∀ kind, verdicts tokens before (OpenPath.openings start p.labels id [kind]) =
      ((Opening.mk start p.labels id kind).faults before).map (⟨·, t.span⟩) := by
    intro kind
    rw [OpenPath.openings, OpenPath.openings, verdicts, verdicts, List.append_nil,
      Opening.verdict_of_getElem? ht]
  cases h with
  | inside => rfl
  | join => rfl
  | @keyword _ k closed _ _ _ heq hclosed _ =>
    rw [hone, faults_ofKeyword, hfeature]
    congr 1
    refine keywordFaults_congr ?_
    intro hstep hholds
    cases k with
    | step k =>
      exact (late_eq hb hprev htrail heq (hclosed (by simp)) hholds).symm
    | _ => simp [Keyword.isStep, Keyword.stepKeyword?] at hstep
  | parameter => rw [hone]; rfl
  | row => rw [hone]; rfl
  | table _ _ htable hq hheld =>
    subst hq
    obtain ⟨rfl, rfl⟩ := outside_eq (OpenPath.tablePath_top hb htable) (by simp_all) hheld
    rw [OpenPath.openings, OpenPath.openings, OpenPath.openings, verdicts, verdicts, verdicts,
      Opening.verdict_of_getElem? ht, Opening.verdict_of_getElem? ht, List.append_nil]
    exact List.append_nil _
  | docString _ _ hq hheld =>
    subst hq
    obtain ⟨rfl, rfl⟩ := outside_eq (OpenPath.docStringPath_top hb) (fun h => h) hheld
    rw [hone]
    rfl

end Placed

/-! ## §C The invariant of a run -/

/-- The number of doc string delimiters among tokens. -/
def delimiters (ts : List Token) : Nat := ts.countP fun t => t.kind = .docStringDelimiter

/-- The openings at a token, the root apart. -/
def openingsAt (trace : List Opening) (i : Nat) : List Opening :=
  trace.filter fun op => op.start == i && !op.around.isEmpty

/-- **`b.Judged ts`** — the builder after the tokens `ts`: every node was opened by a token of its
kind, and the recorded problems are the verdicts over the nodes. -/
structure Judged (b : Builder) (ts : List Token) : Prop where
  reads : b.Reads ts
  stacked : Stacked b.path.kinds
  /-- Every node but the root is opened by a token. -/
  opened : ∀ op ∈ b.path.trace, op.around ≠ [] →
    ∃ t, ts[op.start]? = some t ∧ t.kind.opens op.kind
  /-- A keyword opens one node. -/
  keyword_opened : ∀ i t k, ts[i]? = some t → t.kind = .keyword k →
    ∃ op, openingsAt b.path.trace i = [op]
  /-- Features stand in the file. -/
  feature_around : ∀ op ∈ b.path.trace, op.kind = .feature → ∃ id, op.around = [(id, .file)]
  hasFeature_eq : b.hasFeature = b.path.trace.any (·.kind = .feature)
  /-- The node opened last stands in the containers that are open. -/
  trail : ∃ prev, b.path.trace.getLast? = some prev ∧
    OpenPath.containers prev.chain = OpenPath.containers b.path.labels
  problems_eq : b.problems.reverse = verdicts ts [] b.path.trace
  /-- A doc string is open behind an odd number of delimiters. -/
  inDocString_eq : b.inDocString = decide (delimiters ts % 2 = 1)
  /-- An open doc string begins with the last delimiter. -/
  delimiter_last : b.inDocString = true →
    ∃ a t rest, ts = a ++ t :: rest ∧ t.kind = .docStringDelimiter ∧
      (∀ u ∈ rest, u.kind ≠ .docStringDelimiter) ∧
      b.path.top.reversed.getLast? = some (.token a.length t)

theorem judged_nil : Judged {} [] where
  reads := reads_nil
  stacked := .file
  opened op hop hne := by
    rw [List.mem_singleton.mp hop] at hne
    exact absurd rfl hne
  keyword_opened i t k ht := by simp at ht
  feature_around op hop hfeature := by
    rw [List.mem_singleton.mp hop] at hfeature
    cases hfeature
  hasFeature_eq := rfl
  trail := ⟨⟨0, [], 0, .file⟩, rfl, rfl⟩
  problems_eq := rfl
  inDocString_eq := rfl
  delimiter_last h := by cases h

theorem delimiters_concat (ts : List Token) (t : Token) :
    delimiters (ts ++ [t]) = delimiters ts + if t.kind = .docStringDelimiter then 1 else 0 := by
  simp [delimiters, List.countP_append, List.countP_cons]

/-- Every opening lies before the end of the tokens. -/
theorem Judged.start_lt {b : Builder} {ts : List Token} (h : b.Judged ts) :
    ∀ op ∈ b.path.trace, op.around = [] ∨ op.start < ts.length := by
  intro op hop
  by_cases hne : op.around = []
  · exact Or.inl hne
  · obtain ⟨t, ht, -⟩ := h.opened op hop hne
    exact Or.inr (List.getElem?_eq_some_iff.mp ht).1

theorem getElem?_concat {ts : List Token} {t u : Token} {i : Nat}
    (h : (ts ++ [t])[i]? = some u) : ts[i]? = some u ∨ i = ts.length ∧ u = t := by
  rcases Nat.lt_or_ge i ts.length with hlt | hge
  · exact Or.inl (by rwa [List.getElem?_append_left hlt] at h)
  · refine Or.inr ?_
    obtain ⟨hi, hu⟩ := List.getElem?_eq_some_iff.mp h
    rw [List.length_append, List.length_singleton] at hi
    have hlast : i = ts.length := by omega
    subst hlast
    exact ⟨rfl, by simpa using hu.symm⟩

theorem judged_trivia {b : Builder} {ts : List Token} {t : Token} (h : b.Judged ts)
    (ht : t.isTrivia = true) : (b.step t).Judged (ts ++ [t]) := by
  have hkind : t.kind ≠ .docStringDelimiter := by
    intro hk
    rw [Token.isTrivia, hk] at ht
    cases ht
  have hreads := reads_step h.reads t
  rw [step_trivia b ht] at hreads ⊢
  refine ⟨hreads, h.stacked, ?_, ?_, h.feature_around, h.hasFeature_eq, h.trail, ?_, ?_, ?_⟩
  · intro op hop hne
    obtain ⟨u, hu, hopens⟩ := h.opened op hop hne
    exact ⟨u, by rw [List.getElem?_append_left (List.getElem?_eq_some_iff.mp hu).1, hu], hopens⟩
  · intro i u k hu hk
    rcases getElem?_concat hu with hu | ⟨-, rfl⟩
    · exact h.keyword_opened i u k hu hk
    · rw [Token.isTrivia, hk] at ht
      cases ht
  · show b.problems.reverse = _
    rw [h.problems_eq]
    exact (verdicts_concat t h.start_lt).symm
  · show b.inDocString = _
    rw [delimiters_concat, if_neg hkind, Nat.add_zero, h.inDocString_eq]
  · intro hdoc
    obtain ⟨a, u, rest, hts, hu, hrest, htop⟩ := h.delimiter_last hdoc
    refine ⟨a, u, rest ++ [t], by simp [hts], hu, ?_, htop⟩
    intro v hv
    rcases List.mem_append.mp hv with hv | hv
    · exact hrest v hv
    · rwa [List.mem_singleton.mp hv]

theorem Grown.containers_eq {b b' : Builder} {t : Token} {p : OpenPath} {kinds : List NodeKind}
    {faults : List Degradation.Kind} (h : b.Grown t p kinds faults b') :
    OpenPath.containers b'.path.labels = OpenPath.containers (p.openAll b.nextId kinds).labels := by
  rw [h.path_eq, ← labels_grownPath b t]
  split
  · exact OpenPath.containers_closeOne _
  · rfl

/-- The node opened last, after a token. -/
theorem trail_step {b b' : Builder} {ts : List Token} {t : Token} {p : OpenPath}
    {kinds : List NodeKind} {faults : List Degradation.Kind} (h : b.Judged ts)
    (hplace : b.Placement t p kinds faults) (hgrown : b.Grown t p kinds faults b')
    (htrace : b'.path.trace = b.path.trace ++ OpenPath.openings ts.length p.labels b.nextId kinds) :
    ∃ prev, b'.path.trace.getLast? = some prev ∧
      OpenPath.containers prev.chain = OpenPath.containers b'.path.labels := by
  rw [htrace, hgrown.containers_eq]
  by_cases hnil : kinds = []
  · obtain ⟨prev, hprev, htrail⟩ := h.trail
    have hsame := hplace.containers_eq h.stacked hnil
    subst hnil
    exact ⟨prev, by rwa [OpenPath.openings, List.append_nil], htrail.trans hsame.symm⟩
  · have hlast := OpenPath.getLast?_openings p ts.length b.nextId hnil
    obtain ⟨prev, hprev, hchain⟩ := Option.map_eq_some_iff.mp hlast
    exact ⟨prev, by rw [List.getLast?_append, hprev]; rfl, by rw [hchain]⟩

/-- An open doc string begins with the last delimiter, after a token. -/
theorem delimiter_step {b b' : Builder} {ts : List Token} {t : Token} {p : OpenPath}
    {kinds : List NodeKind} {faults : List Degradation.Kind} (h : b.Judged ts)
    (hplace : b.Placement t p kinds faults) (hgrown : b.Grown t p kinds faults b')
    (hdoc : b'.inDocString = true) :
    ∃ a u rest, ts ++ [t] = a ++ u :: rest ∧ u.kind = .docStringDelimiter ∧
      (∀ v ∈ rest, v.kind ≠ .docStringDelimiter) ∧
      b'.path.top.reversed.getLast? = some (.token a.length u) := by
  rw [hgrown.inDocString_eq] at hdoc
  cases hold : b.inDocString with
  | true =>
    have hkind : t.kind ≠ .docStringDelimiter := by
      intro hk
      rw [hold, hk] at hdoc
      cases hdoc
    obtain ⟨a, u, rest, hts, hu, hrest, htop⟩ := h.delimiter_last hold
    refine ⟨a, u, rest ++ [t], by simp [hts], hu, ?_, ?_⟩
    · intro v hv
      rcases List.mem_append.mp hv with hv | hv
      · exact hrest v hv
      · rwa [List.mem_singleton.mp hv]
    · cases hplace with
      | inside =>
        rw [hgrown.path_eq, if_neg (by simp [hold]), grownPath, OpenPath.openAll, OpenPath.pushAll_eq]
        show (_ :: (b.pending.reverse.reverse ++ b.path.top.reversed)).getLast? = _
        rw [← List.cons_append, List.getLast?_append, htop]
        rfl
      | _ => simp_all
  | false =>
    have hkind : t.kind = .docStringDelimiter := by
      rw [hold] at hdoc
      simpa using hdoc
    refine ⟨ts, t, [], rfl, hkind, by simp, ?_⟩
    cases hplace with
    | docString =>
      rw [hgrown.path_eq, if_neg (by simp [hkind]), ← h.reads.nextToken_eq]
      rfl
    | _ => simp_all

/-- A keyword opens one node, after a token. -/
theorem keyword_step {b b' : Builder} {ts : List Token} {t : Token} {p : OpenPath}
    {kinds : List NodeKind} {faults : List Degradation.Kind} {ph ph' : Phase} (h : b.Judged ts)
    (hplace : b.Placement t p kinds faults) (hat : b.At ph) (hafter : ph.after t.kind = some ph')
    (htrace : b'.path.trace = b.path.trace ++ OpenPath.openings ts.length p.labels b.nextId kinds) :
    ∀ i u k, (ts ++ [t])[i]? = some u → u.kind = .keyword k →
      ∃ op, openingsAt b'.path.trace i = [op] := by
  intro i u k hu hk
  rw [htrace, openingsAt, List.filter_append]
  rcases getElem?_concat hu with hu | ⟨rfl, rfl⟩
  · -- What the token opens begins behind `i`.
    obtain ⟨op, hop⟩ := h.keyword_opened i u k hu hk
    refine ⟨op, ?_⟩
    rw [openingsAt] at hop
    rw [hop, List.filter_eq_nil_iff.mpr, List.append_nil]
    intro x hx
    obtain ⟨hstart, -, -⟩ := OpenPath.mem_openings (List.cons_ne_nil _ _) hx
    have hi := (List.getElem?_eq_some_iff.mp hu).1
    have hne : (x.start == i) = false := by simp; omega
    simp [hne]
  · have hnone : List.filter (fun op => op.start == ts.length && !op.around.isEmpty)
        b.path.trace = [] := by
      refine List.filter_eq_nil_iff.mpr ?_
      intro x hx
      rcases h.start_lt x hx with hroot | hlt
      · simp [hroot]
      · have hne : (x.start == ts.length) = false := by simp; omega
        simp [hne]
    rw [hnone, List.nil_append]
    cases hplace with
    | inside hdoc =>
      rw [hk] at hafter
      exact absurd (hat.inDocString hdoc) (Phase.after_keyword hafter).1
    | keyword =>
      refine ⟨_, List.filter_cons_of_pos ?_⟩
      simp [OpenPath.labels, OpenNode.labels, OpenPath.nodes]
    | _ => simp_all [TokenKind.keyword?]

theorem judged_significant {b : Builder} {ts : List Token} {t : Token} {ph ph' : Phase}
    (h : b.Judged ts) (hat : b.At ph) (hafter : ph.after t.kind = some ph')
    (ht : t.isTrivia = false) : (b.step t).Judged (ts ++ [t]) := by
  obtain ⟨p, kinds, faults, hplace, hgrown⟩ := step_grown b ht
  have htrace := hgrown.trace_eq hplace.closes h.reads.pending_token
  rw [h.reads.length_leaves] at htrace
  have htoken : (ts ++ [t])[ts.length]? = some t := by simp
  have hlabels : p.labels ≠ [] := List.cons_ne_nil _ _
  refine ⟨reads_step h.reads t, stacked_step hat h.stacked hafter, ?_,
    keyword_step h hplace hat hafter htrace, ?_, ?_, ?_, ?_, ?_, ?_⟩
  · intro op hop hne
    rw [htrace] at hop
    rcases List.mem_append.mp hop with hop | hop
    · obtain ⟨u, hu, hopens⟩ := h.opened op hop hne
      exact ⟨u, by rw [List.getElem?_append_left (List.getElem?_eq_some_iff.mp hu).1, hu], hopens⟩
    · obtain ⟨hstart, hkind, -⟩ := OpenPath.mem_openings hlabels hop
      exact ⟨t, by rw [hstart, htoken], hplace.opens _ hkind⟩
  · intro op hop hfeature
    rw [htrace] at hop
    rcases List.mem_append.mp hop with hop | hop
    · exact h.feature_around op hop hfeature
    · obtain ⟨-, hkind, -⟩ := OpenPath.mem_openings hlabels hop
      obtain ⟨rfl, id, hid⟩ := hplace.feature_around h.stacked (hfeature ▸ hkind)
      rw [List.mem_singleton.mp hop]
      exact ⟨id, hid⟩
  · rw [hgrown.hasFeature_eq, htrace, List.any_append, OpenPath.any_kind_openings, h.hasFeature_eq]
  · exact trail_step h hplace hgrown htrace
  · obtain ⟨prev, hprev, htrail⟩ := h.trail
    rw [hgrown.problems_eq, htrace, verdicts_append, verdicts_concat t h.start_lt, h.problems_eq,
      List.nil_append, hplace.faults_eq h.stacked hprev htrail h.hasFeature_eq htoken]
  · rw [hgrown.inDocString_eq, h.inDocString_eq, delimiters_concat]
    by_cases hk : t.kind = .docStringDelimiter
    · rw [hk, if_pos rfl]
      have hmod : delimiters ts % 2 = 0 ∨ delimiters ts % 2 = 1 := Nat.mod_two_eq_zero_or_one _
      rcases hmod with hmod | hmod <;> simp [hmod, Nat.add_mod]
    · rw [if_neg hk, Nat.add_zero, show (t.kind == .docStringDelimiter) = false by simpa using hk,
        Bool.bne_false]
  · exact delimiter_step h hplace hgrown

/-- **One token**, of either sort. -/
theorem judged_step {b : Builder} {ts : List Token} {t : Token} {ph ph' : Phase} (h : b.Judged ts)
    (hat : b.At ph) (hafter : ph.after t.kind = some ph') : (b.step t).Judged (ts ++ [t]) := by
  cases ht : t.isTrivia with
  | true => exact judged_trivia h ht
  | false => exact judged_significant h hat hafter ht

/-- **Induction over a stretch of tokens.** What is shown may speak of the builder, the tokens it
has read, its phase and the tokens still to come. The builder is judged and in its phase at every
one of them. -/
theorem foldl_induction {P : Builder → List Token → Phase → List Token → Prop}
    (hkeeps : ∀ {b : Builder} {done : List Token} {ph : Phase} {t : Token} {ts : List Token}
      {ph' : Phase}, b.Judged done → b.At ph → ph.after t.kind = some ph' →
      P b done ph (t :: ts) → P (b.step t) (done ++ [t]) ph' ts)
    {b : Builder} {done ts : List Token} {ph ph' : Phase} (hj : b.Judged done) (hat : b.At ph)
    (hruns : ph.Runs (ts.map (·.kind)) ph') (h : P b done ph ts) :
    P (ts.foldl step b) (done ++ ts) ph' [] := by
  induction ts generalizing b done ph with
  | nil =>
    cases hruns
    rwa [List.append_nil]
  | cons t ts ih =>
    cases hruns with
    | cons hafter hrest =>
      have hall := ih (judged_step hj hat hafter) (at_step hat hj.stacked hafter) hrest
        (hkeeps hj hat hafter h)
      rwa [List.append_assoc] at hall

/-- A stretch of tokens. -/
theorem judged_foldl {b : Builder} {done ts : List Token} {ph ph' : Phase} (h : b.Judged done)
    (hat : b.At ph) (hruns : ph.Runs (ts.map (·.kind)) ph') :
    (ts.foldl step b).Judged (done ++ ts) :=
  foldl_induction (P := fun b done _ _ => b.Judged done)
    (fun hj hat hafter _ => judged_step hj hat hafter) h hat hruns h

/-- The phases of a run of tokens are those of the builder. -/
theorem at_foldl {b : Builder} {done ts : List Token} {ph ph' : Phase} (h : b.Judged done)
    (hat : b.At ph) (hruns : ph.Runs (ts.map (·.kind)) ph') : (ts.foldl step b).At ph' :=
  foldl_induction (P := fun b _ ph _ => b.At ph)
    (fun hj hat hafter _ => at_step hat hj.stacked hafter) h hat hruns hat

/-- The builder at the end of every source. -/
theorem judged_tokenize (source : String) :
    ((tokenize source).foldl step {}).Judged (tokenize source) := by
  obtain ⟨ph, hruns⟩ := runs_tokenize source
  have hat : At {} .free := rfl
  exact judged_foldl judged_nil hat hruns

end Builder

/-! ## §D Problems in order -/

namespace Degradation

/-- **`d.Before d'`** — the first problem is recorded before the second: it begins first. At one
delimiter, that a doc string is out of place comes before that it is left open, and a missing feature
comes last. -/
def Before (d d' : Degradation) : Prop :=
  d.kind ≠ .missingFeature ∧
    (d'.kind = .missingFeature ∨ d.span.start < d'.span.start ∨
      d.span.start = d'.span.start ∧ d.kind = .docStringOutsideStep ∧ d'.kind = .unclosedDocString)

theorem not_before_self (d : Degradation) : ¬ d.Before d := by
  rintro ⟨hkind, hmissing | hlt | ⟨-, houtside, hunclosed⟩⟩
  · exact hkind hmissing
  · exact Nat.lt_irrefl _ hlt
  · rw [houtside] at hunclosed
    cases hunclosed

end Degradation

namespace Builder

/-- Some tokens up to the last delimiter among them. -/
def throughDelimiter (ts : List Token) : List Token :=
  ts.rdropWhile fun t => t.kind ≠ .docStringDelimiter

theorem throughDelimiter_concat {ts : List Token} {t : Token} (h : t.kind ≠ .docStringDelimiter) :
    throughDelimiter (ts ++ [t]) = throughDelimiter ts :=
  List.rdropWhile_concat_pos _ _ _ (by simpa using h)

theorem throughDelimiter_concat_self {ts : List Token} {t : Token}
    (h : t.kind = .docStringDelimiter) : throughDelimiter (ts ++ [t]) = ts ++ [t] :=
  List.rdropWhile_concat_neg _ _ _ (by simpa using h)

theorem throughDelimiter_append {a rest : List Token} {t : Token}
    (ht : t.kind = .docStringDelimiter) (hrest : ∀ u ∈ rest, u.kind ≠ .docStringDelimiter) :
    throughDelimiter (a ++ t :: rest) = a ++ [t] := by
  induction rest using List.reverseRecOn with
  | nil => exact throughDelimiter_concat_self ht
  | append_singleton rest u ih =>
    rw [← List.cons_append, ← List.append_assoc,
      throughDelimiter_concat (hrest u (by simp))]
    exact ih fun v hv => hrest v (List.mem_append_left _ hv)

/-- The tokens at which a problem may have been recorded: none stands inside an open doc string. -/
def judgedTokens (b : Builder) (ts : List Token) : List Token :=
  if b.inDocString then throughDelimiter ts else ts

theorem judgedTokens_sublist (b : Builder) (ts : List Token) :
    (b.judgedTokens ts).Sublist ts := by
  unfold judgedTokens
  split
  · exact (List.rdropWhile_prefix _ _).sublist
  · exact List.Sublist.refl _

/-- A token has one fault at most, and it is none that belongs to the end of the source. -/
theorem Placement.faults_cases {b : Builder} {t : Token} {p : OpenPath} {kinds : List NodeKind}
    {faults : List Degradation.Kind} (h : b.Placement t p kinds faults) :
    faults = [] ∨ ∃ fault, faults = [fault] ∧ fault ≠ .unclosedDocString ∧
      fault ≠ .missingFeature := by
  cases h with
  | @keyword _ k =>
    unfold keywordFaults
    split
    · split <;> simp
    · split
      · split <;> simp
      · simp
  | table _ _ _ _ hheld => rcases hheld with ⟨-, -, rfl⟩ | ⟨-, -, rfl⟩ <;> simp
  | docString _ _ _ hheld => rcases hheld with ⟨-, -, rfl⟩ | ⟨-, -, rfl⟩ <;> simp
  | _ => exact Or.inl rfl

/-- **`b.InOrder ts`** — each problem was recorded at a token of its own, in the order of the
tokens. -/
structure InOrder (b : Builder) (ts : List Token) : Prop where
  spans_sublist : (b.problems.reverse.map (·.span)).Sublist ((b.judgedTokens ts).map (·.span))
  kind_ne : ∀ d ∈ b.problems.reverse, d.kind ≠ .unclosedDocString ∧ d.kind ≠ .missingFeature

theorem inOrder_trivia {b : Builder} {ts : List Token} {t : Token} (h : b.InOrder ts)
    (ht : t.isTrivia = true) : (b.step t).InOrder (ts ++ [t]) := by
  have hkind : t.kind ≠ .docStringDelimiter := by
    intro hk
    rw [Token.isTrivia, hk] at ht
    cases ht
  rw [step_trivia b ht]
  refine ⟨h.spans_sublist.trans (List.Sublist.map _ ?_), h.kind_ne⟩
  show (b.judgedTokens ts).Sublist (if b.inDocString then _ else _)
  rw [judgedTokens, throughDelimiter_concat hkind]
  split
  · exact List.Sublist.refl _
  · exact List.sublist_append_left _ _

theorem inOrder_significant {b : Builder} {ts : List Token} {t : Token} (h : b.InOrder ts)
    (ht : t.isTrivia = false) : (b.step t).InOrder (ts ++ [t]) := by
  obtain ⟨p, kinds, faults, hplace, hgrown⟩ := step_grown b ht
  have hdoc := hgrown.inDocString_eq
  refine ⟨?_, fun d hd => ?_⟩
  · rw [hgrown.problems_eq, List.map_append, List.map_map]
    cases hold : b.inDocString with
    | true =>
      obtain rfl : faults = [] := by
        cases hplace with
        | inside => rfl
        | _ => simp_all
      rw [List.map_nil, List.append_nil]
      refine h.spans_sublist.trans (List.Sublist.map _ ?_)
      by_cases hk : t.kind = .docStringDelimiter
      · -- The doc string ends here, so every token counts again.
        have hclosed : (b.step t).judgedTokens (ts ++ [t]) = ts ++ [t] := by
          rw [judgedTokens, hdoc, hold, hk]
          rfl
        rw [hclosed]
        exact (b.judgedTokens_sublist ts).trans (List.sublist_append_left _ _)
      · rw [hold, beq_eq_false_iff_ne.mpr hk] at hdoc
        rw [judgedTokens, judgedTokens, hold, hdoc, throughDelimiter_concat hk]
        exact List.Sublist.refl _
    | false =>
      -- Behind the token every token so far counts, whether it opens a doc string or not.
      have hall : (b.step t).judgedTokens (ts ++ [t]) = ts ++ [t] := by
        rw [judgedTokens, hdoc, hold]
        by_cases hk : t.kind = .docStringDelimiter
        · rw [throughDelimiter_concat_self hk, ite_self]
        · simp [hk]
      have hsublist := h.spans_sublist
      rw [judgedTokens, hold] at hsublist
      rw [hall, List.map_append]
      refine hsublist.append ?_
      rcases hplace.faults_cases with rfl | ⟨fault, rfl, -⟩
      · exact List.nil_sublist _
      · exact List.Sublist.refl _
  · rw [hgrown.problems_eq, List.mem_append] at hd
    rcases hd with hd | hd
    · exact h.kind_ne d hd
    · obtain ⟨fault, hfault, rfl⟩ := List.mem_map.mp hd
      rcases hplace.faults_cases with rfl | ⟨only, rfl, hne⟩
      · cases hfault
      · rwa [List.mem_singleton.mp hfault]

/-- The problems of every run are in order. -/
theorem inOrder_foldl (ts : List Token) : (ts.foldl step {}).InOrder ts := by
  induction ts using List.reverseRecOn with
  | nil => exact ⟨List.nil_sublist _, fun d hd => absurd hd (by simp)⟩
  | append_singleton ts t ih =>
    rw [List.foldl_append]
    cases ht : t.isTrivia with
    | true => exact inOrder_trivia ih ht
    | false => exact inOrder_significant ih ht

end Builder

end FeatureFile
