/-
# FeatureFile.Proofs.Outline.Effective — what a conjunction stands for

The builder keeps one last concrete keyword for the whole source. It forgets it when a feature, a
rule or a block of steps begins, but not at examples and not when nodes are closed. From the first
feature on this is as good as one for each block: no feature, rule or further block lies inside a
block of steps (`Ranked`), so at most one such block is open, and what was kept is the last concrete
keyword among its steps (`Builder.Resolves`). Before the first feature blocks may lie inside one
another, and a step of the outer one is then resolved by the steps of the inner one.

Main statement: `parse_resolvesSteps`.
-/

import FeatureFile.Proofs.Outline.Openers

namespace FeatureFile

open NodeKind (Stacked)

/-! ## §A Keywords behind others -/

namespace StepKeyword

/-- The last of several keywords that is no conjunction. -/
def lastConcrete? (ks : List StepKeyword) : Option StepKeyword :=
  (ks.filter fun k => !k.isConjunction).getLast?

/-- What a keyword stands for behind others: a conjunction for the last concrete one of them, `Given`
when there is none, and any other keyword for itself. -/
def behind (before : List StepKeyword) (k : StepKeyword) : StepKeyword :=
  if k.isConjunction then (lastConcrete? before).getD given else k

theorem lastConcrete?_concat (ks : List StepKeyword) (k : StepKeyword) :
    lastConcrete? (ks ++ [k]) = if k.isConjunction then lastConcrete? ks else some k := by
  unfold lastConcrete?
  rw [List.filter_append]
  cases hk : k.isConjunction with
  | true => simp [hk]
  | false => simp [hk]

/-- Resolving against the last concrete keyword is looking back over all of them. -/
theorem resolve_lastConcrete? (before : List StepKeyword) (k : StepKeyword) :
    k.resolve (lastConcrete? before) = (k.behind before, lastConcrete? (before ++ [k])) := by
  rw [lastConcrete?_concat, resolve, behind]
  split <;> rfl

theorem mem_concrete_iff (k : StepKeyword) : k ∈ concrete ↔ k.isConjunction = false := by
  cases k <;> decide

/-- A keyword stands for a concrete one, and only concrete ones are kept. -/
theorem resolve_mem_concrete (k : StepKeyword) {last : Option StepKeyword}
    (h : ∀ k', last = some k' → k' ∈ concrete) :
    (k.resolve last).1 ∈ concrete ∧ ∀ k', (k.resolve last).2 = some k' → k' ∈ concrete := by
  unfold resolve
  split
  · refine ⟨?_, h⟩
    cases last with
    | none => decide
    | some k' => exact h k' rfl
  · rename_i hk
    have hmem : k ∈ concrete := (mem_concrete_iff k).mpr (Bool.eq_false_iff.mpr hk)
    refine ⟨hmem, ?_⟩
    intro k' hk'
    exact Option.some.inj hk' ▸ hmem

end StepKeyword

/-! ## §B Blocks of steps -/

namespace NodeKind

/-- The keyword of a step as it is written. -/
def written? : NodeKind → Option StepKeyword
  | step keyword _ => some keyword
  | _ => none

/-- Whether a block of steps ends where nodes of the kind begin. -/
def endsBlock (k : NodeKind) : Bool := k = feature || k = rule || k.holdsSteps

theorem feature_mayHold {k : Keyword} {stands : StepKeyword} (hk : k ≠ .feature)
    (hends : (ofKeyword stands k).endsBlock = true) : feature.mayHold k = true := by
  cases k <;> first | rfl | exact absurd rfl hk | cases hends

/-- What a rule or a block of steps belongs into ends a block and is none. -/
theorem outside_of_mayHold {k : Keyword} {stands : StepKeyword} {parent : NodeKind}
    (hk : k ≠ .feature) (hends : (ofKeyword stands k).endsBlock = true)
    (hholds : parent.mayHold k = true) : parent.endsBlock = true ∧ parent.holdsSteps = false := by
  cases k with
  | feature => exact absurd rfl hk
  | examples | step => cases hends
  | rule =>
    rw [of_decide_eq_true hholds]
    decide
  | background | scenario | scenarioOutline =>
    rcases (Bool.or_eq_true _ _).mp hholds with hparent | hparent <;>
      rw [of_decide_eq_true hparent] <;> decide

/-- **`Ranked ks`** — kinds of open nodes from the inside out: there is a feature, and inside a block
of steps there is neither a feature nor a rule nor another block. -/
structure Ranked (ks : List NodeKind) : Prop where
  feature_mem : feature ∈ ks
  pairwise : ks.Pairwise fun inner outer => outer.holdsSteps = true → inner.endsBlock = false

namespace Ranked

variable {closed ks : List NodeKind} {k : NodeKind}

theorem suffix (h : Ranked (closed ++ ks)) (hclosed : feature ∉ closed) : Ranked ks :=
  ⟨(List.mem_append.mp h.feature_mem).resolve_left hclosed, (List.pairwise_append.mp h.pairwise).2.1⟩

theorem cons (h : Ranked ks) (hk : k.endsBlock = false) : Ranked (k :: ks) :=
  ⟨List.mem_cons_of_mem k h.feature_mem, List.pairwise_cons.mpr ⟨fun _ _ _ => hk, h.pairwise⟩⟩

/-- What ends a block stands in no block. -/
theorem holdsSteps_outside (h : Ranked (closed ++ k :: ks)) (hk : k.endsBlock = true) :
    ∀ outer ∈ ks, outer.holdsSteps = false := by
  intro outer hmem
  have hrest := (List.pairwise_append.mp h.pairwise).2.1
  have hstands := (List.pairwise_cons.mp hrest).1 outer hmem
  rw [hk] at hstands
  exact Bool.eq_false_iff.mpr fun hholds => absurd (hstands hholds) (by decide)

/-- A block of steps that is opened in a feature or a rule. -/
theorem cons_outside (h : Ranked ks) (hks : ∀ outer ∈ ks, outer.holdsSteps = false) (k : NodeKind) :
    Ranked (k :: ks) := by
  refine ⟨List.mem_cons_of_mem k h.feature_mem, List.pairwise_cons.mpr ⟨?_, h.pairwise⟩⟩
  intro outer hmem hholds
  rw [hks outer hmem] at hholds
  cases hholds

/-- No feature lies inside a block of steps. -/
theorem feature_not_mem (h : Ranked (closed ++ k :: ks)) (hk : k.holdsSteps = true) :
    feature ∉ closed := by
  intro hmem
  have hstands := (List.pairwise_append.mp h.pairwise).2.2 feature hmem k List.mem_cons_self hk
  cases hstands

end Ranked

end NodeKind

open NodeKind (Ranked)

/-! ## §C Steps of a block -/

/-- The keywords of the steps that were opened directly in a node, as they are written. -/
def stepsIn (holder : Nat) (trace : List Opening) : List StepKeyword :=
  (trace.filter fun op => op.around.head?.map Prod.fst = some holder).filterMap (·.kind.written?)

theorem stepsIn_append (holder : Nat) (a b : List Opening) :
    stepsIn holder (a ++ b) = stepsIn holder a ++ stepsIn holder b := by
  simp [stepsIn]

theorem stepsIn_eq_nil {holder : Nat} {trace : List Opening}
    (h : ∀ op ∈ trace, op.around.head?.map Prod.fst = some holder → op.kind.written? = none) :
    stepsIn holder trace = [] := by
  rw [stepsIn, List.filterMap_eq_nil_iff]
  intro op hop
  obtain ⟨hmem, hholder⟩ := List.mem_filter.mp hop
  exact h op hmem (by simpa using hholder)

theorem stepsIn_singleton (start holder id : Nat) (p : OpenPath) (k e : StepKeyword) :
    stepsIn holder [⟨start, p.labels, id, .step k e⟩] = if p.top.id = holder then [k] else [] := by
  unfold stepsIn
  by_cases hid : p.top.id = holder
  · rw [if_pos hid, List.filter_cons_of_pos]
    · rfl
    · show decide (some p.top.id = some holder) = true
      simp [hid]
  · rw [if_neg hid, List.filter_cons_of_neg]
    · rfl
    · show ¬ decide (some p.top.id = some holder) = true
      simp [hid]

/-- **`op.Follows before`** — a step behind a feature stands for what its own block says. -/
def Opening.Follows (before : List Opening) (op : Opening) : Prop :=
  ∀ k stands holder kind rest, op.kind = .step k stands → op.around = (holder, kind) :: rest →
    kind.holdsSteps = true → before.any (·.kind = .feature) = true →
    stands = k.behind (stepsIn holder before)

/-- A list in two parts, split again: inside the first part or inside the second. -/
theorem split_append {l new before after : List Opening} {op : Opening}
    (h : l ++ new = before ++ op :: after) :
    (∃ rest, l = before ++ op :: rest) ∨ ∃ between, before = l ++ between ∧
      new = between ++ op :: after := by
  rcases List.append_eq_append_iff.mp h with ⟨between, hbefore, hnew⟩ | ⟨rest, hl, hafter⟩
  · exact Or.inr ⟨between, hbefore, hnew⟩
  · cases rest with
    | nil => exact Or.inr ⟨[], by simpa using hl.symm, by simpa using hafter.symm⟩
    | cons x rest =>
      obtain ⟨rfl, -⟩ := List.cons.inj hafter
      exact Or.inl ⟨rest, hl⟩

namespace OpenPath

/-- **`p.Sheds q`** — the open nodes `q` are `p` without some innermost nodes that are no
containers. -/
def Sheds (p q : OpenPath) : Prop :=
  ∃ closed, p.labels = closed ++ q.labels ∧ ∀ l ∈ closed, l.2.isContainer = false

namespace Sheds

variable {p q r : OpenPath}

theorem refl (p : OpenPath) : p.Sheds p := ⟨[], rfl, by simp⟩

theorem trans (h : p.Sheds q) (h' : q.Sheds r) : p.Sheds r := by
  obtain ⟨closed, heq, hclosed⟩ := h
  obtain ⟨closed', heq', hclosed'⟩ := h'
  refine ⟨closed ++ closed', by rw [heq, heq', List.append_assoc], ?_⟩
  intro l hl
  exact (List.mem_append.mp hl).elim (hclosed l) (hclosed' l)

theorem closeAll (p : OpenPath) {f : NodeKind → Bool}
    (hf : ∀ k, f k = true → k.isContainer = false) : p.Sheds (p.closeAll f) := by
  obtain ⟨closed, heq, hclosed, -⟩ := closeAll_spec p f
  exact ⟨closed, heq, fun l hl => hf l.2 (hclosed l hl)⟩

theorem closeLeaves (p : OpenPath) : p.Sheds p.closeLeaves := closeAll p fun k hk => by simpa using hk

theorem closeOne (p : OpenPath) {kind : NodeKind} (hkind : kind.isContainer = false) :
    p.Sheds (p.closeOne kind) := by
  obtain ⟨top, outer⟩ := p
  cases outer with
  | nil => exact refl _
  | cons next outer =>
    simp only [OpenPath.closeOne]
    split
    · rename_i htop
      exact ⟨[(top.id, top.kind)], rfl, List.forall_mem_singleton.mpr (htop ▸ hkind)⟩
    · exact refl _

theorem mem_labels (h : p.Sheds q) {l : Nat × NodeKind} (hl : l ∈ q.labels) : l ∈ p.labels := by
  obtain ⟨closed, heq, -⟩ := h
  rw [heq]
  exact List.mem_append_right _ hl

theorem ranked (h : p.Sheds q) (hp : Ranked p.kinds) : Ranked q.kinds := by
  obtain ⟨closed, heq, hclosed⟩ := h
  rw [kinds_eq, heq, List.map_append, ← kinds_eq] at hp
  refine hp.suffix ?_
  intro hmem
  obtain ⟨l, hl, hfeature⟩ := List.mem_map.mp hmem
  have hleaf := hclosed l hl
  rw [hfeature] at hleaf
  cases hleaf

end Sheds

theorem mem_labels_openAll {p : OpenPath} {id : Nat} {kinds : List NodeKind} {l : Nat × NodeKind}
    (h : l ∈ (p.openAll id kinds).labels) : l ∈ p.labels ∨ l.2 ∈ kinds := by
  induction kinds generalizing p id with
  | nil => exact Or.inl h
  | cons kind kinds ih =>
    rcases ih h with hmem | hmem
    · rcases List.mem_cons.mp hmem with rfl | hmem
      · exact Or.inr List.mem_cons_self
      · exact Or.inl hmem
    · exact Or.inr (List.mem_cons_of_mem _ hmem)

theorem ranked_openAll {p : OpenPath} (hp : Ranked p.kinds) (id : Nat) {kinds : List NodeKind}
    (h : ∀ kind ∈ kinds, kind.endsBlock = false) : Ranked (p.openAll id kinds).kinds := by
  induction kinds generalizing p id with
  | nil => exact hp
  | cons kind kinds ih =>
    obtain ⟨hkind, hkinds⟩ := List.forall_mem_cons.mp h
    exact ih (p := ⟨⟨id, kind, []⟩, p.nodes⟩) (hp.cons hkind) _ hkinds

end OpenPath

namespace Builder

variable {b b' : Builder} {t : Token} {p : OpenPath} {kinds : List NodeKind}
  {faults : List Degradation.Kind} {ts : List Token}

theorem Grown.sheds (h : b.Grown t p kinds faults b') : (b.grownPath t p kinds).Sheds b'.path := by
  rw [h.path_eq]
  split
  · exact .closeOne _ rfl
  · exact .refl _

/-- A token that opens no node of a keyword closes no container, and leaves what is kept. -/
theorem Placement.sheds (h : b.Placement t p kinds faults)
    (hkinds : ∀ kind ∈ kinds, kind.keyword? = none) :
    b.path.Sheds p ∧ b.lastAfter t = b.lastConcrete := by
  cases h with
  | inside hdoc => exact ⟨.refl _, lastAfter_of_inDocString t hdoc⟩
  | join _ hkeyword _ _ hp =>
    refine ⟨?_, b.lastAfter_of_keyword?_eq_none hkeyword⟩
    rcases hp with rfl | ⟨-, rfl⟩
    · exact .refl _
    · exact .closeLeaves _
  | keyword =>
    have hnone := hkinds _ (List.mem_singleton_self _)
    rw [NodeKind.keyword?_ofKeyword] at hnone
    cases hnone
  | parameter _ hk => exact ⟨.refl _, b.lastAfter_of_keyword?_eq_none (by rw [hk]; rfl)⟩
  | row _ hk => exact ⟨.closeOne _ rfl, b.lastAfter_of_keyword?_eq_none (by rw [hk]; rfl)⟩
  | table _ hk _ hq hheld =>
    refine ⟨?_, b.lastAfter_of_keyword?_eq_none (by rw [hk]; rfl)⟩
    have hshed : b.path.Sheds (tablePath b.path) := by
      refine (OpenPath.Sheds.closeOne _ rfl).trans (.closeAll _ ?_)
      intro k hk
      rcases (Bool.or_eq_true _ _).mp hk with hk | hk <;> rw [of_decide_eq_true hk] <;> rfl
    subst hq
    rcases hheld with ⟨-, rfl, -⟩ | ⟨-, rfl, -⟩
    · exact hshed
    · exact hshed.trans (.closeLeaves _)
  | docString _ hk hq hheld =>
    refine ⟨?_, b.lastAfter_of_keyword?_eq_none (by rw [hk]; rfl)⟩
    have hshed : b.path.Sheds (docStringPath b.path) := by
      refine .closeAll _ ?_
      intro k hk
      simp only [Bool.or_eq_true, decide_eq_true_eq] at hk
      rcases hk with ((rfl | rfl) | rfl) | rfl <;> rfl
    subst hq
    rcases hheld with ⟨-, rfl, -⟩ | ⟨-, rfl, -⟩
    · exact hshed
    · exact hshed.trans (.closeLeaves _)

/-- Around a node that may hold a keyword, the open nodes are ranked as before. -/
theorem ranked_keyword {k : Keyword} {closed : List (Nat × NodeKind)} (hb : Ranked b.path.kinds)
    (hk : k ≠ .feature) (heq : b.path.closeLeaves.labels = closed ++ p.labels)
    (hclosed : ∀ l ∈ closed, l.2.mayHold k = false)
    (hstop : p.top.kind.mayHold k = true ∨ closed = [] ∧ ∀ l ∈ p.labels, l.2.mayHold k = false) :
    Ranked p.kinds := by
  have hleaves := (OpenPath.Sheds.closeLeaves b.path).ranked hb
  rw [OpenPath.kinds_eq, heq, List.map_append, ← OpenPath.kinds_eq] at hleaves
  refine hleaves.suffix ?_
  rcases hstop with hholds | ⟨rfl, -⟩
  · intro hmem
    obtain ⟨l, hl, hfeature⟩ := List.mem_map.mp hmem
    have hnot := hclosed l hl
    rw [hfeature] at hnot
    cases k with
    | feature => exact hk rfl
    | rule | background | scenario | scenarioOutline => cases hnot
    | examples =>
      refine hleaves.feature_not_mem ?_ hmem
      simp only [NodeKind.mayHold, Bool.or_eq_true, decide_eq_true_eq] at hholds
      rcases hholds with htop | htop <;> rw [htop] <;> rfl
    | step k => exact hleaves.feature_not_mem hholds hmem
  · exact List.not_mem_nil

/-- A rule or a block of steps is opened outside every block of steps. -/
theorem holdsSteps_of_endsBlock {k : Keyword} {closed : List (Nat × NodeKind)} {stands : StepKeyword}
    (hp : Ranked p.kinds) (hk : k ≠ .feature)
    (hstop : p.top.kind.mayHold k = true ∨ closed = [] ∧ ∀ l ∈ p.labels, l.2.mayHold k = false)
    (hends : (NodeKind.ofKeyword stands k).endsBlock = true) :
    ∀ outer ∈ p.kinds, outer.holdsSteps = false := by
  -- The feature may hold it, so it is opened in the feature or in a rule.
  have hholds : p.top.kind.mayHold k = true := by
    refine hstop.resolve_right ?_
    rintro ⟨-, hnone⟩
    have hmem := hp.feature_mem
    rw [OpenPath.kinds_eq] at hmem
    obtain ⟨l, hl, hfeature⟩ := List.mem_map.mp hmem
    have hnot := hnone l hl
    rw [hfeature, NodeKind.feature_mayHold hk hends] at hnot
    cases hnot
  obtain ⟨htopEnds, htopHolds⟩ := NodeKind.outside_of_mayHold hk hends hholds
  intro outer hmem
  rcases List.mem_cons.mp hmem with rfl | hmem
  · exact htopHolds
  · have hranked : Ranked ([] ++ p.top.kind :: p.outer.map (·.kind)) := hp
    exact hranked.holdsSteps_outside htopEnds outer hmem

/-! ## §D The invariant of a run -/

/-- **`b.Resolves`** — what the builder keeps is what the open block says. -/
structure Resolves (b : Builder) : Prop where
  last_concrete : ∀ k, b.lastConcrete = some k → k ∈ StepKeyword.concrete
  steps_concrete : ∀ op ∈ b.path.trace, ∀ k stands, op.kind = .step k stands →
    stands ∈ StepKeyword.concrete
  /-- Nodes are opened by one token after the other. -/
  starts : (b.path.trace.map (·.start) ++ [b.nextToken]).Pairwise (· ≤ ·)
  ranked : b.hasFeature = true → Ranked b.path.kinds
  /-- The keyword that is kept is the last concrete one of the open block of steps. -/
  last_eq : b.hasFeature = true → ∀ l ∈ b.path.labels, l.2.holdsSteps = true →
    b.lastConcrete = StepKeyword.lastConcrete? (stepsIn l.1 b.path.trace)
  follows : ∀ before op after, b.path.trace = before ++ op :: after → op.Follows before

theorem resolves_new : Resolves {} where
  last_concrete k h := by cases h
  steps_concrete op hop k stands hkind := by
    rw [List.mem_singleton.mp hop] at hkind
    cases hkind
  starts := by decide
  ranked h := by cases h
  last_eq h := by cases h
  follows before op after htrace k stands holder kind rest hkind haround := by
    have hop : op ∈ OpenPath.trace ⟨⟨0, .file, []⟩, []⟩ := by
      rw [show OpenPath.trace ⟨⟨0, .file, []⟩, []⟩ = _ from htrace]
      simp
    rw [List.mem_singleton.mp hop] at hkind
    cases hkind

/-- Nothing was opened yet in a node that is not open yet. -/
theorem stepsIn_nextId (h : b.Reads ts) : stepsIn b.nextId b.path.trace = [] := by
  obtain ⟨children, -, -, -, htrace⟩ := finish_of_reads h 0
  refine stepsIn_eq_nil ?_
  intro op hop hholder
  exfalso
  rw [← htrace] at hop
  rcases Element.around_of_mem 0 [] _ hop with hnil | ⟨up, hup, haround⟩
  · rw [hnil] at hholder
    cases hholder
  · -- The node around was opened before, so its number is smaller.
    rw [haround] at hholder
    have hid : up.id = b.nextId := Option.some.inj hholder
    have hmem := List.mem_map_of_mem (f := (·.id)) hup
    rw [htrace, h.ids_eq, List.mem_range] at hmem
    omega

theorem map_start_openings (start id : Nat) (around : List (Nat × NodeKind)) (kinds : List NodeKind) :
    (OpenPath.openings start around id kinds).map (·.start) = List.replicate kinds.length start := by
  induction kinds generalizing around id with
  | nil => rfl
  | cons kind kinds ih => exact congrArg (start :: ·) (ih _ _)

/-- What the next token opens begins behind all that was opened before. -/
theorem sorted_extend {l : List Nat} {n : Nat} (h : (l ++ [n]).Pairwise (· ≤ ·)) (count : Nat) :
    ((l ++ List.replicate count n) ++ [n + 1]).Pairwise (· ≤ ·) := by
  obtain ⟨hl, -, hle⟩ := List.pairwise_append.mp h
  have hle : ∀ x ∈ l, x ≤ n := fun x hx => hle x hx n (List.mem_singleton_self n)
  refine List.pairwise_append.mpr
    ⟨List.pairwise_append.mpr ⟨hl, ?_, ?_⟩, List.pairwise_singleton _ _, ?_⟩
  · exact List.pairwise_replicate.mpr (Or.inr (Nat.le_refl n))
  · intro x hx y hy
    rw [List.eq_of_mem_replicate hy]
    exact hle x hx
  · intro x hx y hy
    rw [List.mem_singleton.mp hy]
    rcases List.mem_append.mp hx with hx | hx
    · exact Nat.le_succ_of_le (hle x hx)
    · rw [List.eq_of_mem_replicate hx]
      exact Nat.le_succ n

theorem resolves_trivia (h : b.Resolves) (ht : t.isTrivia = true) : (b.step t).Resolves := by
  rw [step_trivia b ht]
  refine ⟨h.last_concrete, h.steps_concrete, ?_, h.ranked, h.last_eq, h.follows⟩
  have hsorted := sorted_extend h.starts 0
  rwa [List.replicate_zero, List.append_nil] at hsorted

/-- What a new opening must satisfy for a run to go on. -/
theorem Resolves.grow (h : b.Resolves) (hj : b.Judged ts)
    (hgrown : b.Grown t p kinds faults b')
    (htrace : b'.path.trace = b.path.trace ++ OpenPath.openings ts.length p.labels b.nextId kinds)
    (hlast : ∀ k, b'.lastConcrete = some k → k ∈ StepKeyword.concrete)
    (hconcrete : ∀ k stands, .step k stands ∈ kinds → stands ∈ StepKeyword.concrete)
    (hranked : b'.hasFeature = true → Ranked b'.path.kinds)
    (hlast_eq : b'.hasFeature = true → ∀ l ∈ b'.path.labels, l.2.holdsSteps = true →
      b'.lastConcrete = StepKeyword.lastConcrete? (stepsIn l.1 b'.path.trace))
    (hfollows : ∀ between op after,
      OpenPath.openings ts.length p.labels b.nextId kinds = between ++ op :: after →
        op.Follows (b.path.trace ++ between)) : b'.Resolves := by
  refine ⟨hlast, ?_, ?_, hranked, hlast_eq, ?_⟩
  · intro op hop k stands hkind
    rw [htrace] at hop
    rcases List.mem_append.mp hop with hop | hop
    · exact h.steps_concrete op hop k stands hkind
    · obtain ⟨-, hmem, -⟩ := OpenPath.mem_openings (List.cons_ne_nil _ _) hop
      exact hconcrete k stands (hkind ▸ hmem)
  · have hstarts := h.starts
    rw [hj.reads.nextToken_eq] at hstarts
    rw [htrace, List.map_append, map_start_openings, hgrown.nextToken_eq, hj.reads.nextToken_eq]
    exact sorted_extend hstarts kinds.length
  · intro before op after hsplit
    rw [htrace] at hsplit
    rcases split_append hsplit with ⟨rest, hold⟩ | ⟨between, rfl, hnew⟩
    · exact h.follows before op rest hold
    · exact hfollows between op after hnew

/-- A token that opens no node of a keyword. -/
theorem resolves_plain (h : b.Resolves) (hj : b.Judged ts) (hplace : b.Placement t p kinds faults)
    (hgrown : b.Grown t p kinds faults b')
    (htrace : b'.path.trace = b.path.trace ++ OpenPath.openings ts.length p.labels b.nextId kinds)
    (hkinds : ∀ kind ∈ kinds, kind.keyword? = none) : b'.Resolves := by
  obtain ⟨hsheds, hkept⟩ := hplace.sheds hkinds
  have hlast : b'.lastConcrete = b.lastConcrete := hgrown.lastConcrete_eq.trans hkept
  have hkind : ∀ kind ∈ kinds, kind.written? = none ∧ kind.endsBlock = false ∧
      kind.holdsSteps = false := by
    intro kind hmem
    have hnone := hkinds kind hmem
    cases kind <;> first | exact ⟨rfl, rfl, rfl⟩ | cases hnone
  have hfeature : b'.hasFeature = b.hasFeature := by
    rw [hgrown.hasFeature_eq]
    have hno : kinds.contains .feature = false := by
      rw [Bool.eq_false_iff]
      intro hcontains
      have hnone := hkinds .feature (by simpa using hcontains)
      cases hnone
    rw [hno, Bool.or_false]
  have hnew : ∀ op ∈ OpenPath.openings ts.length p.labels b.nextId kinds,
      op.kind.written? = none := fun op hop =>
    (hkind _ (OpenPath.mem_openings (List.cons_ne_nil _ _) hop).2.1).1
  refine h.grow hj hgrown htrace (by rw [hlast]; exact h.last_concrete) ?_ ?_ ?_ ?_
  · intro k stands hmem
    have hnone := (hkind _ hmem).1
    cases hnone
  · intro hf
    rw [hfeature] at hf
    refine hgrown.sheds.ranked ?_
    rw [OpenPath.kinds_eq, labels_grownPath, ← OpenPath.kinds_eq]
    exact OpenPath.ranked_openAll (hsheds.ranked (h.ranked hf)) _ fun kind hmem => (hkind kind hmem).2.1
  · intro hf l hl hholds
    rw [hfeature] at hf
    have hmem := hgrown.sheds.mem_labels hl
    rw [labels_grownPath] at hmem
    rw [hlast, htrace, stepsIn_append, stepsIn_eq_nil fun op hop _ => hnew op hop, List.append_nil]
    rcases OpenPath.mem_labels_openAll hmem with hmem | hmem
    · exact h.last_eq hf l (hsheds.mem_labels hmem) hholds
    · rw [(hkind _ hmem).2.2] at hholds
      cases hholds
  · intro between op after hsplit k stands holder kind rest hstep
    have hnone := hnew op (by rw [hsplit]; simp)
    rw [hstep] at hnone
    cases hnone

/-- The nodes that stay open when a keyword comes are ranked with the node that it opens. -/
theorem ranked_ofKeyword {k : Keyword} {closed : List (Nat × NodeKind)} (stands : StepKeyword)
    (hb : Stacked b.path.kinds) (hcloses : b.path.Closes p)
    (hranked : k ≠ .feature → Ranked b.path.kinds)
    (heq : b.path.closeLeaves.labels = closed ++ p.labels)
    (hclosed : k ≠ .feature → ∀ l ∈ closed, l.2.mayHold k = false)
    (houter : k = .feature → p.outer = [])
    (hstop : k ≠ .feature → p.top.kind.mayHold k = true ∨
      closed = [] ∧ ∀ l ∈ p.labels, l.2.mayHold k = false) :
    Ranked (.ofKeyword stands k :: p.kinds) ∧
      ((NodeKind.ofKeyword stands k).endsBlock = true →
        ∀ outer ∈ p.kinds, outer.holdsSteps = false) := by
  by_cases hk : k = .feature
  · -- Nothing but the file is left open.
    have hfile := OpenPath.top_eq_file (OpenPath.stacked_of_closes hcloses hb) (houter hk)
    have hkinds : p.kinds = [.file] := by
      rw [OpenPath.kinds, houter hk, hfile]
      rfl
    subst hk
    rw [hkinds]
    refine ⟨⟨List.mem_cons_self, ?_⟩, fun _ => List.forall_mem_singleton.mpr rfl⟩
    refine List.pairwise_cons.mpr ⟨List.forall_mem_singleton.mpr ?_, List.pairwise_singleton _ _⟩
    intro hholds
    cases hholds
  · have hp := ranked_keyword (hranked hk) hk heq (hclosed hk) (hstop hk)
    have houtside : (NodeKind.ofKeyword stands k).endsBlock = true →
        ∀ outer ∈ p.kinds, outer.holdsSteps = false := holdsSteps_of_endsBlock hp hk (hstop hk)
    refine ⟨?_, houtside⟩
    cases hends : (NodeKind.ofKeyword stands k).endsBlock with
    | true => exact hp.cons_outside (houtside hends) _
    | false => exact hp.cons hends

/-- A node that is no step adds no step to any block. -/
theorem stepsIn_concat {op : Opening} (h : op.kind.written? = none) (holder : Nat)
    (trace : List Opening) : stepsIn holder (trace ++ [op]) = stepsIn holder trace := by
  have hnone : stepsIn holder [op] = [] := by
    refine stepsIn_eq_nil ?_
    intro op' hop' _
    rw [List.mem_singleton.mp hop']
    exact h
  rw [stepsIn_append, hnone, List.append_nil]

theorem mem_kinds_of_mem_labels {l : Nat × NodeKind} (hl : l ∈ p.labels) : l.2 ∈ p.kinds := by
  rw [OpenPath.kinds_eq]
  exact List.mem_map_of_mem hl

/-- A block that begins has no steps yet, and no other is open around it. -/
theorem stepsIn_new {kind : NodeKind} {l : Nat × NodeKind} (hreads : b.Reads ts)
    (hwritten : kind.written? = none) (houtside : ∀ outer ∈ p.kinds, outer.holdsSteps = false)
    (hl : l ∈ (b.nextId, kind) :: p.labels) (hholds : l.2.holdsSteps = true) (start : Nat) :
    stepsIn l.1 (b.path.trace ++ [⟨start, p.labels, b.nextId, kind⟩]) = [] := by
  rcases List.mem_cons.mp hl with rfl | hmem
  · rw [stepsIn_concat hwritten, stepsIn_nextId hreads]
  · rw [houtside l.2 (mem_kinds_of_mem_labels hmem)] at hholds
    cases hholds

/-- Where the innermost open node is a block of steps, it is the only one. -/
theorem eq_top_of_holdsSteps {l : Nat × NodeKind} (hp : Ranked p.kinds)
    (htop : p.top.kind.holdsSteps = true) (hl : l ∈ p.labels) (hholds : l.2.holdsSteps = true) :
    l.1 = p.top.id := by
  rcases List.mem_cons.mp hl with rfl | hmem
  · rfl
  · have hends : p.top.kind.endsBlock = true := by simp [NodeKind.endsBlock, htop]
    have hranked : Ranked ([] ++ p.top.kind :: p.outer.map (·.kind)) := hp
    obtain ⟨n, hn, rfl⟩ := List.mem_map.mp hmem
    rw [hranked.holdsSteps_outside hends n.kind (List.mem_map_of_mem hn)] at hholds
    cases hholds

theorem mem_labels_of_closes {q : OpenPath} (h : q.Closes p) {l : Nat × NodeKind} (hl : l ∈ p.labels) :
    l ∈ q.labels := by
  obtain ⟨closed, heq⟩ := OpenPath.labels_of_closes h
  rw [heq]
  exact List.mem_append_right _ hl

/-- What is kept behind a keyword is what the open block says. -/
theorem last_keyword {k : Keyword} {kind : NodeKind} {l : Nat × NodeKind} (h : b.Resolves)
    (hreads : b.Reads ts) (hf : k ≠ .feature → b.hasFeature = true) (hcloses : b.path.Closes p)
    (hkind : kind = .ofKeyword (effective k b.lastConcrete).1 k) (hranked : Ranked (kind :: p.kinds))
    (houtside : kind.endsBlock = true → ∀ outer ∈ p.kinds, outer.holdsSteps = false)
    (hstop : k ≠ .feature → p.top.kind.mayHold k = true ∨ ∀ l ∈ p.labels, l.2.mayHold k = false)
    (hl : l ∈ (b.nextId, kind) :: p.labels) (hholds : l.2.holdsSteps = true) (start : Nat) :
    (effective k b.lastConcrete).2 = StepKeyword.lastConcrete?
      (stepsIn l.1 (b.path.trace ++ [⟨start, p.labels, b.nextId, kind⟩])) := by
  have hkept : l ∈ p.labels → k ≠ .feature →
      b.lastConcrete = StepKeyword.lastConcrete? (stepsIn l.1 b.path.trace) := fun hmem hk =>
    h.last_eq (hf hk) l (mem_labels_of_closes hcloses hmem) hholds
  cases k with
  | feature | rule | background | scenario | scenarioOutline =>
    subst hkind
    rw [stepsIn_new hreads rfl (houtside rfl) hl hholds]
    rfl
  | examples =>
    subst hkind
    rcases List.mem_cons.mp hl with rfl | hmem
    · cases hholds
    · have hsame : stepsIn l.1 (b.path.trace ++ [⟨start, p.labels, b.nextId, .examples⟩]) =
          stepsIn l.1 b.path.trace := stepsIn_concat rfl l.1 b.path.trace
      show b.lastConcrete = _
      rw [show NodeKind.ofKeyword _ Keyword.examples = .examples from rfl, hsame]
      exact hkept hmem (by simp)
  | step k =>
    rcases List.mem_cons.mp hl with rfl | hmem
    · subst hkind
      cases hholds
    · have htop : p.top.kind.holdsSteps = true := by
        refine (hstop (by simp)).resolve_right ?_
        intro hnone
        rw [show l.2.holdsSteps = false from hnone l hmem] at hholds
        cases hholds
      have hp : Ranked p.kinds := by
        have hcons : Ranked ([kind] ++ p.kinds) := hranked
        refine hcons.suffix ?_
        rw [hkind]
        simp [NodeKind.ofKeyword]
      have hsame := eq_top_of_holdsSteps hp htop hmem hholds
      have hlast := hkept hmem (by simp)
      rw [hkind, stepsIn_append]
      show (k.resolve b.lastConcrete).2 = StepKeyword.lastConcrete? (_ ++ stepsIn l.1
        [⟨start, p.labels, b.nextId, .step k _⟩])
      rw [stepsIn_singleton, if_pos hsame.symm, hlast, StepKeyword.resolve_lastConcrete?]

/-- A keyword. -/
theorem resolves_keyword {k : Keyword} {closed : List (Nat × NodeKind)} (h : b.Resolves)
    (hj : b.Judged ts)
    (hgrown : b.Grown t p [.ofKeyword (effective k b.lastConcrete).1 k] faults b')
    (htrace : b'.path.trace = b.path.trace ++ OpenPath.openings ts.length p.labels b.nextId
      [.ofKeyword (effective k b.lastConcrete).1 k])
    (hdoc : b.inDocString = false) (hk : t.kind = .keyword k)
    (hcloses : b.path.Closes p) (heq : b.path.closeLeaves.labels = closed ++ p.labels)
    (hclosed : k ≠ .feature → ∀ l ∈ closed, l.2.mayHold k = false)
    (houter : k = .feature → p.outer = [])
    (hstop : k ≠ .feature → p.top.kind.mayHold k = true ∨
      closed = [] ∧ ∀ l ∈ p.labels, l.2.mayHold k = false) : b'.Resolves := by
  generalize hkind : NodeKind.ofKeyword (effective k b.lastConcrete).1 k = kind at hgrown htrace
  have hlast : b'.lastConcrete = (effective k b.lastConcrete).2 := by
    rw [hgrown.lastConcrete_eq, lastAfter, hk, hdoc]
    rfl
  have hconcrete := StepKeyword.resolve_mem_concrete
  have hpath : b'.path = b.grownPath t p [kind] := by
    rw [hgrown.path_eq, if_neg (by simp [hk])]
  have hfeature : b'.hasFeature = true → k ≠ .feature → b.hasFeature = true := by
    intro hf hne
    have hnot : [kind].contains .feature = false := by
      rw [← hkind]
      cases k <;> first | rfl | exact absurd rfl hne
    rwa [hgrown.hasFeature_eq, hnot, Bool.or_false] at hf
  have hranked : b'.hasFeature = true → Ranked (kind :: p.kinds) ∧
      (kind.endsBlock = true → ∀ outer ∈ p.kinds, outer.holdsSteps = false) := by
    intro hf
    rw [← hkind]
    exact ranked_ofKeyword _ hj.stacked hcloses (fun hne => h.ranked (hfeature hf hne)) heq hclosed
      houter hstop
  refine h.grow hj hgrown htrace ?_ ?_ ?_ ?_ ?_
  · rw [hlast]
    cases k with
    | step k => exact (hconcrete k h.last_concrete).2
    | examples => exact h.last_concrete
    | _ => exact fun k hnone => absurd hnone (by simp [effective])
  · intro k' stands hmem
    rw [List.mem_singleton, ← hkind] at hmem
    cases k with
    | step k =>
      obtain ⟨-, rfl⟩ := NodeKind.step.inj hmem
      exact (hconcrete k h.last_concrete).1
    | _ => cases hmem
  · intro hf
    rw [hpath, kinds_grownPath_one]
    exact (hranked hf).1
  · intro hf l hl hholds
    rw [hpath, labels_grownPath] at hl
    rw [hlast, htrace]
    exact last_keyword h hj.reads (hfeature hf) hcloses hkind.symm (hranked hf).1 (hranked hf).2
      (fun hne => (hstop hne).imp_right And.right) hl hholds ts.length
  · intro between op after hsplit k' stands holder kind' rest hstep haround hholds hbefore
    obtain ⟨rfl, rfl⟩ : between = [] ∧ op = ⟨ts.length, p.labels, b.nextId, kind⟩ := by
      cases between with
      | nil => exact ⟨rfl, (List.cons.inj hsplit).1.symm⟩
      | cons x between =>
        have hlength := congrArg List.length (List.cons.inj hsplit).2
        simp [OpenPath.openings] at hlength
    obtain ⟨rfl, rfl⟩ := Prod.mk.inj (List.cons.inj haround).1
    rw [List.append_nil, ← hj.hasFeature_eq] at hbefore
    have hkept := h.last_eq hbefore (p.top.id, p.top.kind)
      (mem_labels_of_closes hcloses List.mem_cons_self) hholds
    have hstep : kind = .step k' stands := hstep
    rw [← hkind] at hstep
    cases k with
    | step k =>
      obtain ⟨rfl, rfl⟩ := NodeKind.step.inj hstep
      show (k.resolve b.lastConcrete).1 = _
      rw [hkept, StepKeyword.resolve_lastConcrete?, List.append_nil]
    | _ => cases hstep

/-- One token. -/
theorem resolves_step (h : b.Resolves) (hj : b.Judged ts) (t : Token) : (b.step t).Resolves := by
  cases ht : t.isTrivia with
  | true => exact resolves_trivia h ht
  | false =>
    obtain ⟨p, kinds, faults, hplace, hgrown⟩ := step_grown b ht
    have htrace := hgrown.trace_eq hplace.closes hj.reads.pending_token
    rw [hj.reads.length_leaves] at htrace
    by_cases hkinds : ∀ kind ∈ kinds, kind.keyword? = none
    · exact resolves_plain h hj hplace hgrown htrace hkinds
    · have hcloses := hplace.closes
      cases hplace with
      | keyword hdoc hk _ heq hclosed houter hstop =>
        exact resolves_keyword h hj hgrown htrace hdoc hk hcloses heq hclosed houter hstop
      | _ => exact absurd (by simp [NodeKind.keyword?]) hkinds

/-- A stretch of tokens. -/
theorem resolves_foldl {done : List Token} {ph ph' : Phase} (h : b.Resolves) (hj : b.Judged done)
    (hat : b.At ph) (hruns : ph.Runs (ts.map (·.kind)) ph') : (ts.foldl step b).Resolves :=
  foldl_induction (P := fun b _ _ _ => b.Resolves) (fun hj _ _ h => resolves_step h hj _)
    hj hat hruns h

theorem resolves_tokenize (source : String) : ((tokenize source).foldl step {}).Resolves := by
  obtain ⟨ph, hruns⟩ := runs_tokenize source
  have hat : At {} .free := rfl
  exact resolves_foldl resolves_new judged_nil hat hruns

end Builder

/-! ## §E Steps of a node in its tree -/

namespace Outline

/-- Where a member of a list that goes with another divides it, its partner divides the other. -/
theorem exists_split_of_forall₂ {α β : Type} {R : α → β → Prop} {a b : List α} {x : α} {l : List β}
    (h : List.Forall₂ R (a ++ x :: b) l) :
    ∃ a' y b', l = a' ++ y :: b' ∧ List.Forall₂ R a a' ∧ R x y ∧ List.Forall₂ R b b' := by
  induction a generalizing l with
  | nil =>
    cases h with
    | cons hxy hb => exact ⟨[], _, _, rfl, .nil, hxy, hb⟩
  | cons z a ih =>
    cases h with
    | cons hz hrest =>
      obtain ⟨a', y, b', rfl, ha, hxy, hb⟩ := ih hrest
      exact ⟨_ :: a', y, b', rfl, .cons hz ha, hxy, hb⟩

/-- The steps among entries that name a node as their parent. -/
def stepsOf (holder : Nat) (es : List Entry) : List Step :=
  (es.filter (·.parent = some holder)).filterMap fun x => Step.ofNode? x.node

theorem stepsOf_append (holder : Nat) (a b : List Entry) :
    stepsOf holder (a ++ b) = stepsOf holder a ++ stepsOf holder b := by
  simp [stepsOf]

theorem steps_eq_stepsOf {source : String} {x : Entry} (hx : x ∈ (parse source).entries) :
    x.node.steps = stepsOf x.node.id (parse source).entries := by
  rw [Node.steps, childNodes_eq hx, List.filterMap_map]
  rfl

/-- The steps of a node are those that were opened in it. -/
theorem map_keyword_stepsOf {tokens : List Token} {es : List Entry} {trace : List Opening}
    (h : List.Forall₂ (Opened tokens) es trace) (holder : Nat) :
    (stepsOf holder es).map (·.keyword) = stepsIn holder trace := by
  induction h with
  | nil => rfl
  | @cons x op es trace hopened _ ih =>
    have hone : (stepsOf holder [x]).map (·.keyword) = stepsIn holder [op] := by
      unfold stepsOf stepsIn
      rw [List.filter_singleton, List.filter_singleton, hopened.parent_eq]
      cases decide (op.around.head?.map Prod.fst = some holder) with
      | false => rfl
      | true =>
        rw [cond_true, cond_true, List.filterMap_cons, List.filterMap_cons, ← hopened.kind_eq,
          Step.ofNode?]
        cases x.node.kind <;> rfl
    have hcons : stepsOf holder (x :: es) = stepsOf holder [x] ++ stepsOf holder es :=
      stepsOf_append holder [x] es
    rw [hcons, List.map_append, hone, ih]
    exact (stepsIn_append holder [op] trace).symm

/-- A node begins with the token that opens it. -/
theorem span_start_of_opens {source : String} {t : Token} {n p : Node}
    (h : (parse source).Opens t n p) : n.span.start = t.span.start := by
  obtain ⟨⟨parent, hmem⟩, -⟩ := (node?_eq_some_iff (ids_parse source)).mp h.node_eq
  obtain ⟨a, b, htokens, hstart, -⟩ := span_of_placed hmem
  obtain ⟨us, hus⟩ := List.head?_eq_some_iff.mp h.first_eq
  rw [hus] at htokens
  obtain ⟨-, hplace, -, -⟩ := (tiles_tokenize source).position htokens
  rw [hstart, hplace]

/-- A feature keyword before a node opens its feature before the node. -/
theorem any_feature_of_before {source : String} {a b : List Opening} {op : Opening} {t u : Token}
    {n p : Node} (htraces : (parse source).Traces op u n p)
    (htrace : (parse source).trace = a ++ op :: b) (ht : t ∈ tokenize source)
    (hk : t.kind = .keyword .feature) (hlt : t.span.start < n.span.start) :
    a.any (·.kind = .feature) = true := by
  obtain ⟨f, q, hopens, hkeyword, -⟩ := opens_of_keyword ht hk
  obtain ⟨op', htraces'⟩ := exists_opening hopens
  have hkind : op'.kind = .feature := by
    rw [← htraces'.kind_eq]
    exact NodeKind.keyword?_eq_feature.mp hkeyword
  have hstart : op'.start < op.start := by
    refine (tiles_tokenize source).index_lt htraces'.token_eq htraces.token_eq ?_
    rwa [← span_start_of_opens htraces.opens]
  -- What is opened from here on begins no earlier.
  have hsorted := (List.pairwise_append.mp (Builder.resolves_tokenize source).starts).1
  rw [← trace_parse, htrace, List.map_append, List.map_cons] at hsorted
  have hbehind := (List.pairwise_cons.mp (List.pairwise_append.mp hsorted).2.1).1
  have hmem := htraces'.mem
  rw [htrace] at hmem
  refine List.any_eq_true.mpr ⟨op', ?_, by simpa using hkind⟩
  rcases List.mem_append.mp hmem with hmem | hmem
  · exact hmem
  · rcases List.mem_cons.mp hmem with rfl | hmem
    · omega
    · have hle := hbehind _ (List.mem_map_of_mem hmem)
      omega

/-- A node below another divides the entries and the openings in one place. -/
theorem exists_split_of_child {source : String} {n p : Node}
    (hn : (⟨some p.id, n⟩ : Entry) ∈ (parse source).entries)
    (hp : (parse source).node? p.id = some p) :
    ∃ ea eb ta op tb u, (parse source).entries = ea ++ ⟨some p.id, n⟩ :: eb ∧
      (parse source).trace = ta ++ op :: tb ∧
      List.Forall₂ (Opened (tokenize source)) ea ta ∧
      Opened (tokenize source) ⟨some p.id, n⟩ op ∧ (parse source).Traces op u n p := by
  obtain ⟨ea, eb, hentries⟩ := List.append_of_mem hn
  have hall := forall₂_trace source
  rw [hentries] at hall
  obtain ⟨ta, op, tb, htrace, hbefore, hopened, -⟩ := exists_split_of_forall₂ hall
  have hne : op.around ≠ [] := by
    intro hnil
    have hnone := hopened.parent_eq
    rw [hnil] at hnone
    cases hnone
  have hop : op ∈ (parse source).trace := by
    rw [htrace]
    exact List.mem_append_right _ List.mem_cons_self
  obtain ⟨u, q, htraces⟩ := traces_of_opened hn hop hopened hne
  have hparent : (parse source).parent? n.id = some p.id :=
    (parent?_eq_some_iff (ids_parse source)).mpr ⟨n, hn, rfl⟩
  obtain rfl : q = p := by
    have hq := htraces.opens.parent_node
    rw [Option.some.inj (htraces.opens.parent_eq.symm.trans hparent), hp] at hq
    exact (Option.some.inj hq).symm
  exact ⟨ea, eb, ta, op, tb, u, hentries, htrace, hbefore, hopened, htraces⟩

/-- **`o.ResolvesSteps source`** — what the steps of a source stand for. -/
structure ResolvesSteps (source : String) (o : Outline) : Prop extends ListsSteps source o where
  /-- Every step stands for a concrete keyword. -/
  effective_mem : ∀ s ∈ o.steps, s.effective ∈ StepKeyword.concrete
  /-- Behind the first feature, a step of a block stands for what the steps before it in this block
  say. -/
  effective_eq : ∀ s ∈ o.steps, ∀ p, o.parent? s.node.id = some p.id → o.node? p.id = some p →
    p.kind.holdsSteps = true →
    (∃ t ∈ o.tokens, t.kind = .keyword .feature ∧ t.span.start < s.node.span.start) →
    ∃ before after, p.steps = before ++ s :: after ∧
      s.effective = s.keyword.behind (before.map (·.keyword))

/-- **`parse_resolvesSteps`** — in every source each step stands for a concrete keyword, and behind
the first feature for the one that its own block gives. -/
theorem parse_resolvesSteps (source : String) : (parse source).ResolvesSteps source := by
  have hids := ids_parse source
  have hresolves := Builder.resolves_tokenize source
  have htrace := trace_parse source
  refine ⟨parse_listsSteps source, ?_, ?_⟩
  · intro s hs
    obtain ⟨⟨parent, hmem⟩, hkind⟩ := mem_steps_iff.mp hs
    obtain ⟨op, hop, hopened⟩ := (exists_of_forall₂ (forall₂_trace source)).1 _ hmem
    rw [htrace] at hop
    exact hresolves.steps_concrete op hop s.keyword s.effective (hopened.kind_eq.symm.trans hkind)
  · rintro s hs p hparent hp hholds ⟨t, ht, hk, hlt⟩
    obtain ⟨hmem, hkind⟩ := mem_steps_iff.mp hs
    obtain ⟨⟨parent, hpmem⟩, -⟩ := (node?_eq_some_iff hids).mp hp
    obtain ⟨n, hn, hid⟩ := (parent?_eq_some_iff hids).mp hparent
    obtain rfl : n = s.node := by
      have hnode := (node?_eq_some_iff hids).mpr ⟨⟨some p.id, hn⟩, hid⟩
      have hnode' := (node?_eq_some_iff hids).mpr ⟨hmem, rfl⟩
      exact Option.some.inj (hnode.symm.trans hnode')
    -- The step among the entries, and among the openings.
    obtain ⟨ea, eb, ta, op, tb, u, hentries, htraces, hbefore, hopened, hopening⟩ :=
      exists_split_of_child hn hp
    obtain ⟨rest, haround⟩ := hopening.around_eq
    refine ⟨stepsOf p.id ea, stepsOf p.id eb, ?_, ?_⟩
    · rw [steps_eq_stepsOf hpmem, hentries, stepsOf_append]
      congr 1
      have hone : stepsOf p.id [⟨some p.id, s.node⟩] = [s] := by
        unfold stepsOf
        simp [Step.ofNode?_eq_some_iff.mpr ⟨rfl, hkind⟩]
      rw [← List.singleton_append, stepsOf_append, hone]
      rfl
    · rw [map_keyword_stepsOf hbefore]
      have hsplit : ((tokenize source).foldl Builder.step {}).path.trace = ta ++ op :: tb :=
        (trace_parse source).symm.trans htraces
      exact hresolves.follows ta op tb hsplit s.keyword s.effective p.id p.kind rest
        (hopened.kind_eq.symm.trans hkind) haround hholds
        (any_feature_of_before hopening htraces ht hk hlt)

-- Examples and a table lie between the steps of the first block; the second begins afresh.
example : (parse "Feature: f\nScenario: s\nWhen a\nExamples:\n|x|\nAnd b\nScenario: t\nBut c").steps.map
    (·.effective) = [.when, .when, .given] := by decide +kernel

end Outline

end FeatureFile
