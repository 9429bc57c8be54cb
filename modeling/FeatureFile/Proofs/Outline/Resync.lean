/-
# FeatureFile.Proofs.Outline.Resync — a feature keyword begins afresh

Whatever stands before a feature keyword, the outline behind it is the outline of what follows,
further on. The keyword closes every open node but the root, forgets the last concrete step keyword
and stands outside doc strings, so the builder is from then on alike to one that has read nothing
before (`resumed`): the nodes have later numbers, the tokens later places, and the root and the
recorded problems keep what they held (`Past`).

Main statement: `parse_append_feature`.
-/

import FeatureFile.Proofs.Outline.Degradations
import FeatureFile.Proofs.Outline.Sight
import FeatureFile.Proofs.Token.Join

namespace FeatureFile

open Text (byteSize)

/-! ## §A The builder at a feature keyword -/

namespace OpenPath

/-- The root of a path with every node closed into it. -/
def root (p : OpenPath) : OpenNode := (p.closeAll fun _ => true).top

theorem root_of_closes {p q : OpenPath} (h : p.Closes q) : q.root = p.root :=
  congrArg OpenPath.top (closeAll_true_of_closes h)

theorem closeAll_true_eq (p : OpenPath) : (p.closeAll fun _ => true) = ⟨p.root, []⟩ := by
  have houter : (p.closeAll fun _ => true).outer = [] := closeWhile_true_outer p.top p.outer
  rw [root, ← houter]

end OpenPath

namespace Builder

/-- A feature keyword outside every doc string: all nodes are closed, and of what came before only
the root, the numbers and the recorded problems are left. -/
theorem step_feature (b : Builder) {t : Token} (hdoc : b.inDocString = false)
    (ht : t.kind = .keyword .feature) :
    b.step t =
      { path := ⟨⟨b.nextId, .feature, [.token b.nextToken t]⟩, [b.path.root.fill b.pending]⟩
        nextId := b.nextId + 1
        nextToken := b.nextToken + 1
        problems := (if b.hasFeature then [⟨.duplicateFeature, t.span⟩] else []) ++ b.problems
        atLineStart := false
        hasFeature := true } := by
  have hsignificant : t.isTrivia = false := by rw [Token.isTrivia, ht]; rfl
  -- No node but the root holds a feature, whatever was closed before.
  have hclosed : (b.path.closeLeaves.closeAll fun _ => true) = ⟨b.path.root, []⟩ := by
    rw [OpenPath.closeAll_true_of_closes (.closeLeaves _), OpenPath.closeAll_true_eq]
  have hroom : (b.begin.withPath OpenPath.closeLeaves).makeRoom .feature t.span =
      { b.begin with
        path := ⟨b.path.root, []⟩
        hasFeature := true
        problems := (if b.hasFeature then [⟨.duplicateFeature, t.span⟩] else []) ++ b.problems } := by
    rw [← hclosed]
    cases hfeature : b.hasFeature <;> simp [makeRoom, withPath, begin, degrade, hfeature]
  rw [step_significant b hsignificant, hdoc, if_neg Bool.false_ne_true, placeToken, ht]
  simp only [openKeyword, hroom]
  rw [attach_enter, grow, OpenPath.pushAll_eq, List.reverse_reverse]
  simp only [begin, hdoc]
  rfl

/-- **`b.Level c`** — two builders hold the same but for the trivia that waits. -/
structure Level (b c : Builder) : Prop where
  path_eq : b.path = c.path
  nextId_eq : b.nextId = c.nextId
  problems_eq : b.problems = c.problems
  inDocString_eq : b.inDocString = c.inDocString
  hasFeature_eq : b.hasFeature = c.hasFeature

theorem Level.trans {b c d : Builder} (h : b.Level c) (h' : c.Level d) : b.Level d :=
  ⟨h.path_eq.trans h'.path_eq, h.nextId_eq.trans h'.nextId_eq, h.problems_eq.trans h'.problems_eq,
    h.inDocString_eq.trans h'.inDocString_eq, h.hasFeature_eq.trans h'.hasFeature_eq⟩

theorem Level.symm {b c : Builder} (h : b.Level c) : c.Level b :=
  ⟨h.path_eq.symm, h.nextId_eq.symm, h.problems_eq.symm, h.inDocString_eq.symm,
    h.hasFeature_eq.symm⟩

/-- Trivia waits, and changes nothing else. -/
theorem level_foldl (b : Builder) {ts : List Token} (h : ∀ t ∈ ts, t.isTrivia = true) :
    (ts.foldl step b).Level b := by
  induction ts generalizing b with
  | nil => exact ⟨rfl, rfl, rfl, rfl, rfl⟩
  | cons t ts ih =>
    obtain ⟨ht, hts⟩ := List.forall_mem_cons.mp h
    have hnext := ih (b.step t) hts
    have hstep : (b.step t).Level b := by
      rw [step_trivia b ht]
      exact ⟨rfl, rfl, rfl, rfl, rfl⟩
    exact hnext.trans hstep

/-- Only trivia waits. -/
theorem trivia_pending (ts : List Token) {b : Builder} (h : ∀ e ∈ b.pending, e.isTrivia = true) :
    ∀ e ∈ (ts.foldl step b).pending, e.isTrivia = true := by
  induction ts generalizing b with
  | nil => exact h
  | cons t ts ih =>
    refine ih ?_
    cases ht : t.isTrivia with
    | true =>
      rw [step_trivia b ht]
      exact List.forall_mem_cons.mpr ⟨ht, h⟩
    | false =>
      obtain ⟨p, kinds, faults, -, hgrown⟩ := step_grown b ht
      rw [hgrown.pending_eq]
      exact fun _ h => absurd h List.not_mem_nil

/-! ## §B The builder at the end of a source -/

/-- A feature has been seen when a feature keyword has been read. -/
theorem Judged.hasFeature_iff {b : Builder} {ts : List Token} (h : b.Judged ts) :
    b.hasFeature = true ↔ ∃ t ∈ ts, t.kind = .keyword .feature := by
  rw [h.hasFeature_eq, List.any_eq_true]
  constructor
  · rintro ⟨op, hop, hkind⟩
    have hkind : op.kind = .feature := of_decide_eq_true hkind
    obtain ⟨id, haround⟩ := h.feature_around op hop hkind
    obtain ⟨t, ht, hopens⟩ := h.opened op hop (by rw [haround]; exact List.cons_ne_nil _ _)
    refine ⟨t, List.mem_of_getElem? ht, ?_⟩
    rw [TokenKind.eq_keyword_iff hopens, hkind]
    rfl
  · rintro ⟨t, ht, hk⟩
    obtain ⟨i, hi⟩ := List.getElem?_of_mem ht
    obtain ⟨op, hop⟩ := h.keyword_opened i t .feature hi hk
    obtain ⟨hmem, hstart⟩ := List.mem_filter.mp (hop ▸ List.mem_singleton_self op)
    obtain ⟨hstart, haround⟩ := (Bool.and_eq_true _ _).mp hstart
    obtain ⟨u, hu, hopens⟩ := h.opened op hmem (by simpa using haround)
    rw [eq_of_beq hstart, hi] at hu
    obtain rfl := Option.some.inj hu
    refine ⟨op, hmem, decide_eq_true ?_⟩
    exact NodeKind.keyword?_eq_feature.mp ((TokenKind.eq_keyword_iff hopens _).mp hk)

/-- What belongs to the end of a source is not recorded before it. -/
theorem Judged.kind_of_mem_problems {b : Builder} {ts : List Token} (h : b.Judged ts)
    {d : Degradation} (hd : d ∈ b.problems) : d.kind ≠ .missingFeature := by
  rw [← List.mem_reverse, h.problems_eq, mem_verdicts] at hd
  obtain ⟨a, op, rest, -, hd⟩ := hd
  rw [Opening.verdict] at hd
  split at hd
  · obtain ⟨fault, hfault, rfl⟩ := List.mem_map.mp hd
    cases haround : op.around with
    | nil =>
      rw [Opening.faults, haround] at hfault
      exact absurd hfault List.not_mem_nil
    | cons l around =>
      rw [Opening.mem_faults haround] at hfault
      simp only [mem_keywordFaults] at hfault
      rintro rfl
      simp at hfault
  · exact absurd hd List.not_mem_nil

/-- **The builder and the lexer agree on doc strings** at the end of a source. -/
theorem inDocString_tokenize (source : String) :
    ((tokenize source).foldl step {}).inDocString =
      (Token.docAfter none (lines source.toList)).isSome := by
  have hbegin : Phase.free.Begins none := Or.inl rfl
  obtain ⟨ph, hruns, hph⟩ := Token.runs_lexemes_docAfter hbegin (lines source.toList)
  rw [← Token.map_kind_place 0] at hruns
  have hat : At {} .free := rfl
  have hend : ((tokenize source).foldl step {}).At ph := at_foldl judged_nil hat hruns
  cases hdoc : Token.docAfter none (lines source.toList) with
  | none =>
    rw [hdoc] at hph
    rcases hph with rfl | rfl
    · exact hend
    · exact hend.1
  | some d =>
    rw [hdoc] at hph
    obtain rfl : ph = .doc := hph
    exact hend

end Builder

/-! ## §C Further on -/

/-- **`Shift`** — how far on a source stands behind another: by so many nodes, the root apart, so
many tokens and so many bytes. -/
structure Shift where
  nodes : Nat
  tokens : Nat
  bytes : Nat

/-- The problem further on by so many bytes. -/
def Degradation.shift (bytes : Nat) (d : Degradation) : Degradation :=
  { d with span := d.span.shift bytes }

/-- The number of a node further on; the root is shared. -/
def Shift.number (σ : Shift) (id : Nat) : Nat := if id = 0 then 0 else id + σ.nodes

namespace View

/-- Nodes by number and tokens with their number, as they stand. -/
def exact : View (List (Child (Nat × Token))) :=
  ⟨id, fun _ children => Element.significant id (fun i t => (i, t)) children⟩

/-- Nodes by number and tokens with their number, further on. -/
def shifted (σ : Shift) : View (List (Child (Nat × Token))) :=
  ⟨σ.number, fun _ children =>
    Element.significant σ.number (fun i t => (i + σ.tokens, t.shift σ.bytes)) children⟩

theorem shifted_zero : shifted ⟨0, 0, 0⟩ = exact := by
  have hnumber : Shift.number ⟨0, 0, 0⟩ = id := by
    funext id
    rw [Shift.number]
    split
    · rename_i h
      exact h.symm
    · rfl
  rw [shifted, hnumber]
  rfl

end View

/-- What a run of the builder held before the other began: the children of the root, the nodes below
it, and the recorded problems, last first. -/
structure Past where
  children : List (Child (Nat × Token)) := []
  nodes : List (Sight (List (Child (Nat × Token)))) := []
  problems : List Degradation := []

/-- A node of the one run shows what a node of the other shows further on; a root shows the past
before. -/
structure Resumes (σ : Shift) (past : Past) (root : Bool) (n n' : OpenNode) : Prop where
  id_eq : n.id = σ.number n'.id
  kind_eq : n.kind = n'.kind
  seen_eq : n.seen .exact = (if root then past.children else []) ++ n'.seen (.shifted σ)
  below_eq : n.below .exact = (if root then past.nodes else []) ++ n'.below (.shifted σ)

namespace Resumes

variable {σ : Shift} {past : Past} {root : Bool} {n n' m m' : OpenNode}

theorem close (hn : Resumes σ past false n n') (hm : Resumes σ past root m m') :
    Resumes σ past root (m.push n.close) (m'.push n'.close) where
  id_eq := hm.id_eq
  kind_eq := hm.kind_eq
  seen_eq := by
    have hseen := hm.seen_eq
    simp only [OpenNode.seen, View.exact, View.shifted, OpenNode.children_push,
      Element.significant_append, Element.significant_close] at hseen ⊢
    rw [hseen, List.append_assoc, hn.id_eq]
    rfl
  below_eq := by
    have hm_id : View.exact.number m.id = (View.shifted σ).number m'.id := hm.id_eq
    have hn_id : View.exact.number n.id = (View.shifted σ).number n'.id := hn.id_eq
    rw [OpenNode.below_push_close, OpenNode.below_push_close, hm.below_eq, List.append_assoc,
      hn.below_eq, hn.seen_eq, hn.kind_eq, hm_id, hn_id]
    rfl

theorem push (h : Resumes σ past root n n') {i i' : Nat} {t t' : Token}
    (hi : i = i' + σ.tokens) (ht : t = t'.shift σ.bytes) (hsignificant : t.isTrivia = false) :
    Resumes σ past root (n.push (.token i t)) (n'.push (.token i' t')) where
  id_eq := h.id_eq
  kind_eq := h.kind_eq
  seen_eq := by
    have hseen := h.seen_eq
    have hsignificant' : t'.isTrivia = false := by rw [ht] at hsignificant; exact hsignificant
    simp only [OpenNode.seen, View.exact, View.shifted, OpenNode.children_push,
      Element.significant_append, Element.significant_token _ _ _ hsignificant,
      Element.significant_token _ _ _ hsignificant'] at hseen ⊢
    rw [hseen, List.append_assoc, hi, ht]
  below_eq := by
    rw [OpenNode.below_push_token, OpenNode.below_push_token]
    exact h.below_eq

theorem fill (h : Resumes σ past root n n') {w w' : List Element}
    (hw : ∀ e ∈ w, e.isTrivia = true) (hw' : ∀ e ∈ w', e.isTrivia = true) :
    Resumes σ past root (n.fill w) (n'.fill w') where
  id_eq := h.id_eq
  kind_eq := h.kind_eq
  seen_eq := by
    have hseen := h.seen_eq
    have hrev : ∀ e ∈ w.reverse, e.isTrivia = true := fun e he => hw e (List.mem_reverse.mp he)
    have hrev' : ∀ e ∈ w'.reverse, e.isTrivia = true := fun e he => hw' e (List.mem_reverse.mp he)
    simp only [OpenNode.seen, View.exact, View.shifted, OpenNode.children_fill,
      Element.significant_append, Element.significant_of_trivia _ _ hrev,
      Element.significant_of_trivia _ _ hrev', List.append_nil] at hseen ⊢
    exact hseen
  below_eq := by
    rw [OpenNode.below_fill _ _ hw, OpenNode.below_fill _ _ hw']
    exact h.below_eq

/-- A node resumes itself. -/
theorem refl (n : OpenNode) : Resumes ⟨0, 0, 0⟩ {} root n n where
  id_eq := congrFun (congrArg View.number View.shifted_zero.symm) n.id
  kind_eq := rfl
  seen_eq := by cases root <;> rw [View.shifted_zero] <;> rfl
  below_eq := by cases root <;> rw [View.shifted_zero] <;> rfl

end Resumes

/-- **`resumed σ past`** — a run of the builder that goes on like another from its beginning. -/
def resumed (σ : Shift) (past : Past) : Likeness where
  node := Resumes σ past
  trivia _ w w' := (∀ e ∈ w, e.isTrivia = true) ∧ ∀ e ∈ w', e.isTrivia = true
  token t t' := t = t'.shift σ.bytes
  number i i' := i' ≠ 0 ∧ i = i' + σ.nodes
  index i i' := i = i' + σ.tokens
  problems ps ps' := ps = ps'.map (·.shift σ.bytes) ++ past.problems
  kind_of_node h := h.kind_eq
  kind_of_token h := by rw [h]; rfl
  number_succ h := ⟨Nat.succ_ne_zero _, by omega⟩
  index_succ h := by omega
  node_new kind h := ⟨by rw [Shift.number, if_neg h.1]; exact h.2, rfl, rfl, rfl⟩
  node_close hn hm := hn.close hm
  node_push hn hi ht hsignificant := hn.push hi ht hsignificant
  node_fill hn hw := hn.fill hw.1 hw.2
  trivia_nil _ := ⟨fun _ h => absurd h List.not_mem_nil, fun _ h => absurd h List.not_mem_nil⟩
  trivia_cons hw _ ht htrivia := by
    refine ⟨List.forall_mem_cons.mpr ⟨htrivia, hw.1⟩, List.forall_mem_cons.mpr ⟨?_, hw.2⟩⟩
    rw [ht] at htrivia
    exact htrivia
  trivia_root h := h
  problems_cons kind h ht := by rw [h, ht]; rfl

/-- **`n.Shows m`** — two open nodes show the same. -/
structure OpenNode.Shows (n m : OpenNode) : Prop where
  id_eq : n.id = m.id
  kind_eq : n.kind = m.kind
  seen_eq : n.seen .exact = m.seen .exact
  below_eq : n.below .exact = m.below .exact

theorem Resumes.shows {root : Bool} {n m : OpenNode} (h : Resumes ⟨0, 0, 0⟩ {} root n m) :
    n.Shows m := by
  have hid := h.id_eq.trans (congrFun (congrArg View.number View.shifted_zero) m.id)
  have hseen := h.seen_eq
  have hbelow := h.below_eq
  rw [View.shifted_zero] at hseen hbelow
  cases root with
  | true => exact ⟨hid, h.kind_eq, hseen, hbelow⟩
  | false => exact ⟨hid, h.kind_eq, hseen, hbelow⟩

/-- Trivia on the innermost node does not show in the tree. -/
theorem OpenPath.shows_finish (p : OpenPath) {w : List Element}
    (hw : ∀ e ∈ w, e.isTrivia = true) :
    ∃ n : OpenNode, OpenPath.finish ⟨p.top.fill w, p.outer⟩ = n.close ∧ n.Shows p.root := by
  have hrefl : ∀ (top : OpenNode) (outer : List OpenNode),
      (resumed ⟨0, 0, 0⟩ {}).Nodes (top :: outer) (top :: outer) := by
    intro top outer
    induction outer generalizing top with
    | nil => exact .root (.refl top)
    | cons next outer ih => exact .inner (.refl top) (ih next)
  have hnil : ∀ e ∈ ([] : List Element), e.isTrivia = true := fun _ h => absurd h List.not_mem_nil
  have hpaths : (resumed ⟨0, 0, 0⟩ {}).Paths ⟨p.top.fill w, p.outer⟩ p :=
    Likeness.Paths.with_top (hrefl p.top p.outer) fun htop => htop.fill hw hnil
  have hroots := hpaths.closeAll fun _ => true
  rw [OpenPath.closeAll_true_eq, OpenPath.closeAll_true_eq] at hroots
  cases hroots with
  | root hroot => exact ⟨_, rfl, Resumes.shows hroot⟩
  | inner _ h => cases h

/-! ## §D A source behind another -/

namespace Builder

/-- What a builder holds before a feature keyword, for the run behind it. -/
def past (b : Builder) (span : Span) : Past where
  children := b.path.root.seen .exact
  nodes := b.path.root.below .exact
  problems := (if b.hasFeature then [⟨.duplicateFeature, span⟩] else []) ++ b.problems

theorem reverse_past (b : Builder) (span : Span) :
    (b.past span).problems.reverse =
      b.problems.reverse ++ if b.hasFeature then [⟨.duplicateFeature, span⟩] else [] := by
  rw [past, List.reverse_append]
  split <;> rfl

/-- A root that resumes another shows the past and then what the other shows further on. -/
theorem root_of_resumes {b : Builder} {span : Span} {σ : Shift} {n m : OpenNode}
    (h : Resumes σ (b.past span) true n m) :
    n.seen .exact = b.path.root.seen .exact ++ m.seen (.shifted σ) ∧
      n.below .exact = b.path.root.below .exact ++ m.below (.shifted σ) :=
  ⟨h.seen_eq, h.below_eq⟩

theorem Level.past_eq {b c : Builder} (h : b.Level c) (span : Span) : b.past span = c.past span := by
  rw [past, past, h.path_eq, h.problems_eq, h.hasFeature_eq]

/-- Two builders right behind a feature keyword, one of which has read trivia alone before. -/
theorem alike_feature {b b' : Builder} {t : Token} {σ : Shift} (hdoc : b.inDocString = false)
    (ht : t.kind = .keyword .feature) (hid : b.path.root.id = 0) (hkind : b.path.root.kind = .file)
    (hb' : b'.Level {}) (hpending : ∀ e ∈ b.pending, e.isTrivia = true)
    (hpending' : ∀ e ∈ b'.pending, e.isTrivia = true) (hnodes : b.nextId = 1 + σ.nodes)
    (htokens : b.nextToken = b'.nextToken + σ.tokens) :
    Alike (resumed σ (b.past (t.span.shift σ.bytes))) (b.step (t.shift σ.bytes)) (b'.step t) := by
  have hroot : Resumes σ (b.past (t.span.shift σ.bytes)) true b.path.root b'.path.root := by
    rw [hb'.path_eq]
    exact ⟨hid, hkind, (List.append_nil _).symm, (List.append_nil _).symm⟩
  have hnumber : (resumed σ (b.past (t.span.shift σ.bytes))).number b.nextId b'.nextId := by
    rw [hb'.nextId_eq]
    exact ⟨Nat.one_ne_zero, hnodes⟩
  have hfeature : Resumes σ (b.past (t.span.shift σ.bytes)) false
      ⟨b.nextId, .feature, [.token b.nextToken (t.shift σ.bytes)]⟩
      ⟨b'.nextId, .feature, [.token b'.nextToken t]⟩ := by
    refine Resumes.push ((resumed σ _).node_new .feature hnumber) htokens rfl ?_
    rw [Token.isTrivia, Token.kind_shift, ht]
    rfl
  rw [step_feature b hdoc (t := t.shift σ.bytes) ht, step_feature b' hb'.inDocString_eq ht]
  constructor
  case paths => exact .inner hfeature (.root (hroot.fill hpending hpending'))
  case trivia => exact (resumed σ _).trivia_nil _
  case number => exact (resumed σ _).number_succ hnumber
  case index => exact (resumed σ _).index_succ htokens
  case problems =>
    rw [hb'.problems_eq, hb'.hasFeature_eq]
    rfl
  case lastConcrete_eq => rfl
  case atLineStart_eq => rfl
  case inDocString_eq => rfl
  case hasFeature_eq => rfl

end Builder

namespace Outline

/-- What a view shows of an outline, read off its root. -/
theorem sights_of_root {β : Type} (v : View β) (source : String) {n : OpenNode}
    (h : (parse source).root = n.close) :
    (parse source).entries.tail.map v.sight = n.below v ∧ n.id = 0 ∧ n.kind = .file ∧
      (parse source).children 0 = n.children := by
  obtain ⟨children, hroot, -, -, hids⟩ := parse_spec source
  have hnode := hroot.symm.trans h
  injection hnode with hid hkind
  have hmem : (⟨none, ⟨n.id, n.kind, Span.coverAll (n.children.map Element.span), n.children⟩⟩ :
      Entry) ∈ (parse source).entries := by
    rw [entries, h]
    exact List.mem_cons_self
  refine ⟨?_, hid.symm, hkind.symm, ?_⟩
  · rw [entries, h]
    rfl
  · have hchildren := children_of_mem hids hmem
    rw [← hid] at hchildren
    exact hchildren

theorem root_eq (source : String) :
    (parse source).root =
      (((tokenize source).foldl Builder.step {}).finish (byteSize source)).1 := rfl

/-- The tree of a source shows what the builder's root shows with all nodes closed. -/
theorem shows_parse (source : String) :
    ∃ n : OpenNode, (parse source).root = n.close ∧
      n.Shows ((tokenize source).foldl Builder.step {}).path.root := by
  have htrivia := Builder.trivia_pending (tokenize source) (b := {}) fun _ h =>
    absurd h List.not_mem_nil
  rw [root_eq, Builder.finish_fst, ← OpenPath.root_of_closes (Builder.closes_endPath _)]
  exact OpenPath.shows_finish _ htrivia

/-- An open doc string at the end of a source begins with the last delimiter. -/
theorem topStart_of_inDocString {source : String}
    (h : ((tokenize source).foldl Builder.step {}).inDocString = true) :
    ∃ t, ((tokenize source).filter fun u => u.kind = .docStringDelimiter).getLast? = some t ∧
      ((tokenize source).foldl Builder.step {}).topStart = t.span.start := by
  obtain ⟨a, t, rest, htokens, ht, hrest, htop⟩ :=
    (Builder.judged_tokenize source).delimiter_last h
  refine ⟨t, ?_, ?_⟩
  · rw [htokens]
    exact getLast?_delimiters ht hrest
  · rw [Builder.topStart, htop]

/-- No doc string is left open where none is recorded as unclosed. -/
theorem inDocString_eq_false {source : String}
    (h : ∀ d ∈ (parse source).degradations, d.kind ≠ .unclosedDocString) :
    ((tokenize source).foldl Builder.step {}).inDocString = false := by
  rw [Bool.eq_false_iff]
  intro hdoc
  rw [degradations_eq, Builder.finish_snd, if_pos hdoc] at h
  exact h _ (List.mem_append_right _ (List.mem_append_left _ (List.mem_singleton_self _))) rfl

/-! ## §E Two sources in one -/

/-- **`Continues σ first second whole f`** — an outline consists of one outline and of a second one
further on, which begins with the feature keyword `f`. -/
structure Continues (σ : Shift) (first second whole : Outline) (f : Token) : Prop where
  /-- The nodes other than the root are those of the one, as they are, and then those of the other,
  further on: their numbers, the nodes that they stand in, their kinds, and their significant
  children. -/
  nodes_eq : whole.entries.tail.map View.exact.sight =
    first.entries.tail.map View.exact.sight ++ second.entries.tail.map (View.shifted σ).sight
  /-- The root holds what the one root holds and then what the other holds. -/
  root_eq : View.exact.look .file (whole.children 0) =
    View.exact.look .file (first.children 0) ++ (View.shifted σ).look .file (second.children 0)
  /-- A missing feature is no longer missing, a second one is recorded, and all other problems
  stay. -/
  degradations_eq : whole.degradations =
    (first.degradations.filter fun d => d.kind ≠ .missingFeature) ++
      ((if first.tokens.any fun t => t.kind = .keyword .feature then
          [⟨.duplicateFeature, f.span.shift σ.bytes⟩] else []) ++
        second.degradations.map (·.shift σ.bytes))

section Append

variable {p s : String} {f : Token}

/-- How far on the second of two sources stands. -/
def shiftOf (p s : String) : Shift where
  nodes := (parse p).entries.length - 1
  tokens := (tokenize (p ++ s)).length - (tokenize s).length
  bytes := byteSize p

/-- Where a source begins with a feature keyword, the tokens of the two together are tokens of the
one, trivia, the keyword, and what follows it. -/
theorem tokenize_append_feature (hp : EndsInBreak p.toList)
    (hdoc : Token.docAfter none (lines p.toList) = none)
    (hf : ((tokenize s).find? fun t => !t.isTrivia) = some f) :
    ∃ front gap first second rest,
      tokenize p = front ++ first ∧ tokenize s = second ++ f :: rest ∧
      tokenize (p ++ s) = front ++ gap ++ (f.shift (byteSize p)) ::
        rest.map (Token.shift (byteSize p)) ∧
      gap.length = second.length ∧ (∀ t ∈ first, t.isTrivia = true) ∧
      (∀ t ∈ second, t.isTrivia = true) ∧ ∀ t ∈ gap, t.isTrivia = true := by
  obtain ⟨front, gap, after, ⟨first, hfirst, hfirst_trivia⟩, ⟨second, hsecond, hlength,
    hsecond_trivia⟩, hboth, hgap⟩ := tokenize_append (s := s) hp hdoc
  have hnone : (second.find? fun t => !t.isTrivia) = none := by
    rw [List.find?_eq_none]
    intro t ht
    simp [hsecond_trivia t ht]
  rw [hsecond, List.find?_append, hnone, Option.none_or] at hf
  obtain ⟨-, blank, rest, hafter, hblank⟩ := List.find?_eq_some_iff_append.mp hf
  have hblank : ∀ t ∈ blank, t.isTrivia = true := fun t ht => by simpa using hblank t ht
  refine ⟨front, gap ++ blank.map (Token.shift (byteSize p)), first, second ++ blank, rest,
    hfirst, ?_, ?_, ?_, hfirst_trivia, ?_, ?_⟩
  · rw [hsecond, hafter, List.append_assoc]
  · rw [hboth, hafter, List.map_append, List.map_cons]
    simp only [List.append_assoc]
  · simp [hlength]
  · exact List.forall_mem_append.mpr ⟨hsecond_trivia, hblank⟩
  · refine List.forall_mem_append.mpr ⟨hgap, fun t ht => ?_⟩
    obtain ⟨u, hu, rfl⟩ := List.mem_map.mp ht
    exact hblank u hu

theorem docAfter_of_inDocString
    (hdoc : ((tokenize p).foldl Builder.step {}).inDocString = false) :
    Token.docAfter none (lines p.toList) = none := by
  rw [Builder.inDocString_tokenize] at hdoc
  exact Option.not_isSome_iff_eq_none.mp (Bool.eq_false_iff.mp hdoc)

/-- **The two runs.** From the feature keyword on, the run over both sources goes on like the run over
the second. -/
theorem alike_append (hp : EndsInBreak p.toList)
    (hdoc : ((tokenize p).foldl Builder.step {}).inDocString = false)
    (hf : ((tokenize s).find? fun t => !t.isTrivia) = some f) (hfeature : f.kind = .keyword .feature) :
    Builder.Alike
      (resumed (shiftOf p s)
        (((tokenize p).foldl Builder.step {}).past (f.span.shift (byteSize p))))
      ((tokenize (p ++ s)).foldl Builder.step {}) ((tokenize s).foldl Builder.step {}) := by
  obtain ⟨front, gap, first, second, rest, hfirst, hsecond, hboth, hlength, hfirst_trivia,
    hsecond_trivia, hgap⟩ := tokenize_append_feature hp (docAfter_of_inDocString hdoc) hf
  -- Before the keyword the run over both sources holds what the run over the first ends with.
  have hlevel : ((front ++ gap).foldl Builder.step {}).Level ((tokenize p).foldl Builder.step {}) := by
    rw [hfirst, List.foldl_append, List.foldl_append]
    exact (Builder.level_foldl _ hgap).trans (Builder.level_foldl _ hfirst_trivia).symm
  have htrivia : ∀ ts : List Token,
      ∀ e ∈ (ts.foldl Builder.step {}).pending, e.isTrivia = true := fun ts =>
    Builder.trivia_pending ts fun _ h => absurd h List.not_mem_nil
  -- Tokens are counted, so it is the tokens before the keyword that shift the numbers behind it.
  have htokens : ((front ++ gap).foldl Builder.step {}).nextToken =
      (second.foldl Builder.step {}).nextToken + (shiftOf p s).tokens := by
    have hnow := (Builder.reads_foldl Builder.reads_nil (front ++ gap)).nextToken_eq
    have halone := (Builder.reads_foldl Builder.reads_nil second).nextToken_eq
    rw [hnow, halone, shiftOf, hboth, hsecond]
    simp only [List.nil_append, List.length_append, List.length_cons, List.length_map]
    omega
  obtain ⟨n, hn, hshows⟩ := shows_parse p
  obtain ⟨-, hid, hkind, -⟩ := sights_of_root View.exact p hn
  have hnodes : ((tokenize p).foldl Builder.step {}).nextId = 1 + (shiftOf p s).nodes := by
    have hpos : 0 < (parse p).entries.length := by
      rw [entries, hn]
      exact Nat.succ_pos _
    rw [← length_entries]
    exact (Nat.add_sub_of_le hpos).symm
  rw [← hlevel.past_eq, hboth, hsecond, List.foldl_append (l := front ++ gap),
    List.foldl_append (l := second), List.foldl_cons, List.foldl_cons]
  refine Builder.Alike.foldl ?_ ?_
  · apply Builder.alike_feature
    · rw [hlevel.inDocString_eq]
      exact hdoc
    · exact hfeature
    · rw [hlevel.path_eq]
      exact hshows.id_eq.symm.trans hid
    · rw [hlevel.path_eq]
      exact hshows.kind_eq.symm.trans hkind
    · exact Builder.level_foldl {} hsecond_trivia
    · exact htrivia _
    · exact htrivia _
    · rw [hlevel.nextId_eq]
      exact hnodes
    · exact htokens
  · rw [List.forall₂_map_left_iff]
    exact List.forall₂_same.mpr fun _ _ => rfl

/-- The doc string that is open at the end is the one of the second source. -/
theorem unclosed_append (hp : EndsInBreak p.toList)
    (hdoc : ((tokenize p).foldl Builder.step {}).inDocString = false)
    (hf : ((tokenize s).find? fun t => !t.isTrivia) = some f) (hfeature : f.kind = .keyword .feature)
    (hopen : ((tokenize s).foldl Builder.step {}).inDocString = true) :
    Span.clamp ((tokenize (p ++ s)).foldl Builder.step {}).topStart (byteSize (p ++ s)) =
      (Span.clamp ((tokenize s).foldl Builder.step {}).topStart (byteSize s)).shift (byteSize p) := by
  have hopen' := (alike_append hp hdoc hf hfeature).inDocString_eq.trans hopen
  obtain ⟨t, hlast, hstart⟩ := topStart_of_inDocString hopen
  obtain ⟨u, hlast', hstart'⟩ := topStart_of_inDocString hopen'
  obtain ⟨front, gap, first, second, rest, -, hsecond, hboth, -, -, hsecond_trivia, -⟩ :=
    tokenize_append_feature hp (docAfter_of_inDocString hdoc) hf
  -- Neither trivia nor the keyword is a delimiter, so the last one stands behind the keyword.
  have hnone : (second.filter fun u => u.kind = .docStringDelimiter) = [] := by
    refine List.filter_eq_nil_iff.mpr fun v hv hk => ?_
    have htrivia := hsecond_trivia v hv
    rw [Token.isTrivia, of_decide_eq_true hk] at htrivia
    cases htrivia
  have hlast : (rest.filter fun u => u.kind = .docStringDelimiter).getLast? = some t := by
    rw [hsecond, List.filter_append, hnone, List.filter_cons_of_neg (by simp [hfeature])] at hlast
    exact hlast
  have hshift : ((rest.map (Token.shift (byteSize p))).filter
      fun u => u.kind = .docStringDelimiter).getLast? = some (t.shift (byteSize p)) := by
    rw [List.filter_map, List.getLast?_map]
    exact congrArg (Option.map _) hlast
  rw [hboth, List.filter_append, List.filter_cons_of_neg (by simp [hfeature]),
    List.getLast?_append, hshift, Option.some_or] at hlast'
  obtain rfl := Option.some.inj hlast'
  rw [hstart, hstart', byteSize_append]
  exact Span.clamp_add _ _ _

/-- The problems of a source without the one that a feature keyword mends. -/
theorem filter_degradations (hdoc : ((tokenize p).foldl Builder.step {}).inDocString = false) :
    ((parse p).degradations.filter fun d => d.kind ≠ .missingFeature) =
      ((tokenize p).foldl Builder.step {}).problems.reverse := by
  have hkeep : ∀ d ∈ ((tokenize p).foldl Builder.step {}).problems.reverse,
      decide (d.kind ≠ .missingFeature) = true := fun d hd =>
    decide_eq_true ((Builder.judged_tokenize p).kind_of_mem_problems (List.mem_reverse.mp hd))
  rw [degradations_eq, Builder.finish_snd, if_neg (Bool.eq_false_iff.mp hdoc), List.nil_append,
    List.filter_append, List.filter_eq_self.mpr hkeep]
  split <;> simp

/-- The problems of the two sources together. -/
theorem degradations_append (hp : EndsInBreak p.toList)
    (hdoc : ((tokenize p).foldl Builder.step {}).inDocString = false)
    (hf : ((tokenize s).find? fun t => !t.isTrivia) = some f) (hfeature : f.kind = .keyword .feature) :
    (parse (p ++ s)).degradations =
      ((tokenize p).foldl Builder.step {}).problems.reverse ++
        ((if ((tokenize p).foldl Builder.step {}).hasFeature then
            [⟨.duplicateFeature, f.span.shift (byteSize p)⟩] else []) ++
          (parse s).degradations.map (·.shift (byteSize p))) := by
  have halike := alike_append hp hdoc hf hfeature
  have hproblems : ((tokenize (p ++ s)).foldl Builder.step {}).problems = _ := halike.problems
  have hseen : ((tokenize s).foldl Builder.step {}).hasFeature = true :=
    (Builder.judged_tokenize s).hasFeature_iff.mpr ⟨f, List.mem_of_find?_eq_some hf, hfeature⟩
  rw [degradations_eq, degradations_eq, Builder.finish_snd, Builder.finish_snd, hproblems,
    List.reverse_append, Builder.reverse_past, halike.hasFeature_eq, hseen, halike.inDocString_eq]
  cases hopen : ((tokenize s).foldl Builder.step {}).inDocString with
  | false => simp [shiftOf]
  | true =>
    rw [if_pos rfl, if_pos rfl, unclosed_append hp hdoc hf hfeature hopen]
    simp [shiftOf, Degradation.shift]

/-- **`parse_append_feature`** — behind a source that ends in a line break and leaves no doc string
open, a source that begins with a feature keyword has the outline that it has alone, further on. -/
theorem parse_append_feature (hp : EndsInBreak p.toList)
    (hclosed : ∀ d ∈ (parse p).degradations, d.kind ≠ .unclosedDocString)
    (hf : ((tokenize s).find? fun t => !t.isTrivia) = some f)
    (hfeature : f.kind = .keyword .feature) :
    Continues (shiftOf p s) (parse p) (parse s) (parse (p ++ s)) f := by
  have hdoc := inDocString_eq_false hclosed
  obtain ⟨n, m, hresumes, hwhole, hsecond⟩ :=
    (alike_append hp hdoc hf hfeature).finish (byteSize (p ++ s)) (byteSize s)
  obtain ⟨hseen, hbelow⟩ := Builder.root_of_resumes hresumes
  obtain ⟨k, hfirst, hshows⟩ := shows_parse p
  obtain ⟨hnodes, -, -, hchildren⟩ := sights_of_root View.exact (p ++ s) hwhole
  obtain ⟨hnodes₁, -, -, hchildren₁⟩ := sights_of_root View.exact p hfirst
  obtain ⟨hnodes₂, -, -, hchildren₂⟩ := sights_of_root (View.shifted (shiftOf p s)) s hsecond
  refine ⟨?_, ?_, ?_⟩
  · rw [hnodes, hnodes₁, hnodes₂, hshows.below_eq, hbelow]
  · rw [hchildren, hchildren₁, hchildren₂]
    show n.seen .exact = k.seen .exact ++ m.seen (.shifted (shiftOf p s))
    rw [hshows.seen_eq, hseen]
  · have hany : ((parse p).tokens.any fun t => t.kind = .keyword .feature) =
        ((tokenize p).foldl Builder.step {}).hasFeature := by
      rw [Bool.eq_iff_iff, (Builder.judged_tokenize p).hasFeature_iff, List.any_eq_true]
      simp only [decide_eq_true_eq]
      rfl
    rw [hany, filter_degradations hdoc, degradations_append hp hdoc hf hfeature]
    rfl

/-- A step outside every feature, with its break split between the two sources. -/
theorem parse_append_feature_split :
    (parse "Given a\r").degradations.map (·.kind) = [.misplaced (.step .given), .missingFeature] ∧
      Continues (shiftOf "Given a\r" "\n # b\nFeature: c\nAnd <d>")
        (parse "Given a\r") (parse "\n # b\nFeature: c\nAnd <d>")
        (parse ("Given a\r" ++ "\n # b\nFeature: c\nAnd <d>"))
        ⟨.keyword .feature, ⟨6, 13, by decide⟩, "Feature"⟩ := by
  have hkinds : (parse "Given a\r").degradations.map (·.kind) =
      [.misplaced (.step .given), .missingFeature] := by decide +kernel
  refine ⟨hkinds, parse_append_feature (by decide +kernel) ?_ (by decide +kernel) rfl⟩
  intro d hd
  have hmem := List.mem_map_of_mem (f := (·.kind)) hd
  rw [hkinds] at hmem
  intro hunclosed
  simp [hunclosed] at hmem

end Append

end Outline

end FeatureFile
