/-
# FeatureFile.Proofs.Catalog.Ranking — what a look-up answers, and in which order

A definition matches a text when its regular expression occurs in it, and the match that it answers
holds its location, its pattern and what the groups of the expression hold (`Found`). A look-up
answers one match for each definition that matches the text, and there is one order in which it may
answer them (`Ranked`): the more specific before the less, and the equally specific as they are
searched. That order is unique (`Ranked.unique`), so what a look-up answers is determined by the
definitions of each keyword alone, and the matches of one keyword among all matches stand in the
order in which a look-up for that keyword answers them (`Ranked.restrict`).

Which of two scores is the more specific is said by `Beats`, and the comparison decides it. Main
statement: `run_ranksMatches`.
-/

import FeatureFile.Proofs.Catalog.History
import FeatureFile.Proofs.Pattern.Match
import FeatureFile.Reference
import Mathlib.Data.List.Basic

namespace FeatureFile

/-! ## §A The order of scores -/

namespace Specificity

/-- **`a.Beats b`** — a score is the more specific one: it has more literal characters, or else fewer
placeholders, or else more placeholders of a type. -/
def Beats (a b : Specificity) : Prop :=
  b.literals < a.literals ∨ b.literals = a.literals ∧
    (a.placeholders < b.placeholders ∨ a.placeholders = b.placeholders ∧ b.typed < a.typed)

theorem compare_eq_gt_iff (a b : Specificity) : a.compare b = .gt ↔ a.Beats b := by
  simp only [compare, Ordering.then_eq_gt, Nat.compare_eq_gt, Nat.compare_eq_eq, Beats]
  omega

theorem compare_eq_eq_iff (a b : Specificity) : a.compare b = .eq ↔ a = b := by
  obtain ⟨literals, placeholders, typed⟩ := a
  obtain ⟨literals', placeholders', typed'⟩ := b
  simp only [compare, Ordering.then_eq_eq, Nat.compare_eq_eq, mk.injEq]
  omega

theorem compare_swap (a b : Specificity) : b.compare a = (a.compare b).swap := by
  simp only [compare, Ordering.swap_then, Nat.compare_swap]

/-- A score that is not beaten comes first or is equal. -/
theorem isLE_compare_iff (a b : Specificity) : (a.compare b).isLE = true ↔ ¬ a.Beats b := by
  rw [Ordering.isLE_iff_ne_gt, ← compare_eq_gt_iff]

theorem isLE_compare_trans {a b c : Specificity} (hab : (a.compare b).isLE = true)
    (hbc : (b.compare c).isLE = true) : (a.compare c).isLE = true := by
  rw [isLE_compare_iff] at hab hbc ⊢
  simp only [Beats] at hab hbc ⊢
  omega

theorem eq_of_not_beats {a b : Specificity} (hab : ¬ a.Beats b) (hba : ¬ b.Beats a) : a = b := by
  rw [← compare_eq_eq_iff]
  cases h : a.compare b with
  | eq => rfl
  | gt => exact absurd ((compare_eq_gt_iff a b).mp h) hab
  | lt =>
    have hswap := compare_swap a b
    rw [h] at hswap
    exact absurd ((compare_eq_gt_iff b a).mp hswap) hba

instance : Std.TransCmp Specificity.compare where
  eq_swap := compare_swap _ _
  isLE_trans := isLE_compare_trans

instance : Std.LawfulEqCmp Specificity.compare where
  compare_self := (compare_eq_eq_iff _ _).mpr rfl
  eq_of_compare := (compare_eq_eq_iff _ _).mp

end Specificity

/-! ## §B The matches of definitions -/

namespace StepDefinition

/-- **`d.Matches text`** — the regular expression of a definition matches a step text. -/
def Matches (d : StepDefinition) (text : String) : Prop := d.compiled.regex.Occurs text

/-- **`d.Answers text m`** — a match says where a definition is declared, how its pattern is written,
and what the groups of its expression hold of a step text. -/
structure Answers (d : StepDefinition) (text : String) (m : StepMatch) : Prop where
  location_eq : m.location = d.location
  pattern_eq : m.pattern = d.pattern.text
  arguments_held : d.compiled.Holds text m.arguments

theorem Answers.unique {d : StepDefinition} {text : String} {m m' : StepMatch}
    (h : d.Answers text m) (h' : d.Answers text m') : m = m' := by
  obtain ⟨location, pattern, arguments⟩ := m
  obtain ⟨location', pattern', arguments'⟩ := m'
  obtain rfl : location = location' := h.location_eq.trans h'.location_eq.symm
  obtain rfl : pattern = pattern' := h.pattern_eq.trans h'.pattern_eq.symm
  rw [show arguments = arguments' from h.arguments_held.unique h'.arguments_held]

/-- **A compiled definition answers a text exactly if it matches it**, and what it answers holds its
location, its pattern and its groups. -/
theorem Compiled.match?_spec {d : StepDefinition} (hd : d.Compiled) (text : String) :
    ((d.match? text).isSome = true ↔ d.Matches text) ∧
      ∀ m, d.match? text = some m → d.Answers text m := by
  obtain ⟨hmatches, hholds⟩ := StepPattern.arguments?_spec hd.compile_eq text
  refine ⟨?_, fun m hm => ?_⟩
  · rw [match?, Option.isSome_map]
    exact hmatches
  · obtain ⟨args, hargs, rfl⟩ := Option.map_eq_some_iff.mp hm
    exact ⟨rfl, rfl, hholds args hargs⟩

end StepDefinition

/-- A definition with its match. -/
abbrev Hit := StepDefinition × StepMatch

/-- **`Found text definitions found`** — of some definitions, those that match a step text, in the
same order, each with the match that it answers. -/
inductive Found (text : String) : List StepDefinition → List Hit → Prop
  | nil : Found text [] []
  | hit {d : StepDefinition} {m : StepMatch} {ds : List StepDefinition} {found : List Hit} :
      d.Matches text → d.Answers text m → Found text ds found →
      Found text (d :: ds) ((d, m) :: found)
  | miss {d : StepDefinition} {ds : List StepDefinition} {found : List Hit} :
      ¬ d.Matches text → Found text ds found → Found text (d :: ds) found

theorem Found.unique {text : String} {definitions : List StepDefinition} {found found' : List Hit}
    (h : Found text definitions found) (h' : Found text definitions found') : found = found' := by
  induction h generalizing found' with
  | nil =>
    cases h'
    rfl
  | hit hmatches hanswers _ ih =>
    cases h' with
    | hit _ hanswers' hrest' => rw [hanswers.unique hanswers', ih hrest']
    | miss hnot _ => exact absurd hmatches hnot
  | miss hnot _ ih =>
    cases h' with
    | hit hmatches _ _ => exact absurd hmatches hnot
    | miss _ hrest' => exact ih hrest'

/-- What is found among the definitions of one keyword. -/
theorem Found.filter {text : String} {definitions : List StepDefinition} {found : List Hit}
    (h : Found text definitions found) (keyword : StepKeyword) :
    Found text (definitions.filter fun d => d.keyword = keyword)
      (found.filter fun x => x.1.keyword = keyword) := by
  induction h with
  | nil => exact .nil
  | @hit d m ds found hmatches hanswers _ ih =>
    rw [List.filter_cons, List.filter_cons]
    by_cases hd : d.keyword = keyword
    · rw [if_pos (decide_eq_true hd), if_pos (decide_eq_true hd)]
      exact .hit hmatches hanswers ih
    · rw [if_neg (by simpa using hd), if_neg (by simpa using hd)]
      exact ih
  | @miss d ds found hnot _ ih =>
    rw [List.filter_cons]
    split
    · exact .miss hnot ih
    · exact ih

/-! ## §C The one order of matches -/

namespace Catalog

/-- What the definitions answer to a text, in the order in which they are searched. -/
def hits (definitions : List StepDefinition) (text : String) : List Hit :=
  definitions.filterMap fun d => (d.match? text).map fun m => (d, m)

theorem found_hits {definitions : List StepDefinition} (h : ∀ d ∈ definitions, d.Compiled)
    (text : String) : Found text definitions (hits definitions text) := by
  induction definitions with
  | nil => exact .nil
  | cons d ds ih =>
    obtain ⟨hd, hds⟩ := List.forall_mem_cons.mp h
    obtain ⟨hmatches, hanswers⟩ := hd.match?_spec text
    rw [hits, List.filterMap_cons]
    cases hm : d.match? text with
    | none => exact .miss (fun hd => by simpa [hm] using hmatches.mpr hd) (ih hds)
    | some m => exact .hit (hmatches.mp (by simp [hm])) (hanswers m hm) (ih hds)

/-- **`Arranges found order`** — an order holds what was found, no definition stands in it before a
more specific one, and the equally specific stand as they were found. -/
structure Arranges (found order : List Hit) : Prop where
  perm : order.Perm found
  sorted : order.Pairwise fun x y => ¬ y.1.specificity.Beats x.1.specificity
  stable : ∀ score : Specificity, (order.filter fun x => x.1.specificity = score) =
    found.filter fun x => x.1.specificity = score

/-- **`Ranked definitions text order`** — an order of the definitions that match a text, each with
its match: every one of them once, the more specific before the less, and the equally specific as
they are searched. -/
def Ranked (definitions : List StepDefinition) (text : String) (order : List Hit) : Prop :=
  ∃ found, Found text definitions found ∧ Arranges found order

/-- Two lists of hits that are both in order and agree on each score are the same list. -/
theorem eq_of_sorted {a b : List Hit}
    (ha : a.Pairwise fun x y => ¬ y.1.specificity.Beats x.1.specificity)
    (hb : b.Pairwise fun x y => ¬ y.1.specificity.Beats x.1.specificity)
    (h : ∀ score : Specificity, (a.filter fun x => x.1.specificity = score) =
      b.filter fun x => x.1.specificity = score) : a = b := by
  -- A hit of one list stands in the other, among those of its score.
  have hmem : ∀ {l l' : List Hit}, (∀ score : Specificity,
      (l.filter fun x => x.1.specificity = score) = l'.filter fun x => x.1.specificity = score) →
      ∀ x ∈ l, x ∈ l' := by
    intro l l' hl x hx
    have hfilter : x ∈ l.filter fun y => y.1.specificity = x.1.specificity :=
      List.mem_filter.mpr ⟨hx, by simp⟩
    rw [hl] at hfilter
    exact (List.mem_filter.mp hfilter).1
  induction a generalizing b with
  | nil =>
    cases b with
    | nil => rfl
    | cons y b => exact absurd (hmem (fun s => (h s).symm) y List.mem_cons_self) List.not_mem_nil
  | cons x a ih =>
    cases b with
    | nil => exact absurd (hmem h x List.mem_cons_self) List.not_mem_nil
    | cons y b =>
      obtain ⟨hx, haTail⟩ := List.pairwise_cons.mp ha
      obtain ⟨hy, hbTail⟩ := List.pairwise_cons.mp hb
      -- Neither head beats the other: each stands somewhere behind the other, or is it.
      have hyx : ¬ y.1.specificity.Beats x.1.specificity := by
        rcases List.mem_cons.mp (hmem (fun s => (h s).symm) y List.mem_cons_self) with rfl | hmem
        · simp [Specificity.Beats]
        · exact hx y hmem
      have hxy : ¬ x.1.specificity.Beats y.1.specificity := by
        rcases List.mem_cons.mp (hmem h x List.mem_cons_self) with rfl | hmem
        · simp [Specificity.Beats]
        · exact hy x hmem
      have hscore : x.1.specificity = y.1.specificity := Specificity.eq_of_not_beats hxy hyx
      have hhead : x = y := by
        have := h x.1.specificity
        rw [List.filter_cons_of_pos (by simp), List.filter_cons_of_pos (by simp [hscore])] at this
        exact (List.cons.inj this).1
      subst hhead
      congr 1
      refine ih haTail hbTail fun score => ?_
      have hboth := h score
      rw [List.filter_cons, List.filter_cons] at hboth
      split at hboth
      · exact (List.cons.inj hboth).2
      · exact hboth

theorem Ranked.unique {definitions : List StepDefinition} {text : String} {order order' : List Hit}
    (h : Ranked definitions text order) (h' : Ranked definitions text order') : order = order' := by
  obtain ⟨found, hfound, harranges⟩ := h
  obtain ⟨found', hfound', harranges'⟩ := h'
  obtain rfl := hfound.unique hfound'
  refine eq_of_sorted harranges.sorted harranges'.sorted fun score => ?_
  rw [harranges.stable, harranges'.stable]

/-! ## §D The order of a look-up -/

/-- Whether a hit may stand before another. -/
def precedes (x y : Hit) : Bool := (y.1.specificity.compare x.1.specificity).isLE

theorem precedes_trans (x y z : Hit) (hxy : precedes x y = true) (hyz : precedes y z = true) :
    precedes x z = true := Specificity.isLE_compare_trans hyz hxy

theorem precedes_total (x y : Hit) : (precedes x y || precedes y x) = true := by
  rw [Bool.or_eq_true, precedes, precedes, Specificity.isLE_compare_iff,
    Specificity.isLE_compare_iff]
  simp only [Specificity.Beats]
  omega

/-- The hits of one score come out of the sort as they went in. -/
theorem filter_mergeSort (l : List Hit) (score : Specificity) :
    ((l.mergeSort precedes).filter fun x => x.1.specificity = score) =
      l.filter fun x => x.1.specificity = score := by
  have hsorted : (l.filter fun x => x.1.specificity = score).Pairwise
      fun x y => precedes x y = true := by
    refine List.pairwise_of_forall_mem_list fun x hx y hy => ?_
    have hx := of_decide_eq_true (List.mem_filter.mp hx).2
    have hy := of_decide_eq_true (List.mem_filter.mp hy).2
    rw [precedes, hx, hy, Specificity.isLE_compare_iff]
    simp [Specificity.Beats]
  have hsub := (List.sublist_mergeSort precedes_trans precedes_total hsorted
    List.filter_sublist).filter fun x => x.1.specificity = score
  rw [List.filter_filter] at hsub
  simp only [Bool.and_self] at hsub
  exact (hsub.eq_of_length ((List.mergeSort_perm l precedes).filter _).length_eq.symm).symm

theorem arranges_mergeSort (found : List Hit) : Arranges found (found.mergeSort precedes) where
  perm := List.mergeSort_perm _ _
  sorted := (List.pairwise_mergeSort precedes_trans precedes_total _).imp fun h =>
    (Specificity.isLE_compare_iff _ _).mp h
  stable := filter_mergeSort _

theorem ranked_mergeSort {definitions : List StepDefinition} (h : ∀ d ∈ definitions, d.Compiled)
    (text : String) : Ranked definitions text ((hits definitions text).mergeSort precedes) :=
  ⟨_, found_hits h text, arranges_mergeSort _⟩

/-- A look-up answers the matches of the sorted hits. -/
theorem rank_eq (definitions : List StepDefinition) (text : String) :
    rank definitions text = ((hits definitions text).mergeSort precedes).map Prod.snd := by
  let scored : Hit → Specificity × StepMatch := fun x => (x.1.specificity, x.2)
  have hfound : (definitions.filterMap fun d =>
      (d.match? text).map fun m => (d.specificity, m)) = (hits definitions text).map scored := by
    rw [hits, List.map_filterMap]
    refine List.filterMap_congr fun d _ => ?_
    rw [Option.map_map]
    rfl
  have hsort := List.map_mergeSort (f := scored) (r := precedes)
    (s := fun a b => (b.1.compare a.1).isLE) (l := hits definitions text) fun _ _ _ _ => rfl
  rw [rank, hfound, ← hsort, List.map_map]
  rfl

/-- **`IsOnlyRanked definitions text order`** — the order is ranked, and no other is. -/
def IsOnlyRanked (definitions : List StepDefinition) (text : String) (order : List Hit) : Prop :=
  ∀ other, Ranked definitions text other ↔ other = order

theorem Ranked.isOnlyRanked {definitions : List StepDefinition} {text : String} {order : List Hit}
    (h : Ranked definitions text order) : IsOnlyRanked definitions text order := by
  intro other
  constructor
  · intro hother
    exact hother.unique h
  · rintro rfl
    exact h

/-! ## §E The matches of one keyword among all -/

/-- The definitions of all keywords, in the order in which a look-up for any keyword searches
them. -/
def allDefinitions (c : Catalog) : List StepDefinition :=
  c.definitionsFor .given ++ c.definitionsFor .when ++ c.definitionsFor .then

theorem find_eq (c : Catalog) (text : String) : c.find text = rank c.allDefinitions text := by
  rw [find, allDefinitions, List.append_assoc, StepKeyword.concrete]
  simp only [List.flatMap_cons, List.flatMap_nil, List.append_nil]

theorem Filed.filter_definitionsFor {c : Catalog} (hc : c.Filed) (keyword key : StepKeyword) :
    ((c.definitionsFor key).filter fun d => d.keyword = keyword) =
      if key = keyword then c.definitionsFor keyword else [] := by
  split
  · rename_i h
    subst h
    exact List.filter_eq_self.mpr fun d hd => decide_eq_true (hc.keyword_of_mem hd)
  · rename_i h
    refine List.filter_eq_nil_iff.mpr fun d hd => ?_
    rw [hc.keyword_of_mem hd, decide_eq_true_eq]
    exact h

/-- Each keyword's definitions are those of all that are registered for it. -/
theorem Filed.filter_allDefinitions {c : Catalog} (hc : c.Filed) {keyword : StepKeyword}
    (h : keyword.isConjunction = false) :
    (c.allDefinitions.filter fun d => d.keyword = keyword) = c.definitionsFor keyword := by
  rw [allDefinitions, List.filter_append, List.filter_append, hc.filter_definitionsFor,
    hc.filter_definitionsFor, hc.filter_definitionsFor]
  cases keyword with
  | given | when | «then» => simp
  | and | but => cases h

/-- A ranked order of definitions, restricted to a keyword, is the ranked order of those that are
registered for it. -/
theorem Ranked.restrict {definitions : List StepDefinition} {text : String} {order : List Hit}
    (h : Ranked definitions text order) (keyword : StepKeyword) :
    Ranked (definitions.filter fun d => d.keyword = keyword) text
      (order.filter fun x => x.1.keyword = keyword) := by
  obtain ⟨found, hfound, harranges⟩ := h
  refine ⟨_, hfound.filter keyword, harranges.perm.filter _, harranges.sorted.filter _, ?_⟩
  intro score
  -- The two restrictions, to a keyword and to a score, may be made in either order.
  have hswap : ∀ l : List Hit,
      ((l.filter fun x => x.1.keyword = keyword).filter fun x => x.1.specificity = score) =
        (l.filter fun x => x.1.specificity = score).filter fun x => x.1.keyword = keyword := by
    intro l
    rw [List.filter_filter, List.filter_filter]
    exact List.filter_congr fun x _ => Bool.and_comm _ _
  rw [hswap, hswap, harranges.stable]

/-! ## §F The order of the table -/

theorem definitionsFor_of_mem {table : List (StepKeyword × List StepDefinition)}
    (hnodup : (table.map Prod.fst).Nodup) {keyword : StepKeyword} {ds : List StepDefinition}
    (h : (keyword, ds) ∈ table) : definitionsFor ⟨table⟩ keyword = ds := by
  induction table with
  | nil => exact absurd h List.not_mem_nil
  | cons first table ih =>
    obtain ⟨key, firsts⟩ := first
    obtain ⟨hkey, hnodup⟩ := List.nodup_cons.mp hnodup
    rw [definitionsFor_cons]
    rcases List.mem_cons.mp h with heq | hmem
    · obtain ⟨rfl, rfl⟩ := Prod.mk.inj heq
      exact if_pos rfl
    · have hne : keyword ≠ key := by
        rintro rfl
        exact hkey (List.mem_map.mpr ⟨_, hmem, rfl⟩)
      rw [if_neg hne]
      exact ih hnodup hmem

theorem Filed.of_perm {c c' : Catalog} (hc : c.Filed) (hperm : c'.byKeyword.Perm c.byKeyword) :
    c'.Filed :=
  ⟨(hperm.map Prod.fst).nodup_iff.mpr hc.nodup_keys, fun x hx => hc.sound x (hperm.mem_iff.mp hx)⟩

/-- The definitions of a keyword do not depend on the order in which the table holds the
keywords. -/
theorem Filed.definitionsFor_of_perm {c c' : Catalog} (hc : c.Filed)
    (hperm : c'.byKeyword.Perm c.byKeyword) (keyword : StepKeyword) :
    c'.definitionsFor keyword = c.definitionsFor keyword := by
  by_cases hentered : keyword ∈ c.byKeyword.map Prod.fst
  · obtain ⟨⟨key, ds⟩, hmem, rfl⟩ := List.mem_map.mp hentered
    have hmem' : (key, ds) ∈ c'.byKeyword := hperm.mem_iff.mpr hmem
    exact (definitionsFor_of_mem (hc.of_perm hperm).nodup_keys hmem').trans
      (definitionsFor_of_mem hc.nodup_keys hmem).symm
  · have hentered' : keyword ∉ c'.byKeyword.map Prod.fst := by
      rwa [(hperm.map Prod.fst).mem_iff]
    rw [definitionsFor, definitionsFor, lookup_eq_none hentered, lookup_eq_none hentered']

/-! ## §G What a look-up answers -/

/-- Every definition that is left was handed in, and compiled. -/
theorem exists_submission_of_mem_survivors {changes : List CatalogChange} {d : StepDefinition}
    (h : d ∈ survivors changes) :
    ∃ change ∈ changes, ∃ s ∈ change.submissions,
      StepDefinition.compile s.1 s.2.1 s.2.2 = .ok d := by
  induction changes with
  | nil => exact absurd h List.not_mem_nil
  | cons change later ih =>
    rcases List.mem_append.mp h with h | h
    · obtain ⟨s, hs, hcompiled⟩ := List.mem_filterMap.mp (List.mem_filter.mp h).1
      exact ⟨change, List.mem_cons_self, s, hs, Submission.compiled?_eq_some hcompiled⟩
    · obtain ⟨other, hother, hrest⟩ := ih h
      exact ⟨other, List.mem_cons_of_mem _ hother, hrest⟩

theorem mem_survivors_of_mem {changes : List CatalogChange} {keyword : StepKeyword}
    {d : StepDefinition} (h : d ∈ (run changes).definitionsFor keyword) : d ∈ survivors changes := by
  rw [definitionsFor_run] at h
  exact (List.mem_filter.mp h).1

theorem compiled_of_mem (changes : List CatalogChange) (keyword : StepKeyword) :
    ∀ d ∈ (run changes).definitionsFor keyword, d.Compiled := by
  intro d h
  obtain ⟨_, -, _, -, hcompile⟩ := exists_submission_of_mem_survivors (mem_survivors_of_mem h)
  exact (StepDefinition.compile_eq_ok_iff.mp hcompile).compiled

theorem compiled_of_mem_allDefinitions (changes : List CatalogChange) :
    ∀ d ∈ (run changes).allDefinitions, d.Compiled := by
  intro d h
  rcases List.mem_append.mp h with h | h
  · rcases List.mem_append.mp h with h | h <;> exact compiled_of_mem changes _ d h
  · exact compiled_of_mem changes _ d h

/-- **`c.RanksMatches changes`** — the look-ups of the catalog that changes leave, and what the
references of steps resolve to in it. -/
structure RanksMatches (c : Catalog) (changes : List CatalogChange) : Prop where
  /-- The definitions of a keyword are searched in the order of their insertion. -/
  searched : ∀ keyword,
    c.definitionsFor keyword = (survivors changes).filter fun d => d.keyword = keyword
  /-- Each of them was handed in with its text and its location, and it holds the expression and the
  score of its pattern. -/
  compiled : ∀ keyword, ∀ d ∈ c.definitionsFor keyword,
    (∃ change ∈ changes, ∃ text, (keyword, text, d.location) ∈ change.submissions ∧
      d.pattern = .ofText text) ∧ d.keyword = keyword ∧ d.Compiled
  /-- A definition is accepted when its keyword stands for itself and its pattern has an expression
  and a score. -/
  accepted : ∀ keyword text location d,
    StepDefinition.compile keyword text location = .ok d ↔ d.Accepted keyword text location
  /-- A look-up for a keyword that stands for itself answers the matches of its definitions, in the
  one order that is ranked. -/
  findFor_ranked : ∀ keyword text, keyword.isConjunction = false →
    ∃ order, IsOnlyRanked (c.definitionsFor keyword) text order ∧
      c.findFor keyword text = order.map Prod.snd
  /-- A look-up for any keyword answers the matches of all definitions, in the one order that is
  ranked; in it stand the matches of each keyword as that keyword answers them. -/
  find_ranked : ∀ text, ∃ order, IsOnlyRanked c.allDefinitions text order ∧
    c.find text = order.map Prod.snd ∧
      ∀ keyword, keyword.isConjunction = false →
        c.findFor keyword text = (order.filter fun x => x.1.keyword = keyword).map Prod.snd
  /-- A conjunction searches all definitions. -/
  findFor_conjunction : ∀ keyword text, keyword.isConjunction = true →
    c.findFor keyword text = c.find text
  /-- The order in which the table holds the keywords does not show. -/
  of_perm : ∀ c' : Catalog, c'.byKeyword.Perm c.byKeyword → c'.SameAnswers c
  /-- A reference is unresolved, resolved or ambiguous as none, one or more definitions match, and
  its outcome holds the matches as they were answered. -/
  resolved : ∀ r : StepReference,
    (r.resolve c.findFor = .unresolved ↔ (c.findFor r.keyword r.text).length = 0) ∧
    ((∃ m, r.resolve c.findFor = .resolved m) ↔ (c.findFor r.keyword r.text).length = 1) ∧
    ((∃ ms, r.resolve c.findFor = .ambiguous ms) ↔ 2 ≤ (c.findFor r.keyword r.text).length) ∧
    (r.resolve c.findFor).found = c.findFor r.keyword r.text

theorem findFor_eq_rank (c : Catalog) {keyword : StepKeyword} (text : String)
    (h : keyword.isConjunction = false) :
    c.findFor keyword text = rank (c.definitionsFor keyword) text := by
  rw [findFor, h]
  rfl

/-- A look-up for one keyword is the look-up for any keyword, restricted to it. -/
theorem findFor_run_eq_filter (changes : List CatalogChange) {keyword : StepKeyword} (text : String)
    (h : keyword.isConjunction = false) :
    (run changes).findFor keyword text =
      (((hits (run changes).allDefinitions text).mergeSort precedes).filter
        fun x => x.1.keyword = keyword).map Prod.snd := by
  have hall := ranked_mergeSort (compiled_of_mem_allDefinitions changes) text
  have hrestrict := hall.restrict keyword
  rw [(filed_run changes).filter_allDefinitions h] at hrestrict
  have hown := ranked_mergeSort (compiled_of_mem changes keyword) text
  rw [findFor_eq_rank _ text h, rank_eq, hrestrict.unique hown]

/-- How many matches there are decides the outcome. -/
theorem ofMatches_cases (ms : List StepMatch) :
    (Resolution.ofMatches ms = .unresolved ↔ ms.length = 0) ∧
    ((∃ m, Resolution.ofMatches ms = .resolved m) ↔ ms.length = 1) ∧
    ((∃ found, Resolution.ofMatches ms = .ambiguous found) ↔ 2 ≤ ms.length) := by
  match ms with
  | [] | [_] | _ :: _ :: _ => simp [Resolution.ofMatches]

/-- **`run_ranksMatches`** — after every run of changes, a look-up answers one match for each
definition that matches, in the one order in which the more specific come first and the equally
specific stand as they were inserted; and scores are in a total order. -/
theorem run_ranksMatches (changes : List CatalogChange) :
    (run changes).RanksMatches changes ∧
      (∀ a b : Specificity, a.compare b = .gt ↔ a.Beats b) ∧
      Std.TransCmp Specificity.compare ∧ Std.LawfulEqCmp Specificity.compare := by
  refine ⟨?_, Specificity.compare_eq_gt_iff, inferInstance, inferInstance⟩
  have hfiled := filed_run changes
  constructor
  case searched => exact definitionsFor_run changes
  case compiled =>
    intro keyword d hd
    obtain ⟨change, hchange, ⟨key, text, location⟩, hs, hcompile⟩ :=
      exists_submission_of_mem_survivors (mem_survivors_of_mem hd)
    have hspec := StepDefinition.compile_eq_ok_iff.mp hcompile
    have hkeyword := hfiled.keyword_of_mem hd
    obtain rfl : keyword = key := hkeyword.symm.trans hspec.keyword_eq
    refine ⟨⟨change, hchange, text, ?_, hspec.pattern_eq⟩, hkeyword, hspec.compiled⟩
    rw [hspec.location_eq]
    exact hs
  case accepted => exact fun _ _ _ _ => StepDefinition.compile_eq_ok_iff
  case findFor_ranked =>
    intro keyword text hkeyword
    have hranked := ranked_mergeSort (compiled_of_mem changes keyword) text
    refine ⟨_, hranked.isOnlyRanked, ?_⟩
    rw [findFor_eq_rank _ text hkeyword, rank_eq]
  case find_ranked =>
    intro text
    have hranked := ranked_mergeSort (compiled_of_mem_allDefinitions changes) text
    refine ⟨_, hranked.isOnlyRanked, ?_, ?_⟩
    · rw [find_eq, rank_eq]
    · intro keyword hkeyword
      exact findFor_run_eq_filter changes text hkeyword
  case findFor_conjunction =>
    intro keyword text hkeyword
    rw [findFor, if_pos hkeyword]
  case of_perm =>
    intro c' hperm
    exact (hfiled.of_perm hperm).sameAnswers hfiled (hfiled.definitionsFor_of_perm hperm)
  case resolved =>
    intro r
    obtain ⟨hnone, hone, hmany⟩ := ofMatches_cases ((run changes).findFor r.keyword r.text)
    exact ⟨hnone, hone, hmany, Resolution.found_ofMatches _⟩

end Catalog

end FeatureFile
