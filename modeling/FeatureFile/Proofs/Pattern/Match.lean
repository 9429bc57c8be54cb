/-
# FeatureFile.Proofs.Pattern.Match — when a compiled pattern matches, and with which arguments

A pattern that compiles holds an expression that was read. The search then finds a match in a step
text if the expression matches anywhere in it (`search_isSome_iff`), and it records where the match
begins and stops, and the places of the groups under the numbers from one on
(`exists_match_of_search`). So a pattern has arguments for exactly the texts in which its expression
occurs, and they are what the groups of the preferred match hold (`arguments?_spec`).
-/

import FeatureFile.Proofs.Pattern.Arguments

namespace FeatureFile

namespace Regex

/-! ## §A The preferred match -/

/-- **`r.Occurs text`** — an expression matches somewhere in a text. -/
def Occurs (r : Regex) (text : String) : Prop :=
  ∃ i ≤ text.toList.length, ∃ j marks, r.Matches text.toList.toArray i j marks

/-- **`r.Prefers text marks`** — of the matches of an expression in a text, the one that records the
marks is preferred. Behind them and before them stand the ends of the whole match. -/
def Prefers (r : Regex) (text : String) (marks : List (Nat × Nat)) : Prop :=
  ∃ i ≤ text.toList.length, ∃ j, r.Matches text.toList.toArray i j marks ∧
    r.search text.toList.toArray = some ((1, j) :: (marks ++ [(0, i)]))

theorem Prefers.unique {r : Regex} {text : String} {marks marks' : List (Nat × Nat)}
    (h : r.Prefers text marks) (h' : r.Prefers text marks') : marks = marks' := by
  obtain ⟨_, -, _, -, hsearch⟩ := h
  obtain ⟨_, -, _, -, hsearch'⟩ := h'
  have hsame := (List.cons.inj (Option.some.inj (hsearch.symm.trans hsearch'))).2
  exact List.append_inj_left' hsame rfl

/-- What an expression records stands under the numbers of its groups. -/
theorem numbers_of_matches {r : Regex} {text : Array Char} {i j : Nat} {m : List (Nat × Nat)}
    (hm : r.Matches text i j m) : ∀ x ∈ m, ∃ g ∈ r.groups, x.1 / 2 = g.1 := by
  have turns {P : Passage} {Q : Nat × Nat → Prop} (hP : ∀ {i j m}, P i j m → ∀ x ∈ m, Q x)
      {n i j : Nat} {m : List (Nat × Nat)} (h : P.turns n i j m) : ∀ x ∈ m, Q x := by
    induction n generalizing i m with
    | zero =>
      rw [h.2]
      simp
    | succ n ih =>
      obtain ⟨k, _, _, hfirst, hrest, rfl⟩ := h
      exact List.forall_mem_append.mpr ⟨ih hrest, hP hfirst⟩
  induction r generalizing i j m with
  | empty | literal | set =>
    rw [hm.2]
    simp
  | check a =>
    rw [hm.2.2]
    simp
  | repetition least most greedy r ih =>
    obtain ⟨n, -, -, hn⟩ := hm
    exact turns ih hn
  | group index name r ih =>
    obtain ⟨inner, hinner, rfl⟩ := matches_group.mp hm
    have hown : ∀ slot, slot / 2 = index → ∃ g ∈ (group index name r).groups, slot / 2 = g.1 :=
      fun slot hslot => ⟨(index, name), List.mem_cons_self, hslot⟩
    refine List.forall_mem_cons.mpr ⟨hown _ (by omega), List.forall_mem_append.mpr ⟨?_, ?_⟩⟩
    · intro x hx
      obtain ⟨g, hg, heq⟩ := ih hinner x hx
      exact ⟨g, List.mem_cons_of_mem _ hg, heq⟩
    · exact List.forall_mem_singleton.mpr (hown _ (by omega))
  | seq r s ihr ihs =>
    obtain ⟨k, _, _, hfirst, hsecond, rfl⟩ := hm
    refine List.forall_mem_append.mpr ⟨fun x hx => ?_, fun x hx => ?_⟩
    · obtain ⟨g, hg, heq⟩ := ihs hsecond x hx
      exact ⟨g, List.mem_append_right _ hg, heq⟩
    · obtain ⟨g, hg, heq⟩ := ihr hfirst x hx
      exact ⟨g, List.mem_append_left _ hg, heq⟩
  | alt r s ihr ihs =>
    intro x hx
    obtain hr | hs := hm
    · obtain ⟨g, hg, heq⟩ := ihr hr x hx
      exact ⟨g, List.mem_append_left _ hg, heq⟩
    · obtain ⟨g, hg, heq⟩ := ihs hs x hx
      exact ⟨g, List.mem_append_right _ hg, heq⟩

section Read

variable {source : List Char} {r : Regex}

/-- Nothing is recorded under the number of the whole match. -/
theorem number_pos_of_matches (hread : Regex.read source = .ok r) {text : Array Char} {i j : Nat}
    {m : List (Nat × Nat)} (hm : r.Matches text i j m) : ∀ x ∈ m, 0 < x.1 / 2 := by
  intro x hx
  obtain ⟨g, hg, heq⟩ := numbers_of_matches hm x hx
  rw [heq]
  exact partwise_numbered.read hread g hg

/-- **What the search finds** of an expression that was read is one of its matches. -/
theorem exists_match_of_search (hread : Regex.read source = .ok r) {text : String}
    {found : List (Nat × Nat)} (h : r.search text.toList.toArray = some found) :
    ∃ i ≤ text.toList.length, ∃ j m, r.Matches text.toList.toArray i j m ∧
      found = (1, j) :: (m ++ [(0, i)]) := by
  obtain ⟨i, hi, j, hmatch⟩ := search_sound (partwise_bounded.read hread) h
  obtain ⟨m, hm, rfl⟩ := matches_group.mp hmatch
  exact ⟨i, by simpa using hi, j, m, hm, rfl⟩

/-- **The search finds a match where there is one**, and only there. -/
theorem search_isSome_iff (hread : Regex.read source = .ok r) (text : String) :
    (r.search text.toList.toArray).isSome = true ↔ r.Occurs text := by
  constructor
  · intro h
    obtain ⟨found, hfound⟩ := Option.isSome_iff_exists.mp h
    obtain ⟨i, hi, j, m, hm, -⟩ := exists_match_of_search hread hfound
    exact ⟨i, hi, j, m, hm⟩
  · rintro ⟨i, hi, j, m, hm⟩
    exact search_isSome (partwise_bounded.read hread) (by simpa using hi) hm

/-- The marks of the whole match do not show in the arguments. -/
theorem argumentOf_of_search {text : String} {i j : Nat} {m : List (Nat × Nat)} {index : Nat}
    (hindex : 0 < index) :
    r.argumentOf ((1, j) :: (m ++ [(0, i)])) text.toList index = r.argumentOf m text.toList index := by
  unfold argumentOf argumentAt
  rw [← List.singleton_append, groupRange?_append_left, groupRange?_append_right]
  · simpa using Nat.ne_of_lt hindex
  · simpa using Nat.ne_of_lt hindex

end Read

end Regex

/-! ## §B Compiled patterns -/

/-- **`p.Holds text args`** — the arguments are what the groups of the expression hold of a text, from
number one to the last: the name of the group, and the piece of the text that it matched, with its
place; a group that took no part has the empty text and no place. -/
def CompiledPattern.Holds (p : CompiledPattern) (text : String) (args : List StepArgument) : Prop :=
  ∃ marks, p.regex.Prefers text marks ∧
    args = (List.range' 1 p.regex.groupCount).map (p.regex.argumentOf marks text.toList)

theorem CompiledPattern.Holds.unique {p : CompiledPattern} {text : String}
    {args args' : List StepArgument} (h : p.Holds text args) (h' : p.Holds text args') :
    args = args' := by
  obtain ⟨marks, hmarks, rfl⟩ := h
  obtain ⟨marks', hmarks', rfl⟩ := h'
  rw [hmarks.unique hmarks']

namespace StepPattern

/-- The source of a pattern that compiles is the one that belongs to it, and it is read as its
expression. -/
theorem read_of_compile {pattern : StepPattern} {p : CompiledPattern} (h : pattern.compile = .ok p) :
    pattern.regexSource = .ok p.source ∧ Regex.read p.source.toList = .ok p.regex := by
  unfold compile at h
  split at h
  · exact absurd h (by simp)
  · rename_i source hsource
    split at h
    · exact absurd h (by simp)
    · rename_i r hparse
      obtain rfl := Except.ok.inj h
      refine ⟨hsource, ?_⟩
      unfold Regex.parse at hparse
      split at hparse
      · rename_i hread
        split at hparse
        · rw [hread, Except.ok.inj hparse]
        · exact absurd hparse (by simp)
      · exact absurd hparse (by simp)

/-- **`arguments?_spec`** — a compiled pattern has arguments for the texts in which its expression
occurs, and for no others; and they are what its groups hold. -/
theorem arguments?_spec {pattern : StepPattern} {p : CompiledPattern} (h : pattern.compile = .ok p)
    (text : String) :
    ((p.arguments? text).isSome = true ↔ p.regex.Occurs text) ∧
      ∀ args, p.arguments? text = some args → p.Holds text args := by
  obtain ⟨-, hread⟩ := read_of_compile h
  rw [arguments?_eq, Option.isSome_map]
  refine ⟨Regex.search_isSome_iff hread text, fun args hargs => ?_⟩
  obtain ⟨found, hfound, rfl⟩ := Option.map_eq_some_iff.mp hargs
  obtain ⟨i, hi, j, m, hm, rfl⟩ := Regex.exists_match_of_search hread hfound
  refine ⟨m, ⟨i, hi, j, hm, hfound⟩, List.map_congr_left fun index hindex => ?_⟩
  exact Regex.argumentOf_of_search (List.mem_range'_1.mp hindex).1

end StepPattern

end FeatureFile
