/-
# FeatureFile.Proofs.Reference.Requests — what a cache of references answers

A cache is asked for steps of any outlines in any order, and is cleared now and then. What it holds
at each moment is said without running it: the requests since it was last cleared, and of these the
ones that concern the same outline as the last, without a break (`current`). Node numbers of
different outlines collide, so the entries are right only because all of them come from `current`.

One call keeps this and is answered as if nothing had been kept (`holds_call`); a run of calls
follows by induction. Main statement: `run_servesFresh`.
-/

import FeatureFile.Proofs.Outline.Tree
import FeatureFile.Reference.Cache
import Mathlib.Data.List.Dedup

namespace FeatureFile

namespace Outline

/-- A step of an outline is known by the number of its node. -/
theorem step_eq_of_id {source : String} {s s' : Step} (hs : s ∈ (parse source).steps)
    (hs' : s' ∈ (parse source).steps) (hid : s.node.id = s'.node.id) : s = s' := by
  have hids := ids_parse source
  obtain ⟨hmem, hkind⟩ := mem_steps_iff.mp hs
  obtain ⟨hmem', hkind'⟩ := mem_steps_iff.mp hs'
  have hnode := (node?_eq_some_iff hids).mpr ⟨hmem, hid⟩
  have hnode' := (node?_eq_some_iff hids).mpr ⟨hmem', rfl⟩
  obtain ⟨n, k, e⟩ := s
  obtain ⟨n', k', e'⟩ := s'
  obtain rfl : n = n' := Option.some.inj (hnode.symm.trans hnode')
  obtain ⟨rfl, rfl⟩ := NodeKind.step.inj (hkind.symm.trans hkind')
  rfl

end Outline

/-! ## §A Calls -/

section Calls

variable {Tree : Type} (source : Tree → String)

/-- A request: a step of one of many outlines. -/
structure StepRequest where
  tree : Tree
  step : Step
  mem_steps : step ∈ (Outline.parse (source tree)).steps

/-- A call to a cache. -/
inductive CacheCall where
  | reference (request : StepRequest source)
  | resolve (request : StepRequest source) (find : StepKeyword → String → List StepMatch)
  | clear

/-- What a call is answered with. -/
inductive CacheAnswer where
  | reference (r : StepReference)
  | resolution (r : Resolution)
  | cleared

variable {source}

namespace CacheCall

/-- The request of a call that makes one. -/
def request? : CacheCall source → Option (StepRequest source)
  | reference r => some r
  | resolve r _ => some r
  | clear => none

/-- The answer that needs no cache. -/
def fresh : CacheCall source → CacheAnswer
  | reference r => .reference r.step.reference
  | resolve r find => .resolution (r.step.reference.resolve find)
  | clear => .cleared

end CacheCall

namespace ReferenceCache

/-- The cache after a call, and its answer. -/
def call (generation : Tree → Nat) (c : ReferenceCache) :
    CacheCall source → ReferenceCache × CacheAnswer
  | .reference r =>
    let (c, answer) := c.reference (generation r.tree) r.step
    (c, .reference answer)
  | .resolve r find =>
    let (c, answer) := c.resolve (generation r.tree) r.step find
    (c, .resolution answer)
  | .clear => (c.clear, .cleared)

/-- An empty cache after calls, and their answers. -/
def run (generation : Tree → Nat) (calls : List (CacheCall source)) :
    ReferenceCache × List CacheAnswer :=
  calls.foldl (fun (c, answers) next =>
    let (c, answer) := c.call generation next
    (c, answers ++ [answer])) ({}, [])

theorem run_append (generation : Tree → Nat) (calls : List (CacheCall source))
    (next : CacheCall source) :
    run generation (calls ++ [next]) =
      (((run generation calls).1.call generation next).1,
        (run generation calls).2 ++ [((run generation calls).1.call generation next).2]) := by
  rw [run, List.foldl_append]
  rfl

end ReferenceCache

/-! ## §B The requests that count -/

/-- The requests since the last clearing, the latest first. -/
def sinceClear (calls : List (CacheCall source)) : List (StepRequest source) :=
  (calls.reverse.takeWhile (·.request?.isSome)).filterMap CacheCall.request?

/-- The tree of the last request since the last clearing. -/
def currentTree? (calls : List (CacheCall source)) : Option Tree :=
  (sinceClear calls).head?.map (·.tree)

/-- The requests for the current tree since the cache turned to it or was cleared, the latest
first. -/
def current [DecidableEq Tree] (calls : List (CacheCall source)) : List (StepRequest source) :=
  (sinceClear calls).takeWhile fun r => some r.tree = currentTree? calls

theorem sinceClear_append (calls : List (CacheCall source)) (next : CacheCall source) :
    sinceClear (calls ++ [next]) =
      (next.request?.map (· :: sinceClear calls)).getD [] := by
  rw [sinceClear, List.reverse_append]
  cases next <;> rfl

variable [DecidableEq Tree]

/-- A request for the current tree joins those before it; one for another tree stands alone. -/
theorem current_append {next : CacheCall source} {r : StepRequest source}
    (h : next.request? = some r) (calls : List (CacheCall source)) :
    current (calls ++ [next]) =
      r :: if currentTree? calls = some r.tree then current calls else [] := by
  have hsince : sinceClear (calls ++ [next]) = r :: sinceClear calls := by
    rw [sinceClear_append, h]
    rfl
  have hhere : currentTree? (calls ++ [next]) = some r.tree := by rw [currentTree?, hsince]; rfl
  rw [current, hhere, hsince, List.takeWhile_cons_of_pos (by simp)]
  split
  · rename_i htree
    rw [current, htree]
  · rename_i htree
    cases hbefore : sinceClear calls with
    | nil => rfl
    | cons r' rs =>
      rw [List.takeWhile_cons_of_neg]
      rw [currentTree?, hbefore] at htree
      simpa using htree

theorem tree_of_mem_current {calls : List (CacheCall source)} {r : StepRequest source}
    (h : r ∈ current calls) : currentTree? calls = some r.tree := by
  simpa [eq_comm] using List.mem_takeWhile_imp h

/-- Among the requests for the current tree, those with the same number are for the same step. -/
theorem step_eq_of_current {calls : List (CacheCall source)} {r r' : StepRequest source}
    (hr : r ∈ current calls) (hr' : r' ∈ current calls)
    (hid : r.step.node.id = r'.step.node.id) : r.step = r'.step := by
  have htree := tree_of_mem_current hr
  have htree' := tree_of_mem_current hr'
  obtain ⟨tree, s, hs⟩ := r
  obtain rfl : tree = r'.tree := Option.some.inj (htree.symm.trans htree')
  exact Outline.step_eq_of_id hs r'.mem_steps hid

/-! ## §C One call -/

/-- **`c.Holds generation calls`** — the cache belongs to the tree of the last request, and has one
entry for each step requested of it since. -/
structure ReferenceCache.Holds (generation : Tree → Nat) (calls : List (CacheCall source))
    (c : ReferenceCache) : Prop where
  generation_eq : c.generation = (currentTree? calls).map generation
  nodup_keys : (c.references.map Prod.fst).Nodup
  mem_iff : ∀ x, x ∈ c.references ↔
    ∃ r ∈ current calls, x = (r.step.node.id, r.step.reference)

namespace ReferenceCache

theorem holds_nil (generation : Tree → Nat) :
    Holds generation ([] : List (CacheCall source)) {} :=
  ⟨rfl, List.nodup_nil, fun x => by simp [current, sinceClear]⟩

variable {generation : Tree → Nat} {calls : List (CacheCall source)} {c : ReferenceCache}

/-- Turned to the tree of a request, the cache holds what was requested of this tree alone. -/
theorem Holds.switchTo (h : c.Holds generation calls) (hinj : Function.Injective generation)
    (tree : Tree) :
    (c.switchTo (generation tree)).generation = some (generation tree) ∧
      ((c.switchTo (generation tree)).references.map Prod.fst).Nodup ∧
      ∀ x, x ∈ (c.switchTo (generation tree)).references ↔
        ∃ r ∈ if currentTree? calls = some tree then current calls else [],
          x = (r.step.node.id, r.step.reference) := by
  have hsame : c.generation = some (generation tree) ↔ currentTree? calls = some tree := by
    rw [h.generation_eq, Option.map_eq_some_iff]
    constructor
    · rintro ⟨other, hother, heq⟩
      rw [hother, hinj heq]
    · exact fun htree => ⟨tree, htree, rfl⟩
  unfold ReferenceCache.switchTo
  by_cases htree : currentTree? calls = some tree
  · rw [if_pos (hsame.mpr htree), if_pos htree]
    exact ⟨hsame.mpr htree, h.nodup_keys, h.mem_iff⟩
  · rw [if_neg (hsame.not.mpr htree), if_neg htree]
    exact ⟨rfl, List.nodup_nil, fun x => by simp⟩

/-- A step requested before is answered with its entry; one requested for the first time is
entered. -/
theorem reference_cases (c : ReferenceCache) (number : Nat) (s : Step) :
    (∃ r, (s.node.id, r) ∈ (c.switchTo number).references ∧
        c.reference number s = (c.switchTo number, r)) ∨
      s.node.id ∉ (c.switchTo number).references.map Prod.fst ∧
        c.reference number s = ({ c.switchTo number with
          references := (s.node.id, s.reference) :: (c.switchTo number).references },
          s.reference) := by
  unfold ReferenceCache.reference
  cases hlookup : (c.switchTo number).references.lookup s.node.id with
  | some r =>
    obtain ⟨l, l', heq, -⟩ := List.lookup_eq_some_iff.mp hlookup
    exact Or.inl ⟨r, by simp [heq], by simp only [hlookup]⟩
  | none =>
    refine Or.inr ⟨fun hkey => ?_, by simp only [hlookup]⟩
    obtain ⟨x, hx, hid⟩ := List.mem_map.mp hkey
    exact bne_iff_ne.mp (List.lookup_eq_none_iff.mp hlookup x hx) hid.symm

/-- A request is answered afresh, whether or not its step was requested before, and is kept. -/
theorem Holds.reference (h : c.Holds generation calls) (hinj : Function.Injective generation)
    {next : CacheCall source} {r : StepRequest source} (hnext : next.request? = some r) :
    Holds generation (calls ++ [next]) (c.reference (generation r.tree) r.step).1 ∧
      (c.reference (generation r.tree) r.step).2 = r.step.reference := by
  have htree : currentTree? (calls ++ [next]) = some r.tree := by
    rw [currentTree?, sinceClear_append, hnext]
    rfl
  obtain ⟨hgeneration, hnodup, hmem⟩ := h.switchTo hinj r.tree
  have hcurrent := current_append hnext calls
  generalize (if currentTree? calls = some r.tree then current calls else []) = before
    at hmem hcurrent
  rcases reference_cases c (generation r.tree) r.step with ⟨found, hfound, heq⟩ | ⟨hnew, heq⟩
  · rw [heq]
    obtain ⟨r', hr', hentry⟩ := (hmem _).mp hfound
    obtain ⟨hid, rfl⟩ := Prod.mk.inj hentry
    -- The entry may stem from an earlier request, which was for the same step.
    have hsame : r.step = r'.step :=
      step_eq_of_current (hcurrent ▸ List.mem_cons_self) (hcurrent ▸ List.mem_cons_of_mem r hr') hid
    refine ⟨⟨by rw [htree]; exact hgeneration, hnodup, fun x => ?_⟩, by rw [hsame]⟩
    rw [hmem, hcurrent]
    simp only [List.mem_cons, exists_eq_or_imp]
    refine ⟨Or.inr, ?_⟩
    rintro (rfl | hbefore)
    · exact ⟨r', hr', by rw [hsame]⟩
    · exact hbefore
  · rw [heq]
    refine ⟨⟨by rw [htree]; exact hgeneration, List.nodup_cons.mpr ⟨hnew, hnodup⟩, fun x => ?_⟩, rfl⟩
    rw [List.mem_cons, hmem, hcurrent]
    simp only [List.mem_cons, exists_eq_or_imp]

/-- **One call.** It keeps what the cache holds, and is answered as if nothing had been kept. -/
theorem holds_call (h : c.Holds generation calls) (hinj : Function.Injective generation)
    (next : CacheCall source) :
    Holds generation (calls ++ [next]) (c.call generation next).1 ∧
      (c.call generation next).2 = next.fresh := by
  cases next with
  | reference r =>
    have hrequest : (CacheCall.reference r).request? = some r := rfl
    obtain ⟨hholds, hanswer⟩ := h.reference hinj hrequest
    exact ⟨hholds, congrArg CacheAnswer.reference hanswer⟩
  | resolve r find =>
    have hrequest : (CacheCall.resolve r find).request? = some r := rfl
    obtain ⟨hholds, hanswer⟩ := h.reference hinj hrequest
    exact ⟨hholds, congrArg (fun a : StepReference => CacheAnswer.resolution (a.resolve find)) hanswer⟩
  | clear =>
    refine ⟨⟨?_, List.nodup_nil, fun x => ?_⟩, rfl⟩
    · rw [currentTree?, sinceClear_append]
      rfl
    · rw [current, sinceClear_append]
      simp [call, ReferenceCache.clear, CacheCall.request?]

/-- **All calls.** -/
theorem holds_run (hinj : Function.Injective generation) (calls : List (CacheCall source)) :
    Holds generation calls (run generation calls).1 ∧
      (run generation calls).2 = calls.map CacheCall.fresh := by
  induction calls using List.reverseRecOn with
  | nil => exact ⟨holds_nil generation, rfl⟩
  | append_singleton calls next ih =>
    obtain ⟨hholds, hanswers⟩ := ih
    obtain ⟨hnext, hanswer⟩ := holds_call hholds hinj next
    rw [run_append, List.map_append, hanswers, hanswer]
    exact ⟨hnext, rfl⟩

/-! ## §D What a cache serves -/

/-- **`ServesFresh generation calls c answers`** — the cache and the answers after calls. -/
structure ServesFresh (generation : Tree → Nat) (calls : List (CacheCall source))
    (c : ReferenceCache) (answers : List CacheAnswer) : Prop where
  /-- Every call is answered as if nothing had been kept. -/
  answers_eq : answers = calls.map CacheCall.fresh
  /-- The cache belongs to the tree of the last request since the last clearing, or to none. -/
  generation_eq : c.generation = (currentTree? calls).map generation
  /-- No node number has two entries. -/
  nodup_keys : (c.references.map Prod.fst).Nodup
  /-- The entries are the references of the steps requested of the current tree. -/
  mem_iff : ∀ id reference, (id, reference) ∈ c.references ↔
    ∃ r ∈ current calls, r.step.node.id = id ∧ r.step.reference = reference
  /-- These requests are all for the current tree, and different steps have different numbers. -/
  step_eq : ∀ r ∈ current calls, currentTree? calls = some r.tree ∧
    ∀ r' ∈ current calls, r.step.node.id = r'.step.node.id → r.step = r'.step
  /-- There are as many entries as different steps. -/
  size_eq : c.size = ((current calls).map (·.step.node.id)).dedup.length

theorem Holds.size_eq (h : c.Holds generation calls) :
    c.size = ((current calls).map (·.step.node.id)).dedup.length := by
  have hperm : (c.references.map Prod.fst).Perm ((current calls).map (·.step.node.id)).dedup := by
    refine (List.perm_ext_iff_of_nodup h.nodup_keys (List.nodup_dedup _)).mpr fun id => ?_
    rw [List.mem_dedup, List.mem_map, List.mem_map]
    constructor
    · rintro ⟨x, hx, rfl⟩
      obtain ⟨r, hr, rfl⟩ := (h.mem_iff x).mp hx
      exact ⟨r, hr, rfl⟩
    · rintro ⟨r, hr, rfl⟩
      exact ⟨_, (h.mem_iff _).mpr ⟨r, hr, rfl⟩, rfl⟩
  rw [← hperm.length_eq, List.length_map]
  rfl

/-- **`run_servesFresh`** — where different trees have different generations, a cache answers every
run of calls as if it kept nothing, and holds one entry for each different step of the current tree
that was requested since it turned to this tree or was cleared. -/
theorem run_servesFresh (hinj : Function.Injective generation) (calls : List (CacheCall source)) :
    ServesFresh generation calls (run generation calls).1 (run generation calls).2 := by
  obtain ⟨hholds, hanswers⟩ := holds_run hinj calls
  constructor
  case answers_eq => exact hanswers
  case generation_eq => exact hholds.generation_eq
  case nodup_keys => exact hholds.nodup_keys
  case mem_iff =>
    intro id reference
    rw [hholds.mem_iff]
    simp only [Prod.mk.injEq, eq_comm]
  case step_eq =>
    exact fun r hr => ⟨tree_of_mem_current hr, fun r' hr' => step_eq_of_current hr hr'⟩
  case size_eq => exact hholds.size_eq

end ReferenceCache

end Calls

/-- Two outlines whose steps share a number, asked for in turn: the second request drops what the
first one left, and the third does not find the entry of the second. -/
theorem ReferenceCache.run_servesFresh_in_turn :
    ∃ r r' : StepRequest fun tree : Bool => if tree then "Given a" else "Then b",
      r.step.node.id = r'.step.node.id ∧ r.step.reference ≠ r'.step.reference ∧
      Function.Injective Bool.toNat ∧
      ServesFresh Bool.toNat [.reference r, .resolve r' fun _ _ => [], .reference r]
        (run Bool.toNat [.reference r, .resolve r' fun _ _ => [], .reference r]).1
        (run Bool.toNat [.reference r, .resolve r' fun _ _ => [], .reference r]).2 := by
  have hinj : Function.Injective Bool.toNat := by
    intro a b
    cases a <;> cases b <;> decide
  have hsteps : (Outline.parse "Given a").steps.map Step.reference = [⟨1, .given, "a"⟩] := by
    decide +kernel
  have hsteps' : (Outline.parse "Then b").steps.map Step.reference = [⟨1, .then, "b"⟩] := by
    decide +kernel
  obtain ⟨s, hs, hreference⟩ := List.mem_map.mp (hsteps ▸ List.mem_singleton_self _)
  obtain ⟨s', hs', hreference'⟩ := List.mem_map.mp (hsteps' ▸ List.mem_singleton_self _)
  refine ⟨⟨true, s, hs⟩, ⟨false, s', hs'⟩, ?_, ?_, hinj, run_servesFresh hinj _⟩
  · exact (congrArg StepReference.node hreference).trans
      (congrArg StepReference.node hreference').symm
  · show s.reference ≠ s'.reference
    rw [hreference, hreference']
    decide

end FeatureFile
