/-
# FeatureFile.Proofs.Regex.Partwise — what the reader says about every expression

Expressions are built from parts: the builders regroup sequences and choices, and the reader adds
repetitions whose bounds are in order and groups with numbers from one on. So a property that holds
of an expression just if it holds of its parts (`Partwise`) is kept by the builders, and by each item
that is read, and it holds of every expression that is read (`Partwise.read`).
-/

import FeatureFile.Proofs.Pattern.Source
import FeatureFile.Proofs.Regex.Program

namespace FeatureFile

namespace Regex

/-- **`Partwise P`** — a property holds of a sequence or a choice just if it holds of its parts, and
of what the reader makes of an expression that has it. -/
structure Partwise (P : Regex → Prop) : Prop where
  empty : P .empty
  literal (c : Char) (cs : List Char) : P (.literal c cs)
  set (chars : CharSet) : P (.set chars)
  check (a : Assertion) : P (.check a)
  repetition {least : Nat} {most : Option Nat} (greedy : Bool) {r : Regex} :
    (∀ k ∈ most, least ≤ k) → P r → P (.repetition least most greedy r)
  group {index : Nat} (name : Option String) {r : Regex} : 0 < index → P r → P (.group index name r)
  seq {r s : Regex} : P (.seq r s) ↔ P r ∧ P s
  alt {r s : Regex} : P (.alt r s) ↔ P r ∧ P s

/-- The bounds of every repetition are in order. -/
theorem partwise_bounded : Partwise Bounded where
  empty := trivial
  literal _ _ := trivial
  set _ := trivial
  check _ := trivial
  repetition _ _ hbounds hr := ⟨hbounds, hr⟩
  group _ _ _ hr := hr
  seq := Iff.rfl
  alt := Iff.rfl

/-- Groups are numbered from one on. -/
theorem partwise_numbered : Partwise fun r => ∀ g ∈ r.groups, 0 < g.1 where
  empty := by simp [groups]
  literal _ _ := by simp [groups]
  set _ := by simp [groups]
  check _ := by simp [groups]
  repetition _ _ _ hr := hr
  group _ _ hindex hr := List.forall_mem_cons.mpr ⟨hindex, hr⟩
  seq := List.forall_mem_append
  alt := List.forall_mem_append

/-! ## §A Builders -/

namespace Partwise

variable {P : Regex → Prop} (hP : Partwise P)

include hP

theorem items {r : Regex} (hr : P r) : ∀ x ∈ r.items, P x := by
  induction r with
  | empty => simp [Regex.items]
  | seq r s _ ihs =>
    obtain ⟨hr, hs⟩ := hP.seq.mp hr
    exact List.forall_mem_cons.mpr ⟨hr, ihs hs⟩
  | _ => exact List.forall_mem_singleton.mpr hr

theorem glue {r : Regex} {rs : List Regex} (hr : P r) (hrs : ∀ x ∈ rs, P x) :
    ∀ x ∈ Regex.glue r rs, P x := by
  unfold Regex.glue
  split
  · exact List.forall_mem_cons.mpr ⟨hP.literal _ _, (List.forall_mem_cons.mp hrs).2⟩
  · exact List.forall_mem_cons.mpr ⟨hr, hrs⟩

theorem sequence {rs : List Regex} (h : ∀ r ∈ rs, P r) : P (Regex.sequence rs) := by
  fun_induction Regex.sequence rs with
  | case1 => exact hP.empty
  | case2 r => exact h r List.mem_cons_self
  | case3 r rest _ ih =>
    obtain ⟨hr, hrest⟩ := List.forall_mem_cons.mp h
    exact hP.seq.mpr ⟨hr, ih hrest⟩

theorem concat {rs : List Regex} (h : ∀ r ∈ rs, P r) : P (Regex.concat rs) := by
  have glued (parts : List Regex) (hparts : ∀ r ∈ parts, P r) :
      ∀ r ∈ parts.foldr Regex.glue [], P r := by
    induction parts with
    | nil => simp
    | cons r parts ih =>
      obtain ⟨hr, hparts⟩ := List.forall_mem_cons.mp hparts
      exact hP.glue hr (ih hparts)
  refine hP.sequence (glued _ fun x hx => ?_)
  obtain ⟨r, hr, hx⟩ := List.mem_flatMap.mp hx
  exact hP.items (h r hr) x hx

theorem ofSet (chars : CharSet) : P (Regex.ofSet chars) := by
  unfold Regex.ofSet
  split
  · exact hP.literal _ _
  · exact hP.set _

/-- A character under the flags. -/
theorem char (f : Flags) (c : Char) : P (f.literal c) := by
  unfold Flags.literal
  split
  · exact hP.literal _ _
  split <;> exact hP.ofSet _

theorem branches {r : Regex} (hr : P r) : ∀ x ∈ r.branches, P x := by
  induction r with
  | alt r s _ ihs =>
    obtain ⟨hr, hs⟩ := hP.alt.mp hr
    exact List.forall_mem_cons.mpr ⟨hr, ihs hs⟩
  | _ => exact List.forall_mem_singleton.mpr hr

theorem flatMap_branches {rs : List Regex} (h : ∀ r ∈ rs, P r) :
    ∀ x ∈ rs.flatMap Regex.branches, P x := by
  intro x hx
  obtain ⟨r, hr, hx⟩ := List.mem_flatMap.mp hx
  exact hP.branches (h r hr) x hx

theorem choose {last : Regex} {rs : List Regex} (hlast : P last) (h : ∀ r ∈ rs, P r) :
    P (Regex.choose last rs) := by
  induction rs with
  | nil => exact hlast
  | cons r rs ih =>
    obtain ⟨hr, hrs⟩ := List.forall_mem_cons.mp h
    exact hP.alt.mpr ⟨hr, ih hrs⟩

theorem alternatives {rs : List Regex} (h : ∀ r ∈ rs, P r) : P (Regex.alternatives rs) := by
  have hbranches := hP.flatMap_branches h
  unfold Regex.alternatives
  simp only
  split
  · exact hP.ofSet _
  · rename_i last _ hlast
    refine hP.choose (hbranches _ (List.mem_of_getLast? hlast)) fun r hr => ?_
    exact hbranches r (List.mem_of_mem_dropLast hr)
  · exact hP.set _

omit hP in
theorem mem_of_mem_common {x : Regex} {rs ss : List Regex} (h : x ∈ common rs ss) : x ∈ rs := by
  fun_induction common rs ss with
  | case1 r rs ss ih =>
    obtain rfl | hmem := List.mem_cons.mp h
    · exact List.mem_cons_self
    · exact List.mem_cons_of_mem _ (ih hmem)
  | case2 | case3 => exact absurd h List.not_mem_nil

omit hP in
/-- What all branches begin with, the first one begins with. -/
theorem mem_of_mem_commonStart {x r : Regex} {rs : List Regex} (h : x ∈ commonStart (r :: rs)) :
    x ∈ r.items := by
  have hfold {start : List Regex} {rs : List Regex}
      (h : x ∈ rs.foldl (fun start s => common start s.sequenceItems) start) : x ∈ start := by
    induction rs generalizing start with
    | nil => exact h
    | cons s rs ih => exact mem_of_mem_common (ih h)
  have hmem := hfold h
  cases r with
  | seq r s => exact hmem
  | _ => exact absurd hmem List.not_mem_nil

theorem choice {rs : List Regex} (h : ∀ r ∈ rs, P r) : P (Regex.choice rs) := by
  have hbranches := hP.flatMap_branches h
  have hstart : ∀ x ∈ commonStart (rs.flatMap Regex.branches), P x := by
    intro x hx
    cases hrs : rs.flatMap Regex.branches with
    | nil =>
      rw [hrs] at hx
      exact absurd hx List.not_mem_nil
    | cons r rest =>
      rw [hrs] at hx hbranches
      exact hP.items (hbranches r List.mem_cons_self) x (mem_of_mem_commonStart hx)
  unfold Regex.choice
  simp only
  split
  · exact hP.alternatives hbranches
  · refine hP.concat (List.forall_mem_append.mpr ⟨hstart, List.forall_mem_singleton.mpr ?_⟩)
    refine hP.alternatives fun x hx => ?_
    obtain ⟨r, hr, rfl⟩ := List.mem_map.mp hx
    refine hP.concat fun y hy => ?_
    exact hP.items (hbranches r hr) y (List.mem_of_mem_drop hy)

/-- Bounds in order stay in order when they are cut down to one turn. -/
theorem repeated {r : Regex} (hr : P r) {least : Nat} {most : Option Nat}
    (h : ∀ k ∈ most, least ≤ k) (greedy : Bool) : P (r.repeated least most greedy) := by
  have hturns {least : Nat} {most : Option Nat} (h : ∀ k ∈ most, least ≤ k) :
      P (if most = some 0 then Regex.empty
        else if least = 1 && most = some 1 then r
        else .repetition least most greedy r) := by
    split
    · exact hP.empty
    split
    · exact hr
    · exact hP.repetition greedy h hr
  unfold Regex.repeated
  by_cases hempty : r.onlyEmpty = true
  · simp only [hempty, if_true]
    refine hturns fun k hk => ?_
    obtain rfl := Option.some.inj hk
    cases most with
    | none => exact Nat.min_le_right _ _
    | some most =>
      have := h most rfl
      rw [Option.getD_some]
      omega
  · simp only [hempty]
    exact hturns h

omit hP in
theorem join {make : List Regex → Regex} (hmake : ∀ {rs}, (∀ r ∈ rs, P r) → P (make rs))
    {parts : List Nested} (h : ∀ x ∈ parts, P x.regex) : P (Nested.join make parts).regex := by
  unfold Nested.join
  split
  · exact h _ List.mem_cons_self
  · refine hmake fun r hr => ?_
    obtain ⟨x, hx, rfl⟩ := List.mem_map.mp hr
    exact h x hx

end Partwise

/-! ## §B The reader -/

/-- **`g.Holds P`** — a property holds of what was read around a group, which has a number from one
on if it has one. -/
structure OpenGroup.Holds (g : OpenGroup) (P : Regex → Prop) : Prop where
  numbered : ∀ capture ∈ g.capture, 0 < capture.1
  branches : ∀ x ∈ g.branches, P x.regex
  items : ∀ x ∈ g.items, P x.nested.regex

/-- **`s.Holds P`** — a property holds of what has been read. -/
structure Reader.Holds (s : Reader) (P : Regex → Prop) : Prop where
  outer : ∀ g ∈ s.outer, g.Holds P
  branches : ∀ x ∈ s.branches, P x.regex
  items : ∀ x ∈ s.items, P x.nested.regex

/-- Bounds that are read are in order. -/
theorem le_of_readBounds {flags : Flags} {cs rest : List Char} {least : Nat} {most : Option Nat}
    (h : readBounds flags cs = .ok ((least, most), rest)) : ∀ k ∈ most, least ≤ k := by
  unfold readBounds at h
  split at h
  · obtain ⟨⟨rfl, rfl⟩, -⟩ : (_ ∧ _) ∧ _ := by simpa using h
    simp
  · split at h
    · obtain ⟨⟨rfl, rfl⟩, -⟩ : (_ ∧ _) ∧ _ := by simpa using h
      simp
    split at h
    · split at h
      · rename_i hle
        obtain ⟨⟨rfl, rfl⟩, -⟩ : (_ ∧ _) ∧ _ := by simpa using h
        simpa using hle
      · exact absurd h (by simp)
    · exact absurd h (by simp)
  · exact absurd h (by simp)

namespace Reader.Holds

variable {P : Regex → Prop} {s : Reader} (h : s.Holds P)

include h

theorem push {r : Regex} (hr : P r) (depth : Nat) : (s.push r depth).Holds P :=
  ⟨h.outer, h.branches, List.forall_mem_cons.mpr ⟨hr, h.items⟩⟩

theorem openGroup {capture : Option (Nat × Option String)} (hnumbered : ∀ c ∈ capture, 0 < c.1)
    (flags : Flags) : (s.openGroup capture flags).Holds P :=
  ⟨List.forall_mem_cons.mpr ⟨⟨hnumbered, h.branches, h.items⟩, h.outer⟩,
    by simp [Reader.openGroup], by simp [Reader.openGroup]⟩

theorem openCapture (name : Option String) : (s.openCapture name).Holds P := by
  have hcounted : Reader.Holds { s with groups := s.groups + 1 } P :=
    ⟨h.outer, h.branches, h.items⟩
  refine hcounted.openGroup (fun capture hcapture => ?_) _
  rw [← Option.some.inj hcapture]
  exact Nat.succ_pos _

theorem readOpening {cs rest : List Char} {t : Reader} (ht : s.readOpening cs = .ok (t, rest))
    (hP : Partwise P) : t.Holds P := by
  have named {name : String} {rest' : List Char}
      (ht : (if s.names.contains name then .error .duplicateGroupName
        else .ok ({ s with names := name :: s.names }.openCapture (some name), rest')) =
      Except.ok (ε := Error) (t, rest)) : t.Holds P := by
    split at ht
    · exact absurd ht (by simp)
    · obtain ⟨rfl, -⟩ := Prod.mk.inj (Except.ok.inj ht)
      have hnamed (names : List String) : Reader.Holds { s with names } P :=
        ⟨h.outer, h.branches, h.items⟩
      exact (hnamed _).openCapture _
  unfold Reader.readOpening at ht
  split at ht
  · exact absurd ht (by simp)
  · exact absurd ht (by simp)
  · exact absurd ht (by simp)
  · exact absurd ht (by simp)
  · dsimp only at ht
    split at ht
    · exact absurd ht (by simp)
    · exact named ht
  · dsimp only at ht
    split at ht
    · exact absurd ht (by simp)
    · exact named ht
  · split at ht
    · obtain ⟨rfl, -⟩ := Prod.mk.inj (Except.ok.inj ht)
      exact h.openGroup (by simp) _
    · split at ht
      · exact absurd ht (by simp)
      · obtain ⟨rfl, -⟩ := Prod.mk.inj (Except.ok.inj ht)
        exact ⟨h.outer, h.branches, List.forall_mem_cons.mpr ⟨hP.empty, h.items⟩⟩
    · exact absurd ht (by simp)
    · exact absurd ht (by simp)
  · obtain ⟨rfl, -⟩ := Prod.mk.inj (Except.ok.inj ht)
    exact h.openCapture _

theorem branch (hP : Partwise P) : P s.branch.regex := by
  refine Partwise.join hP.concat fun x hx => ?_
  obtain ⟨item, hitem, rfl⟩ := List.mem_map.mp hx
  exact h.items item (List.mem_reverse.mp hitem)

theorem contents (hP : Partwise P) : P s.contents.regex := by
  have hall : ∀ x ∈ s.branch :: s.branches, P x.regex :=
    List.forall_mem_cons.mpr ⟨h.branch hP, h.branches⟩
  exact Partwise.join hP.choice fun x hx => hall x (List.mem_reverse.mp hx)

theorem endBranch (hP : Partwise P) : s.endBranch.Holds P :=
  ⟨h.outer, List.forall_mem_cons.mpr ⟨h.branch hP, h.branches⟩, by simp [Reader.endBranch]⟩

theorem closeGroup {t : Reader} (ht : s.closeGroup = .ok t) (hP : Partwise P) : t.Holds P := by
  unfold Reader.closeGroup at ht
  split at ht
  · exact absurd ht (by simp)
  · rename_i g outer houter
    obtain rfl := Except.ok.inj ht
    obtain ⟨hg, hrest⟩ := List.forall_mem_cons.mp (houter ▸ h.outer)
    refine ⟨hrest, hg.branches, List.forall_mem_cons.mpr ⟨?_, hg.items⟩⟩
    dsimp only
    split
    · rename_i index name hcapture
      exact hP.group name (hg.numbered _ hcapture) (h.contents hP)
    · exact h.contents hP

theorem repeatLast {least : Nat} {most : Option Nat} (hbounds : ∀ k ∈ most, least ≤ k)
    {cs rest : List Char} {t : Reader} (ht : s.repeatLast least most cs = .ok (t, rest))
    (hP : Partwise P) : t.Holds P := by
  unfold Reader.repeatLast at ht
  split at ht
  · rename_i r depth items hitems
    obtain ⟨rfl, -⟩ := Prod.mk.inj (Except.ok.inj ht)
    obtain ⟨hr, hrest⟩ := List.forall_mem_cons.mp (hitems ▸ h.items)
    exact ⟨h.outer, h.branches, List.forall_mem_cons.mpr ⟨hP.repeated hr hbounds _, hrest⟩⟩
  · exact absurd ht (by simp)

/-- One item keeps a property of what has been read. -/
theorem step {t : Reader} {c : Char} {cs rest : List Char} (ht : s.step c cs = .ok (t, rest))
    (hP : Partwise P) : t.Holds P := by
  unfold Reader.step at ht
  split at ht
  · exact h.readOpening ht hP
  · obtain ⟨u, hu, hpair⟩ := Piece.exists_of_map_eq_ok ht
    obtain ⟨rfl, -⟩ := Prod.mk.inj hpair
    exact h.closeGroup hu hP
  · obtain ⟨rfl, -⟩ := Prod.mk.inj (Except.ok.inj ht)
    exact h.endBranch hP
  · obtain ⟨_, -, hpair⟩ := Piece.exists_of_map_eq_ok ht
    obtain ⟨rfl, -⟩ := Prod.mk.inj hpair
    exact h.push (hP.ofSet _) _
  · exact h.repeatLast (by simp) ht hP
  · exact h.repeatLast (by simp) ht hP
  · exact h.repeatLast (by simp) ht hP
  · split at ht
    · rename_i hbounds
      exact h.repeatLast (le_of_readBounds hbounds) ht hP
    · exact absurd ht (by simp)
  · obtain ⟨⟨e, _⟩, -, hpair⟩ := Piece.exists_of_map_eq_ok ht
    cases e with
    | literal c =>
      obtain ⟨rfl, -⟩ := Prod.mk.inj hpair
      exact h.push (hP.char _ _) _
    | set chars =>
      obtain ⟨rfl, -⟩ := Prod.mk.inj hpair
      exact h.push (hP.ofSet _) _
    | check a =>
      obtain ⟨rfl, -⟩ := Prod.mk.inj hpair
      exact h.push (hP.check _) _
  · obtain ⟨_, -, hpair⟩ := Piece.exists_of_map_eq_ok ht
    obtain ⟨rfl, -⟩ := Prod.mk.inj hpair
    exact h.push (hP.ofSet _) _
  · obtain ⟨rfl, -⟩ := Prod.mk.inj (Except.ok.inj ht)
    exact h.push (hP.check _) _
  · obtain ⟨rfl, -⟩ := Prod.mk.inj (Except.ok.inj ht)
    exact h.push (hP.check _) _
  · obtain ⟨rfl, -⟩ := Prod.mk.inj (Except.ok.inj ht)
    exact h.push (hP.char _ _) _

theorem run {fuel : Nat} {t : Reader} {cs : List Char} (ht : Reader.run fuel s cs = .ok t)
    (hP : Partwise P) : t.Holds P := by
  fun_induction Reader.run fuel s cs with
  | case1 | case3 =>
    obtain rfl := Except.ok.inj ht
    exact h
  | case2 | case5 => exact absurd ht (by simp)
  | case4 fuel s cs c rest hskip u after hstep ih => exact ih (h.step hstep hP) ht

end Reader.Holds

/-- **`Partwise.read`** — a property that is kept holds of every expression that is read. -/
theorem Partwise.read {P : Regex → Prop} (hP : Partwise P) {text : List Char} {r : Regex}
    (h : Regex.read text = .ok r) : P r := by
  have hstart : Reader.Holds {} P := ⟨by simp, by simp, by simp⟩
  unfold Regex.read at h
  split at h
  · rename_i s hrun
    have hcontents := (hstart.run hrun hP).contents hP
    unfold Reader.finish at h
    simp only at h
    split at h
    · exact absurd h (by simp)
    split at h
    · exact absurd h (by simp)
    · obtain rfl := Except.ok.inj h
      exact hcontents
  · exact absurd h (by simp)

end Regex

end FeatureFile
