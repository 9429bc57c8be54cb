/-
# FeatureFile.Proofs.Regex.Groups — the groups of a written expression

The reader numbers the groups as their parentheses open, and the builders carry each group over into
the expression: a common beginning of several branches holds none, since no number occurs twice, and
a repetition loses its groups only if it takes no turn at all. So an expression in which no group is
repeated zero times has the groups that its text opens, from one on, and as many names as the text
gives (`numbered_of_read`).

What one round of the reader does is said once, by its kinds (`Reader.Turn`).
-/

import FeatureFile.Proofs.Pattern.Arguments
import FeatureFile.Proofs.Regex.Rest

namespace FeatureFile

namespace Regex

/-! ## §A The groups of built expressions -/

@[simp]
theorem groups_ofSet (chars : CharSet) : (ofSet chars).groups = [] := by
  unfold ofSet
  split <;> rfl

/-- A character under the flags has no group. -/
@[simp]
theorem groups_char (f : Flags) (c : Char) : (f.literal c).groups = [] := by
  unfold Flags.literal
  split
  · rfl
  split <;> exact groups_ofSet _

theorem groups_branches (r : Regex) : r.branches.flatMap groups = r.groups := by
  induction r with
  | alt r s _ ihs => rw [branches, List.flatMap_cons, ihs, groups]
  | _ => exact List.append_nil _

theorem groups_choose (last : Regex) (rs : List Regex) :
    (choose last rs).groups = rs.flatMap groups ++ last.groups := by
  induction rs with
  | nil => rfl
  | cons r rs ih => rw [choose, groups, ih, List.flatMap_cons, List.append_assoc]

/-- Branches that can be merged into one set are characters or sets, and have no groups. -/
theorem groups_of_merged? {rs : List Regex} {chars : CharSet} (h : merged? rs = some chars) :
    rs.flatMap groups = [] := by
  have hall {β : Type} {f : Regex → Option β} (hf : ∀ r b, f r = some b → r.groups = [])
      {rs : List Regex} {bs : List β} (h : rs.mapM f = some bs) : rs.flatMap groups = [] := by
    induction rs generalizing bs with
    | nil => rfl
    | cons r rs ih =>
      simp only [List.mapM_cons, Option.pure_def, Option.bind_eq_bind, Option.bind_eq_some_iff] at h
      obtain ⟨b, hb, bs, hbs, -⟩ := h
      rw [List.flatMap_cons, hf r b hb, ih hbs]
      rfl
  unfold merged? at h
  split at h
  · rename_i cs hcs
    refine hall (fun r c hc => ?_) hcs
    unfold theChar? at hc
    split at hc
    · rfl
    · exact absurd hc (by simp)
  · obtain ⟨sets, hsets, -⟩ := Option.map_eq_some_iff.mp h
    refine hall (fun r s hs => ?_) hsets
    unfold theSet? at hs
    split at hs
    · rfl
    · exact absurd hs (by simp)

theorem groups_alternatives (rs : List Regex) : (alternatives rs).groups = rs.flatMap groups := by
  have hbranches : (rs.flatMap branches).flatMap groups = rs.flatMap groups := by
    rw [List.flatMap_assoc]
    simp only [groups_branches]
  unfold alternatives
  simp only
  split
  · rename_i hmerged
    rw [groups_ofSet, ← hbranches, groups_of_merged? hmerged]
  · rename_i last _ hlast
    rw [groups_choose, ← hbranches]
    conv_rhs => rw [← List.dropLast_append_getLast? last hlast]
    rw [List.flatMap_append, List.flatMap_singleton]
  · rename_i hlast
    rw [← hbranches, List.getLast?_eq_none_iff.mp hlast]
    rfl

theorem common_isPrefix (rs ss : List Regex) : common rs ss <+: rs ∧ common rs ss <+: ss := by
  fun_induction common rs ss with
  | case1 rs r ss ih =>
    exact ⟨List.prefix_cons_inj r |>.mpr ih.1, List.prefix_cons_inj r |>.mpr ih.2⟩
  | case2 | case3 => exact ⟨List.nil_prefix, List.nil_prefix⟩

/-- Every branch begins with what all branches begin with. -/
theorem commonStart_isPrefix {r : Regex} {rs : List Regex} (h : r ∈ rs) :
    commonStart rs <+: r.items := by
  have hitems (r : Regex) : r.sequenceItems <+: r.items := by
    cases r with
    | seq => exact List.prefix_rfl
    | _ => exact List.nil_prefix
  have hfold (start : List Regex) (rs : List Regex) :
      rs.foldl (fun start s => common start s.sequenceItems) start <+: start ∧
        ∀ s ∈ rs, rs.foldl (fun start s => common start s.sequenceItems) start <+: s.items := by
    induction rs generalizing start with
    | nil => exact ⟨List.prefix_rfl, by simp⟩
    | cons s rs ih =>
      obtain ⟨hstart, hrest⟩ := ih (common start s.sequenceItems)
      obtain ⟨hleft, hright⟩ := common_isPrefix start s.sequenceItems
      exact ⟨hstart.trans hleft,
        List.forall_mem_cons.mpr ⟨(hstart.trans hright).trans (hitems s), hrest⟩⟩
  cases rs with
  | nil => exact absurd h List.not_mem_nil
  | cons first rest =>
    obtain ⟨hfirst, hrest⟩ := hfold first.sequenceItems rest
    obtain rfl | hmem := List.mem_cons.mp h
    · exact hfirst.trans (hitems r)
    · exact hrest r hmem

/-- If no number occurs twice in two or more branches, what all of them begin with has no group. -/
theorem groups_commonStart {rs : List Regex} (htwo : 2 ≤ rs.length)
    (hnodup : ((rs.flatMap groups).map Prod.fst).Nodup) : (commonStart rs).flatMap groups = [] := by
  obtain ⟨r, s, rest, rfl⟩ : ∃ r s rest, rs = r :: s :: rest := by
    match rs, htwo with
    | r :: s :: rest, _ => exact ⟨r, s, rest, rfl⟩
  refine List.flatMap_eq_nil_iff.mpr fun x hx => List.eq_nil_iff_forall_not_mem.mpr fun g hg => ?_
  have hmem {r' : Regex} (hr' : r' ∈ r :: s :: rest) : g ∈ r'.groups := by
    rw [← groups_items]
    exact List.mem_flatMap.mpr ⟨x, (commonStart_isPrefix hr').subset hx, hg⟩
  rw [List.flatMap_cons, List.flatMap_cons, List.map_append, List.nodup_append] at hnodup
  refine hnodup.2.2 g.1 (List.mem_map_of_mem (hmem List.mem_cons_self)) g.1 ?_ rfl
  rw [List.map_append]
  exact List.mem_append_left _ (List.mem_map_of_mem (hmem (by simp)))

/-- A choice between branches in which no number occurs twice keeps their groups. -/
theorem groups_choice {rs : List Regex} (htwo : 2 ≤ rs.length)
    (hnodup : ((rs.flatMap groups).map Prod.fst).Nodup) :
    (choice rs).groups = rs.flatMap groups := by
  have hbranches : (rs.flatMap branches).flatMap groups = rs.flatMap groups := by
    rw [List.flatMap_assoc]
    simp only [groups_branches]
  have hlength : 2 ≤ (rs.flatMap branches).length := by
    have hone (r : Regex) : 1 ≤ r.branches.length := by
      cases r <;> simp [branches]
    match rs, htwo with
    | r :: s :: rest, _ =>
      have hr := hone r
      have hs := hone s
      simp only [List.flatMap_cons, List.length_append]
      omega
  rw [← hbranches] at hnodup ⊢
  have hstart := groups_commonStart hlength hnodup
  unfold choice
  simp only
  split
  · exact groups_alternatives _
  · rw [groups_concat, List.flatMap_append, hstart, List.nil_append, List.flatMap_singleton,
      groups_alternatives, List.flatMap_map]
    refine List.flatMap_congr fun r hr => ?_
    -- The parts that are dropped are those of the common beginning.
    obtain ⟨rest, hrest⟩ := commonStart_isPrefix hr
    rw [groups_concat, ← groups_items r, ← hrest, List.drop_left, List.flatMap_append, hstart,
      List.nil_append]

/-- A repetition keeps its groups unless it takes no turn. -/
theorem groups_repeated {r : Regex} {most : Option Nat} (h : most = some 0 → r.groups = [])
    (least : Nat) (greedy : Bool) : (r.repeated least most greedy).groups = r.groups := by
  have hturns {least : Nat} {most : Option Nat} (h : most = some 0 → r.groups = []) :
      (if most = some 0 then Regex.empty
        else if least = 1 && most = some 1 then r
        else .repetition least most greedy r).groups = r.groups := by
    split
    · exact (h ‹_›).symm
    split <;> rfl
  unfold Regex.repeated
  refine hturns fun hmost => ?_
  split at hmost
  · refine h ?_
    cases most with
    | none => exact absurd hmost (by decide)
    | some most =>
      have := Option.some.inj hmost
      rw [Option.getD_some] at this
      rw [show most = 0 by omega]
  · exact h hmost

/-! ## §B Rounds -/

/-- **`Severed cs rest`** — what is taken off a text ends in a character that neither escapes what
follows it nor opens a group, or it is an escape of one character, or it is the whole text. -/
def Severed (cs rest : List Char) : Prop :=
  StopsBehind (fun c => c ≠ '\\' ∧ c ≠ '(') cs rest ∨ (∃ c, cs = '\\' :: c :: rest) ∨ rest = []

/-- A single character that neither escapes nor opens anything. -/
theorem severed_cons {c : Char} (hslash : c ≠ '\\') (hopen : c ≠ '(') (cs : List Char) :
    Severed (c :: cs) cs := Or.inl ⟨[], c, rfl, hslash, hopen⟩

/-- An item whose last character is known severs the text, whatever it begins with. -/
theorem severed_of_stopsBehind {d : Char} (hslash : d ≠ '\\') (hopen : d ≠ '(') {c : Char}
    {cs rest : List Char} (h : StopsBehind (· = d) cs rest) : Severed (c :: cs) rest :=
  Or.inl ((h.mono fun _ hd => ⟨hd ▸ hslash, hd ▸ hopen⟩).of_suffix (List.suffix_cons c cs))

theorem ne_of_isBlank {c : Char} (h : Text.isBlank c = true) : c ≠ '\\' ∧ c ≠ '(' := by
  constructor <;> rintro rfl <;> exact absurd h (by decide)

theorem Severed.suffix {cs rest : List Char} (h : Severed cs rest) : rest <:+ cs := by
  obtain hstops | ⟨c, rfl⟩ | rfl := h
  · exact hstops.suffix
  · exact List.suffix_append ['\\', c] rest
  · exact List.nil_suffix

/-- Whether an item that has groups is repeated zero times by what the text goes on with. -/
def Reader.dropsGroups (s : Reader) (cs : List Char) : Bool :=
  match cs, s.items with
  | '{' :: rest, .part r :: _ =>
    match readBounds s.flags rest with
    | .ok ((_, most), _) => most == some 0 && !r.regex.groups.isEmpty
    | .error _ => false
  | _, _ => false

/-- **`s.Turn cs t rest`** — what one round of the reader can do: from what has been read before it
to what has been read after it, and from the text to the rest. -/
inductive Reader.Turn (s : Reader) : List Char → Reader → List Char → Prop
  /-- A group opens that has a number and no name. -/
  | capture {cs : List Char} (hplain : (s.flags.skip cs).head? ≠ some '?') :
      Turn s ('(' :: cs) (s.openCapture none) (s.flags.skip cs)
  | named {cs rest : List Char} (name : String) (hsevered : Severed cs rest) :
      Turn s cs ({ s with names := name :: s.names }.openCapture (some name)) rest
  | unnumbered {cs rest : List Char} (flags : Flags) (hsevered : Severed cs rest) :
      Turn s cs (s.openGroup none flags) rest
  | flags {cs rest : List Char} (flags : Flags) (hsevered : Severed cs rest) :
      Turn s cs { s with flags, items := .flags :: s.items } rest
  | close {cs rest : List Char} {t : Reader} (hclose : s.closeGroup = .ok t)
      (hsevered : Severed cs rest) : Turn s cs t rest
  | branch {cs rest : List Char} (hsevered : Severed cs rest) : Turn s cs s.endBranch rest
  | item {cs rest : List Char} {r : Regex} (depth : Nat) (hgroups : r.groups = [])
      (hsevered : Severed cs rest) : Turn s cs (s.push r depth) rest
  | repetition {cs rest : List Char} {r : Regex} {depth : Nat} {items : List Item}
      (least : Nat) (most : Option Nat) (greedy : Bool)
      (hitems : s.items = .part ⟨r, depth⟩ :: items)
      (hkeeps : s.dropsGroups cs = false → most = some 0 → r.groups = [])
      (hsevered : Severed cs rest) :
      Turn s cs { s with items := .part ⟨r.repeated least most greedy, depth + 1⟩ :: items } rest

namespace Reader

theorem turn_of_readOpening {s t : Reader} {cs rest : List Char}
    (h : s.readOpening cs = .ok (t, rest)) : s.Turn ('(' :: cs) t rest := by
  have hskip := s.flags.skip_suffix cs
  have hnamed {behind after : List Char} {name : String} (hbehind : behind <:+ cs)
      (hname : readGroupName behind = .ok (name, after))
      (h : (if s.names.contains name then .error .duplicateGroupName
        else .ok ({ s with names := name :: s.names }.openCapture (some name), after)) =
        Except.ok (ε := Error) (t, rest)) : s.Turn ('(' :: cs) t rest := by
    split at h
    · exact absurd h (by simp)
    · obtain ⟨rfl, rfl⟩ := Prod.mk.inj (Except.ok.inj h)
      have hstops := (stopsBehind_readGroupName hname).of_suffix hbehind
      exact .named name (severed_of_stopsBehind (by decide) (by decide) hstops)
  have hflags {behind after : List Char} {new : Flags} {c : Char} (hslash : c ≠ '\\')
      (hopen : c ≠ '(') (hbehind : behind <:+ cs)
      (h : readFlags s.flags [] behind = .ok (new, c :: after)) : Severed ('(' :: cs) after := by
    have hsuffix := (suffix_of_readFlags h).trans hbehind
    exact severed_of_stopsBehind hslash hopen (stopsBehind_of_suffix hsuffix rfl)
  unfold Reader.readOpening at h
  split at h
  · exact absurd h (by simp)
  · exact absurd h (by simp)
  · exact absurd h (by simp)
  · exact absurd h (by simp)
  · rename_i behind hcs
    rw [hcs] at hskip
    dsimp only at h
    split at h
    · exact absurd h (by simp)
    · rename_i hname
      exact hnamed ((List.suffix_append ['?', 'P', '<'] behind).trans hskip) hname h
  · rename_i behind _ _ hcs
    rw [hcs] at hskip
    dsimp only at h
    split at h
    · exact absurd h (by simp)
    · rename_i hname
      exact hnamed ((List.suffix_append ['?', '<'] behind).trans hskip) hname h
  · rename_i behind _ _ _ _ _ _ hcs
    rw [hcs] at hskip
    have hbehind := (List.suffix_cons '?' behind).trans hskip
    split at h
    · rename_i hread
      obtain ⟨rfl, rfl⟩ := Prod.mk.inj (Except.ok.inj h)
      exact .unnumbered _ (hflags (by decide) (by decide) hbehind hread)
    · rename_i hread
      split at h
      · exact absurd h (by simp)
      · obtain ⟨rfl, rfl⟩ := Prod.mk.inj (Except.ok.inj h)
        exact .flags _ (hflags (by decide) (by decide) hbehind hread)
    · exact absurd h (by simp)
    · exact absurd h (by simp)
  · rename_i hquestion
    obtain ⟨rfl, rfl⟩ := Prod.mk.inj (Except.ok.inj h)
    refine .capture fun hhead => ?_
    obtain ⟨behind, hbehind⟩ := List.head?_eq_some_iff.mp hhead
    exact hquestion behind hbehind

theorem turn_of_repeatLast {s t : Reader} {cs behind rest : List Char} {least : Nat}
    {most : Option Nat} (h : s.repeatLast least most behind = .ok (t, rest))
    (hkeeps : s.dropsGroups cs = false → most = some 0 →
      ∀ r ∈ s.items.head?, r.nested.regex.groups = [])
    (hsevered : Severed cs behind) : s.Turn cs t rest := by
  unfold repeatLast at h
  split at h
  · rename_i r depth items hitems
    obtain ⟨rfl, rfl⟩ := Prod.mk.inj (Except.ok.inj h)
    refine .repetition _ _ _ hitems (fun hdrops hmost => ?_) ?_
    · exact hkeeps hdrops hmost (.part ⟨r, depth⟩) (by rw [hitems]; rfl)
    · split
      · rename_i hlazy
        obtain ⟨after, rfl⟩ := List.head?_eq_some_iff.mp (by simpa using hlazy)
        exact Or.inl (stopsBehind_of_suffix hsevered.suffix (by decide))
      · exact hsevered
  · exact absurd h (by simp)

/-- **`turn_of_step`** — every round is of one of the kinds. -/
theorem turn_of_step {s t : Reader} {c : Char} {cs rest : List Char}
    (h : s.step c cs = .ok (t, rest)) : s.Turn (c :: cs) t rest := by
  unfold step at h
  split at h
  · exact turn_of_readOpening h
  · obtain ⟨u, hu, hpair⟩ := Piece.exists_of_map_eq_ok h
    obtain ⟨rfl, rfl⟩ := Prod.mk.inj hpair
    exact .close hu (severed_cons (by decide) (by decide) _)
  · obtain ⟨rfl, rfl⟩ := Prod.mk.inj (Except.ok.inj h)
    exact .branch (severed_cons (by decide) (by decide) _)
  · obtain ⟨⟨k, after⟩, hclass, hpair⟩ := Piece.exists_of_map_eq_ok h
    obtain ⟨rfl, rfl⟩ := Prod.mk.inj hpair
    have hstops := (stopsBehind_readClass hclass).of_suffix (openClass_suffix s.flags cs)
    exact .item _ (groups_ofSet _) (severed_of_stopsBehind (by decide) (by decide) hstops)
  · exact turn_of_repeatLast h (fun _ hmost => absurd hmost (by decide))
      (severed_cons (by decide) (by decide) _)
  · exact turn_of_repeatLast h (fun _ hmost => absurd hmost (by decide))
      (severed_cons (by decide) (by decide) _)
  · exact turn_of_repeatLast h (fun _ hmost => absurd hmost (by decide))
      (severed_cons (by decide) (by decide) _)
  · split at h
    · rename_i least most after hbounds
      refine turn_of_repeatLast h (fun hdrops hmost x hx => ?_) ?_
      · obtain ⟨items, hitems⟩ := List.head?_eq_some_iff.mp hx
        cases x with
        | part r =>
          rw [hmost] at hbounds
          unfold dropsGroups at hdrops
          simpa [hitems, hbounds, Item.nested] using hdrops
        | flags => rfl
      · have hstops := stopsBehind_readBounds hbounds
        obtain hsame | hnil | hblank := s.flags.skip_cases after
        · rw [hsame]
          exact severed_of_stopsBehind (by decide) (by decide) hstops
        · exact Or.inr (Or.inr hnil)
        · exact Or.inl ((hblank.mono fun _ => ne_of_isBlank).of_suffix
            (hstops.suffix.trans (List.suffix_cons '{' cs)))
    · exact absurd h (by simp)
  · obtain ⟨⟨e, after⟩, hescape, hpair⟩ := Piece.exists_of_map_eq_ok h
    have hsevered : Severed ('\\' :: cs) after := by
      obtain ⟨c, behind, rfl, rfl | hstops⟩ := readEscape_cases hescape
      · exact Or.inr (Or.inl ⟨c, rfl⟩)
      · exact Or.inl (hstops.of_suffix (List.suffix_append ['\\', c] behind))
    cases e with
    | literal c =>
      obtain ⟨rfl, rfl⟩ := Prod.mk.inj hpair
      exact .item _ (groups_char _ _) hsevered
    | set chars =>
      obtain ⟨rfl, rfl⟩ := Prod.mk.inj hpair
      exact .item _ (groups_ofSet _) hsevered
    | check a =>
      obtain ⟨rfl, rfl⟩ := Prod.mk.inj hpair
      exact .item _ rfl hsevered
  · obtain ⟨_, -, hpair⟩ := Piece.exists_of_map_eq_ok h
    obtain ⟨rfl, rfl⟩ := Prod.mk.inj hpair
    exact .item _ (groups_ofSet _) (severed_cons (by decide) (by decide) _)
  · obtain ⟨rfl, rfl⟩ := Prod.mk.inj (Except.ok.inj h)
    exact .item _ rfl (severed_cons (by decide) (by decide) _)
  · obtain ⟨rfl, rfl⟩ := Prod.mk.inj (Except.ok.inj h)
    exact .item _ rfl (severed_cons (by decide) (by decide) _)
  · rename_i hopen _ _ _ _ _ _ _ hslash _ _ _
    obtain ⟨rfl, rfl⟩ := Prod.mk.inj (Except.ok.inj h)
    exact .item _ (groups_char _ _) (severed_cons hslash hopen _)

end Reader

/-! ## §C What the reader holds -/

/-- The groups of finished branches and of items. -/
def heldGroups (branches : List Nested) (items : List Item) : List (Nat × Option String) :=
  branches.flatMap (·.regex.groups) ++ items.flatMap (·.nested.regex.groups)

/-- The group that is open, if it has a number, and the groups of what was read around it. -/
def OpenGroup.groups (g : OpenGroup) : List (Nat × Option String) :=
  g.capture.toList ++ heldGroups g.branches g.items

/-- Several expressions made one have the groups of all of them. -/
theorem groups_join {make : List Regex → Regex} {parts : List Nested}
    (hmake : parts.length ≠ 1 →
      (make (parts.map (·.regex))).groups = (parts.map (·.regex)).flatMap groups) :
    (Nested.join make parts).regex.groups = parts.flatMap (·.regex.groups) := by
  unfold Nested.join
  split
  · rw [List.flatMap_singleton]
  · rename_i hone
    rw [hmake fun hlength => ?_, List.flatMap_map]
    obtain ⟨part, rfl⟩ := List.length_eq_one_iff.mp hlength
    exact hone part rfl

@[simp]
theorem Item.nested_part (r : Nested) : (Item.part r).nested = r := rfl

namespace Reader

/-- All groups that have been opened and not been dropped. -/
def groupsRead (s : Reader) : List (Nat × Option String) :=
  s.outer.flatMap OpenGroup.groups ++ heldGroups s.branches s.items

/-- **`s.Numbered`** — the groups are numbered from one on, and as many have names as names were
given. -/
structure Numbered (s : Reader) : Prop where
  numbers : (s.groupsRead.map Prod.fst).Perm (List.range' 1 s.groups)
  names : s.groupsRead.countP (·.2.isSome) = s.names.length

theorem numbered_start : Numbered {} := ⟨.refl _, rfl⟩

/-- What rearranges the groups keeps their numbers. -/
theorem Numbered.of_perm {s t : Reader} (h : s.Numbered) (hperm : t.groupsRead.Perm s.groupsRead)
    (hgroups : t.groups = s.groups) (hnames : t.names = s.names) : t.Numbered :=
  ⟨hgroups ▸ (hperm.map _).trans h.numbers, by rw [hperm.countP_eq, hnames, h.names]⟩

theorem groups_branch (s : Reader) :
    s.branch.regex.groups.Perm (s.items.flatMap (·.nested.regex.groups)) := by
  unfold branch
  rw [groups_join fun _ => groups_concat _, List.flatMap_map]
  exact s.items.reverse_perm.flatMap_right _

/-- Nothing that is held gets lost at the end of a group. -/
theorem groups_contents {s : Reader} (h : (s.groupsRead.map Prod.fst).Nodup) :
    s.contents.regex.groups.Perm (heldGroups s.branches s.items) := by
  have hparts : ((s.branch :: s.branches).reverse.flatMap (·.regex.groups)).Perm
      (heldGroups s.branches s.items) := by
    refine ((s.branch :: s.branches).reverse_perm.flatMap_right _).trans ?_
    rw [List.flatMap_cons]
    exact (s.groups_branch.append_right _).trans List.perm_append_comm
  have hheld : ((heldGroups s.branches s.items).map Prod.fst).Nodup := by
    rw [groupsRead, List.map_append] at h
    exact (List.nodup_append.mp h).2.1
  unfold contents
  rw [groups_join fun hone => ?_]
  · exact hparts
  · refine groups_choice ?_ ?_
    · have hlength : (s.branch :: s.branches).reverse.length ≠ 0 := by simp
      rw [List.length_map]
      omega
    · rw [List.flatMap_map]
      exact (hparts.map _).nodup_iff.mpr hheld

theorem groupsRead_openGroup (s : Reader) (capture : Option (Nat × Option String)) (flags : Flags) :
    (s.openGroup capture flags).groupsRead.Perm (capture.toList ++ s.groupsRead) := by
  rw [List.perm_iff_count]
  intro g
  simp only [openGroup, groupsRead, OpenGroup.groups, heldGroups, List.flatMap_cons,
    List.flatMap_nil, List.count_append, List.count_nil]
  omega

theorem groupsRead_closeGroup {s t : Reader} (h : (s.groupsRead.map Prod.fst).Nodup)
    (hclose : s.closeGroup = .ok t) : t.groupsRead.Perm s.groupsRead := by
  have hcontents := groups_contents h
  unfold closeGroup at hclose
  generalize s.contents = contents at hcontents hclose
  split at hclose
  · exact absurd hclose (by simp)
  · rename_i g outer houter
    obtain rfl := Except.ok.inj hclose
    rw [List.perm_iff_count]
    intro x
    have hcount := hcontents.count_eq x
    simp only [heldGroups, List.count_append] at hcount
    simp only [groupsRead, houter, OpenGroup.groups, heldGroups, List.flatMap_cons,
      Item.nested_part, List.count_append]
    cases hcapture : g.capture with
    | none =>
      simp only [Option.toList_none, List.count_nil]
      omega
    | some capture =>
      simp only [Regex.groups, Option.toList_some, List.count_cons, List.count_nil, Prod.mk.eta]
      omega

/-- To close a group opens none. -/
theorem counts_of_closeGroup {s t : Reader} (h : s.closeGroup = .ok t) :
    t.groups = s.groups ∧ t.names = s.names := by
  unfold closeGroup at h
  split at h
  · exact absurd h (by simp)
  · obtain rfl := Except.ok.inj h
    exact ⟨rfl, rfl⟩

theorem Numbered.openCapture {s : Reader} (h : s.Numbered) (name : Option String) :
    (((s.openCapture name).groupsRead.map Prod.fst).Perm (List.range' 1 (s.groups + 1))) ∧
      (s.openCapture name).groupsRead.countP (·.2.isSome) =
        s.names.length + name.isSome.toNat := by
  have hopen : (s.openCapture name).groupsRead.Perm ((s.groups + 1, name) :: s.groupsRead) :=
    groupsRead_openGroup { s with groups := s.groups + 1 } _ _
  constructor
  · refine (hopen.map _).trans ?_
    rw [List.range'_concat, List.map_cons, Nat.one_mul, Nat.add_comm 1]
    exact (h.numbers.cons _).trans (List.perm_append_singleton _ _).symm
  · rw [hopen.countP_eq, List.countP_cons, h.names]
    cases name <;> rfl

/-- One round keeps the groups numbered unless it repeats some of them zero times. -/
theorem Numbered.turn {s t : Reader} {cs rest : List Char} (h : s.Numbered)
    (hturn : s.Turn cs t rest) (hkeeps : s.dropsGroups cs = false) : t.Numbered := by
  cases hturn with
  | capture hplain =>
    obtain ⟨hnumbers, hnames⟩ := h.openCapture none
    exact ⟨hnumbers, hnames⟩
  | named name hsevered =>
    obtain ⟨hnumbers, hnames⟩ := h.openCapture (some name)
    exact ⟨hnumbers, hnames⟩
  | unnumbered flags hsevered => exact h.of_perm (groupsRead_openGroup s none flags) rfl rfl
  | flags flags hsevered => exact h.of_perm (.refl _) rfl rfl
  | close hclose hsevered =>
    have hnodup : (s.groupsRead.map Prod.fst).Nodup :=
      h.numbers.nodup_iff.mpr List.nodup_range'
    obtain ⟨hgroups, hnames⟩ := counts_of_closeGroup hclose
    exact h.of_perm (groupsRead_closeGroup hnodup hclose) hgroups hnames
  | branch hsevered =>
    refine h.of_perm ?_ rfl rfl
    rw [List.perm_iff_count]
    intro g
    have hcount := (groups_branch s).count_eq g
    simp only [endBranch, groupsRead, heldGroups, List.flatMap_cons, List.flatMap_nil,
      List.count_append, List.count_nil]
    omega
  | item depth hgroups hsevered =>
    refine h.of_perm (.of_eq ?_) rfl rfl
    simp only [push, groupsRead, heldGroups, List.flatMap_cons, Item.nested_part, hgroups,
      List.nil_append]
  | repetition least most greedy hitems hdrops hsevered =>
    refine h.of_perm (.of_eq ?_) rfl rfl
    simp only [groupsRead, heldGroups, hitems, List.flatMap_cons, Item.nested_part,
      groups_repeated (hdrops hkeeps)]

end Reader

/-! ## §D Runs -/

/-- A round of the reader: what has been read before it and after it, the text that it is at, and
the rest that it leaves. -/
structure Round where
  before : Reader
  text : List Char
  after : Reader
  rest : List Char

/-- Whether a round repeats groups zero times. -/
def Round.dropsGroups (x : Round) : Bool :=
  x.before.dropsGroups (x.before.flags.skip x.text)

/-- The rounds of the reader. Blanks and comments at the end of the text are passed over in a last
round, which reads nothing. -/
def Reader.rounds : Nat → Reader → List Char → List Round
  | 0, s, cs => [⟨s, cs, s, []⟩]
  | fuel + 1, s, cs =>
    match s.flags.skip cs with
    | [] => [⟨s, cs, s, []⟩]
    | c :: rest =>
      match s.step c rest with
      | .ok (t, after) => ⟨s, cs, t, after⟩ :: rounds fuel t after
      | .error _ => []

theorem Reader.rounds_of_step {fuel : Nat} {s t : Reader} {c : Char} {cs rest after : List Char}
    (hskip : s.flags.skip cs = c :: rest) (hstep : s.step c rest = .ok (t, after)) :
    Reader.rounds (fuel + 1) s cs = ⟨s, cs, t, after⟩ :: Reader.rounds fuel t after := by
  rw [Reader.rounds]
  simp only [hskip, hstep]

/-- The rounds in which a text is read. -/
def rounds (text : List Char) : List Round := Reader.rounds text.length {} text

/-- Whether no group of a text is repeated zero times. -/
def keepsGroups (text : List Char) : Bool := (rounds text).all fun x => !x.dropsGroups

/-- A run keeps the groups numbered unless it repeats some of them zero times. -/
theorem Reader.Numbered.run {fuel : Nat} {s t : Reader} {cs : List Char} (h : s.Numbered)
    (hrun : Reader.run fuel s cs = .ok t)
    (hkeeps : ∀ x ∈ Reader.rounds fuel s cs, x.dropsGroups = false) : t.Numbered := by
  fun_induction Reader.run fuel s cs with
  | case1 | case3 =>
    obtain rfl := Except.ok.inj hrun
    exact h
  | case2 | case5 => exact absurd hrun (by simp)
  | case4 fuel s cs c rest hskip u after hstep ih =>
    rw [Reader.rounds_of_step hskip hstep] at hkeeps
    obtain ⟨hfirst, hrest⟩ := List.forall_mem_cons.mp hkeeps
    rw [Round.dropsGroups, hskip] at hfirst
    exact ih (h.turn (Reader.turn_of_step hstep) hfirst) hrun hrest

/-- The contents of the reader at the end of a run are the expression that is read. -/
theorem exists_run_of_read {text : List Char} {r : Regex} (h : read text = .ok r) :
    ∃ s, Reader.run text.length {} text = .ok s ∧ s.outer = [] ∧ s.contents.regex = r := by
  unfold read at h
  split at h
  · rename_i s hrun
    refine ⟨s, hrun, ?_⟩
    unfold Reader.finish at h
    generalize s.contents = contents at h ⊢
    simp only at h
    split at h
    · exact absurd h (by simp)
    · rename_i houter
      split at h
      · exact absurd h (by simp)
      · exact ⟨by simpa using houter, Except.ok.inj h⟩
  · exact absurd h (by simp)

/-- **`numbered_of_read`** — if no group is repeated zero times, an expression has the groups that
its text opens, numbered from one on, and as many names as the text gives. -/
theorem numbered_of_read {text : List Char} {r : Regex} (h : read text = .ok r)
    (hkeeps : keepsGroups text = true) :
    ∃ s, Reader.run text.length {} text = .ok s ∧
      (r.groups.map Prod.fst).Perm (List.range' 1 s.groups) ∧
      r.groups.countP (·.2.isSome) = s.names.length := by
  obtain ⟨s, hrun, houter, rfl⟩ := exists_run_of_read h
  have hnumbered : s.Numbered := by
    refine Reader.numbered_start.run hrun fun x hx => ?_
    simpa using List.all_eq_true.mp hkeeps x hx
  have hgroups : s.contents.regex.groups.Perm s.groupsRead := by
    rw [Reader.groupsRead, houter]
    exact Reader.groups_contents (hnumbered.numbers.nodup_iff.mpr List.nodup_range')
  exact ⟨s, hrun, (hgroups.map _).trans hnumbered.numbers, hgroups.countP_eq _ ▸ hnumbered.names⟩

/-! ## §E Counts and names -/

/-- The last of groups that are numbered from one on has their number. -/
theorem groupCount_of_numbers {r : Regex} {n : Nat}
    (h : (r.groups.map Prod.fst).Perm (List.range' 1 n)) : r.groupCount = n := by
  have hrange (n : Nat) : (List.range' 1 n).foldl max 0 = n := by
    induction n with
    | zero => rfl
    | succ n ih =>
      rw [List.range'_concat, List.foldl_append, ih, List.foldl_cons, List.foldl_nil]
      omega
  calc r.groupCount
      = (r.groups.map Prod.fst).foldl max 0 := (List.foldl_map ..).symm
    _ = (List.range' 1 n).foldl max 0 := h.foldl_eq 0
    _ = n := hrange n

/-- The names are those of the groups. -/
theorem groupNames_of_numbers {r : Regex} {n : Nat}
    (h : (r.groups.map Prod.fst).Perm (List.range' 1 n)) :
    r.groupNames.Perm (r.groups.map Prod.snd) := by
  have hlookup : ∀ g ∈ r.groups, r.groups.lookup g.1 = some g.2 := by
    intro g hg
    obtain ⟨before, after, hgroups⟩ := List.append_of_mem hg
    refine List.lookup_eq_some_iff.mpr ⟨before, after, hgroups, fun x hx => bne_iff_ne.mpr ?_⟩
    have hnodup : (r.groups.map Prod.fst).Nodup := h.nodup_iff.mpr List.nodup_range'
    rw [hgroups, List.map_append, List.map_cons, List.nodup_append] at hnodup
    exact (hnodup.2.2 x.1 (List.mem_map_of_mem hx) g.1 List.mem_cons_self).symm
  unfold groupNames
  rw [groupCount_of_numbers h]
  refine (h.symm.map _).trans (.of_eq ?_)
  rw [List.map_map]
  refine List.map_congr_left fun g hg => ?_
  rw [Function.comp_apply, hlookup g hg, Option.join_some]

end Regex

end FeatureFile
