/-
# FeatureFile.Proofs.Pattern.Placeholders — the groups that a score counts

The score of a regular expression counts opening parentheses: those that are not escaped and have no
question mark behind them. The reader of expressions takes a text apart into rounds, and none of
them ends inside an escape or before a question mark that belongs to it, so the count of a text is
the sum of the counts of what the rounds take (`openings_append`). A round counts one parenthesis
too few if it opens a group with a name, and too many if it passes over parentheses in a class or in
a comment (`Round.strays`); otherwise it counts what it opens. There is nothing to pass over where
blanks count and no class is read (`strays_eq_zero`).

Main statement: `regex_counts_groups` — together with the groups that have names, the placeholders
of a score are the groups of the expression, which are the arguments of every match, and the strays.
-/

import Mathlib
import FeatureFile.Proofs.Pattern.Anchors
import FeatureFile.Proofs.Pattern.Notation
import FeatureFile.Proofs.Regex.Quiet

namespace FeatureFile

/-! ## §A Opening parentheses -/

namespace Specificity

/-- The opening parentheses that count as placeholders. -/
def openings (cs : List Char) : Nat := (ofRegex cs).placeholders

@[simp]
theorem openings_nil : openings [] = 0 := rfl

@[simp]
theorem openings_escape (c : Char) (rest : List Char) :
    openings ('\\' :: c :: rest) = openings rest := by
  rw [openings, ofRegex]
  exact Nat.zero_add _

theorem openings_paren (rest : List Char) :
    openings ('(' :: rest) = (if rest.head? == some '?' then 0 else 1) + openings rest := by
  rw [openings, ofRegex]
  rfl

theorem openings_cons {c : Char} (hslash : c ≠ '\\') (hopen : c ≠ '(') (rest : List Char) :
    openings (c :: rest) = openings rest := by
  rw [openings, ofRegex_cons hslash hopen]
  exact Nat.zero_add _

/-- A backslash is last or escapes a character. -/
theorem ne_slash {c : Char} {cs : List Char} (hlast : c = '\\' → cs = [] → False)
    (hescape : ∀ d rest, c = '\\' → cs = d :: rest → False) : c ≠ '\\' := by
  intro hc
  cases cs with
  | nil => exact hlast hc rfl
  | cons d rest => exact hescape d rest hc rfl

/-- Behind a character that neither escapes nor opens anything a count begins anew. -/
theorem openings_append {c : Char} (hslash : c ≠ '\\') (hopen : c ≠ '(')
    (front rest : List Char) :
    openings (front ++ c :: rest) = openings (front ++ [c]) + openings rest := by
  induction front using ofRegex.induct with
  | case1 => rw [List.nil_append, List.nil_append, openings_cons hslash hopen,
      openings_cons hslash hopen, openings_nil, Nat.zero_add]
  | case2 =>
    simp only [List.singleton_append, openings_escape, openings_nil, Nat.zero_add]
  | case3 d front ih =>
    simp only [List.cons_append, openings_escape]
    exact ih
  | case4 front ih =>
    have hhead : (front ++ c :: rest).head? = (front ++ [c]).head? := by
      cases front <;> rfl
    simp only [List.cons_append, openings_paren, hhead, ih, Nat.add_assoc]
  | case5 d front hlast hslash' hopen' ih =>
    have hd := ne_slash hlast hslash'
    rw [List.cons_append, List.cons_append, openings_cons hd hopen', openings_cons hd hopen', ih]

/-- A last character that neither escapes nor opens anything, nor says how a group opens, does not
change the count. -/
theorem openings_concat {c : Char} (hslash : c ≠ '\\') (hopen : c ≠ '(') (hquestion : c ≠ '?')
    (cs : List Char) : openings (cs ++ [c]) = openings cs := by
  induction cs using ofRegex.induct with
  | case1 => exact openings_cons hslash hopen []
  | case2 => exact openings_escape c []
  | case3 d cs ih =>
    simp only [List.cons_append, openings_escape]
    exact ih
  | case4 cs ih =>
    have hhead : ((cs ++ [c]).head? == some '?') = (cs.head? == some '?') := by
      cases cs with
      | nil => simpa using hquestion
      | cons => rfl
    rw [List.cons_append, openings_paren, openings_paren, hhead, ih]
  | case5 d cs hlast hslash' hopen' ih =>
    have hd := ne_slash hlast hslash'
    rw [List.cons_append, openings_cons hd hopen', openings_cons hd hopen', ih]

end Specificity

namespace Regex

open Specificity

/-- What is passed over before an item is counted by itself. -/
theorem exists_skipped (f : Flags) {cs : List Char} (hne : f.skip cs ≠ []) :
    ∃ k, cs = k ++ f.skip cs ∧ ∀ rest, openings (k ++ rest) = openings k + openings rest := by
  obtain hsame | hnil | ⟨front, c, hcs, hblank⟩ := f.skip_cases cs
  · exact ⟨[], hsame.symm, fun rest => (Nat.zero_add _).symm⟩
  · exact absurd hnil hne
  · obtain ⟨hslash, hopen⟩ := ne_of_isBlank hblank
    refine ⟨front ++ [c], ?_, fun rest => ?_⟩
    · rw [List.append_assoc]
      exact hcs
    · rw [List.append_assoc]
      exact openings_append hslash hopen front rest

theorem openings_skip (f : Flags) (cs : List Char) :
    ∃ k, cs = k ++ f.skip cs ∧ openings cs = openings k + openings (f.skip cs) := by
  by_cases hne : f.skip cs = []
  · exact ⟨cs, by rw [hne, List.append_nil], by rw [hne]; rfl⟩
  · obtain ⟨k, hcs, hk⟩ := exists_skipped f hne
    exact ⟨k, hcs, (congrArg openings hcs).trans (hk _)⟩

/-- A question mark counts, so it is not passed over. -/
theorem head_of_skip {f : Flags} {cs : List Char} (h : (f.skip cs).head? ≠ some '?') :
    cs.head? ≠ some '?' := by
  intro hhead
  obtain ⟨rest, rfl⟩ := List.head?_eq_some_iff.mp hhead
  have hblank : Text.isBlank '?' = false := by decide
  refine h ?_
  rw [Flags.skip, spanSpaced]
  simp [hblank]

/-! ## §B Rounds -/

/-- What a round takes off the text. -/
def Round.taken (x : Round) : List Char := x.text.take (x.text.length - x.rest.length)

/-- Whether a round opens a group that has a number and no name. -/
def Round.opensGroup (x : Round) : Bool :=
  x.before.groups != x.after.groups && x.before.names == x.after.names

/-- The opening parentheses that count in a round and open no group without a name: those in a class
or in a comment, and one with blanks between it and its question mark. -/
def Round.strays (x : Round) : Nat := openings x.taken - x.opensGroup.toNat

/-- The strays of several rounds. -/
def Round.straysOf : List Round → Nat
  | [] => 0
  | x :: rounds => x.strays + straysOf rounds

/-- The opening parentheses of a text that count and open no group without a name. -/
def strays (text : List Char) : Nat := Round.straysOf (rounds text)

theorem Round.taken_eq {s t : Reader} {k rest : List Char} :
    (Round.mk s (k ++ rest) t rest).taken = k := by
  rw [Round.taken, List.length_append, Nat.add_sub_cancel, List.take_left]

theorem Round.strays_eq {x : Round} (h : x.opensGroup = false) : x.strays = openings x.taken := by
  rw [Round.strays, h]
  rfl

/-- What a round takes is counted by itself. -/
theorem openings_of_severed {s : Reader} (t : Reader) {cs item rest : List Char}
    (hskip : s.flags.skip cs = item) (hne : item ≠ []) (h : Severed item rest) :
    openings cs = openings (Round.mk s cs t rest).taken + openings rest := by
  obtain ⟨k, hcs, hk⟩ := exists_skipped s.flags (hskip ▸ hne)
  rw [hskip] at hcs
  obtain ⟨front, c, rfl, hslash, hopen⟩ | ⟨c, rfl⟩ | rfl := h
  · have htaken : cs = (k ++ front ++ [c]) ++ rest := by simpa using hcs
    rw [htaken, Round.taken_eq, ← openings_append hslash hopen (k ++ front) rest]
    simp
  · have htaken : cs = (k ++ ['\\', c]) ++ rest := by simpa using hcs
    rw [htaken, Round.taken_eq, List.append_assoc, hk, hk]
    simp
  · have htaken : (Round.mk s cs t []).taken = cs := List.take_length
    rw [htaken, openings_nil, Nat.add_zero]

/-- An opening parenthesis with no question mark behind it counts, and it opens a group with no
name. -/
theorem balance_of_capture {s : Reader} {cs inside : List Char}
    (hskip : s.flags.skip cs = '(' :: inside)
    (hplain : (s.flags.skip inside).head? ≠ some '?') :
    openings cs =
      1 + (Round.mk s cs (s.openCapture none) (s.flags.skip inside)).strays +
        openings (s.flags.skip inside) := by
  obtain ⟨k, hcs, hk⟩ := exists_skipped s.flags (hskip ▸ List.cons_ne_nil '(' inside)
  obtain ⟨k', hinside, hk'⟩ := openings_skip s.flags inside
  have hhead := head_of_skip hplain
  have hhead' : k'.head? ≠ some '?' := by
    cases k' with
    | nil => simp
    | cons c k' =>
      rw [hinside] at hhead
      exact hhead
  have hparen {cs : List Char} (h : cs.head? ≠ some '?') :
      openings ('(' :: cs) = 1 + openings cs := by
    rw [openings_paren, if_neg (by simpa using h)]
  have htaken : cs = (k ++ '(' :: k') ++ s.flags.skip inside := by
    rw [List.append_assoc, List.cons_append, ← hinside, ← hskip]
    exact hcs
  have hcount : openings (Round.mk s cs (s.openCapture none) (s.flags.skip inside)).taken =
      openings k + (1 + openings k') := by
    conv_lhs => rw [htaken, Round.taken_eq, hk, hparen hhead']
  have hopens : (Round.mk s cs (s.openCapture none) (s.flags.skip inside)).opensGroup = true := by
    simp [Round.opensGroup, Reader.openCapture, Reader.openGroup]
  have hcs' : openings cs = openings k + (1 + openings inside) := by
    rw [hcs, hskip, hk, hparen hhead]
  rw [Round.strays, hcount, hopens, hcs', hk', Bool.toNat_true]
  omega

/-- What a round takes counts as strays if the numbers and the names go up together. -/
theorem balance_of_severed {s t : Reader} {cs item rest : List Char}
    (hskip : s.flags.skip cs = item) (hne : item ≠ []) (hsevered : Severed item rest)
    (hcounts : t.groups = s.groups ∧ t.names = s.names ∨
      t.groups = s.groups + 1 ∧ ∃ name, t.names = name :: s.names) :
    openings cs + t.names.length + s.groups =
      t.groups + s.names.length + (Round.mk s cs t rest).strays + openings rest := by
  have hopenings := openings_of_severed t hskip hne hsevered
  have hstrays : (Round.mk s cs t rest).opensGroup = false := by
    obtain ⟨hgroups, -⟩ | ⟨-, name, hnames⟩ := hcounts
    · simp [Round.opensGroup, hgroups]
    · simp [Round.opensGroup, hnames]
  rw [Round.strays_eq hstrays]
  obtain ⟨hgroups, hnames⟩ | ⟨hgroups, name, hnames⟩ := hcounts
  · rw [hgroups, hnames]
    omega
  · rw [hgroups, hnames, List.length_cons]
    omega

/-- The count of the text before a round is what the round counts and the count of the rest. -/
theorem balance_of_turn {s t : Reader} {cs item rest : List Char} (hskip : s.flags.skip cs = item)
    (hne : item ≠ []) (h : s.Turn item t rest) :
    openings cs + t.names.length + s.groups =
      t.groups + s.names.length + (Round.mk s cs t rest).strays + openings rest := by
  cases h with
  | capture hplain =>
    have hcapture := balance_of_capture hskip hplain
    have hnames : (s.openCapture none).names = s.names := rfl
    have hgroups : (s.openCapture none).groups = s.groups + 1 := rfl
    rw [hnames, hgroups]
    omega
  | named name hsevered => exact balance_of_severed hskip hne hsevered (Or.inr ⟨rfl, name, rfl⟩)
  | unnumbered flags hsevered => exact balance_of_severed hskip hne hsevered (Or.inl ⟨rfl, rfl⟩)
  | flags flags hsevered => exact balance_of_severed hskip hne hsevered (Or.inl ⟨rfl, rfl⟩)
  | close hclose hsevered =>
    have hcounts := Reader.counts_of_closeGroup hclose
    exact balance_of_severed hskip hne hsevered (Or.inl hcounts)
  | branch hsevered => exact balance_of_severed hskip hne hsevered (Or.inl ⟨rfl, rfl⟩)
  | item depth hgroups hsevered => exact balance_of_severed hskip hne hsevered (Or.inl ⟨rfl, rfl⟩)
  | repetition least most greedy hitems hdrops hsevered =>
    exact balance_of_severed hskip hne hsevered (Or.inl ⟨rfl, rfl⟩)

/-- What a text counts is what its rounds count: the groups that it opens without the names that it
gives, and the strays. -/
theorem balance_of_run {fuel : Nat} {s t : Reader} {cs : List Char}
    (h : Reader.run fuel s cs = .ok t) :
    openings cs + t.names.length + s.groups =
      t.groups + s.names.length + Round.straysOf (Reader.rounds fuel s cs) := by
  -- At the end of the text nothing more is opened.
  have hend (s : Reader) (cs : List Char) : (Round.mk s cs s []).strays = openings cs := by
    have htaken : (Round.mk s cs s []).taken = cs := List.take_length
    rw [Round.strays_eq (by simp [Round.opensGroup]), htaken]
  fun_induction Reader.run fuel s cs with
  | case1 | case3 =>
    rename_i hskip
    obtain rfl := Except.ok.inj h
    rw [Reader.rounds]
    simp only [hskip, Round.straysOf, hend]
    omega
  | case2 | case5 => exact absurd h (by simp)
  | case4 fuel s cs c rest hskip u after hstep ih =>
    have hround := balance_of_turn hskip (by simp) (Reader.turn_of_step hstep)
    have hrest := ih h
    rw [Reader.rounds_of_step hskip hstep, Round.straysOf]
    omega

/-! ## §C Strays -/

/-- Whether a text is read with blanks that count and with no class. -/
def readsPlainly (text : List Char) : Bool :=
  (rounds text).all fun x => !x.before.flags.spaced && x.text.head? != some '['

theorem openings_of_inert {k : List Char} (h : Inert k) : openings k = 0 := by
  induction k with
  | nil => rfl
  | cons c k ih =>
    obtain ⟨hc, hk⟩ := inert_cons.mp h
    obtain ⟨hslash, hopen⟩ := isInert_iff.mp hc
    rw [openings_cons hslash hopen, ih hk]

/-- What is taken quietly counts for nothing. -/
theorem openings_of_quiet {cs rest : List Char} (h : Quiet cs rest) :
    ∃ k, cs = k ++ rest ∧ openings k = 0 := by
  cases h with
  | inert h =>
    obtain ⟨k, rfl, hk⟩ := h
    exact ⟨k, rfl, openings_of_inert hk⟩
  | @escape c _ _ h =>
    obtain ⟨k, rfl, hk⟩ := h
    exact ⟨'\\' :: c :: k, rfl, by rw [openings_escape, openings_of_inert hk]⟩
  | group h =>
    obtain ⟨k, rfl, hk⟩ := h
    refine ⟨'(' :: '?' :: k, rfl, ?_⟩
    rw [openings_paren, openings_cons (by decide) (by decide), openings_of_inert hk]
    rfl

/-- A round that is quiet has no strays, and neither has one that opens a group with no name. -/
theorem strays_of_step {s t : Reader} {c : Char} {cs rest : List Char}
    (hspaced : s.flags.spaced = false) (hclass : c ≠ '[') (h : s.step c cs = .ok (t, rest)) :
    (Round.mk s (c :: cs) t rest).strays = 0 := by
  rcases Reader.quiet_of_step hspaced hclass h with hquiet | ⟨rfl, rfl, rfl⟩
  · obtain ⟨k, hk, hcount⟩ := openings_of_quiet hquiet
    rw [hk, Round.strays, Round.taken_eq, hcount, Nat.zero_sub]
  · have htaken : (Round.mk s ('(' :: rest) (s.openCapture none) rest).taken = ['('] :=
      Round.taken_eq (k := ['('])
    have hopens : (Round.mk s ('(' :: rest) (s.openCapture none) rest).opensGroup = true := by
      simp [Round.opensGroup, Reader.openCapture, Reader.openGroup]
    rw [Round.strays, htaken, hopens]
    rfl

/-- Where blanks count, and no class is read, no parenthesis goes astray. -/
theorem straysOf_of_run {fuel : Nat} {s t : Reader} {cs : List Char}
    (h : Reader.run fuel s cs = .ok t)
    (hplain : ∀ x ∈ Reader.rounds fuel s cs,
      x.before.flags.spaced = false ∧ x.text.head? ≠ some '[') :
    Round.straysOf (Reader.rounds fuel s cs) = 0 := by
  -- Where blanks count, nothing is left at the end of the text.
  have hend {s : Reader} {cs : List Char} (hspaced : s.flags.spaced = false)
      (hskip : s.flags.skip cs = []) : Round.straysOf [⟨s, cs, s, []⟩] = 0 := by
    rw [Flags.skip_eq hspaced] at hskip
    rw [hskip, Round.straysOf, Round.strays_eq (by simp [Round.opensGroup])]
    rfl
  fun_induction Reader.run fuel s cs with
  | case1 s cs hempty =>
    obtain ⟨hspaced, -⟩ := hplain ⟨s, cs, s, []⟩ List.mem_cons_self
    exact hend hspaced (List.isEmpty_iff.mp hempty)
  | case3 fuel s cs hskip =>
    rw [Reader.rounds] at hplain ⊢
    simp only [hskip] at hplain ⊢
    exact hend (hplain _ List.mem_cons_self).1 hskip
  | case2 | case5 => exact absurd h (by simp)
  | case4 fuel s cs c rest hskip u after hstep ih =>
    rw [Reader.rounds_of_step hskip hstep] at hplain ⊢
    obtain ⟨⟨hspaced, hclass⟩, hrest⟩ := List.forall_mem_cons.mp hplain
    rw [Flags.skip_eq hspaced] at hskip
    subst hskip
    rw [Round.straysOf, ih h hrest, Nat.add_zero]
    exact strays_of_step hspaced (fun hc => hclass (congrArg some hc)) hstep

theorem strays_eq_zero {text : List Char} {s : Reader}
    (hrun : Reader.run text.length {} text = .ok s) (h : readsPlainly text = true) :
    strays text = 0 := by
  refine straysOf_of_run hrun fun x hx => ?_
  have hx := List.all_eq_true.mp h x hx
  simpa using hx

end Regex

open Specificity Regex

/-! ## §D Scores -/

/-- The names of the arguments are those of the groups. -/
theorem CompiledPattern.names_of_arguments? {p : CompiledPattern} {text : String}
    {args : List StepArgument} (h : p.arguments? text = some args) :
    args.map (·.name) = p.regex.groupNames := by
  obtain ⟨captures, hcaptures, rfl⟩ := Option.map_eq_some_iff.mp h
  obtain ⟨marks, -, rfl⟩ := Option.map_eq_some_iff.mp hcaptures
  rw [List.map_map]
  exact List.map_fst_zip (by simp [groupNames])

namespace StepPattern

/-- The anchors that a regular expression is given open nothing. -/
theorem openings_anchored (cs : List Char) : openings (anchored cs) = openings cs := by
  have hcaret (cs : List Char) : openings ('^' :: cs) = openings cs :=
    openings_cons (by decide) (by decide) cs
  have hdollar (cs : List Char) : openings (cs ++ ['$']) = openings cs :=
    openings_concat (by decide) (by decide) (by decide) cs
  unfold anchored
  split <;> split
  · rw [List.nil_append, List.append_nil]
  · rw [List.nil_append, hdollar]
  · rw [List.append_nil, List.singleton_append, hcaret]
  · rw [hdollar, List.singleton_append, hcaret]

/-- **`regex_counts_groups`** — if a regular expression that compiles repeats no group zero times,
the placeholders of its score and the groups that have names are, taken together, the groups and the
strays, of which there are none where blanks count and no class is read. In every match the groups
are the arguments. -/
theorem regex_counts_groups {t : String} {p : CompiledPattern} (h : (regex t).compile = .ok p)
    (hkeeps : keepsGroups p.source.toList = true) :
    ∃ score, (regex t).specificity = .ok score ∧
      score.placeholders + p.regex.groupNames.countP (·.isSome) =
        p.regex.groupCount + strays p.source.toList ∧
      (readsPlainly p.source.toList = true → strays p.source.toList = 0) ∧
      ∀ text args, p.arguments? text = some args →
        score.placeholders + args.countP (·.name.isSome) =
          args.length + strays p.source.toList := by
  obtain ⟨hsource, hread⟩ := source_of_compile h
  obtain ⟨s, hrun, hnumbers, hnames⟩ := numbered_of_read hread hkeeps
  have hgroups : p.regex.groupNames.countP (·.isSome) = s.names.length := by
    rw [(groupNames_of_numbers hnumbers).countP_eq, List.countP_map, ← hnames]
    rfl
  have hbalance := balance_of_run hrun
  have hopenings : openings p.source.toList = openings t.toList := by
    rw [hsource, openings_anchored]
  have hscore : openings t.toList + p.regex.groupNames.countP (·.isSome) =
      p.regex.groupCount + strays p.source.toList := by
    rw [groupCount_of_numbers hnumbers, hgroups, ← hopenings, strays, rounds]
    exact hbalance
  refine ⟨ofRegex t.toList, rfl, hscore, strays_eq_zero hrun, fun text args hargs => ?_⟩
  have hargnames := CompiledPattern.names_of_arguments? hargs
  have hlength : args.length = p.regex.groupCount := by
    rw [← List.length_map (·.name), hargnames, groupNames, List.length_map, List.length_range']
  have hcount : args.countP (·.name.isSome) = p.regex.groupNames.countP (·.isSome) := by
    rw [← hargnames, List.countP_map]
    rfl
  rw [hlength, hcount]
  exact hscore

/-- Escaped parentheses, and a group that records nothing, beside two that are arguments. -/
theorem regex_counts_groups_cats :
    ∃ p, (regex "^(a+) (?:cats? )?\\((?P<_>b+)\\)$").compile = .ok p ∧
      keepsGroups p.source.toList = true ∧
      ∃ score, (regex "^(a+) (?:cats? )?\\((?P<_>b+)\\)$").specificity = .ok score ∧
        score.placeholders + 1 = 2 ∧
        ∀ text args, p.arguments? text = some args →
          score.placeholders + args.countP (·.name.isSome) = args.length := by
  have hcompile : (regex "^(a+) (?:cats? )?\\((?P<_>b+)\\)$").compile =
      .ok ⟨"^(a+) (?:cats? )?\\((?P<_>b+)\\)$",
        .seq (.check .textStart)
          (.seq (.group 1 none (.repetition 1 none true (.literal 'a' [])))
            (.seq (.literal ' ' [])
              (.seq (.repetition 0 (some 1) true
                  (.seq (.literal 'c' ['a', 't'])
                    (.seq (.repetition 0 (some 1) true (.literal 's' [])) (.literal ' ' []))))
                (.seq (.literal '(' [])
                  (.seq (.group 2 (some "_") (.repetition 1 none true (.literal 'b' [])))
                    (.seq (.literal ')' []) (.check .textEnd)))))))⟩ := by
    decide +kernel
  have hkeeps : keepsGroups "^(a+) (?:cats? )?\\((?P<_>b+)\\)$".toList = true := by
    decide +kernel
  obtain ⟨score, hscore, hcount, hplain, hargs⟩ := regex_counts_groups hcompile hkeeps
  have hstrays : strays "^(a+) (?:cats? )?\\((?P<_>b+)\\)$".toList = 0 :=
    hplain (by decide +kernel)
  refine ⟨_, hcompile, hkeeps, score, hscore, ?_, fun text args h => ?_⟩
  · rw [hstrays] at hcount
    exact hcount
  · rw [hargs text args h, hstrays, Nat.add_zero]

/-- A group that has a name is not counted. A parenthesis in a class is, and so is a group that is
repeated zero times, though neither is an argument. -/
theorem regex_misses_groups :
    (∃ p, (regex "^(?P<n>a)$").compile = .ok p ∧
      p.arguments? "a" = some [⟨some "n", "a", some ⟨0, 1, by decide⟩⟩] ∧
      (regex "^(?P<n>a)$").specificity = .ok ⟨5, 0, 0⟩) ∧
    (∃ p, (regex "^[(]a$").compile = .ok p ∧ p.arguments? "(a" = some [] ∧
      (regex "^[(]a$").specificity = .ok ⟨1, 1, 0⟩) ∧
    ∃ p, (regex "^(a)\x7b0\x7db$").compile = .ok p ∧ p.arguments? "b" = some [] ∧
      (regex "^(a)\x7b0\x7db$").specificity = .ok ⟨3, 1, 0⟩ := by
  have hname : Regex.readGroupName ['n', '>', 'a', ')', '$'] = .ok ("n", ['a', ')', '$']) := by
    have hfirst : Regex.isGroupNameChar true 'n' = true :=
      Regex.isGroupNameChar_of_small (by decide) (by decide)
    simp [Regex.readGroupName, hfirst]
  have hreads : Regex.Reads {} ['^', '(', '?', 'P', '<', 'n', '>', 'a', ')', '$'] _ [] :=
    .step rfl rfl (by decide) <| .step rfl (Regex.Reader.step_named rfl hname rfl) (by decide) <|
      .step rfl rfl (by decide) <| .step rfl rfl (by decide) <| .step rfl rfl (by decide) .done
  have hread : Regex.read "^(?P<n>a)$".toList =
      .ok (.seq (.check .textStart) (.seq (.group 1 (some "n") (.literal 'a' []))
        (.check .textEnd))) := by
    have htext : "^(?P<n>a)$".toList = ['^', '(', '?', 'P', '<', 'n', '>', 'a', ')', '$'] := by
      decide
    rw [htext, Regex.read, Regex.run_of_reads hreads (Nat.le_refl _)]
    rfl
  have hnamed : (regex "^(?P<n>a)$").compile =
      .ok ⟨"^(?P<n>a)$", .seq (.check .textStart) (.seq (.group 1 (some "n") (.literal 'a' []))
        (.check .textEnd))⟩ := by
    have hsource : (regex "^(?P<n>a)$").regexSource = .ok "^(?P<n>a)$" := rfl
    simp only [compile, hsource, Regex.parse, hread]
    rfl
  have hclass : (regex "^[(]a$").compile =
      .ok ⟨"^[(]a$", .seq (.check .textStart) (.seq (.literal '(' ['a']) (.check .textEnd))⟩ := by
    decide_cbv
  refine ⟨⟨_, hnamed, ?_⟩, ⟨_, hclass, ?_⟩,
    ⟨⟨"^(a)\x7b0\x7db$", .seq (.check .textStart) (.seq (.literal 'b' []) (.check .textEnd))⟩, ?_⟩⟩
  all_goals decide +kernel

end StepPattern

end FeatureFile
