/-
# FeatureFile.Proofs.Regex.Reader — reading a text piece by piece

What a piece of text adds to an expression does not hang on what stands around it, with one
exception: behind a repetition, a question mark would make it lazy. So the reader is followed piece
by piece. `Reads` takes it from one state and text to another, `Atom` and `Adds` say which parts a
piece adds to the branch that is being read, and `Body` what the contents of a group come to. Pieces
are put together (`Adds.append`), repeated (`Atom.repeat`), chosen from (`body_of_adds`) and grouped
(`Body.group`, `Body.capture`), and a text that is read to its end is read (`run_of_reads`).
-/

import Mathlib.Data.List.Forall2
import Mathlib.Tactic.FinCases
import FeatureFile.Pattern.Source

namespace FeatureFile

namespace Regex

/-! ## §A Runs of the reader -/

/-- **`Reads s cs t rest`** — item by item, the reader comes from one state and text to another. -/
inductive Reads : Reader → List Char → Reader → List Char → Prop
  | done {s : Reader} {cs : List Char} : Reads s cs s cs
  | step {s t u : Reader} {c : Char} {cs ds rest : List Char} (hspaced : s.flags.spaced = false)
    (hstep : s.step c cs = .ok (t, ds)) (hlength : ds.length ≤ cs.length)
    (h : Reads t ds u rest) : Reads s (c :: cs) u rest

theorem Reads.trans {s t u : Reader} {cs ds rest : List Char} (h₁ : Reads s cs t ds)
    (h₂ : Reads t ds u rest) : Reads s cs u rest := by
  induction h₁ with
  | done => exact h₂
  | step hspaced hstep hlength _ ih => exact .step hspaced hstep hlength (ih h₂)

theorem Reads.one {s t : Reader} {c : Char} {cs rest : List Char}
    (hspaced : s.flags.spaced = false) (hstep : s.step c (cs ++ rest) = .ok (t, rest)) :
    Reads s (c :: cs ++ rest) t rest :=
  .step hspaced hstep (by simp) .done

/-- Where blanks count, nothing is skipped. -/
theorem Flags.skip_eq {f : Flags} (h : f.spaced = false) (cs : List Char) : f.skip cs = cs := by
  cases cs with
  | nil => rfl
  | cons c cs => simp [Flags.skip, spanSpaced, h]

/-- A text that is read to its end is read with as much fuel as it has characters. -/
theorem run_of_reads {s t : Reader} {cs : List Char} (h : Reads s cs t []) {fuel : Nat}
    (hfuel : cs.length ≤ fuel) : Reader.run fuel s cs = .ok t := by
  generalize hend : ([] : List Char) = rest at h
  induction h generalizing fuel with
  | done => subst hend; cases fuel <;> rfl
  | step hspaced hstep hlength _ ih =>
    cases fuel with
    | zero => simp at hfuel
    | succ fuel =>
      rw [Reader.run, Flags.skip_eq hspaced]
      simp only [hstep]
      rw [List.length_cons] at hfuel
      exact ih (by omega) hend

/-- Where blanks count, a parenthesis with a name behind it opens a group of that name. -/
theorem Reader.step_named {s : Reader} {cs rest : List Char} {name : String}
    (hspaced : s.flags.spaced = false) (hname : readGroupName cs = .ok (name, rest))
    (hnew : s.names.contains name = false) :
    s.step '(' ('?' :: 'P' :: '<' :: cs) =
      .ok ({ s with names := name :: s.names }.openCapture (some name), rest) := by
  show s.readOpening _ = _
  rw [readOpening, Flags.skip_eq hspaced]
  simp only [hname, hnew, Bool.false_eq_true, if_false]

/-! ## §B What a piece adds -/

/-- Adds parts to the last branch. -/
def Reader.pushAll (s : Reader) (parts : List Nested) : Reader :=
  { s with items := (parts.map Item.part).reverse ++ s.items }

theorem Reader.pushAll_append (s : Reader) (xs ys : List Nested) :
    (s.pushAll xs).pushAll ys = s.pushAll (xs ++ ys) := by
  simp [Reader.pushAll]

/-- **`Atom f cs x`** — under the flags a piece adds one part, whatever stands behind it. -/
def Atom (f : Flags) (cs : List Char) (x : Nested) : Prop :=
  ∀ s rest, s.flags = f → Reads s (cs ++ rest) (s.pushAll [x]) rest

/-- **`Adds f cs parts`** — under the flags a piece adds parts, unless a question mark stands behind
it. -/
def Adds (f : Flags) (cs : List Char) (parts : List Nested) : Prop :=
  ∀ s rest, s.flags = f → rest.head? ≠ some '?' → Reads s (cs ++ rest) (s.pushAll parts) rest

section Pieces

variable {f : Flags} {cs ds : List Char} {x : Nested} {xs ys : List Nested}

theorem Atom.adds (h : Atom f cs x) : Adds f cs [x] := fun s rest hs _ => h s rest hs

theorem adds_nil (f : Flags) : Adds f [] [] := fun _ _ _ _ => .done

theorem Adds.append (hcs : Adds f cs xs) (hds : Adds f ds ys) (hne : ds.head? ≠ some '?') :
    Adds f (cs ++ ds) (xs ++ ys) := by
  intro s rest hs hrest
  rw [List.append_assoc, ← Reader.pushAll_append]
  refine (hcs s (ds ++ rest) hs ?_).trans (hds (s.pushAll xs) rest hs hrest)
  cases ds with
  | nil => exact hrest
  | cons d ds => exact hne

/-- One item that pushes a part. -/
theorem atom_of_step {c : Char} (hspaced : f.spaced = false)
    (hstep : ∀ (s : Reader) rest, s.flags = f →
      s.step c (cs ++ rest) = .ok (s.push x.regex x.depth, rest)) :
    Atom f (c :: cs) x := by
  intro s rest hs
  exact .one (hs ▸ hspaced) (hstep s rest hs)

/-- A repetition of the part before it; no question mark behind it makes it lazy. -/
theorem Atom.repeat (h : Atom f cs x) (hspaced : f.spaced = false) (hgreed : f.swapGreed = false)
    {c : Char} {least : Nat} {most : Option Nat}
    (hstep : ∀ (s : Reader) rest, s.step c rest = s.repeatLast least most rest) :
    Adds f (cs ++ [c]) [⟨x.regex.repeated least most true, x.depth + 1⟩] := by
  intro s rest hs hrest
  rw [List.append_assoc]
  refine (h s ([c] ++ rest) hs).trans (.one (hs ▸ hspaced) ?_)
  have hlazy : (rest.head? == some '?') = false := by simpa using hrest
  rw [hstep, List.nil_append]
  simp [Reader.pushAll, Reader.repeatLast, hs, hgreed, hlazy]

/-- A lazy repetition of the part before it. -/
theorem Atom.repeatLazily (h : Atom f cs x) (hspaced : f.spaced = false)
    (hgreed : f.swapGreed = false) {c : Char} {least : Nat} {most : Option Nat}
    (hstep : ∀ (s : Reader) rest, s.step c rest = s.repeatLast least most rest) :
    Adds f (cs ++ [c, '?']) [⟨x.regex.repeated least most false, x.depth + 1⟩] := by
  intro s rest hs _
  rw [List.append_assoc]
  refine (h s ([c, '?'] ++ rest) hs).trans (.one (hs ▸ hspaced) ?_)
  rw [hstep]
  simp [Reader.pushAll, Reader.repeatLast, hs, hgreed]

end Pieces

/-! ## §C Groups -/

/-- **`Body f cs x`** — under the flags a piece is the contents of a group, which come to `x`. -/
def Body (f : Flags) (cs : List Char) (x : Nested) : Prop :=
  ∀ s rest, s.flags = f → s.branches = [] → s.items = [] →
    ∃ branches items, Reads s (cs ++ ')' :: rest) { s with branches, items } (')' :: rest) ∧
      Reader.contents { s with branches, items } = x

/-- The branch of a reader that began it with these parts. -/
theorem branch_pushAll {s : Reader} (hs : s.items = []) (xs : List Nested) :
    (s.pushAll xs).branch = .join concat xs := by
  simp only [Reader.branch, Reader.pushAll, hs, List.append_nil, List.reverse_reverse,
    List.map_map]
  rw [show Item.nested ∘ Item.part = id from rfl, List.map_id]

/-- Branches are read one after the other, each behind those before it. -/
theorem reads_branches {f : Flags} (hspaced : f.spaced = false) {css : List (List Char)}
    {xss : List (List Nested)} (h : List.Forall₂ (Adds f) css xss) (hne : css ≠ []) (s : Reader)
    (rest : List Char) (hs : s.flags = f) (hitems : s.items = []) :
    ∃ branches items,
      Reads s (List.intercalate ['|'] css ++ ')' :: rest) { s with branches, items } (')' :: rest) ∧
      (Reader.branch { s with branches, items } :: branches).reverse =
        s.branches.reverse ++ xss.map (.join concat) := by
  induction h generalizing s with
  | nil => exact absurd rfl hne
  | @cons cs xs css xss hcs hcss ih =>
    have hfirst (after : List Char) (hafter : after.head? ≠ some '?') :
        Reads s (cs ++ after) (s.pushAll xs) after := hcs s after hs hafter
    cases hcss with
    | nil =>
      rw [List.intercalate_singleton]
      refine ⟨s.branches, (s.pushAll xs).items, hfirst (')' :: rest) (by simp), ?_⟩
      have hbranch := branch_pushAll hitems xs
      simp only [Reader.pushAll] at hbranch ⊢
      rw [hbranch]
      simp
    | @cons ds ys dss yss hds hdss =>
      -- A bar ends the first branch, and the others are read behind it.
      obtain ⟨branches, items, hreads, hrest⟩ :=
        ih (by simp) (s.pushAll xs).endBranch hs rfl
      refine ⟨branches, items, ?_, ?_⟩
      · rw [List.intercalate_cons_cons, List.append_assoc, List.append_assoc]
        refine (hfirst _ (by simp)).trans ?_
        exact .step (hs ▸ hspaced) rfl (Nat.le_refl _) hreads
      · rw [Reader.endBranch, branch_pushAll hitems] at hrest
        simpa [Reader.pushAll] using hrest

/-- **`body_of_adds`** — pieces with bars between them are a choice of what each of them adds. -/
theorem body_of_adds {f : Flags} (hspaced : f.spaced = false) {css : List (List Char)}
    {xss : List (List Nested)} (h : List.Forall₂ (Adds f) css xss) (hne : css ≠ []) :
    Body f (List.intercalate ['|'] css) (.join choice (xss.map (.join concat))) := by
  intro s rest hs hbranches hitems
  obtain ⟨branches, items, hreads, hrest⟩ := reads_branches hspaced h hne s rest hs hitems
  refine ⟨branches, items, hreads, ?_⟩
  rw [Reader.contents, hrest, hbranches]
  rfl

/-- **`Body.group`** — a group that records nothing adds its contents as one part. -/
theorem Body.group {f g : Flags} {opening cs : List Char} {x : Nested} (h : Body g cs x)
    (hspaced : f.spaced = false) (hspaced' : g.spaced = false)
    (hopen : ∀ (s : Reader) rest, s.flags = f →
      s.readOpening (opening ++ rest) = .ok (s.openGroup none g, rest)) :
    Atom f ('(' :: opening ++ cs ++ [')']) ⟨x.regex, x.depth + 1⟩ := by
  intro s rest hs
  obtain ⟨branches, items, hreads, hx⟩ := h (s.openGroup none g) rest rfl rfl rfl
  rw [List.append_assoc, List.append_assoc]
  refine .trans (.one (hs ▸ hspaced) (hopen s _ hs)) ?_
  refine hreads.trans (.step hspaced' ?_ (Nat.le_refl _) .done)
  simp only [Reader.step, Reader.closeGroup, Reader.openGroup] at hx ⊢
  simp only [hx]
  rfl

/-- **`Body.capture`** — a group that records its text adds it under the next number. -/
theorem Body.capture {f : Flags} {cs : List Char} {x : Nested} (h : Body f cs x)
    (hspaced : f.spaced = false) (hquestion : cs.head? ≠ some '?') (hne : cs ≠ []) (s : Reader)
    (rest : List Char) (hs : s.flags = f) :
    Reads s ('(' :: cs ++ ')' :: rest)
      ({ s with groups := s.groups + 1 }.pushAll
        [⟨.group (s.groups + 1) none x.regex, x.depth + 1⟩]) rest := by
  obtain ⟨branches, items, hreads, hx⟩ := h (s.openCapture none) rest hs rfl rfl
  have hopen : s.readOpening (cs ++ ')' :: rest) = .ok (s.openCapture none, cs ++ ')' :: rest) := by
    obtain ⟨c, cs, rfl⟩ := List.exists_cons_of_ne_nil hne
    have hc : c ≠ '?' := fun heq => hquestion (by rw [heq]; rfl)
    unfold Reader.readOpening
    rw [Flags.skip_eq (hs ▸ hspaced), List.cons_append]
    split <;> simp_all
  refine .step (hs ▸ hspaced) hopen (Nat.le_refl _) ?_
  have hspaced' : (s.openCapture none).flags.spaced = false := hs ▸ hspaced
  refine hreads.trans (.step hspaced' ?_ (Nat.le_refl _) .done)
  simp only [Reader.step, Reader.closeGroup, Reader.openCapture, Reader.openGroup] at hx ⊢
  simp only [hx]
  rfl

/-! ## §D Characters -/

/-- A character without a meaning stands for itself. -/
theorem atom_plain {f : Flags} (hspaced : f.spaced = false) {c : Char} (h : isMeta c = false) :
    Atom f [c] ⟨f.literal c, 0⟩ := by
  refine atom_of_step hspaced fun s rest hs => ?_
  unfold Reader.step
  split
  all_goals first
    | exact absurd h (by decide)
    | rw [hs]; rfl

/-- A character with a meaning stands for itself behind a backslash. -/
theorem atom_escaped {f : Flags} (hspaced : f.spaced = false) {c : Char} (h : isMeta c = true) :
    Atom f ['\\', c] ⟨f.literal c, 0⟩ := by
  refine atom_of_step hspaced fun s rest hs => ?_
  have hread : readEscape f (c :: rest) = .ok (.literal c, rest) := by
    have hc : c ∈ ['\\', '.', '+', '*', '?', '(', ')', '|', '[', ']', '{', '}', '^', '$', '#',
        '&', '-', '~'] := List.contains_iff_mem.1 h
    fin_cases hc <;> rfl
  simp only [Reader.step, List.cons_append, List.nil_append, hs, hread, Except.map]

theorem head_escape (w : List Char) : (escape w).head? ≠ some '?' := by
  cases w with
  | nil => simp [escape]
  | cons c cs =>
    simp only [escape, List.flatMap_cons]
    split
    · simp
    · rename_i hc
      rintro heq
      simp only [List.cons_append, List.head?_cons, Option.some.injEq] at heq
      exact hc (heq ▸ by decide)

/-- An escaped text adds its characters. -/
theorem adds_escape (w : List Char) :
    Adds {} (escape w) (w.map fun c => ⟨literal c [], 0⟩) := by
  induction w with
  | nil => exact adds_nil {}
  | cons c cs ih =>
    have hfirst : Adds {} (if isMeta c then ['\\', c] else [c]) [⟨literal c [], 0⟩] := by
      split
      · exact (atom_escaped rfl ‹_›).adds
      · exact (atom_plain rfl (Bool.eq_false_iff.2 ‹_›)).adds
    exact hfirst.append ih (head_escape cs)

end Regex

end FeatureFile
