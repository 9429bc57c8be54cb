/-
# FeatureFile.Proofs.Indent.Split — Enter splits one line

A text whose line breaks are all written in one way is `Uniform`. What Enter inserts is a break and an
indentation. The break is written like the first one of the text, and so like all of them; where it
meets a carriage return or a line feed of the text, it does not become one break with it, since
either both are of the one way to break lines or the caret would divide a break (§B). So the breaks of
the new text are the old ones and one more, and of its rows only the one with the caret is another: it
is split there, and its second part is indented.

Main statement: `splitsLine_of_handle`.
-/

import FeatureFile.Proofs.Indent.LastKeyword
import FeatureFile.Proofs.Token.Breaks

namespace FeatureFile

open Text (isBreak isIndent byteLength)

/-! ## §A One way to break lines -/

namespace LineEnding

/-- **`e.Uniform cs`** — all breaks of the text are written in the one way. -/
def Uniform (e : LineEnding) (cs : List Char) : Prop := ∀ ending ∈ breaks cs, ending = e.text.toList

instance (e : LineEnding) (cs : List Char) : Decidable (e.Uniform cs) :=
  inferInstanceAs (Decidable (∀ ending ∈ breaks cs, ending = e.text.toList))

/-- The way a new break is written: that of the others; a line feed if there are none. -/
def orLineFeed (e : LineEnding) (cs : List Char) : LineEnding := if breaks cs = [] then lf else e

theorem firstBreak_eq (cs : List Char) : firstBreak cs = (breaks cs).head?.getD ['\n'] := by
  rw [firstBreak, breaks, List.head?_filter]

variable {e : LineEnding} {a b : List Char}

/-- In a uniform text the ending that is detected is that of all lines. -/
theorem Uniform.text_detect {cs : List Char} (h : e.Uniform cs) :
    (detect cs).text = (e.orLineFeed cs).text := by
  rw [FeatureFile.text_detect, firstBreak_eq, orLineFeed]
  cases hbreaks : breaks cs with
  | nil => rfl
  | cons ending more =>
    rw [if_neg (List.cons_ne_nil _ _), List.head?_cons, Option.getD_some, h ending (by simp [hbreaks]),
      String.ofList_toList]

/-- A uniform text without breaks is uniform in any other way. -/
theorem Uniform.orLineFeed {cs : List Char} (h : e.Uniform cs) : (e.orLineFeed cs).Uniform cs := by
  intro ending hending
  rw [LineEnding.orLineFeed, if_neg (List.ne_nil_of_mem hending)]
  exact h ending hending

/-- A uniform text has the characters of its ending in its breaks, and no other ones. -/
theorem Uniform.mem_text {cs : List Char} (h : e.Uniform cs) {c : Char} (hc : c ∈ cs)
    (hbreak : isBreak c = true) : c ∈ e.text.toList := by
  obtain ⟨ending, hending, hmem⟩ := exists_mem_breaks cs c hc hbreak
  rwa [h ending hending] at hmem

/-! ## §B One break more -/

/-- A break behind the first part of a uniform text does not become one with its last character. -/
theorem Uniform.not_splitsBreak_text (h : e.Uniform (a ++ b)) (t : List Char) :
    ¬ SplitsBreak a (e.text.toList ++ t) := by
  rintro ⟨hlast, hhead⟩
  have hmem := h.mem_text (List.mem_append_left b (List.mem_of_getLast? hlast)) rfl
  cases e with
  | lf => exact absurd hmem (by decide)
  | crlf => cases hhead
  | cr => cases hhead

/-- Neither does it, with an indentation behind it, with the first character of the second part. -/
theorem Uniform.text_not_splitsBreak (h : e.Uniform (a ++ b)) {indent : List Char}
    (hindent : ∀ c ∈ indent, isIndent c = true) : ¬ SplitsBreak (e.text.toList ++ indent) b := by
  rintro ⟨hlast, hhead⟩
  have hmem := h.mem_text (List.mem_append_right a (List.mem_of_head? hhead)) rfl
  cases indent with
  | nil =>
    rw [List.append_nil] at hlast
    cases e with
    | lf => cases hlast
    | crlf => cases hlast
    | cr => exact absurd hmem (by decide)
  | cons c cs =>
    rw [List.getLast?_append_of_ne_nil _ (List.cons_ne_nil c cs)] at hlast
    exact absurd (hindent '\r' (List.mem_of_getLast? hlast)) (by decide)

/-- A break and an indentation: an empty row, and one of blanks. -/
theorem rows_text_append (e : LineEnding) {indent : List Char}
    (hindent : ∀ c ∈ indent, isIndent c = true) :
    rows (e.text.toList ++ indent) = [[], indent] ∧
      breaks (e.text.toList ++ indent) = [e.text.toList] := by
  have hnone : ∀ c ∈ indent, isBreak c = false := fun c hc => isBreak_of_isIndent (hindent c hc)
  have hwhole : ¬ SplitsBreak e.text.toList indent := by
    rintro ⟨-, hhead⟩
    exact absurd (hnone '\n' (List.mem_of_head? hhead)) (by decide)
  rw [rows_append hwhole, breaks_append hwhole, rows_of_not_isBreak hnone, breaks_of_not_isBreak hnone]
  cases e <;> exact ⟨rfl, rfl⟩

/-- **A break more.** Behind a break and an indentation between two parts of a uniform text all breaks
of the parts stay, and the row that reaches from the one part to the other is split. -/
theorem Uniform.insert (h : e.Uniform (a ++ b)) {indent : List Char}
    (hindent : ∀ c ∈ indent, isIndent c = true) :
    breaks (a ++ (e.text.toList ++ indent) ++ b) = breaks a ++ e.text.toList :: breaks b ∧
      ∀ before left right after, rows a = before ++ [left] → rows b = right :: after →
        rows (a ++ (e.text.toList ++ indent) ++ b) =
          before ++ left :: (indent ++ right) :: after := by
  obtain ⟨hrows, hbreaks⟩ := rows_text_append e hindent
  have hfront := h.not_splitsBreak_text (indent ++ b)
  have hback := h.text_not_splitsBreak hindent
  rw [← List.append_assoc] at hfront
  rw [List.append_assoc]
  constructor
  · rw [breaks_append hfront, breaks_append hback, hbreaks, List.singleton_append]
  · intro before left right after ha hb
    have hinner : joinRows [[], indent] (right :: after) = [] :: (indent ++ right) :: after :=
      joinRows_append [[]] indent right after
    rw [rows_append hfront, rows_append hback, hrows, ha, hb, hinner, joinRows_append,
      List.append_nil]

end LineEnding

/-! ## §C Presses of the key -/

/-- **`Text.SplitsBreakAt offset cs`** — the offset is between a carriage return and its line feed. -/
def Text.SplitsBreakAt (offset : Nat) (cs : List Char) : Prop :=
  ∃ a b, cs = a ++ b ∧ byteLength a = offset ∧ SplitsBreak a b

theorem Text.splitsBreakAt_iff {offset : Nat} {cs : List Char} :
    SplitsBreakAt offset cs ↔ ∃ halves ∈ splitAt? offset cs, SplitsBreak halves.1 halves.2 := by
  constructor
  · rintro ⟨a, b, rfl, rfl, hsplits⟩
    exact ⟨(a, b), splitAt?_byteLength a b, hsplits⟩
  · rintro ⟨⟨a, b⟩, hcut, hsplits⟩
    obtain ⟨happend, hlen⟩ := splitAt?_append hcut
    exact ⟨a, b, happend.symm, hlen, hsplits⟩

instance (offset : Nat) (cs : List Char) : Decidable (Text.SplitsBreakAt offset cs) :=
  decidable_of_iff _ Text.splitsBreakAt_iff.symm

/-- **`SplitsLine e d offset d'`** — the one document becomes the other by a line break at the offset
that is written in the way of `e`, and all its line breaks are written so. One row is split in two by
it, and the second part is indented. -/
structure SplitsLine (e : LineEnding) (d : Document) (offset : Nat) (d' : Document) : Prop where
  uniform : e.Uniform d'.text.toList
  newlines : newlines d'.text = newlines d.text + 1
  split : ∃ front back indent before left right after,
    d.text.toList = front ++ back ∧ byteLength front = offset ∧
      (∀ c ∈ indent, isIndent c = true) ∧
      d' = { d with text := String.ofList (front ++ (e.text.toList ++ indent) ++ back) } ∧
      rows front = before ++ [left] ∧ rows back = right :: after ∧
      rows d.text.toList = before ++ (left ++ right) :: after ∧
      rows d'.text.toList = before ++ left :: (indent ++ right) :: after

/-- What a line break inserts is a break like the first one of the text, and an indentation. -/
theorem exists_indent {source : String} {offset : Nat} {o : IndentOptions} {x : String}
    (h : lineBreakText? source offset o = some x) :
    ∃ indent, (∀ c ∈ indent, isIndent c = true) ∧
      x.toList = (LineEnding.detect source.toList).text.toList ++ indent := by
  obtain ⟨⟨index, t, keyword⟩, -, rfl⟩ := Option.map_eq_some_iff.mp h
  refine ⟨(baseIndent (tokenize source) index).toList ++
    (indentText (keyword.levelsBelow o) o).toList, ?_, ?_⟩
  · exact List.forall_mem_append.mpr
      ⟨isIndent_baseIndent (fitting_tokenize source) index, isIndent_indentText _ o⟩
  · rw [String.toList_append, String.toList_append, List.append_assoc]

/-- **Enter splits one line.** In a text whose breaks are all written in one way it is handled, at a
caret that divides no break, by one break more that is written in that way, and the row with the caret
is split. -/
theorem LineBreakHandler.splitsLine_of_handle {h : LineBreakHandler} {d d' : Document} {c : Caret}
    {e : LineEnding} (huniform : e.Uniform d.text.toList)
    (hcaret : ¬ Text.SplitsBreakAt c.offset d.text.toList)
    (hhandle : h.handle d c = .ok (d', true)) :
    SplitsLine (e.orLineFeed d.text.toList) d c.offset d' := by
  obtain ⟨-, -, -, -, x, hx, front, back, htext, hlen, rfl⟩ := handle_eq_ok_true_iff.mp hhandle
  obtain ⟨indent, hindent, hchars⟩ := exists_indent hx
  have hwhole : ¬ SplitsBreak front back := fun hsplits => hcaret ⟨front, back, htext, hlen, hsplits⟩
  rw [huniform.text_detect] at hchars
  have hstyle := huniform.orLineFeed
  -- From here on it does not matter where the way to break lines comes from.
  generalize e.orLineFeed d.text.toList = e' at hchars hstyle ⊢
  rw [htext] at hstyle
  obtain ⟨hbreaks, hrows⟩ := hstyle.insert hindent
  obtain ⟨before, left, ha⟩ := List.eq_nil_or_concat (rows front) |>.resolve_left (rows_ne_nil front)
  obtain ⟨right, after, hb⟩ := List.exists_cons_of_ne_nil (rows_ne_nil back)
  rw [List.concat_eq_append] at ha
  constructor
  case uniform =>
    intro ending hending
    rw [String.toList_ofList, hchars, hbreaks] at hending
    rcases List.mem_append.mp hending with hmem | hmem
    · exact hstyle ending (by rw [breaks_append hwhole]; exact List.mem_append_left _ hmem)
    · rcases List.mem_cons.mp hmem with rfl | hmem
      · rfl
      · exact hstyle ending (by rw [breaks_append hwhole]; exact List.mem_append_right _ hmem)
  case newlines =>
    rw [newlines_eq, newlines_eq, String.toList_ofList, hchars, hbreaks, htext, breaks_append hwhole,
      List.length_append, List.length_append, List.length_cons, Nat.add_assoc]
  case split =>
    refine ⟨front, back, indent, before, left, right, after, htext, hlen, hindent, ?_, ha, hb, ?_, ?_⟩
    · rw [hchars]
    · rw [htext, rows_append hwhole, ha, hb, joinRows_append]
    · rw [String.toList_ofList, hchars, hrows before left right after ha hb]

/-- A title is split, and its rest goes to a scenario's place. -/
theorem LineBreakHandler.splitsLine_in_title :
    LineEnding.crlf.Uniform "Feature: a b\r\n".toList ∧
      ¬ Text.SplitsBreakAt 10 "Feature: a b\r\n".toList ∧
      handle ⟨true, {}⟩ ⟨"Feature: a b\r\n", true⟩ (.atOffset 10) =
        .ok (⟨"Feature: a\r\n     b\r\n", true⟩, true) ∧
      SplitsLine (LineEnding.crlf.orLineFeed "Feature: a b\r\n".toList)
        ⟨"Feature: a b\r\n", true⟩ 10 ⟨"Feature: a\r\n     b\r\n", true⟩ := by
  have huniform : LineEnding.crlf.Uniform "Feature: a b\r\n".toList := by decide
  have hcaret : ¬ Text.SplitsBreakAt 10 "Feature: a b\r\n".toList := by decide
  have hhandle : handle ⟨true, {}⟩ ⟨"Feature: a b\r\n", true⟩ (.atOffset 10) =
      .ok (⟨"Feature: a\r\n     b\r\n", true⟩, true) := by decide +kernel
  refine ⟨huniform, hcaret, hhandle, ?_⟩
  exact splitsLine_of_handle (d := ⟨"Feature: a b\r\n", true⟩) (c := .atOffset 10) huniform hcaret
    hhandle

end FeatureFile
