/-
# FeatureFile.Proofs.Indent.Repeat — Enter pressed again and again

A line break at the end of a line inserts a break and an indentation. Pressed again behind what it
inserted, Enter reads another source: there is a blank line more, the break that ends the line may
be another one, and a carriage return may have met a line feed. It inserts the same text all the
same.

Two things decide what is inserted. The last keyword before the caret, with the indentation of its
line, is decided by the text in front of the line's end alone: behind it come blank lines, and no
keyword begins with a blank (§B). The break is written like the first one of the text, which is
either in front of the line's end or the one that is inserted there (§C).

Main statement: `repeats_of_handle`.
-/

import FeatureFile.Indent.LineBreak
import FeatureFile.Proofs.Token.Classes
import FeatureFile.Proofs.Token.Layout

namespace FeatureFile

open Text (isBreak isIndent byteLength byteSize)

/-! ## §A The last line of a text -/

/-- A text that is not empty ends in a line, and a text behind it that begins with a break changes
the break of that line at most. -/
theorem lines_append_of_ne_nil {a : List Char} (ha : a ≠ []) :
    ∃ ls content ending, (∀ c ∈ ending, isBreak c = true) ∧
      ∀ z : List Char, (∀ c ∈ z.head?, isBreak c = true) →
        ∃ ending' z', ending' ++ z' = ending ++ z ∧
          lines (a ++ z) = ls ++ ⟨content, ending'⟩ :: lines z' := by
  fun_induction lines a with
  | case1 => exact absurd rfl ha
  | case2 rest ih =>
    by_cases hrest : rest = []
    · subst hrest
      exact ⟨[], [], ['\r', '\n'], List.all_eq_true.mp rfl, fun z _ => ⟨_, z, rfl, rfl⟩⟩
    · obtain ⟨ls, content, ending, hending, hlines⟩ := ih hrest
      refine ⟨⟨[], ['\r', '\n']⟩ :: ls, content, ending, hending, fun z hz => ?_⟩
      obtain ⟨ending', z', happ, heq⟩ := hlines z hz
      exact ⟨ending', z', happ, congrArg (_ :: ·) heq⟩
  | case3 c rest hcrlf hbreak ih =>
    by_cases hrest : rest = []
    · -- The break may become longer by a line feed of the other text.
      subst hrest
      refine ⟨[], [], [c], List.forall_mem_singleton.mpr hbreak, fun z _ => ?_⟩
      exact ⟨_, _, List.take_append_drop _ _, lines_cons_of_isBreak hbreak z⟩
    · obtain ⟨ls, content, ending, hending, hlines⟩ := ih hrest
      refine ⟨⟨[], [c]⟩ :: ls, content, ending, hending, fun z hz => ?_⟩
      obtain ⟨ending', z', happ, heq⟩ := hlines z hz
      have hlen : breakLength (c :: (rest ++ z)) = 1 :=
        breakLength_eq_one hcrlf fun hnil => absurd hnil hrest
      refine ⟨ending', z', happ, ?_⟩
      rw [List.cons_append, lines_cons_of_isBreak hbreak, hlen]
      exact congrArg (_ :: ·) heq
  | case4 c rest hcrlf hbreak ih =>
    have hc : isBreak c = false := Bool.eq_false_iff.mpr hbreak
    by_cases hrest : rest = []
    · subst hrest
      refine ⟨[], [c], [], fun _ h => absurd h List.not_mem_nil, fun z hz => ?_⟩
      rw [List.singleton_append, lines_cons_of_not_isBreak hc]
      cases z with
      | nil => exact ⟨[], [], rfl, rfl⟩
      | cons b z =>
        rw [lines_cons_of_isBreak (hz b rfl)]
        exact ⟨_, _, List.take_append_drop _ _, rfl⟩
    · obtain ⟨ls, content, ending, hending, hlines⟩ := ih hrest
      cases ls with
      | nil =>
        refine ⟨[], c :: content, ending, hending, fun z hz => ?_⟩
        obtain ⟨ending', z', happ, heq⟩ := hlines z hz
        refine ⟨ending', z', happ, ?_⟩
        rw [List.cons_append, lines_cons_of_not_isBreak hc, heq]
        rfl
      | cons l ls =>
        refine ⟨{ l with content := c :: l.content } :: ls, content, ending, hending,
          fun z hz => ?_⟩
        obtain ⟨ending', z', happ, heq⟩ := hlines z hz
        refine ⟨ending', z', happ, ?_⟩
        rw [List.cons_append, lines_cons_of_not_isBreak hc, heq]
        rfl

/-! ## §B The last keyword -/

/-- **`BlankBehind y z`** — a text whose first part is blank lines and which begins with a break, if
it is not empty. -/
structure BlankBehind (y z : List Char) : Prop where
  begins : ∀ c ∈ (y ++ z).head?, isBreak c = true
  blank : ∀ c ∈ y, isBreak c = true ∨ isIndent c = true

/-- A keyword that begins in a text of breaks, spaces and tabs does not exist. -/
theorem keyword?_eq_none_of_start {offset : Nat} {ts : List Token} {y z : List Char}
    (htiles : Tiles offset ts) (hfitting : ∀ t ∈ ts, Fitting t.kind t.text.toList)
    (htext : textOfTokens ts = y ++ z) (hblank : ∀ c ∈ y, isBreak c = true ∨ isIndent c = true) :
    ∀ t ∈ ts, t.span.start < offset + byteLength y → t.keyword? = none := by
  intro t ht hlt
  by_contra hkeyword
  obtain ⟨a, b, rfl⟩ := List.append_of_mem ht
  obtain ⟨hstart, -, hne⟩ := htiles.at_split
  have hpieces : textOfTokens a ++ (t.text.toList ++ textOfTokens b) = y ++ z := by
    rw [← htext]
    simp [textOfTokens, List.flatMap_append]
  -- The keyword begins in front of the end of the blank text, so its first character is in it.
  rcases List.append_eq_append_iff.mp hpieces with ⟨m, hy, hm⟩ | ⟨m, ha, -⟩
  · obtain ⟨c, cs, hc⟩ := List.exists_cons_of_ne_nil hne
    obtain ⟨hindent, hbreak⟩ := (hfitting t ht).head_of_keyword hkeyword c (by rw [hc]; rfl)
    cases m with
    | nil =>
      rw [List.append_nil] at hy
      rw [hy] at hlt
      omega
    | cons d m =>
      rw [hc] at hm
      obtain ⟨rfl, -⟩ := List.cons.inj hm
      have hmem : c ∈ y := by
        rw [hy]
        exact List.mem_append_right _ List.mem_cons_self
      rcases hblank c hmem with h | h
      · rw [hbreak] at h
        cases h
      · rw [hindent] at h
        cases h
  · rw [ha, Text.byteLength_append] at hstart
    omega

/-- The pieces in front of the break that ends a text are those in front of it in every text that
begins so and goes on with a break. -/
theorem exists_pieces_of_ne_nil {a : List Char} (ha : a ≠ []) :
    ∃ (pieces : List Lexeme) (ending : List Char), (∀ c ∈ ending, isBreak c = true) ∧
      pieces.flatMap Prod.snd ++ ending = a ∧
      ∀ z : List Char, (∀ c ∈ z.head?, isBreak c = true) →
        ∃ rest, Token.lexemes none (lines (a ++ z)) = pieces ++ rest ∧
          rest.flatMap Prod.snd = ending ++ z := by
  obtain ⟨ls, content, ending, hending, hlines⟩ := lines_append_of_ne_nil ha
  let doc := Token.docAfter none ls
  let pieces := Token.lexemes none ls ++ (Token.contentLexemes doc content).1
  have hsource (z : List Char) (hz : ∀ c ∈ z.head?, isBreak c = true) :
      ∃ rest, Token.lexemes none (lines (a ++ z)) = pieces ++ rest ∧
        rest.flatMap Prod.snd = ending ++ z := by
    obtain ⟨ending', z', happ, heq⟩ := hlines z hz
    refine ⟨Token.breakLexemes ending' ++
      Token.lexemes (Token.lineLexemes doc ⟨content, ending'⟩).2 (lines z'), ?_, ?_⟩
    · rw [heq, Token.lexemes_append, Token.lexemes]
      simp only [Token.lineLexemes, Token.breakLexemes, pieces, doc, List.append_assoc]
      split <;> simp only [List.append_assoc, List.nil_append]
    · rw [List.flatMap_append, (Token.cuts_lexemes _ _).join, flatMap_chars_lines, ← happ]
      congr 1
      unfold Token.breakLexemes
      split
      · rename_i hnil
        rw [List.isEmpty_iff.mp hnil]
        rfl
      · simp
  refine ⟨pieces, ending, hending, ?_, hsource⟩
  obtain ⟨rest, heq, hrest⟩ := hsource [] (by simp)
  have hjoin := (cuts_source (a ++ [])).join
  rwa [heq, List.flatMap_append, hrest, List.append_nil, List.append_nil] at hjoin

/-- **The tokens in front of the end of a line.** Those that follow hold no keyword for as long as
the text is blank. -/
theorem tokenize_append_blank {a : List Char} (ha : a ≠ []) :
    ∃ front : List Token, (∀ t ∈ front, t.span.start < byteLength a) ∧
      ∀ y z, BlankBehind y z → ∃ back,
        tokenize (String.ofList (a ++ (y ++ z))) = front ++ back ∧
          ∀ t ∈ back, t.span.start < byteLength (a ++ y) → t.keyword? = none := by
  obtain ⟨pieces, ending, hending, hfront, hsource⟩ := exists_pieces_of_ne_nil ha
  refine ⟨Token.place 0 pieces, ?_, ?_⟩
  · intro t ht
    have htiles : Tiles 0 (Token.place 0 pieces) := by
      obtain ⟨rest, heq, -⟩ := hsource [] (by simp)
      refine tiles_place (fun p hp => (cuts_source (a ++ [])).ne_nil p ?_) 0
      rw [heq]
      exact List.mem_append_left _ hp
    obtain ⟨l, r, hlr⟩ := List.append_of_mem ht
    obtain ⟨htext, hstart, -, hne⟩ := htiles.position hlr
    rw [textOfTokens_place] at htext
    have hpos := Text.byteLength_pos hne
    rw [← hfront, htext, hstart]
    simp only [Text.byteLength_append]
    omega
  · intro y z hblank
    obtain ⟨rest, heq, hrest⟩ := hsource (y ++ z) hblank.begins
    have hpieces : Cuts (pieces ++ rest) (a ++ (y ++ z)) := heq ▸ cuts_source _
    refine ⟨Token.place (byteLength (pieces.flatMap Prod.snd)) rest, ?_, ?_⟩
    · rw [tokenize, String.toList_ofList, heq, Token.place_append, Nat.zero_add]
    · have hsize : byteLength (a ++ y) =
          byteLength (pieces.flatMap Prod.snd) + byteLength (ending ++ y) := by
        rw [← hfront]
        simp only [Text.byteLength_append]
        omega
      rw [hsize]
      refine keyword?_eq_none_of_start (z := z) ?_ ?_ ?_ ?_
      · exact tiles_place (fun p hp => hpieces.ne_nil p (List.mem_append_right _ hp)) _
      · apply Token.fitting_place
        intro p hp
        refine Token.fitting_lexemes none (lines (a ++ (y ++ z))) p ?_
        rw [heq]
        exact List.mem_append_right _ hp
      · rw [textOfTokens_place, hrest, List.append_assoc]
      · exact List.forall_mem_append.mpr ⟨fun c hc => Or.inl (hending c hc), hblank.blank⟩

/-- Tokens that are no keywords do not change which keyword is the last. -/
theorem lastKeywordBefore?_append {front back : List Token} {bound offset : Nat}
    (hle : bound ≤ offset) (hfront : ∀ t ∈ front, t.span.start < bound)
    (hback : ∀ t ∈ back, t.span.start < offset → t.keyword? = none) :
    lastKeywordBefore? (front ++ back) offset = lastKeywordBefore? front bound := by
  have hall : front.takeWhile (fun t => t.span.start < bound) = front :=
    List.takeWhile_eq_self_iff.mpr fun t ht => decide_eq_true (hfront t ht)
  have hcut : (front ++ back).takeWhile (fun t => t.span.start < offset) =
      front ++ back.takeWhile fun t => t.span.start < offset :=
    List.takeWhile_append_of_pos fun t ht => decide_eq_true ((hfront t ht).trans_le hle)
  rw [lastKeywordBefore?, hcut, List.zipIdx_append, List.reverse_append, List.findSome?_append,
    Nat.zero_add, List.findSome?_eq_none_iff.mpr, Option.none_or, lastKeywordBefore?, hall]
  -- What stands behind holds no keyword.
  · rintro ⟨t, index⟩ hmem
    have ht : t ∈ back.takeWhile fun t => t.span.start < offset := by
      have := List.mem_map_of_mem (f := Prod.fst) (List.mem_reverse.mp hmem)
      rwa [List.zipIdx_map_fst] at this
    have hlt : t.span.start < offset := by simpa using List.mem_takeWhile_imp ht
    show t.keyword?.map _ = none
    rw [hback t (List.takeWhile_subset _ ht) hlt, Option.map_none]

/-- The last keyword is one of the tokens. -/
theorem getElem?_of_lastKeywordBefore? {tokens : List Token} {offset index : Nat} {t : Token}
    {keyword : Keyword} (h : lastKeywordBefore? tokens offset = some (index, t, keyword)) :
    tokens[index]? = some t := by
  obtain ⟨⟨u, i⟩, hmem, heq⟩ := List.exists_of_findSome?_eq_some h
  obtain ⟨k, -, hk⟩ := Option.map_eq_some_iff.mp heq
  obtain ⟨rfl, rfl, rfl⟩ : i = index ∧ u = t ∧ k = keyword := by simpa using hk
  have hget := List.mem_zipIdx_iff_getElem?.mp (List.mem_reverse.mp hmem)
  obtain ⟨rest, hrest⟩ := List.takeWhile_prefix (l := tokens) fun t => t.span.start < offset
  rw [← hrest, List.getElem?_append_left (List.getElem?_eq_some_iff.mp hget).1]
  exact hget

theorem baseIndent_append {front : List Token} {index : Nat} (h : index < front.length)
    (back : List Token) : baseIndent (front ++ back) index = baseIndent front index := by
  unfold baseIndent
  split
  · rfl
  · rw [List.getElem?_append_left (by omega)]

theorem isIndent_baseIndent {tokens : List Token}
    (h : ∀ t ∈ tokens, Fitting t.kind t.text.toList) (index : Nat) :
    ∀ c ∈ (baseIndent tokens index).toList, isIndent c = true := by
  unfold baseIndent
  split
  · simp
  · split
    · rename_i t ht
      split
      · rename_i hkind
        have hfitting := h t (List.mem_of_getElem? ht)
        rwa [hkind] at hfitting
      · simp
    · simp

theorem isIndent_indentText (levels : Nat) (o : IndentOptions) :
    ∀ c ∈ (indentText levels o).toList, isIndent c = true := by
  intro c hc
  unfold indentText at hc
  split at hc <;> rw [String.toList_ofList] at hc <;> rw [List.eq_of_mem_replicate hc] <;> rfl

/-- **What a line break inserts** is decided by the text in front of the line's end, up to how the
break is written: its last keyword and the indentation of that keyword's line. -/
theorem lineBreakText?_append_blank {a : List Char} (ha : a ≠ []) (o : IndentOptions) :
    ∃ indent : Option (List Char), (∀ cs ∈ indent, ∀ c ∈ cs, isIndent c = true) ∧
      ∀ y z, BlankBehind y z →
        lineBreakText? (String.ofList (a ++ (y ++ z))) (byteLength (a ++ y)) o =
          indent.map fun cs =>
            (LineEnding.detect (a ++ (y ++ z))).text ++ String.ofList cs := by
  obtain ⟨front, hfront, htokens⟩ := tokenize_append_blank ha
  refine ⟨(lastKeywordBefore? front (byteLength a)).map fun found =>
    (baseIndent front found.1).toList ++ (indentText (found.2.2.levelsBelow o) o).toList, ?_, ?_⟩
  · intro cs hcs
    obtain ⟨⟨index, t, keyword⟩, -, rfl⟩ := Option.map_eq_some_iff.mp hcs
    refine List.forall_mem_append.mpr ⟨isIndent_baseIndent ?_ index, isIndent_indentText _ o⟩
    obtain ⟨back, heq, -⟩ := htokens [] [] ⟨by simp, by simp⟩
    intro u hu
    have hmem : u ∈ tokenize (String.ofList (a ++ ([] ++ []))) := by
      rw [heq]
      exact List.mem_append_left _ hu
    exact fitting_tokenize _ u hmem
  · intro y z hblank
    obtain ⟨back, heq, hback⟩ := htokens y z hblank
    have hle : byteLength a ≤ byteLength (a ++ y) := by
      rw [Text.byteLength_append]
      omega
    simp only [lineBreakText?, heq, lastKeywordBefore?_append hle hfront hback,
      String.toList_ofList]
    cases hlast : lastKeywordBefore? front (byteLength a) with
    | none => rfl
    | some found =>
      obtain ⟨index, t, keyword⟩ := found
      have hindex : index < front.length :=
        (List.getElem?_eq_some_iff.mp (getElem?_of_lastKeywordBefore? hlast)).1
      simp only [Option.map_some, baseIndent_append hindex, String.ofList_append,
        String.ofList_toList, String.append_assoc]

/-! ## §C The break -/

/-- **`Text.AtLineEnd offset cs`** — the offset is the end of a line of the text: nothing or a line
break follows, and the offset does not divide one. -/
def Text.AtLineEnd (offset : Nat) (cs : List Char) : Prop :=
  ∃ before after, cs = before ++ after ∧ byteLength before = offset ∧
    (∀ c ∈ after.head?, isBreak c = true) ∧
      ¬(before.getLast? = some '\r' ∧ after.head? = some '\n')

namespace LineEnding

theorem isBreak_text (e : LineEnding) : ∀ c ∈ e.text.toList, isBreak c = true :=
  List.all_eq_true.mp (by cases e <;> decide)

theorem detect_append_of_not_isBreak {a : List Char} (h : ∀ c ∈ a, isBreak c = false)
    (z : List Char) : detect (a ++ z) = detect z := by
  unfold detect
  rw [List.dropWhile_append_of_pos]
  intro c hc
  rw [h c hc, Bool.not_false]

theorem detect_carriageReturn (z : List Char) :
    detect ('\r' :: z) = if z.head? = some '\n' then crlf else cr := by
  cases z with
  | nil => rfl
  | cons c z =>
    by_cases hc : c = '\n'
    · subst hc
      rfl
    · simp [detect, isBreak, hc]

theorem detect_eq_cr {z : List Char} (h : z.head? ≠ some '\n') : detect ('\r' :: z) = cr := by
  rw [detect_carriageReturn, if_neg h]

/-- A text has no break, or it has a first one. -/
theorem first_break (a : List Char) :
    (∀ c ∈ a, isBreak c = false) ∨
      ∃ front c rest, a = front ++ c :: rest ∧ (∀ d ∈ front, isBreak d = false) ∧
        (c = '\n' ∨ c = '\r') := by
  cases hdrop : a.dropWhile fun c => !isBreak c with
  | nil =>
    left
    intro c hc
    simpa using List.dropWhile_eq_nil_iff.mp hdrop c hc
  | cons c rest =>
    right
    have hc := List.head?_dropWhile_not (fun c => !isBreak c) a
    rw [hdrop] at hc
    refine ⟨a.takeWhile fun c => !isBreak c, c, rest, ?_, ?_, ?_⟩
    · rw [← hdrop, List.takeWhile_append_dropWhile]
    · intro d hd
      simpa using List.mem_takeWhile_imp hd
    · have hbreak : isBreak c = true := by simpa using hc
      simpa [isBreak] using hbreak

/-- A text that begins with a break begins with a carriage return if its ending is that. -/
theorem head?_ne_of_detect {b : List Char} (hb : ∀ c ∈ b.head?, isBreak c = true)
    (h : detect b = cr) : b.head? ≠ some '\n' := by
  intro hhead
  obtain ⟨rest, rfl⟩ := List.head?_eq_some_iff.mp hhead
  cases h

/-- Repetitions of a text that begins with a carriage return begin with no line feed. -/
theorem head?_flatten_replicate {w b : List Char} (hb : b.head? ≠ some '\n') (n : Nat) :
    ((List.replicate n ('\r' :: w)).flatten ++ b).head? ≠ some '\n' := by
  cases n with
  | zero => exact hb
  | succ n =>
    rw [List.replicate_succ, List.flatten_cons]
    exact fun h => absurd (Option.some.inj h) (by decide)

/-- **The ending is detected as before** behind any number of repetitions of what a line break at
the end of a line inserts: the ending itself and an indentation. -/
theorem detect_repeat {a b w : List Char} (hb : ∀ c ∈ b.head?, isBreak c = true)
    (hsplit : ¬(a.getLast? = some '\r' ∧ b.head? = some '\n'))
    (hw : ∀ c ∈ w, isIndent c = true) (n : Nat) :
    detect (a ++ ((List.replicate (n + 1) ((detect (a ++ b)).text.toList ++ w)).flatten ++ b)) =
      detect (a ++ b) := by
  rw [List.replicate_succ, List.flatten_cons, List.append_assoc, List.append_assoc]
  rcases first_break a with hnone | ⟨front, c, rest, rfl, hfront, hc⟩
  · -- The first break is the one that is inserted.
    rw [detect_append_of_not_isBreak hnone, detect_append_of_not_isBreak hnone]
    cases hdetect : detect b with
    | lf => rfl
    | crlf => rfl
    | cr =>
      refine detect_eq_cr ?_
      cases w with
      | nil => exact head?_flatten_replicate (head?_ne_of_detect hb hdetect) n
      | cons d w =>
        rintro hd
        obtain rfl := Option.some.inj hd
        exact absurd (hw '\n' List.mem_cons_self) (by decide)
  · simp only [List.append_assoc, List.cons_append, detect_append_of_not_isBreak hfront]
    cases rest with
    | cons d rest =>
      -- The first break and the character behind it stand as before.
      rcases hc with rfl | rfl
      · rfl
      · rw [detect_carriageReturn, detect_carriageReturn]
        rfl
    | nil =>
      rcases hc with rfl | rfl
      · rfl
      · have hhead : b.head? ≠ some '\n' := fun hhead => hsplit ⟨by simp, hhead⟩
        rw [List.nil_append, List.nil_append, detect_eq_cr hhead]
        exact detect_eq_cr fun h => absurd (Option.some.inj h) (by decide)

end LineEnding

/-! ## §D Presses of the key -/

/-- **`d.Inserts offset x d'`** — the document becomes another one by a text put in at an offset. -/
def Document.Inserts (d : Document) (offset : Nat) (x : String) (d' : Document) : Prop :=
  ∃ before after, d.text.toList = before ++ after ∧ byteLength before = offset ∧
    d' = { d with text := String.ofList (before ++ x.toList ++ after) }

theorem Document.insert_eq_ok_iff {d d' : Document} {offset : Nat} {x : String}
    (h : d.writable = true) : d.insert offset x = .ok d' ↔ d.Inserts offset x d' := by
  rw [insert, if_pos h]
  constructor
  · intro hinsert
    cases hcut : Text.splitAt? offset d.text.toList with
    | none =>
      rw [hcut] at hinsert
      cases hinsert
    | some halves =>
      obtain ⟨before, after⟩ := halves
      rw [hcut] at hinsert
      obtain ⟨happ, hlen⟩ := Text.splitAt?_append hcut
      exact ⟨before, after, happ.symm, hlen, (Except.ok.inj hinsert).symm⟩
  · rintro ⟨before, after, htext, rfl, rfl⟩
    rw [htext, Text.splitAt?_byteLength]

namespace LineBreakHandler

/-- **When Enter is handled, and what it does.** -/
theorem handle_eq_ok_true_iff {h : LineBreakHandler} {d d' : Document} {c : Caret} :
    h.handle d c = .ok (d', true) ↔
      d.writable = true ∧ h.enabled = true ∧ c.hasSelection = false ∧ c.offset ≠ 0 ∧
        ∃ x, lineBreakText? d.text c.offset h.options = some x ∧ d.Inserts c.offset x d' := by
  constructor
  · intro hhandle
    unfold handle at hhandle
    split at hhandle
    · cases hhandle
    rename_i hwritable
    have hwritable : d.writable = true := by simpa using hwritable
    split at hhandle
    · cases hhandle
    split at hhandle
    · cases hhandle
    rename_i hguard
    obtain ⟨⟨henabled, hselection⟩, hoffset⟩ :
        (h.enabled = true ∧ c.hasSelection = false) ∧ c.offset ≠ 0 := by simpa using hguard
    split at hhandle
    · cases hhandle
    rename_i x hx
    cases hinsert : d.insert c.offset x with
    | error e =>
      rw [hinsert] at hhandle
      cases hhandle
    | ok after =>
      rw [hinsert] at hhandle
      cases hhandle
      exact ⟨hwritable, henabled, hselection, hoffset, x, hx,
        (Document.insert_eq_ok_iff hwritable).mp hinsert⟩
  · rintro ⟨hwritable, henabled, hselection, hoffset, x, hx, hinserts⟩
    have hle : ¬d.length < c.offset := by
      obtain ⟨before, after, htext, hlen, -⟩ := hinserts
      rw [Document.length, byteSize, htext, Text.byteLength_append, ← hlen]
      omega
    have hinsert := (Document.insert_eq_ok_iff hwritable).mpr hinserts
    simp [handle, hwritable, henabled, hselection, hoffset, hle, hx, hinsert, Except.map]

/-- **`h.Repeats x n d offset`** — Enter pressed so many times, with nothing selected and the caret
first at the offset and then always behind what was inserted last, is handled each time and inserts
the text each time. -/
def Repeats (h : LineBreakHandler) (x : String) : Nat → Document → Nat → Prop
  | 0, _, _ => True
  | n + 1, d, offset =>
    ∀ c : Caret, c.offset = offset → c.hasSelection = false →
      ∃ d', h.handle d c = .ok (d', true) ∧ d.Inserts offset x d' ∧
        h.Repeats x n d' (offset + byteSize x)

/-- Presses repeat a text where it is what a line break inserts behind any number of repetitions. -/
theorem repeats_of_lineBreakText? {h : LineBreakHandler} {a b : List Char} {x : String}
    (henabled : h.enabled = true) (ha : a ≠ [])
    (hnext : ∀ k, lineBreakText?
      (String.ofList (a ++ ((List.replicate (k + 1) x.toList).flatten ++ b)))
      (byteLength (a ++ (List.replicate (k + 1) x.toList).flatten)) h.options = some x)
    (n k : Nat) :
    h.Repeats x n ⟨String.ofList (a ++ ((List.replicate (k + 1) x.toList).flatten ++ b)), true⟩
      (byteLength (a ++ (List.replicate (k + 1) x.toList).flatten)) := by
  induction n generalizing k with
  | zero => trivial
  | succ n ih =>
    intro c hoffset hselection
    have hgrow : (List.replicate (k + 1 + 1) x.toList).flatten =
        (List.replicate (k + 1) x.toList).flatten ++ x.toList := by
      rw [List.replicate_succ', List.flatten_append, List.flatten_singleton]
    have hinserts : Document.Inserts
        ⟨String.ofList (a ++ ((List.replicate (k + 1) x.toList).flatten ++ b)), true⟩
        (byteLength (a ++ (List.replicate (k + 1) x.toList).flatten)) x
        ⟨String.ofList (a ++ ((List.replicate (k + 1 + 1) x.toList).flatten ++ b)), true⟩ := by
      refine ⟨a ++ (List.replicate (k + 1) x.toList).flatten, b, ?_, rfl, ?_⟩
      · rw [String.toList_ofList, List.append_assoc]
      · simp only [hgrow, List.append_assoc]
    refine ⟨_, ?_, hinserts, ?_⟩
    · refine handle_eq_ok_true_iff.mpr ⟨rfl, henabled, hselection, ?_, x, ?_, ?_⟩
      · have hne : a ++ (List.replicate (k + 1) x.toList).flatten ≠ [] := by simp [ha]
        have hpos := Text.byteLength_pos hne
        omega
      · rw [hoffset]
        exact hnext k
      · rw [hoffset]
        exact hinserts
    · have hsize : byteLength (a ++ (List.replicate (k + 1) x.toList).flatten) + byteSize x =
          byteLength (a ++ (List.replicate (k + 1 + 1) x.toList).flatten) := by
        rw [hgrow, byteSize]
        simp only [Text.byteLength_append, Nat.add_assoc]
      rw [hsize]
      exact ih (k + 1)

/-- **Enter pressed again inserts the same text.** Where a press at the end of a line is handled, so
is every further press behind the text that it inserted, and it inserts that text again. -/
theorem repeats_of_handle {h : LineBreakHandler} {d d' : Document} {c : Caret}
    (hend : Text.AtLineEnd c.offset d.text.toList) (hhandle : h.handle d c = .ok (d', true)) :
    ∃ x, d.Inserts c.offset x d' ∧ ∀ n, h.Repeats x n d' (c.offset + byteSize x) := by
  obtain ⟨hwritable, henabled, -, hoffset, x, hx, hinserts⟩ := handle_eq_ok_true_iff.mp hhandle
  refine ⟨x, hinserts, fun n => ?_⟩
  obtain ⟨a, b, htext, hlen, hb, hsplit⟩ := hend
  have ha : a ≠ [] := by
    rintro rfl
    exact hoffset hlen.symm
  have hdocument :
      d' = ⟨String.ofList (a ++ ((List.replicate 1 x.toList).flatten ++ b)), true⟩ := by
    obtain ⟨a', b', htext', hlen', rfl⟩ := hinserts
    -- The two cuts of the text are the same.
    have hcut := Text.splitAt?_byteLength a b
    rw [← htext, htext', hlen, ← hlen', Text.splitAt?_byteLength] at hcut
    obtain ⟨rfl, rfl⟩ : a' = a ∧ b' = b := by simpa using hcut
    simp [hwritable]
  have hsource : d.text = String.ofList (a ++ ([] ++ b)) := by
    rw [List.nil_append, ← htext, String.ofList_toList]
  obtain ⟨indent, hindent, hbreak⟩ := lineBreakText?_append_blank ha h.options
  have hfirst := hbreak [] b ⟨hb, by simp⟩
  rw [List.append_nil, hlen, ← hsource, hx] at hfirst
  obtain ⟨w, hw, hxw⟩ := Option.map_eq_some_iff.mp hfirst.symm
  have hchars : x.toList = (LineEnding.detect (a ++ b)).text.toList ++ w := by
    rw [← hxw, String.toList_append, String.toList_ofList, List.nil_append]
  rw [hdocument, show c.offset + byteSize x =
    byteLength (a ++ (List.replicate 1 x.toList).flatten) by simp [hlen, byteSize]]
  refine repeats_of_lineBreakText? henabled ha (fun k => ?_) n 0
  have hblank : ∀ c ∈ x.toList, isBreak c = true ∨ isIndent c = true := by
    rw [hchars]
    exact List.forall_mem_append.mpr ⟨fun c hc => Or.inl (LineEnding.isBreak_text _ c hc),
      fun c hc => Or.inr (hindent w hw c hc)⟩
  have hbehind : BlankBehind (List.replicate (k + 1) x.toList).flatten b := by
    refine ⟨?_, ?_⟩
    · intro e he
      rw [List.replicate_succ, List.flatten_cons, hchars] at he
      cases hdetect : LineEnding.detect (a ++ b) <;> rw [hdetect] at he <;>
        obtain rfl := Option.some.inj he <;> rfl
    · intro e he
      obtain ⟨l, hl, hel⟩ := List.mem_flatten.mp he
      rw [List.eq_of_mem_replicate hl] at hel
      exact hblank e hel
  rw [hbreak _ b hbehind, hw, Option.map_some, hchars,
    LineEnding.detect_repeat hb hsplit (hindent w hw) k, ← hxw, List.nil_append]

/-- A carriage return inserted before a line feed: the next press stands between the two. -/
theorem repeats_before_lineFeed :
    Text.AtLineEnd 15 "Rule: a\rRule: b\n".toList ∧
      handle ⟨true, { scenarioLevels := 0 }⟩ ⟨"Rule: a\rRule: b\n", true⟩ (.atOffset 15) =
        .ok (⟨"Rule: a\rRule: b\r\n", true⟩, true) ∧
      ∃ x, Document.Inserts ⟨"Rule: a\rRule: b\n", true⟩ 15 x ⟨"Rule: a\rRule: b\r\n", true⟩ ∧
        ∀ n, Repeats ⟨true, { scenarioLevels := 0 }⟩ x n ⟨"Rule: a\rRule: b\r\n", true⟩
          (15 + byteSize x) := by
  have hend : Text.AtLineEnd 15 "Rule: a\rRule: b\n".toList :=
    ⟨"Rule: a\rRule: b".toList, ['\n'], by decide, by decide, fun _ h => Option.some.inj h ▸ rfl,
      by decide⟩
  have hhandle : handle ⟨true, { scenarioLevels := 0 }⟩ ⟨"Rule: a\rRule: b\n", true⟩
      (.atOffset 15) = .ok (⟨"Rule: a\rRule: b\r\n", true⟩, true) := by decide +kernel
  exact ⟨hend, hhandle, repeats_of_handle (c := .atOffset 15) hend hhandle⟩

end LineBreakHandler

end FeatureFile
