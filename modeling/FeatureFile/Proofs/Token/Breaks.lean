/-
# FeatureFile.Proofs.Token.Breaks — rows, and the breaks between them

A text is rows with line breaks between them: `rows` are what stands between the breaks, one more
than there are `breaks`, and the last row may be empty. Where two texts are put together the last row
of the one and the first row of the other become one, and the breaks stay what they are
(`rows_append`, `breaks_append`), unless a carriage return meets a line feed.

The rule for breaks is that of the lines of a text. A reader of tokens has a rule of its own, since
it looks at the head of what is left of the text; the breaks that it gives as tokens are the same
(`breaks_tokenize`).
-/

import FeatureFile.Proofs.Token.Layout
import FeatureFile.Proofs.Token.Locality

namespace FeatureFile

open Text (isBreak isIndent)

/-! ## §A Rows and breaks -/

/-- **`rows cs`** — what stands in a text between its line breaks, and before the first and behind the
last of them. A carriage return and the line feed after it are one break. -/
def rows : List Char → List (List Char)
  | [] => [[]]
  | '\r' :: '\n' :: rest => [] :: rows rest
  | c :: rest => if isBreak c then [] :: rows rest else (rows rest).modifyHead (c :: ·)

/-- **`breaks cs`** — the line breaks of a text. -/
def breaks (cs : List Char) : List (List Char) :=
  ((lines cs).map (·.ending)).filter fun ending => !ending.isEmpty

theorem SplitsBreak.cons {c : Char} {a b : List Char} (h : SplitsBreak a b) :
    SplitsBreak (c :: a) b := by
  refine ⟨?_, h.2⟩
  rw [List.getLast?_cons, h.1]
  rfl

/-- A carriage return that has no line feed behind it has none either in front of more text. -/
theorem not_splitsBreak_append {c : Char} {rest b : List Char}
    (hcrlf : ∀ tail, c = '\r' → rest = '\n' :: tail → False)
    (hwhole : ¬ SplitsBreak (c :: rest) b) : ¬ SplitsBreak [c] (rest ++ b) := by
  rintro ⟨hlast, hhead⟩
  obtain rfl := Option.some.inj hlast
  cases rest with
  | nil => exact hwhole ⟨rfl, hhead⟩
  | cons d rest => exact hcrlf rest rfl (Option.some.inj hhead ▸ rfl)

theorem not_splitsBreak_single {c : Char} {rest : List Char}
    (hcrlf : ∀ tail, c = '\r' → rest = '\n' :: tail → False) : ¬ SplitsBreak [c] rest := by
  have h := not_splitsBreak_append (b := []) hcrlf fun h => Option.some_ne_none _ h.2.symm
  rwa [List.append_nil] at h

theorem rows_ne_nil (cs : List Char) : rows cs ≠ [] := by
  fun_induction rows cs with
  | case1 => exact List.cons_ne_nil _ _
  | case2 => exact List.cons_ne_nil _ _
  | case3 => exact List.cons_ne_nil _ _
  | case4 c rest _ _ ih =>
    obtain ⟨row, more, hrest⟩ := List.exists_cons_of_ne_nil ih
    rw [hrest]
    exact List.cons_ne_nil _ _

theorem rows_cons_of_not_isBreak {c : Char} (hc : isBreak c = false) (rest : List Char) :
    rows (c :: rest) = (rows rest).modifyHead (c :: ·) := by
  rw [rows.eq_def (c :: rest)]
  split
  · rename_i heq
    cases heq
  · rename_i heq
    obtain ⟨rfl, -⟩ := List.cons.inj heq
    cases hc
  · rename_i heq
    obtain ⟨rfl, rfl⟩ := List.cons.inj heq
    rw [if_neg (by simp [hc])]

theorem rows_cons_of_isBreak {c : Char} (hc : isBreak c = true) {rest : List Char}
    (hwhole : ¬ SplitsBreak [c] rest) : rows (c :: rest) = [] :: rows rest := by
  rw [rows.eq_def (c :: rest)]
  split
  · rename_i heq
    cases heq
  · rename_i heq
    obtain ⟨rfl, rfl⟩ := List.cons.inj heq
    exact absurd ⟨rfl, rfl⟩ hwhole
  · rename_i heq
    obtain ⟨rfl, rfl⟩ := List.cons.inj heq
    rw [if_pos hc]

theorem breaks_cons_of_not_isBreak {c : Char} (hc : isBreak c = false) (rest : List Char) :
    breaks (c :: rest) = breaks rest := by
  rw [breaks, breaks, lines_cons_of_not_isBreak hc]
  cases lines rest <;> rfl

theorem breaks_cons_of_isBreak {c : Char} (hc : isBreak c = true) {rest : List Char}
    (hwhole : ¬ SplitsBreak [c] rest) : breaks (c :: rest) = [c] :: breaks rest := by
  have hlength : breakLength (c :: ([] ++ rest)) = 1 := by
    refine breakLength_eq_one (by simp) fun _ hcr hhead => hwhole ⟨?_, hhead⟩
    rw [hcr]
    rfl
  rw [breaks, lines_cons_of_isBreak hc, show breakLength (c :: rest) = 1 from hlength]
  rfl

/-- Every character that breaks a line is in one of the breaks. -/
theorem exists_mem_breaks (cs : List Char) :
    ∀ c ∈ cs, isBreak c = true → ∃ ending ∈ breaks cs, c ∈ ending := by
  fun_induction rows cs with
  | case1 => exact fun _ h => absurd h List.not_mem_nil
  | case2 rest ih =>
    have hbreaks : breaks ('\r' :: '\n' :: rest) = ['\r', '\n'] :: breaks rest := rfl
    intro c hc hbreak
    rw [hbreaks]
    rcases List.mem_append.mp (show c ∈ ['\r', '\n'] ++ rest from hc) with hc | hc
    · exact ⟨_, List.mem_cons_self, hc⟩
    · obtain ⟨ending, hending, hmem⟩ := ih c hc hbreak
      exact ⟨ending, List.mem_cons_of_mem _ hending, hmem⟩
  | case3 d rest hcrlf hd ih =>
    rw [breaks_cons_of_isBreak hd (not_splitsBreak_single hcrlf)]
    intro c hc hbreak
    rcases List.mem_cons.mp hc with rfl | hc
    · exact ⟨[c], List.mem_cons_self, List.mem_cons_self⟩
    · obtain ⟨ending, hending, hmem⟩ := ih c hc hbreak
      exact ⟨ending, List.mem_cons_of_mem _ hending, hmem⟩
  | case4 d rest hcrlf hd ih =>
    rw [breaks_cons_of_not_isBreak (Bool.eq_false_iff.mpr hd)]
    intro c hc hbreak
    rcases List.mem_cons.mp hc with rfl | hc
    · exact absurd hbreak hd
    · exact ih c hc hbreak

/-- A text without breaks is one row. -/
theorem rows_of_not_isBreak {cs : List Char} (h : ∀ c ∈ cs, isBreak c = false) :
    rows cs = [cs] := by
  induction cs with
  | nil => rfl
  | cons c cs ih =>
    obtain ⟨hc, hcs⟩ := List.forall_mem_cons.mp h
    rw [rows_cons_of_not_isBreak hc, ih hcs, List.modifyHead_cons]

theorem breaks_of_not_isBreak {cs : List Char} (h : ∀ c ∈ cs, isBreak c = false) :
    breaks cs = [] := by
  induction cs with
  | nil => rfl
  | cons c cs ih =>
    obtain ⟨hc, hcs⟩ := List.forall_mem_cons.mp h
    rw [breaks_cons_of_not_isBreak hc, ih hcs]

/-! ## §B Two texts -/

/-- **`joinRows xs ys`** — rows behind rows: the last one of the first and the first one of the second
are one. -/
def joinRows : List (List Char) → List (List Char) → List (List Char)
  | [], ys => ys
  | [x], ys => ys.modifyHead (x ++ ·)
  | x :: y :: more, ys => x :: joinRows (y :: more) ys

theorem joinRows_cons (x : List Char) {xs : List (List Char)} (h : xs ≠ [])
    (ys : List (List Char)) : joinRows (x :: xs) ys = x :: joinRows xs ys := by
  obtain ⟨y, more, rfl⟩ := List.exists_cons_of_ne_nil h
  rw [joinRows]

theorem joinRows_modifyHead (c : Char) {xs : List (List Char)} (h : xs ≠ [])
    (ys : List (List Char)) :
    joinRows (xs.modifyHead (c :: ·)) ys = (joinRows xs ys).modifyHead (c :: ·) := by
  obtain ⟨x, more, rfl⟩ := List.exists_cons_of_ne_nil h
  cases more with
  | nil =>
    cases ys with
    | nil => rfl
    | cons => rfl
  | cons y more => rfl

theorem joinRows_append (before : List (List Char)) (left right : List Char)
    (after : List (List Char)) :
    joinRows (before ++ [left]) (right :: after) = before ++ (left ++ right) :: after := by
  induction before with
  | nil => rfl
  | cons x before ih =>
    rw [List.cons_append, joinRows_cons x (by simp), ih]
    rfl

/-- **Rows of two texts.** -/
theorem rows_append {a b : List Char} (hwhole : ¬ SplitsBreak a b) :
    rows (a ++ b) = joinRows (rows a) (rows b) := by
  fun_induction rows a with
  | case1 =>
    obtain ⟨row, more, hb⟩ := List.exists_cons_of_ne_nil (rows_ne_nil b)
    rw [List.nil_append, hb]
    rfl
  | case2 rest ih =>
    rw [joinRows_cons _ (rows_ne_nil rest), ← ih (hwhole ∘ SplitsBreak.cons ∘ SplitsBreak.cons)]
    rfl
  | case3 c rest hcrlf hc ih =>
    rw [joinRows_cons _ (rows_ne_nil rest), ← ih (hwhole ∘ SplitsBreak.cons), List.cons_append,
      rows_cons_of_isBreak hc (not_splitsBreak_append hcrlf hwhole)]
  | case4 c rest hcrlf hc ih =>
    rw [joinRows_modifyHead c (rows_ne_nil rest), ← ih (hwhole ∘ SplitsBreak.cons),
      List.cons_append, rows_cons_of_not_isBreak (Bool.eq_false_iff.mpr hc)]

/-- **Breaks of two texts.** -/
theorem breaks_append {a b : List Char} (hwhole : ¬ SplitsBreak a b) :
    breaks (a ++ b) = breaks a ++ breaks b := by
  fun_induction rows a with
  | case1 => rfl
  | case2 rest ih =>
    exact congrArg (['\r', '\n'] :: ·) (ih (hwhole ∘ SplitsBreak.cons ∘ SplitsBreak.cons))
  | case3 c rest hcrlf hc ih =>
    rw [List.cons_append, breaks_cons_of_isBreak hc (not_splitsBreak_append hcrlf hwhole),
      breaks_cons_of_isBreak hc (not_splitsBreak_single hcrlf), ih (hwhole ∘ SplitsBreak.cons)]
    rfl
  | case4 c rest hcrlf hbreak ih =>
    have hc : isBreak c = false := Bool.eq_false_iff.mpr hbreak
    rw [List.cons_append, breaks_cons_of_not_isBreak hc, breaks_cons_of_not_isBreak hc,
      ih (hwhole ∘ SplitsBreak.cons)]

/-! ## §C Tokens of breaks -/

theorem Token.newlines_lexemes (doc : Option DocDelimiter) (ls : List Line) :
    ((lexemes doc ls).filter fun piece => piece.1 = .newline).map Prod.snd =
      (ls.map (·.ending)).filter fun ending => !ending.isEmpty := by
  induction ls generalizing doc with
  | nil => rfl
  | cons l ls ih =>
    have hcontent : ((contentLexemes doc l.content).1.filter fun piece => piece.1 = .newline) = [] :=
      List.filter_eq_nil_iff.mpr fun piece hpiece => by
        simpa using LinePlace.kind_ne_of_mem_lexemes .lineStart doc l.content piece hpiece
    rw [lexemes, List.filter_append, List.map_append, ih, List.map_cons]
    simp only [lineLexemes]
    cases hending : l.ending with
    | nil => simp [hcontent]
    | cons c cs => simp [hcontent]

theorem Token.newlines_place (offset : Nat) (pieces : List Lexeme) :
    ((place offset pieces).filter fun t => t.kind = .newline).map (·.text.toList) =
      (pieces.filter fun piece => piece.1 = .newline).map Prod.snd := by
  induction pieces generalizing offset with
  | nil => rfl
  | cons piece rest ih =>
    obtain ⟨kind, cs⟩ := piece
    rw [place, List.filter_cons, List.filter_cons]
    by_cases hkind : kind = .newline
    · rw [if_pos (by simpa using hkind), if_pos (by simpa using hkind), List.map_cons, ih,
        String.toList_ofList, List.map_cons]
    · rw [if_neg (by simpa using hkind), if_neg (by simpa using hkind), ih]

/-- **The tokens of breaks** are the breaks of the text. -/
theorem breaks_tokenize (source : String) :
    ((tokenize source).filter fun t => t.kind = .newline).map (·.text.toList) =
      breaks source.toList := by
  rw [tokenize, Token.newlines_place, Token.newlines_lexemes, breaks]

/-- **`newlines source`** — how many line breaks are among the tokens. -/
def newlines (source : String) : Nat := (tokenize source).countP fun t => t.kind = .newline

theorem newlines_eq (source : String) : newlines source = (breaks source.toList).length := by
  rw [newlines, List.countP_eq_length_filter, ← breaks_tokenize, List.length_map]

end FeatureFile
