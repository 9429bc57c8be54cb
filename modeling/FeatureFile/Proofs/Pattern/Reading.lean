/-
# FeatureFile.Proofs.Pattern.Reading — what the lexer keeps of a brace expression

A brace expression can be read without cutting it into pieces: once from left to right, each escape
standing for its character and each placeholder for a marker (`plainText`). The lexer decodes escapes
in three loops, moves a word that it has already decoded into an alternation, and goes back to a
parenthesis that is never closed. Even so its pieces, written back, are that reading.

⚠ With one exception. A backslash that ends the pattern and escapes nothing stands for itself, but not
among the words of an alternation: there it is left out (`dropped`). Main statement:
`lex_readsOnce`.
-/

import FeatureFile.Proofs.Pattern.Source

namespace FeatureFile

/-! ## §A Behind a placeholder -/

namespace Placeholder

theorem exists_of_afterClosing {depth : Nat} {cs rest : List Char}
    (h : afterClosing depth cs = some rest) : ∃ body, cs = body ++ '}' :: rest := by
  fun_induction afterClosing depth cs with
  | case1 => exact absurd h (by simp)
  | case3 cs => exact ⟨[], congrArg ('}' :: ·) (Option.some.inj h)⟩
  | case2 depth cs ih =>
    obtain ⟨body, rfl⟩ := ih h
    exact ⟨'{' :: body, rfl⟩
  | case4 depth cs ih =>
    obtain ⟨body, rfl⟩ := ih h
    exact ⟨'}' :: body, rfl⟩
  | case5 depth c cs _ _ _ ih =>
    obtain ⟨body, rfl⟩ := ih h
    exact ⟨c :: body, rfl⟩

/-- A reader of placeholders behind a text that is passed over. -/
theorem exists_of_suffix {cs after rest : List Char} (hsuffix : after <:+ cs)
    (h : ∃ body, after = body ++ '}' :: rest) : ∃ body, cs = body ++ '}' :: rest := by
  obtain ⟨front, rfl⟩ := hsuffix
  obtain ⟨body, rfl⟩ := h
  exact ⟨front ++ body, (List.append_assoc _ _ _).symm⟩

theorem exists_of_readHint {start : Nat} {name hint : String} {cs rest : List Char}
    (h : readHint start name cs = .ok (hint, rest)) : ∃ body, cs = body ++ '}' :: rest := by
  simp only [readHint] at h
  split at h
  · exact absurd h (by simp)
  split at h
  · exact absurd h (by simp)
  · rename_i c rest' heq
    obtain ⟨-, rfl⟩ := Prod.mk.inj (Except.ok.inj h)
    have hstop := List.head?_dropWhile_not (· != '}') cs
    rw [heq] at hstop
    obtain rfl : c = '}' := by simpa using hstop
    exact exists_of_suffix (List.dropWhile_suffix (· != '}')) ⟨[], heq⟩

/-- A placeholder ends with a brace. -/
theorem exists_of_read {start : Nat} {p : Placeholder} {cs rest : List Char}
    (h : read start cs = .ok (p, rest)) : ∃ body, cs = body ++ '}' :: rest := by
  have hbody : (cs.dropWhile isNameChar).dropWhile isAsciiBlank <:+ cs :=
    (List.dropWhile_suffix _).trans (List.dropWhile_suffix _)
  simp only [read] at h
  split at h
  · exact absurd h (by simp)
  refine exists_of_suffix hbody ?_
  split at h
  · rename_i heq
    obtain ⟨⟨hint, after⟩, hhint, hpair⟩ := Piece.exists_of_map_eq_ok h
    obtain ⟨-, rfl⟩ := Prod.mk.inj hpair
    exact exists_of_suffix ⟨[':'], heq.symm⟩ (exists_of_readHint hhint)
  · split at h
    · rename_i hafter
      obtain ⟨-, rfl⟩ := Prod.mk.inj (Except.ok.inj h)
      exact exists_of_afterClosing hafter
    · exact absurd h (by simp)

theorem readHint_start (start start' : Nat) (name : String) (cs : List Char) :
    (readHint start name cs).toOption = (readHint start' name cs).toOption := by
  simp only [readHint]
  split
  · rfl
  · split <;> rfl

/-- Where a placeholder ends does not hang on its offset. -/
theorem read_start (start start' : Nat) (cs : List Char) :
    (read start cs).toOption.map Prod.snd = (read start' cs).toOption.map Prod.snd := by
  simp only [read]
  split
  · rfl
  split
  · rename_i rest _
    have hhint := readHint_start start start' (String.ofList (cs.takeWhile isNameChar)) rest
    cases h : readHint start (String.ofList (cs.takeWhile isNameChar)) rest <;>
      cases h' : readHint start' (String.ofList (cs.takeWhile isNameChar)) rest <;>
      simp_all [Except.toOption, Except.map]
  · split <;> rfl

end Placeholder

/-! ## §B One reading from left to right -/

namespace Piece

/-- The text behind the placeholder that an opening brace begins, given the text behind the brace;
nothing if it begins none. -/
def behindPlaceholder? (rest : List Char) : Option (List Char) :=
  if startsPlaceholder rest then (Placeholder.read 0 rest).toOption.map Prod.snd else none

theorem behindPlaceholder?_of_read {start : Nat} {p : Placeholder} {rest after : List Char}
    (hstarts : startsPlaceholder rest = true) (h : Placeholder.read start rest = .ok (p, after)) :
    behindPlaceholder? rest = some after := by
  rw [behindPlaceholder?, if_pos hstarts, Placeholder.read_start 0 start, h]
  rfl

theorem length_of_behindPlaceholder? {rest after : List Char}
    (h : behindPlaceholder? rest = some after) : after.length < rest.length := by
  unfold behindPlaceholder? at h
  split at h
  · obtain ⟨⟨p, after'⟩, hread, rfl⟩ := Option.map_eq_some_iff.mp h
    cases hr : Placeholder.read 0 rest with
    | error e => rw [hr] at hread; exact absurd hread (by simp [Except.toOption])
    | ok found =>
      rw [hr] at hread
      obtain rfl := Option.some.inj hread
      exact Placeholder.read_length hr
  · exact absurd h (by simp)

/-- **`plainText mark cs`** — a pattern read once from left to right: an escape gives its character,
a lone backslash at the end itself, a doubled brace one brace, a placeholder the marker, and every
other character itself. -/
def plainText (mark : List Char) : List Char → List Char
  | [] => []
  | ['\\'] => ['\\']
  | '\\' :: c :: rest => c :: plainText mark rest
  | '{' :: '{' :: rest => '{' :: plainText mark rest
  | '}' :: '}' :: rest => '}' :: plainText mark rest
  | '{' :: rest =>
    match _h : behindPlaceholder? rest with
    | some after => mark ++ plainText mark after
    | none => '{' :: plainText mark rest
  | c :: rest => c :: plainText mark rest
  termination_by cs => cs.length
  decreasing_by
    all_goals simp only [List.length_cons]
    all_goals first
      | omega
      | have := length_of_behindPlaceholder? _h; omega

/-- **`writeBack mark p`** — a piece as it is written, with the marker for a placeholder. -/
def writeBack (mark : List Char) : Piece → List Char
  | literal text => text
  | placeholder _ => mark
  | optional text => '(' :: text ++ [')']
  | alternation words => ['/'].intercalate words
  | openBrace _ => ['{']
  | closeBrace _ => ['}']

/-- Whether a text ends with a backslash that escapes nothing and is not escaped. -/
def endsLone : List Char → Bool
  | [] => false
  | ['\\'] => true
  | '\\' :: _ :: rest => endsLone rest
  | _ :: rest => endsLone rest

/-- Whether pieces end with an alternation. -/
def endsInAlternation (pieces : List Piece) : Bool :=
  match pieces.getLast? with
  | some (alternation _) => true
  | _ => false

/-- **`dropped cs pieces`** — what the pieces of a pattern leave out at its end: a lone backslash
among the words of an alternation. -/
def dropped (cs : List Char) (pieces : List Piece) : List Char :=
  if endsLone cs && endsInAlternation pieces then ['\\'] else []

/-- A character is no backslash if it is neither one at the end nor one before a character. -/
theorem ne_backslash {c : Char} {rest : List Char} (hlone : c = '\\' → rest = [] → False)
    (hescape : ∀ d after, c = '\\' → rest = d :: after → False) : c ≠ '\\' := by
  rintro rfl
  cases rest with
  | nil => exact hlone rfl rfl
  | cons d after => exact hescape d after rfl rfl

section PlainText

variable (mark : List Char) {c : Char} (rest : List Char)

/-- A character that neither escapes nor is a brace stands for itself. -/
theorem plainText_cons (hslash : c ≠ '\\') (hopen : c ≠ '{') (hclose : c ≠ '}') :
    plainText mark (c :: rest) = c :: plainText mark rest := by
  rw [plainText.eq_def]
  split <;> simp_all

theorem plainText_placeholder {after : List Char} (hhead : rest.head? ≠ some '{')
    (h : behindPlaceholder? rest = some after) :
    plainText mark ('{' :: rest) = mark ++ plainText mark after := by
  rw [plainText.eq_6 _ _ (by rintro rest rfl; exact hhead rfl)]
  split
  · rename_i h'
    rw [Option.some.inj (h.symm.trans h')]
  · rename_i h'
    exact absurd (h.symm.trans h') (by simp)

theorem plainText_openBrace (hhead : rest.head? ≠ some '{') (h : behindPlaceholder? rest = none) :
    plainText mark ('{' :: rest) = '{' :: plainText mark rest := by
  rw [plainText.eq_6 _ _ (by rintro rest rfl; exact hhead rfl)]
  split
  · rename_i h'
    exact absurd (h.symm.trans h') (by simp)
  · rfl

theorem plainText_closeBrace (hhead : rest.head? ≠ some '}') :
    plainText mark ('}' :: rest) = '}' :: plainText mark rest :=
  plainText.eq_7 mark '}' rest (by simp) (by simp) (by simp)
    (by rintro rest - rfl; exact hhead rfl) (by simp)

theorem endsLone_cons (hslash : c ≠ '\\') : endsLone (c :: rest) = endsLone rest := by
  rw [endsLone.eq_def]
  split <;> simp_all

end PlainText

/-- What stands before a character that is no backslash has no say in how a text ends. -/
theorem endsLone_append {c : Char} (hslash : c ≠ '\\') (a rest : List Char) :
    endsLone (a ++ c :: rest) = endsLone rest := by
  fun_induction endsLone a with
  | case1 => exact endsLone_cons rest hslash
  | case2 => rfl
  | case3 d a ih => exact ih
  | case4 d a hlone hescape ih =>
    rw [List.cons_append, endsLone_cons _ (ne_backslash hlone hescape), ih]

/-! ## §C Parts of the lexer -/

/-- Optional text is read as it would be outside its parentheses. -/
theorem plainText_optionalText (mark : List Char) {cs text after : List Char}
    (h : optionalText cs = some (text, after)) :
    plainText mark cs = text ++ ')' :: plainText mark after ∧ endsLone cs = endsLone after := by
  fun_induction optionalText cs generalizing text after with
  | case1 | case2 | case5 => exact absurd h (by simp)
  | case3 c cs ih =>
    obtain ⟨⟨t, a⟩, ha, heq⟩ := Option.map_eq_some_iff.mp h
    obtain ⟨rfl, rfl⟩ := Prod.mk.inj heq
    obtain ⟨hplain, hlone⟩ := ih ha
    rw [plainText, hplain, endsLone, hlone]
    exact ⟨rfl, rfl⟩
  | case4 cs =>
    obtain ⟨rfl, rfl⟩ := Prod.mk.inj (Option.some.inj h)
    exact ⟨plainText_cons mark _ (by decide) (by decide) (by decide), endsLone_cons _ (by decide)⟩
  | case6 c cs hend hescape hclose hc ih =>
    obtain ⟨⟨t, a⟩, ha, heq⟩ := Option.map_eq_some_iff.mp h
    obtain ⟨rfl, rfl⟩ := Prod.mk.inj heq
    obtain ⟨hplain, hlone⟩ := ih ha
    have hne : c ≠ '\\' := ne_backslash hend hescape
    have hbrace : c ≠ '{' ∧ c ≠ '}' := by
      constructor <;> rintro rfl <;> exact hc rfl
    rw [plainText_cons mark _ hne hbrace.1 hbrace.2, hplain, endsLone_cons _ hne, hlone]
    exact ⟨rfl, rfl⟩

theorem intercalate_pushWord (c : Char) (words : List (List Char)) :
    ['/'].intercalate (pushWord c words) = c :: ['/'].intercalate words := by
  match words with
  | [] => rfl
  | [word] => rfl
  | word :: word' :: words => simp [pushWord, List.intercalate_cons_cons]

theorem intercalate_nil_cons {words : List (List Char)} (h : words ≠ []) :
    ['/'].intercalate ([] :: words) = '/' :: ['/'].intercalate words := by
  rw [List.intercalate_cons_of_ne_nil h]
  rfl

/-- The words of an alternation are read as they would be elsewhere, but for a lone backslash at the
end. -/
theorem plainText_alternatives (mark cs : List Char) :
    plainText mark cs = ['/'].intercalate (alternatives cs).1 ++
        ((if (alternatives cs).2 = [] ∧ endsLone cs = true then ['\\'] else []) ++
          plainText mark (alternatives cs).2) ∧
      ((alternatives cs).2 ≠ [] → endsLone cs = endsLone (alternatives cs).2) := by
  fun_induction alternatives cs with
  | case1 => exact ⟨by simp [plainText, endsLone], fun h => absurd rfl h⟩
  | case2 => exact ⟨by simp [plainText, endsLone], fun h => absurd rfl h⟩
  | case3 c cs r ih =>
    rw [plainText, endsLone, intercalate_pushWord, ih.1]
    exact ⟨rfl, ih.2⟩
  | case4 cs r ih =>
    rw [plainText_cons mark _ (by decide) (by decide) (by decide), endsLone_cons _ (by decide),
      intercalate_nil_cons (alternatives_ne_nil cs), ih.1]
    exact ⟨rfl, ih.2⟩
  | case5 => exact ⟨by simp, fun _ => rfl⟩
  | case6 c cs hlone hescape hbar hend r ih =>
    have hne : c ≠ '\\' := ne_backslash hlone hescape
    have hbrace : c ≠ '{' ∧ c ≠ '}' := by
      constructor <;> rintro rfl <;> exact hend (by decide)
    rw [plainText_cons mark _ hne hbrace.1 hbrace.2, endsLone_cons _ hne, intercalate_pushWord, ih.1]
    exact ⟨rfl, ih.2⟩

/-! ## §D The pieces of a pattern -/

theorem flatMap_flush (mark pending : List Char) (pieces : List Piece) :
    (flush pending pieces).flatMap (writeBack mark) =
      pending.reverse ++ pieces.flatMap (writeBack mark) := by
  unfold flush
  split
  · rename_i hnil
    rw [List.isEmpty_iff.mp hnil]
    rfl
  · rfl

theorem getLast?_flush (pending : List Char) (p : Piece) (pieces : List Piece) :
    (flush pending (p :: pieces)).getLast? = (p :: pieces).getLast? := by
  unfold flush
  split
  · rfl
  · exact List.getLast?_cons_cons

theorem endsInAlternation_flush (pending : List Char) (p : Piece) (pieces : List Piece) :
    endsInAlternation (flush pending (p :: pieces)) = endsInAlternation (p :: pieces) := by
  rw [endsInAlternation, getLast?_flush]
  rfl

/-- Text alone is no alternation. -/
theorem endsInAlternation_flush_nil (pending : List Char) :
    endsInAlternation (flush pending []) = false := by
  unfold flush
  split <;> rfl

theorem dropped_congr {cs cs' : List Char} {pieces pieces' : List Piece}
    (hlone : endsLone cs = endsLone cs')
    (hends : endsInAlternation pieces = endsInAlternation pieces') :
    dropped cs pieces = dropped cs' pieces' := by
  simp only [dropped, hlone, hends]

/-- A pattern without pieces is empty. -/
theorem eq_nil_of_lexFrom {total : Nat} {pending cs : List Char}
    (h : lexFrom total pending cs = .ok []) : pending = [] ∧ cs = [] := by
  have hflush {pending : List Char} {p : Piece} {pieces : List Piece}
      (h : flush pending (p :: pieces) = []) : False := by
    have hlast := getLast?_flush pending p pieces
    rw [h, List.getLast?_cons] at hlast
    exact absurd hlast (by simp)
  fun_induction lexFrom total pending cs with
  | case1 pending =>
    refine ⟨?_, rfl⟩
    by_contra hne
    have hnil := Except.ok.inj h
    rw [flush, if_neg (by simpa using hne)] at hnil
    exact List.cons_ne_nil _ _ hnil
  | case2 => exact absurd (Except.ok.inj h) (by simp [flush])
  | case3 | case4 | case5 | case10 | case12 | case14 =>
    rename_i ih
    exact absurd (ih h).1 (List.cons_ne_nil _ _)
  | case6 => exact absurd h (by simp)
  | case7 | case8 | case9 | case11 | case13 =>
    obtain ⟨after, -, hnil⟩ := exists_of_map_eq_ok h
    exact absurd hnil hflush

/-- A piece that is no alternation, read behind pending text. -/
theorem plainText_behind {mark pending cs cs' : List Char} {p : Piece}
    {lexed : Except PatternError (List Piece)} {pieces : List Piece}
    (hp : endsInAlternation [p] = false)
    (hplain : plainText mark cs = writeBack mark p ++ plainText mark cs')
    (hlone : endsLone cs = endsLone cs')
    (ih : ∀ {after}, lexed = .ok after →
      plainText mark cs' = after.flatMap (writeBack mark) ++ dropped cs' after)
    (h : lexed.map (fun after => flush pending (p :: after)) = .ok pieces) :
    pending.reverse ++ plainText mark cs =
      pieces.flatMap (writeBack mark) ++ dropped cs pieces := by
  obtain ⟨after, hafter, rfl⟩ := exists_of_map_eq_ok h
  have hends : endsInAlternation (flush pending (p :: after)) = endsInAlternation after := by
    rw [endsInAlternation_flush]
    cases after with
    | nil => exact hp
    | cons q after => rw [endsInAlternation, List.getLast?_cons_cons]; rfl
  rw [hplain, ih hafter, flatMap_flush, List.flatMap_cons, dropped_congr hlone hends]
  simp only [List.append_assoc]

theorem lexFrom_nil (total : Nat) : lexFrom total [] [] = .ok [] := by
  rw [lexFrom]
  rfl

/-- An alternation takes its first word back out of the pending text. -/
theorem plainText_slash {total : Nat} {mark pending rest : List Char} {pieces : List Piece}
    (ih : ∀ {after}, lexFrom total [] (alternatives rest).2 = .ok after →
      plainText mark (alternatives rest).2 =
        after.flatMap (writeBack mark) ++ dropped (alternatives rest).2 after)
    (h : (lexFrom total [] (alternatives rest).2).map (fun after =>
        flush (pending.dropWhile fun c => !Text.isBlank c)
          (alternation ((pending.takeWhile fun c => !Text.isBlank c).reverse ::
            (alternatives rest).1) :: after)) = .ok pieces) :
    pending.reverse ++ plainText mark ('/' :: rest) =
      pieces.flatMap (writeBack mark) ++ dropped ('/' :: rest) pieces := by
  obtain ⟨after, hafter, rfl⟩ := exists_of_map_eq_ok h
  obtain ⟨hplain, hlone⟩ := plainText_alternatives mark rest
  have hpending : pending.reverse = (pending.dropWhile fun c => !Text.isBlank c).reverse ++
      (pending.takeWhile fun c => !Text.isBlank c).reverse := by
    rw [← List.reverse_append, List.takeWhile_append_dropWhile]
  -- What is dropped stands in this alternation if the pattern ends with it, and else behind it.
  have hdropped (word : List Char) (words : List (List Char)) :
      dropped ('/' :: rest) (flush (pending.dropWhile fun c => !Text.isBlank c)
          (alternation (word :: words) :: after)) =
        (if (alternatives rest).2 = [] ∧ endsLone rest = true then ['\\'] else []) ++
          dropped (alternatives rest).2 after := by
    have hslash : endsLone ('/' :: rest) = endsLone rest := endsLone_cons _ (by decide)
    simp only [dropped, endsInAlternation_flush, hslash]
    by_cases hend : (alternatives rest).2 = []
    · rw [hend, lexFrom_nil] at hafter
      obtain rfl := Except.ok.inj hafter
      simp [hend, endsLone, endsInAlternation]
    · obtain ⟨q, after', rfl⟩ : ∃ q after', after = q :: after' :=
        List.exists_cons_of_ne_nil fun hnil => hend (eq_nil_of_lexFrom (hnil ▸ hafter)).2
      have hends : endsInAlternation (alternation (word :: words) :: q :: after') =
          endsInAlternation (q :: after') := by
        rw [endsInAlternation, List.getLast?_cons_cons]
        rfl
      simp [hend, hlone hend, hends]
  rw [plainText_cons mark _ (by decide) (by decide) (by decide), hplain, ih hafter, flatMap_flush,
    hdropped, List.flatMap_cons, writeBack, List.intercalate_cons_of_ne_nil (alternatives_ne_nil _),
    hpending]
  by_cases hend : (alternatives rest).2 = []
  · rw [hend, lexFrom_nil] at hafter
    obtain rfl := Except.ok.inj hafter
    simp [hend, dropped, endsLone]
  · simp [hend]

theorem head?_ne_of_cons {c : Char} {cs : List Char} (h : ∀ rest, cs = c :: rest → False) :
    cs.head? ≠ some c := by
  intro hhead
  obtain ⟨rest, rfl⟩ := List.head?_eq_some_iff.mp hhead
  exact h rest rfl

/-- The lexer behind pending text. -/
theorem plainText_lexFrom (mark : List Char) {total : Nat} {pending cs : List Char}
    {pieces : List Piece} (h : lexFrom total pending cs = .ok pieces) :
    pending.reverse ++ plainText mark cs =
      pieces.flatMap (writeBack mark) ++ dropped cs pieces := by
  have hkept {pending cs : List Char} {c : Char} {pieces : List Piece}
      (h : (c :: pending).reverse ++ plainText mark cs =
        pieces.flatMap (writeBack mark) ++ dropped cs pieces) :
      pending.reverse ++ c :: plainText mark cs =
        pieces.flatMap (writeBack mark) ++ dropped cs pieces := by
    rw [← h, List.reverse_cons, List.append_assoc]
    rfl
  fun_induction lexFrom total pending cs generalizing pieces with
  | case1 pending =>
    obtain rfl := Except.ok.inj h
    simp [flatMap_flush, plainText, dropped, endsLone]
  | case2 pending =>
    obtain rfl := Except.ok.inj h
    simp [flatMap_flush, plainText, dropped, endsInAlternation_flush_nil]
  | case3 pending c rest ih =>
    rw [plainText]
    exact hkept (ih h)
  | case4 pending rest ih | case5 pending rest ih =>
    rw [plainText]
    exact hkept (ih h)
  | case6 => exact absurd h (by simp)
  | case7 pending rest hdouble position hstarts p after hread =>
    rename_i ih
    obtain ⟨body, hbody⟩ := Placeholder.exists_of_read hread
    refine plainText_behind rfl ?_ ?_ ih h
    · exact plainText_placeholder mark rest (head?_ne_of_cons hdouble)
        (behindPlaceholder?_of_read hstarts hread)
    · rw [endsLone_cons _ (by decide), hbody, endsLone_append (by decide)]
  | case8 pending rest hdouble position hstarts =>
    rename_i ih
    refine plainText_behind rfl ?_ (endsLone_cons rest (by decide)) ih h
    exact plainText_openBrace mark rest (head?_ne_of_cons hdouble) (if_neg hstarts)
  | case9 pending rest hdouble position =>
    rename_i ih
    refine plainText_behind rfl ?_ (endsLone_cons rest (by decide)) ih h
    exact plainText_closeBrace mark rest (head?_ne_of_cons hdouble)
  | case11 pending rest text after hread ih =>
    obtain ⟨hplain, hlone⟩ := plainText_optionalText mark hread
    refine plainText_behind rfl ?_ ((endsLone_cons rest (by decide)).trans hlone) ih h
    rw [plainText_cons mark _ (by decide) (by decide) (by decide), hplain]
    simp [writeBack]
  | case13 pending rest word hword r =>
    rename_i ih
    exact plainText_slash ih h
  | case10 pending rest | case12 pending rest =>
    rename_i ih
    rw [plainText_cons mark _ (by decide) (by decide) (by decide),
      dropped_congr (endsLone_cons rest (by decide)) rfl]
    exact hkept (ih h)
  | case14 pending c rest hlone hescape _ _ hopen hclose _ _ ih =>
    have hslash : c ≠ '\\' := ne_backslash hlone hescape
    rw [plainText_cons mark _ hslash hopen hclose, dropped_congr (endsLone_cons rest hslash) rfl]
    exact hkept (ih h)

/-- **`lex_readsOnce`** — the pieces of a pattern, written back, are the pattern read once from left
to right, but for a lone backslash at the end of an alternation. -/
theorem lex_readsOnce (mark : List Char) {pattern : List Char} {pieces : List Piece}
    (h : lex pattern = .ok pieces) :
    plainText mark pattern = pieces.flatMap (writeBack mark) ++ dropped pattern pieces :=
  plainText_lexFrom mark h

/-- Optional text, a placeholder, and a parenthesis that is read twice, with escapes among them. -/
theorem lex_readsOnce_escapes :
    ∃ pieces, lex "(\\x)\x7bn\x7d (a\\b/c".toList = .ok pieces ∧
      plainText ['_'] "(\\x)\x7bn\x7d (a\\b/c".toList =
        pieces.flatMap (writeBack ['_']) ++ dropped "(\\x)\x7bn\x7d (a\\b/c".toList pieces := by
  have hlex : lex "(\\x)\x7bn\x7d (a\\b/c".toList =
      .ok [.optional ['x'], .placeholder ⟨4, "n", none⟩, .literal [' '],
        .alternation ["(ab".toList, "c".toList]] := by decide +kernel
  exact ⟨_, hlex, lex_readsOnce ['_'] hlex⟩

/-- The backslash at the end of an alternation is read, but no piece holds it. -/
theorem lex_drops_backslash :
    lex "a/b\\".toList = .ok [.alternation ["a".toList, "b".toList]] ∧
      plainText ['_'] "a/b\\".toList = "a/b\\".toList ∧
      [Piece.alternation ["a".toList, "b".toList]].flatMap (writeBack ['_']) = "a/b".toList := by
  decide +kernel

end Piece

end FeatureFile
