/-
# FeatureFile.Proofs.Pattern.Rank — what the source of a brace expression says about its score

The source of a brace expression is made of literal characters, optional texts, alternations and
groups, and no such part begins another one (`Chunk.eq_of_source_append`). So two expressions with
one source are made of the same parts, whatever pieces they were cut into, and they have as many
literal characters, as many placeholders, and as many placeholders that are restricted.

⚠ They need not have one score. A placeholder counts as one of a type if a hint is in force for it,
and an unknown hint is in force and restricts nothing: such a placeholder is written like one without
a hint and scored above it (`Piece.isIdle`). Main statement: `rank_of_sameSource`.
-/

import FeatureFile.Pattern.Specificity
import FeatureFile.Proofs.Pattern.Reading

namespace FeatureFile

/-! ## §A Escaped text as a code -/

/-- Whether a character stands in a source only where an operator does: it is escaped elsewhere, and
it escapes nothing. -/
def Bare (c : Char) : Prop := isMeta c = true ∧ c ≠ '\\'

theorem escape_cons_append (c : Char) (w s : List Char) :
    escape (c :: w) ++ s = escape [c] ++ (escape w ++ s) := by
  simp [escape]

theorem escapeWords_cons_append (w w' : List Char) (words : List (List Char)) (s : List Char) :
    escapeWords (w :: w' :: words) ++ s = escape w ++ '|' :: (escapeWords (w' :: words) ++ s) := by
  rw [escapeWords.eq_3 w _ (by simp), List.append_assoc]
  rfl

theorem escape_singleton (c : Char) : escape [c] = if isMeta c then ['\\', c] else [c] :=
  List.append_nil _

theorem escape_singleton_ne_nil (c : Char) : escape [c] ≠ [] := by
  rw [escape_singleton]
  split <;> exact List.cons_ne_nil _ _

/-- An escaped character ends where it ends, whatever follows. -/
theorem eq_of_escape_singleton_append {c d : Char} {s t : List Char}
    (h : escape [c] ++ s = escape [d] ++ t) : c = d ∧ s = t := by
  rw [escape_singleton, escape_singleton] at h
  -- One that is escaped and one that is not differ at the first character.
  split at h <;> rename_i hc <;> split at h <;> rename_i hd
  · exact List.cons.inj (List.cons.inj h).2
  · exact absurd ((List.cons.inj h).1 ▸ rfl) hd
  · exact absurd ((List.cons.inj h).1.symm ▸ rfl) hc
  · exact List.cons.inj h

theorem escape_singleton_append_ne {c d : Char} (hd : Bare d) (s t : List Char) :
    escape [c] ++ s ≠ d :: t := by
  intro h
  rw [escape_singleton] at h
  split at h <;> rename_i hc
  · exact hd.2 (List.cons.inj h).1.symm
  · exact hc ((List.cons.inj h).1.symm ▸ hd.1)

/-- An escaped text ends before an operator. -/
theorem eq_of_escape_append {w v s t : List Char} {c d : Char} (hc : Bare c) (hd : Bare d)
    (h : escape w ++ c :: s = escape v ++ d :: t) : w = v ∧ c = d ∧ s = t := by
  induction w generalizing v with
  | nil =>
    cases v with
    | nil => exact ⟨rfl, List.cons.inj h⟩
    | cons y v =>
      rw [escape_cons_append] at h
      exact absurd h.symm (escape_singleton_append_ne hc _ _)
  | cons x w ih =>
    rw [escape_cons_append x] at h
    cases v with
    | nil => exact absurd h (escape_singleton_append_ne hd _ _)
    | cons y v =>
      rw [escape_cons_append y] at h
      obtain ⟨rfl, hrest⟩ := eq_of_escape_singleton_append h
      obtain ⟨rfl, hend⟩ := ih hrest
      exact ⟨rfl, hend⟩

theorem bare_bar : Bare '|' := ⟨by decide, by decide⟩

theorem bare_open : Bare '(' := ⟨by decide, by decide⟩

theorem bare_close : Bare ')' := ⟨by decide, by decide⟩

/-- Words end at the parenthesis that closes them. -/
theorem eq_of_escapeWords_append {w v : List Char} {ws vs : List (List Char)} {s t : List Char}
    (h : escapeWords (w :: ws) ++ ')' :: s = escapeWords (v :: vs) ++ ')' :: t) :
    w :: ws = v :: vs ∧ s = t := by
  induction ws generalizing w v vs with
  | nil =>
    cases vs with
    | nil =>
      obtain ⟨rfl, -, rfl⟩ := eq_of_escape_append bare_close bare_close h
      exact ⟨rfl, rfl⟩
    | cons v' vs =>
      rw [escapeWords_cons_append] at h
      exact absurd (eq_of_escape_append bare_close bare_bar h).2.1 (by decide)
  | cons w' ws ih =>
    rw [escapeWords_cons_append] at h
    cases vs with
    | nil => exact absurd (eq_of_escape_append bare_bar bare_close h).2.1 (by decide)
    | cons v' vs =>
      rw [escapeWords_cons_append] at h
      obtain ⟨rfl, -, hrest⟩ := eq_of_escape_append bare_bar bare_bar h
      obtain ⟨hwords, rfl⟩ := ih hrest
      exact ⟨congrArg _ hwords, rfl⟩

/-! ## §B Fragments as a code -/

/-- The regular expressions of placeholders. -/
def fragments : List String :=
  [Hint.anything, "\\d+", "[+-]?\\d+",
    "(?i:(?:[+-]?(?:\\d+\\.\\d*|\\.\\d+|\\d+)(?:[eE][+-]?\\d+)?|nan|inf|infinity))",
    "[^\\s]+", "(?:\"[^\"]*\"|'[^']*')"]

theorem fragment_mem (hint : Option String) : Hint.fragment hint ∈ fragments := by
  unfold Hint.fragment
  repeat' split
  all_goals decide

/-- Three characters tell fragments apart. -/
theorem eq_of_fragment_append {f g : String} (hf : f ∈ fragments) (hg : g ∈ fragments)
    {s t : List Char} (h : f.toList ++ s = g.toList ++ t) : f = g ∧ s = t := by
  have hlength : ∀ f ∈ fragments, 3 ≤ f.toList.length := by decide
  have htake : ∀ f ∈ fragments, ∀ g ∈ fragments, f.toList.take 3 = g.toList.take 3 → f = g := by
    decide
  obtain rfl : f = g := by
    refine htake f hf g hg ?_
    have := congrArg (List.take 3) h
    rwa [List.take_append_of_le_length (hlength f hf),
      List.take_append_of_le_length (hlength g hg)] at this
  exact ⟨rfl, List.append_cancel_left h⟩

/-- No fragment begins like the flags of a group. -/
theorem fragment_append_ne {f : String} (hf : f ∈ fragments) (s t : List Char) :
    f.toList ++ s ≠ '?' :: t := by
  have hhead : ∀ f ∈ fragments, f.toList ≠ [] ∧ f.toList.head? ≠ some '?' := by decide
  intro h
  obtain ⟨c, cs, hcs⟩ := List.exists_cons_of_ne_nil (hhead f hf).1
  rw [hcs] at h
  exact (hhead f hf).2 (by rw [hcs, (List.cons.inj h).1, List.head?_cons])

/-! ## §C The parts of a source -/

/-- A part of the source of a brace expression. -/
inductive Chunk where
  | char (c : Char)
  | optional (text : List Char)
  | choice (words : List (List Char))
  | group (fragment : String)

namespace Chunk

/-- A part as a regular expression. -/
def source : Chunk → List Char
  | char c => escape [c]
  | optional text => '(' :: '?' :: ':' :: (escape text ++ [')', '?'])
  | choice words => '(' :: '?' :: ':' :: (escapeWords words ++ [')'])
  | group fragment => '(' :: (fragment.toList ++ [')'])

/-- An alternation has a word before its first slash and one behind it, and a group holds the
fragment of a hint. -/
def WellFormed : Chunk → Prop
  | choice words => 2 ≤ words.length
  | group fragment => fragment ∈ fragments
  | _ => True

theorem source_ne_nil (a : Chunk) : a.source ≠ [] := by
  cases a with
  | char c => exact escape_singleton_ne_nil c
  | _ => exact List.cons_ne_nil _ _

theorem optional_append (text s : List Char) :
    (optional text).source ++ s = '(' :: '?' :: ':' :: (escape text ++ ')' :: '?' :: s) := by
  rw [source, List.cons_append, List.cons_append, List.cons_append, List.append_assoc]
  rfl

theorem choice_append (words : List (List Char)) (s : List Char) :
    (choice words).source ++ s = '(' :: '?' :: ':' :: (escapeWords words ++ ')' :: s) := by
  rw [source, List.cons_append, List.cons_append, List.cons_append, List.append_assoc]
  rfl

theorem group_append (fragment : String) (s : List Char) :
    (group fragment).source ++ s = '(' :: (fragment.toList ++ ')' :: s) := by
  rw [source, List.cons_append, List.append_assoc]
  rfl

/-- A word that may be absent is no choice of words. -/
theorem optional_ne_choice {text : List Char} {words : List (List Char)} (h : 2 ≤ words.length)
    (s t : List Char) : (optional text).source ++ s ≠ (choice words).source ++ t := by
  obtain ⟨w, w', words, rfl⟩ : ∃ w w' rest, words = w :: w' :: rest := by
    match words, h with
    | w :: w' :: rest, _ => exact ⟨w, w', rest, rfl⟩
  intro heq
  rw [optional_append, choice_append, escapeWords_cons_append] at heq
  simp only [List.cons.injEq, true_and] at heq
  exact absurd (eq_of_escape_append bare_close bare_bar heq).2.1 (by decide)

theorem group_ne {fragment : String} (h : fragment ∈ fragments) (s t : List Char) :
    (group fragment).source ++ s ≠ '(' :: '?' :: t := by
  intro heq
  rw [group_append] at heq
  exact fragment_append_ne h _ _ (List.cons.inj heq).2

/-- **`eq_of_source_append`** — a part of a source ends where it ends, whatever follows. -/
theorem eq_of_source_append {a b : Chunk} (ha : a.WellFormed) (hb : b.WellFormed)
    {s t : List Char} (h : a.source ++ s = b.source ++ t) : a = b ∧ s = t := by
  cases a with
  | char c =>
    cases b with
    | char d =>
      obtain ⟨rfl, hrest⟩ := eq_of_escape_singleton_append h
      exact ⟨rfl, hrest⟩
    | _ => exact absurd h (escape_singleton_append_ne bare_open _ _)
  | optional text =>
    cases b with
    | char d => exact absurd h.symm (escape_singleton_append_ne bare_open _ _)
    | optional text' =>
      rw [optional_append, optional_append] at h
      simp only [List.cons.injEq, true_and] at h
      obtain ⟨rfl, -, hrest⟩ := eq_of_escape_append bare_close bare_close h
      exact ⟨rfl, (List.cons.inj hrest).2⟩
    | choice words => exact absurd h (optional_ne_choice hb s t)
    | group fragment => exact absurd h.symm (group_ne hb _ _)
  | choice words =>
    cases b with
    | char d => exact absurd h.symm (escape_singleton_append_ne bare_open _ _)
    | optional text => exact absurd h.symm (optional_ne_choice ha t s)
    | choice words' =>
      rw [choice_append, choice_append] at h
      simp only [List.cons.injEq, true_and] at h
      obtain ⟨w, ws, rfl⟩ := List.exists_cons_of_length_pos (Nat.zero_lt_of_lt ha)
      obtain ⟨v, vs, rfl⟩ := List.exists_cons_of_length_pos (Nat.zero_lt_of_lt hb)
      obtain ⟨hwords, hrest⟩ := eq_of_escapeWords_append h
      exact ⟨congrArg choice hwords, hrest⟩
    | group fragment => exact absurd h.symm (group_ne hb _ _)
  | group fragment =>
    cases b with
    | char d => exact absurd h.symm (escape_singleton_append_ne bare_open _ _)
    | optional text => exact absurd h (group_ne ha _ _)
    | choice words => exact absurd h (group_ne ha _ _)
    | group fragment' =>
      rw [group_append, group_append] at h
      obtain ⟨rfl, hrest⟩ := eq_of_fragment_append ha hb (List.cons.inj h).2
      exact ⟨rfl, (List.cons.inj hrest).2⟩

/-- Parts in a row are told by what they are written as. -/
theorem eq_of_flatMap_source {xs ys : List Chunk} (hx : ∀ x ∈ xs, x.WellFormed)
    (hy : ∀ y ∈ ys, y.WellFormed) (h : xs.flatMap source = ys.flatMap source) : xs = ys := by
  induction xs generalizing ys with
  | nil =>
    cases ys with
    | nil => rfl
    | cons y ys => exact absurd (List.append_eq_nil_iff.mp h.symm).1 y.source_ne_nil
  | cons x xs ih =>
    cases ys with
    | nil => exact absurd (List.append_eq_nil_iff.mp h).1 x.source_ne_nil
    | cons y ys =>
      obtain ⟨hx, hxs⟩ := List.forall_mem_cons.mp hx
      obtain ⟨hy, hys⟩ := List.forall_mem_cons.mp hy
      obtain ⟨rfl, hrest⟩ := eq_of_source_append hx hy h
      exact congrArg _ (ih hxs hys hrest)

/-! ## §D The score of parts -/

/-- The literal characters of a part. -/
def literals : Chunk → Nat
  | char _ => 1
  | optional text => text.length
  | choice words => ((words.map List.length).min?).getD 0
  | group _ => 0

/-- Whether a part captures. -/
def isGroup : Chunk → Bool
  | group _ => true
  | _ => false

/-- Whether a part captures and does not match every text. -/
def restricts : Chunk → Bool
  | group fragment => fragment != Hint.anything
  | _ => false

/-- The literal characters of parts. -/
def literalsOf : List Chunk → Nat
  | [] => 0
  | c :: rest => c.literals + literalsOf rest

@[simp] theorem literalsOf_append (xs ys : List Chunk) :
    literalsOf (xs ++ ys) = literalsOf xs + literalsOf ys := by
  induction xs with
  | nil => exact (Nat.zero_add _).symm
  | cons x xs ih => rw [List.cons_append, literalsOf, literalsOf, ih, Nat.add_assoc]

@[simp] theorem literalsOf_chars (text : List Char) : literalsOf (text.map char) = text.length := by
  induction text with
  | nil => rfl
  | cons c text ih => rw [List.map_cons, literalsOf, ih, List.length_cons, literals, Nat.add_comm]

/-- **`rank chunks`** — the score of the parts of a source. -/
def rank (chunks : List Chunk) : Specificity :=
  ⟨literalsOf chunks, chunks.countP isGroup, chunks.countP restricts⟩

end Chunk

namespace Piece

/-- The parts that a piece is written with. -/
def chunks : Piece → List Chunk
  | literal text => text.map .char
  | placeholder p => [.group (Hint.fragment (Hint.effective p.name p.hint))]
  | optional text => [.optional text]
  | alternation words => [.choice words]
  | openBrace _ => [.char '{']
  | closeBrace _ => [.char '}']

/-- Whether a piece is a placeholder that is restricted. -/
def restricts : Piece → Bool
  | placeholder p => Hint.fragment (Hint.effective p.name p.hint) != Hint.anything
  | _ => false

/-- **`p.isIdle`** — a piece is a placeholder with a hint in force that restricts nothing. -/
def isIdle : Piece → Bool
  | placeholder p => (Hint.effective p.name p.hint).isSome &&
      Hint.fragment (Hint.effective p.name p.hint) == Hint.anything
  | _ => false

theorem source_eq_chunks (p : Piece) : p.source = p.chunks.flatMap Chunk.source := by
  cases p with
  | literal text =>
    simp only [source, chunks, List.flatMap_map]
    simp [escape, Chunk.source]
  | placeholder p => simp [source, chunks, Chunk.source, Placeholder.fragment]
  | optional text => simp [source, chunks, Chunk.source]
  | alternation words => simp [source, chunks, Chunk.source]
  | openBrace _ => rfl
  | closeBrace _ => rfl

/-- The score of a piece is that of its parts, but for an idle placeholder. -/
theorem ofPiece_eq (p : Piece) :
    Specificity.ofPiece p =
      Specificity.add (Chunk.rank p.chunks) { typed := if p.isIdle then 1 else 0 } := by
  cases p with
  | literal text =>
    simp [Specificity.ofPiece, Specificity.add, Chunk.rank, chunks, isIdle, Function.comp_def,
      Chunk.isGroup, Chunk.restricts]
  | placeholder p =>
    -- Without a hint in force the fragment is that of anything; with one it may be.
    cases hhint : Hint.effective p.name p.hint with
    | none => simp [Specificity.ofPiece, Specificity.add, Chunk.rank, chunks, isIdle, hhint,
        Chunk.literalsOf, Chunk.literals, Chunk.isGroup, Chunk.restricts, Hint.fragment]
    | some hint =>
      by_cases hany : Hint.fragment (some hint) = Hint.anything <;>
        simp [Specificity.ofPiece, Specificity.add, Chunk.rank, chunks, isIdle, hhint, hany,
          Chunk.literalsOf, Chunk.literals, Chunk.isGroup, Chunk.restricts]
  | _ => simp [Specificity.ofPiece, Specificity.add, Chunk.rank, chunks, isIdle,
      Chunk.literalsOf, Chunk.literals, Chunk.isGroup, Chunk.restricts]

theorem rank_append (xs ys : List Chunk) :
    Chunk.rank (xs ++ ys) = Specificity.add (Chunk.rank xs) (Chunk.rank ys) := by
  simp [Chunk.rank, Specificity.add]

/-- The score of pieces is that of their parts and one for each idle placeholder. -/
theorem foldl_ofPiece (start : Specificity) (pieces : List Piece) :
    (pieces.map Specificity.ofPiece).foldl Specificity.add start =
      Specificity.add start (Specificity.add (Chunk.rank (pieces.flatMap chunks))
        { typed := pieces.countP isIdle }) := by
  induction pieces generalizing start with
  | nil => rfl
  | cons p pieces ih =>
    rw [List.map_cons, List.foldl_cons, ih, List.flatMap_cons, rank_append, ofPiece_eq,
      List.countP_cons]
    simp only [Specificity.add, Specificity.mk.injEq]
    omega

/-- The parts that restrict are the placeholders that are restricted. -/
theorem typed_rank (pieces : List Piece) :
    (Chunk.rank (pieces.flatMap chunks)).typed = pieces.countP restricts := by
  induction pieces with
  | nil => rfl
  | cons p pieces ih =>
    have hp : p.chunks.countP Chunk.restricts = if p.restricts then 1 else 0 := by
      cases p with
      | literal text => simp [chunks, restricts, Chunk.restricts]
      | _ => exact List.countP_singleton
    rw [List.flatMap_cons, rank_append, List.countP_cons, ← ih, ← hp]
    exact Nat.add_comm _ _

/-! ## §E The parts of a pattern -/

theorem wellFormed_chunks {p : Piece} (h : ∀ words, p = alternation words → 2 ≤ words.length) :
    ∀ chunk ∈ p.chunks, chunk.WellFormed := by
  cases p with
  | literal text =>
    intro chunk hchunk
    obtain ⟨c, -, rfl⟩ := List.mem_map.mp hchunk
    trivial
  | placeholder p => exact List.forall_mem_singleton.mpr (fragment_mem _)
  | alternation words => exact List.forall_mem_singleton.mpr (h words rfl)
  | _ => exact List.forall_mem_singleton.mpr trivial

/-- A source is that of well-formed parts between two anchors, and the score of the pattern is that
of the parts and one for each idle placeholder. -/
theorem exists_chunks {pattern source : List Char} (h : expressionSource pattern = .ok source) :
    ∃ pieces, lex pattern = .ok pieces ∧
      source = '^' :: (pieces.flatMap chunks).flatMap Chunk.source ++ ['$'] ∧
      ∀ chunk ∈ pieces.flatMap chunks, chunk.WellFormed := by
  unfold expressionSource at h
  split at h
  · exact absurd h (by simp)
  · rename_i pieces hlex
    obtain ⟨body, hbody, rfl⟩ := exists_of_map_eq_ok h
    refine ⟨pieces, hlex, ?_, ?_⟩
    · rw [sourceOf_eq hbody, List.flatMap_assoc, funext source_eq_chunks]
    · intro chunk hchunk
      obtain ⟨p, hp, hmem⟩ := List.mem_flatMap.mp hchunk
      exact wellFormed_chunks (fun words heq => two_le_of_mem_lexFrom hlex (heq ▸ hp)) chunk hmem

end Piece

namespace Specificity

/-- The score of a pattern that has been cut into pieces. -/
theorem ofExpression_of_lex {pattern : List Char} {pieces : List Piece}
    (h : Piece.lex pattern = .ok pieces) :
    ofExpression pattern = .ok (add (Chunk.rank (pieces.flatMap Piece.chunks))
      { typed := pieces.countP Piece.isIdle }) := by
  rw [ofExpression, h, Except.map, Piece.foldl_ofPiece]
  simp [add]

/-- **`rank_of_sameSource`** — two brace expressions with one source have one rank, whose typed
placeholders are those that are restricted; the score of each is that rank and one more typed
placeholder for each placeholder whose hint restricts nothing. So their scores are equal just if they
have as many of those. -/
theorem rank_of_sameSource {p q source : List Char} (hp : expressionSource p = .ok source)
    (hq : expressionSource q = .ok source) :
    ∃ ps qs rank, Piece.lex p = .ok ps ∧ Piece.lex q = .ok qs ∧
      ofExpression p = .ok (add rank { typed := ps.countP Piece.isIdle }) ∧
      ofExpression q = .ok (add rank { typed := qs.countP Piece.isIdle }) ∧
      rank.typed = ps.countP Piece.restricts ∧ rank.typed = qs.countP Piece.restricts ∧
      (ofExpression p = ofExpression q ↔ ps.countP Piece.isIdle = qs.countP Piece.isIdle) := by
  obtain ⟨ps, hlexp, hsource, hps⟩ := Piece.exists_chunks hp
  obtain ⟨qs, hlexq, hsource', hqs⟩ := Piece.exists_chunks hq
  have hchunks : ps.flatMap Piece.chunks = qs.flatMap Piece.chunks := by
    refine Chunk.eq_of_flatMap_source hps hqs ?_
    exact (List.cons.inj (List.append_cancel_right (hsource.symm.trans hsource'))).2
  have hscorep := ofExpression_of_lex hlexp
  have hscoreq := ofExpression_of_lex hlexq
  rw [← hchunks] at hscoreq
  refine ⟨ps, qs, _, hlexp, hlexq, hscorep, hscoreq, Piece.typed_rank ps, ?_, ?_⟩
  · rw [hchunks]
    exact Piece.typed_rank qs
  · rw [hscorep, hscoreq]
    simp [add]

/-- A doubled brace and an escaped one, and an idle placeholder in both. -/
theorem rank_of_sameSource_braces :
    ∃ ps qs rank, Piece.lex "\x7bn:int\x7d \x7b\x7b \x7bx:foo\x7d".toList = .ok ps ∧
      Piece.lex "\x7bcount:int\x7d \\\x7b \x7by:bar\x7d".toList = .ok qs ∧
      ofExpression "\x7bn:int\x7d \x7b\x7b \x7bx:foo\x7d".toList =
        .ok (add rank { typed := ps.countP Piece.isIdle }) ∧
      ofExpression "\x7bcount:int\x7d \\\x7b \x7by:bar\x7d".toList =
        .ok (add rank { typed := qs.countP Piece.isIdle }) ∧
      rank.typed = ps.countP Piece.restricts ∧ rank.typed = qs.countP Piece.restricts ∧
      (ofExpression "\x7bn:int\x7d \x7b\x7b \x7bx:foo\x7d".toList =
          ofExpression "\x7bcount:int\x7d \\\x7b \x7by:bar\x7d".toList ↔
        ps.countP Piece.isIdle = qs.countP Piece.isIdle) := by
  have hp : expressionSource "\x7bn:int\x7d \x7b\x7b \x7bx:foo\x7d".toList =
      .ok "^([+-]?\\d+) \\\x7b (.+?)$".toList := by decide +kernel
  have hq : expressionSource "\x7bcount:int\x7d \\\x7b \x7by:bar\x7d".toList =
      .ok "^([+-]?\\d+) \\\x7b (.+?)$".toList := by decide +kernel
  exact rank_of_sameSource hp hq

/-- A hint that restricts nothing leaves the source as it is and raises the score. -/
theorem rank_differs_for_idle_hint :
    expressionSource "\x7bx\x7d".toList = .ok "^(.+?)$".toList ∧
      expressionSource "\x7bx:foo\x7d".toList = .ok "^(.+?)$".toList ∧
      ofExpression "\x7bx\x7d".toList = .ok ⟨0, 1, 0⟩ ∧
      ofExpression "\x7bx:foo\x7d".toList = .ok ⟨0, 1, 1⟩ := by
  decide +kernel

end Specificity

end FeatureFile
