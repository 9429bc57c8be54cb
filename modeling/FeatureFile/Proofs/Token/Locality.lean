/-
# FeatureFile.Proofs.Token.Locality — tokens are found line by line

No token reaches over a line break, and none is found by looking past one. So where two texts meet
at a line break, a stream reads the first as if nothing followed (`TokenStream.next_extend`), and
what it then knows of the first is the doc string that is open: it reads the second from the start
of a line. The tokens of both are therefore those of the first and then those of the second, further
on by the length of the first.

The two texts meet at a line break if the first ends in one or the second begins with one, unless
this is a carriage return before its line feed (`Seam`). A change inside a line has a seam before it
and one behind it, and so leaves the tokens of all other lines alone.

Main statement: `tokenize_lineLocal`.
-/

import FeatureFile.Proofs.Outline.Openers

namespace FeatureFile

open Text (isBreak byteLength byteSize)

/-! ## §A One token of a line -/

namespace LineCut

/-- No token of a line is a line break. -/
theorem kind_next_ne (place : LinePlace) (doc : Option Token.DocDelimiter) (line : List Char) :
    (next place doc line).kind ≠ .newline := by
  have hfound := found_next place doc line
  generalize next place doc line = cut at hfound ⊢
  cases hfound with
  | inside h => exact h.kind_ne rfl
  | _ => simp

/-- Only blanks at the start of a line leave a stream there. -/
theorem lineStart_of_next {place : LinePlace} {doc : Option Token.DocDelimiter} {line : List Char}
    (h : (next place doc line).place = .lineStart) :
    place = .lineStart ∧ (next place doc line).kind = .whitespace := by
  have hfound := found_next place doc line
  generalize next place doc line = cut at h hfound ⊢
  cases hfound with
  | inside hinside => exact absurd h hinside.place_ne
  | indent hplace => exact ⟨hplace, rfl⟩
  | delimiter => cases h
  | @keyword k =>
    change (if k.isStep then LinePlace.step else LinePlace.colon) = _ at h
    split at h <;> cases h

end LineCut

/-- No piece of a line is a line break. -/
theorem LinePlace.kind_ne_of_mem_lexemes (place : LinePlace) (doc : Option Token.DocDelimiter)
    (line : List Char) : ∀ piece ∈ (place.lexemes doc line).1, piece.1 ≠ .newline := by
  induction hlength : line.length using Nat.strong_induction_on generalizing place doc line with
  | _ length ih =>
    subst hlength
    cases line with
    | nil =>
      rw [TokenStream.lexemes_nil]
      exact fun _ h => absurd h List.not_mem_nil
    | cons c cs =>
      obtain ⟨a, b, hab, hlen, hpieces⟩ := LineCut.agrees_next place doc c cs
      rw [hpieces]
      refine List.forall_mem_cons.mpr ⟨LineCut.kind_next_ne place doc _, ?_⟩
      refine ih b.length ?_ _ _ b rfl
      rw [hab, List.length_append, hlen]
      omega

/-! ## §B Seams -/

/-- **`BeginsInBreak cs`** — a text is empty or begins with a line break. -/
def BeginsInBreak (cs : List Char) : Prop := ∀ c ∈ cs.head?, isBreak c = true

/-- **`SplitsBreak a b`** — between the two texts a carriage return and its line feed are split. -/
def SplitsBreak (a b : List Char) : Prop := a.getLast? = some '\r' ∧ b.head? = some '\n'

instance (a b : List Char) : Decidable (SplitsBreak a b) := inferInstanceAs (Decidable (_ ∧ _))

/-- **`Seam a b`** — the two texts meet at a line break, and split none. -/
structure Seam (a b : List Char) : Prop where
  atBreak : EndsInBreak a ∨ BeginsInBreak b
  whole : ¬ SplitsBreak a b

theorem EndsInBreak.of_append {a b : List Char} (h : EndsInBreak (a ++ b)) : EndsInBreak b := by
  intro c hc
  refine h c ?_
  rw [Option.mem_def] at hc ⊢
  rw [List.getLast?_append, hc]
  rfl

theorem Seam.of_append {a b t : List Char} (h : Seam (a ++ b) t) : Seam b t := by
  refine ⟨h.atBreak.imp_left EndsInBreak.of_append, ?_⟩
  rintro ⟨hlast, hhead⟩
  refine h.whole ⟨?_, hhead⟩
  rw [List.getLast?_append, hlast]
  rfl

namespace TokenStream

variable {s : TokenStream} {t : List Char}

/-! ## §C One token in front of a seam -/

/-- The stream with more text behind its own. -/
def extend (s : TokenStream) (t : List Char) : TokenStream := { s with rest := s.rest ++ t }

/-- What the next token takes off the text: a line break, or characters of the line. -/
theorem exists_taken (hne : s.rest ≠ []) :
    ∃ a b, s.rest = a ++ b ∧ a.length = max s.cut.length 1 ∧
      (s.cut.place = .lineStart ∨ ∀ c ∈ a, isBreak c = false) := by
  obtain ⟨c, rest, hrest⟩ := List.exists_cons_of_ne_nil hne
  cases hc : isBreak c with
  | true =>
    have hcut : s.cut = ⟨.newline, breakLength (c :: rest), .lineStart, s.doc⟩ := by
      rw [cut, hrest, List.head?_cons, if_pos (by simpa using hc)]
      rfl
    refine ⟨_, _, (List.take_append_drop (breakLength (c :: rest)) s.rest).symm, ?_, ?_⟩
    · rw [hcut, hrest]
      exact length_take_breakLength c rest
    · exact Or.inl (by rw [hcut])
  | false =>
    obtain ⟨cs, hcs⟩ : ∃ cs, s.line = c :: cs := by
      refine ⟨rest.takeWhile fun c => !isBreak c, ?_⟩
      rw [line, hrest, List.takeWhile_cons, if_pos (by simp [hc])]
    have hcut : s.cut = .next s.place s.doc (c :: cs) := by
      rw [cut, hrest, List.head?_cons, if_neg (by simp [hc]), hcs]
    obtain ⟨a, b, hab, hlen, -⟩ := LineCut.agrees_next s.place s.doc c cs
    refine ⟨a, b ++ s.afterLine, ?_, by rw [hcut]; exact hlen, Or.inr fun d hd => ?_⟩
    · rw [← List.append_assoc, ← hab, ← hcs, line_append_afterLine]
    · exact s.isBreak_of_mem_line d (by rw [hcs, hab]; exact List.mem_append_left b hd)

/-- Up to a seam the line is the same, whatever stands behind it. -/
theorem line_extend (h : Seam s.rest t) (hne : s.rest ≠ []) : (s.extend t).line = s.line := by
  have hrest : (s.extend t).rest = s.line ++ (s.afterLine ++ t) := by
    rw [← List.append_assoc, line_append_afterLine]
    rfl
  refine (line_of_rest hrest s.isBreak_of_mem_line ?_).1
  cases hafter : s.afterLine with
  | cons c cs =>
    have hbreak := s.isBreak_head_afterLine
    rwa [hafter] at hbreak
  | nil =>
    rcases h.atBreak with hends | hbegins
    · -- The text is one line without a break, and it cannot end in one.
      have hline := s.line_append_afterLine
      rw [hafter, List.append_nil] at hline
      obtain ⟨c, hc⟩ := Option.isSome_iff_exists.mp (List.getLast?_isSome.mpr hne)
      have hfalse := s.isBreak_of_mem_line c (hline ▸ List.mem_of_getLast? hc)
      rw [hends c hc] at hfalse
      cases hfalse
    · exact hbegins

/-- Up to a seam the next token is the same, whatever stands behind it. -/
theorem cut_extend (h : Seam s.rest t) (hne : s.rest ≠ []) : (s.extend t).cut = s.cut := by
  have hline := line_extend h hne
  obtain ⟨c, rest, hrest⟩ := List.exists_cons_of_ne_nil hne
  have hextend : (s.extend t).rest = c :: (rest ++ t) := by
    show s.rest ++ t = _
    rw [hrest, List.cons_append]
  rw [cut, cut, hline, hextend, hrest]
  have hbreak : ['\r', '\n'].isPrefixOf (c :: (rest ++ t)) = ['\r', '\n'].isPrefixOf (c :: rest) := by
    cases rest with
    | cons d rest => rfl
    | nil =>
      cases t with
      | nil => rfl
      | cons d t =>
        -- Here a carriage return would be before its line feed.
        have hwhole := h.whole
        rw [hrest] at hwhole
        have hnot : ¬ (c = '\r' ∧ d = '\n') := by
          rintro ⟨rfl, rfl⟩
          exact hwhole ⟨rfl, rfl⟩
        show ('\r' == c && ('\n' == d && true)) = ('\r' == c && false)
        rw [Bool.and_true, Bool.and_false, Bool.and_eq_false_iff]
        by_cases hc : c = '\r'
        · exact Or.inr (beq_eq_false_iff_ne.mpr fun hd => hnot ⟨hc, hd.symm⟩)
        · exact Or.inl (beq_eq_false_iff_ne.mpr fun hcr => hc hcr.symm)
  rw [hbreak]
  rfl

/-- **No token looks past a seam.** In front of it the stream gives the token that it gives without
what stands behind, and goes on likewise. -/
theorem next_extend (h : Seam s.rest t) (hne : s.rest ≠ []) :
    (s.extend t).next = (s.next.1, s.next.2.extend t) := by
  obtain ⟨a, b, hab, hlen, -⟩ := exists_taken hne
  have hextend : (s.extend t).rest = a ++ (b ++ t) := by
    show s.rest ++ t = _
    rw [hab, List.append_assoc]
  have hne' : (s.extend t).rest ≠ [] := List.append_ne_nil_of_left_ne_nil hne t
  rw [next_of_ne_nil hne, next_of_ne_nil hne', cut_extend h hne, emit_of_rest hab hlen,
    emit_of_rest hextend hlen]
  rfl

/-- A token takes its text off the front. -/
theorem rest_of_next {u : Token} (h : s.next.1 = some u) :
    s.rest = u.text.toList ++ s.next.2.rest ∧
      s.next.2.offset = s.offset + byteLength u.text.toList := by
  obtain ⟨hne, hemit⟩ := emit_of_next h
  obtain ⟨a, b, hab, hlen, -⟩ := exists_taken hne
  rw [emit_of_rest hab hlen] at hemit
  obtain ⟨rfl, hbehind⟩ := Prod.mk.inj hemit
  rw [← hbehind, String.toList_ofList]
  exact ⟨hab, rfl⟩

theorem rest_of_none (h : s.next.1 = none) : s.rest = [] := by
  by_contra hne
  rw [next_of_ne_nil hne] at h
  cases h

/-! ## §D All tokens in front of a seam -/

/-- **`s.Gave ts`** — the tokens are the first that the stream gives. -/
def Gave (s : TokenStream) (ts : List Token) : Prop :=
  ∀ i (h : i < ts.length), s.output i = some ts[i]

theorem gave_cons {u : Token} {us : List Token} (h : s.Gave (u :: us)) :
    s.next.1 = some u ∧ s.next.2.Gave us :=
  ⟨h 0 (Nat.zero_lt_succ _), fun i hi => h (i + 1) (Nat.succ_lt_succ hi)⟩

/-- Behind some of its tokens the stream has their texts no more. -/
theorem rest_of_gave {us : List Token} (h : s.Gave us) :
    s.rest = textOfTokens us ++ (s.behind us.length).rest ∧
      (s.behind us.length).offset = s.offset + byteLength (textOfTokens us) := by
  induction us generalizing s with
  | nil => exact ⟨rfl, rfl⟩
  | cons u us ih =>
    obtain ⟨hnext, hgave⟩ := gave_cons h
    obtain ⟨hrest, hoffset⟩ := rest_of_next hnext
    obtain ⟨hrest', hoffset'⟩ := ih hgave
    rw [textOfTokens, List.flatMap_cons, List.append_assoc, Text.byteLength_append, ← Nat.add_assoc,
      ← hoffset]
    exact ⟨hrest.trans (congrArg _ hrest'), hoffset'⟩

/-- **All tokens in front of a seam.** The stream gives them whatever stands behind it. -/
theorem gave_extend {us : List Token} (hseam : Seam s.rest t) (h : s.Gave us) :
    (s.extend t).Gave us ∧ (s.extend t).behind us.length = (s.behind us.length).extend t := by
  induction us generalizing s with
  | nil => exact ⟨fun i hi => absurd hi (Nat.not_lt_zero i), rfl⟩
  | cons u us ih =>
    obtain ⟨hnext, hgave⟩ := gave_cons h
    have hextend := next_extend hseam (emit_of_next hnext).1
    have hseam' : Seam s.next.2.rest t := by
      rw [(rest_of_next hnext).1] at hseam
      exact hseam.of_append
    obtain ⟨hgave', hbehind⟩ := ih hseam' hgave
    have hsecond : (s.extend t).next.2 = s.next.2.extend t := by rw [hextend]
    refine ⟨fun i hi => ?_, ?_⟩
    · cases i with
      | zero =>
        show (s.extend t).next.1 = some u
        rw [hextend]
        exact hnext
      | succ i =>
        show (s.extend t).next.2.output i = _
        rw [hsecond]
        exact hgave' i (Nat.lt_of_succ_lt_succ hi)
    · show (s.extend t).next.2.behind us.length = _
      rw [hsecond]
      exact hbehind

/-- Behind a line break a stream is at the start of a line. -/
theorem lineStart_of_gave {us : List Token} (hends : EndsInBreak s.rest)
    (hstart : s.rest = [] → s.place = .lineStart) (h : s.Gave us) :
    (s.behind us.length).rest = [] → (s.behind us.length).place = .lineStart := by
  induction us generalizing s with
  | nil => exact hstart
  | cons u us ih =>
    obtain ⟨hnext, hgave⟩ := gave_cons h
    have hrest := (rest_of_next hnext).1
    refine ih ?_ ?_ hgave
    · rw [hrest] at hends
      exact hends.of_append
    · intro hnil
      obtain ⟨hne, hemit⟩ := emit_of_next hnext
      obtain ⟨a, b, hab, hlen, hcases⟩ := exists_taken hne
      rw [emit_of_rest hab hlen] at hemit
      have hsecond := (Prod.mk.inj hemit).2.symm
      rw [hsecond] at hnil ⊢
      obtain rfl : b = [] := hnil
      refine hcases.resolve_right fun hline => ?_
      -- The last token would be the rest of a line, but the text ends in a break.
      rw [List.append_nil] at hab
      obtain ⟨d, hd⟩ := Option.isSome_iff_exists.mp (List.getLast?_isSome.mpr hne)
      have hfalse := hline d (hab ▸ List.mem_of_getLast? hd)
      rw [hends d hd] at hfalse
      cases hfalse

/-- A text that is entered at a line break, or from the start of a line, is read line by line. -/
theorem remaining_of_seam (h : s.place = .lineStart ∨ BeginsInBreak s.rest) :
    s.remaining = Token.lexemes s.doc (lines s.rest) := by
  obtain ⟨rest, offset, place, doc⟩ := s
  rcases h with rfl | hbegins
  · exact remaining_lineStart rest offset doc
  · obtain ⟨hline, hafter⟩ := line_of_rest (s := ⟨rest, offset, place, doc⟩) (a := [])
      (List.nil_append _).symm (by simp) hbegins
    rw [remaining, hline, hafter, lexemes_nil]
    rfl

theorem output_add (s : TokenStream) (n i : Nat) : s.output (n + i) = (s.behind n).output i := by
  induction n generalizing s with
  | zero => rw [Nat.zero_add, behind]
  | succ n ih =>
    rw [Nat.add_right_comm]
    exact ih s.next.2

end TokenStream

/-! ## §E Tokens of two texts -/

/-- **`tokensFrom doc source`** — the tokens of a text that is read from the start of a line, with the
doc string that is open there. -/
def tokensFrom (doc : Option Token.DocDelimiter) (source : String) : List Token :=
  Token.place 0 (Token.lexemes doc (lines source.toList))

/-- They are what a stream gives that is put at the start of a line. -/
theorem output_tokensFrom (doc : Option Token.DocDelimiter) (source : String) (n : Nat) :
    (TokenStream.mk source.toList 0 .lineStart doc).output n = (tokensFrom doc source)[n]? := by
  rw [TokenStream.output_eq, TokenStream.remaining_lineStart]
  rfl

/-- **`leftOpen source`** — the doc string that is open when a source has been read to its end. -/
def leftOpen (source : String) : Option Token.DocDelimiter :=
  ((TokenStream.ofSource source).behind (tokenize source).length).doc

/-- A doc string is left open behind an odd number of delimiters. -/
theorem isSome_leftOpen (source : String) :
    (leftOpen source).isSome = decide (Builder.delimiters (tokenize source) % 2 = 1) := by
  rw [leftOpen, ← Builder.inDocString_eq_behind, List.take_length, Builder.inDocString_foldl]

theorem gave_tokenize (source : String) : (TokenStream.ofSource source).Gave (tokenize source) := by
  intro i hi
  rw [TokenStream.output_ofSource, List.getElem?_eq_getElem hi]

/-- The stream that has read a source to its end. -/
theorem behind_tokenize (source : String) :
    ((TokenStream.ofSource source).behind (tokenize source).length).rest = [] ∧
      ((TokenStream.ofSource source).behind (tokenize source).length).offset = byteSize source := by
  constructor
  · apply TokenStream.rest_of_none
    rw [TokenStream.next_ofSource, List.getElem?_eq_none_iff]
  · rw [(TokenStream.rest_of_gave (gave_tokenize source)).2, textOfTokens_tokenize]
    exact Nat.zero_add _

/-- **Behind a seam.** The stream over two texts, when it has given the tokens of the first. -/
theorem behind_append {a b : String} (h : Seam a.toList b.toList) :
    (TokenStream.ofSource (a ++ b)).behind (tokenize a).length =
      ((TokenStream.ofSource a).behind (tokenize a).length).extend b.toList := by
  have hextend : TokenStream.ofSource (a ++ b) = (TokenStream.ofSource a).extend b.toList := by
    rw [TokenStream.ofSource, String.toList_append]
    rfl
  rw [hextend]
  exact (TokenStream.gave_extend (s := TokenStream.ofSource a) h (gave_tokenize a)).2

/-- **Tokens behind a seam.** They are those of the second text, read from the start of a line. -/
theorem tokenize_append_of_seam {a b : String} (h : Seam a.toList b.toList) :
    tokenize (a ++ b) =
      tokenize a ++ (tokensFrom (leftOpen a) b).map (Token.shift (byteSize a)) := by
  obtain ⟨hrest, hoffset⟩ := behind_tokenize a
  have hbehind := behind_append h
  have hplace : ((TokenStream.ofSource a).behind (tokenize a).length).place = .lineStart ∨
      BeginsInBreak b.toList := by
    refine h.atBreak.imp_left fun hends => ?_
    exact TokenStream.lineStart_of_gave (s := TokenStream.ofSource a) hends (fun _ => rfl)
      (gave_tokenize a) hrest
  -- What the stream has still to give is the second text, line by line.
  have hremaining : (((TokenStream.ofSource a).behind (tokenize a).length).extend
      b.toList).remaining = Token.lexemes (leftOpen a) (lines b.toList) := by
    rw [TokenStream.remaining_of_seam]
    · rw [TokenStream.extend, hrest, List.nil_append]
      rfl
    · rw [TokenStream.extend, hrest, List.nil_append]
      exact hplace
  have hgave := (TokenStream.gave_extend (s := TokenStream.ofSource a) h (gave_tokenize a)).1
  have hextend : (TokenStream.ofSource a).extend b.toList = TokenStream.ofSource (a ++ b) := by
    rw [TokenStream.ofSource, TokenStream.ofSource, String.toList_append]
    rfl
  rw [hextend] at hgave
  apply List.ext_getElem?
  intro i
  rw [← TokenStream.output_ofSource]
  rcases Nat.lt_or_ge i (tokenize a).length with hi | hi
  · rw [hgave i hi, List.getElem?_append_left hi, List.getElem?_eq_getElem hi]
  · obtain ⟨j, rfl⟩ := Nat.exists_eq_add_of_le hi
    rw [TokenStream.output_add, hbehind, TokenStream.output_eq, hremaining,
      List.getElem?_append_right hi, Nat.add_sub_cancel_left, tokensFrom, ← Token.place_add,
      Nat.zero_add]
    show (Token.place ((TokenStream.ofSource a).behind (tokenize a).length).offset _)[j]? = _
    rw [hoffset]

/-! ## §F Lines -/

/-- **`LineLocal s`** — behind a text that is empty or ends in a line break, what follows is read as
if it began there, but for the doc string that the text leaves open. -/
structure LineLocal (s : String) : Prop where
  /-- The tokens of the text are read first, and then the stream is at the start of a line. -/
  behind_eq : ∀ t : String, ¬ SplitsBreak s.toList t.toList →
    (TokenStream.ofSource (s ++ t)).behind (tokenize s).length =
      ⟨t.toList, byteSize s, .lineStart, leftOpen s⟩
  /-- The tokens of both texts are those of the first and those of the second, further on. -/
  tokenize_append : ∀ t : String, ¬ SplitsBreak s.toList t.toList →
    tokenize (s ++ t) = tokenize s ++ (tokensFrom (leftOpen s) t).map (Token.shift (byteSize s))
  /-- Behind an even number of delimiters the second text is read as it is alone. -/
  tokenize_append_of_even : ∀ t : String, ¬ SplitsBreak s.toList t.toList →
    Builder.delimiters (tokenize s) % 2 = 0 →
    tokenize (s ++ t) = tokenize s ++ (tokenize t).map (Token.shift (byteSize s))
  /-- A change inside the line behind the text changes no token of the lines before it, and if the
  same doc string is open at the end of the line, none behind it but for where they stand. -/
  edit : ∀ line line' rest : String,
    (∀ c ∈ line.toList, isBreak c = false) → (∀ c ∈ line'.toList, isBreak c = false) →
    BeginsInBreak rest.toList → ¬ SplitsBreak s.toList (line ++ rest).toList →
    ¬ SplitsBreak s.toList (line' ++ rest).toList →
    ∃ own own' later later' : List Token,
      tokenize (s ++ line ++ rest) =
        tokenize s ++ own ++ later.map (Token.shift (byteSize (s ++ line))) ∧
      tokenize (s ++ line' ++ rest) =
        tokenize s ++ own' ++ later'.map (Token.shift (byteSize (s ++ line'))) ∧
      textOfTokens own = line.toList ∧ textOfTokens own' = line'.toList ∧
      (leftOpen (s ++ line) = leftOpen (s ++ line') → later = later')

theorem textOfTokens_tokensFrom (doc : Option Token.DocDelimiter) (source : String) (bytes : Nat) :
    textOfTokens ((tokensFrom doc source).map (Token.shift bytes)) = source.toList := by
  rw [tokensFrom, ← Token.place_add, textOfTokens_place, (Token.cuts_lexemes doc _).join,
    flatMap_chars_lines]

/-- A line between two seams: the tokens before it, its own, and those behind it. -/
theorem tokenize_line {s line rest : String} (hs : EndsInBreak s.toList)
    (hline : ∀ c ∈ line.toList, isBreak c = false) (hrest : BeginsInBreak rest.toList)
    (hwhole : ¬ SplitsBreak s.toList (line ++ rest).toList) :
    tokenize (s ++ line ++ rest) =
      tokenize s ++ (tokensFrom (leftOpen s) line).map (Token.shift (byteSize s)) ++
        (tokensFrom (leftOpen (s ++ line)) rest).map (Token.shift (byteSize (s ++ line))) := by
  rw [String.toList_append] at hwhole
  have hbefore : Seam s.toList line.toList := by
    refine ⟨Or.inl hs, ?_⟩
    rintro ⟨-, hhead⟩
    have hfalse := hline '\n' (List.mem_of_head? hhead)
    cases hfalse
  have hbehind : Seam (s ++ line).toList rest.toList := by
    refine ⟨Or.inr hrest, ?_⟩
    rintro ⟨hlast, hhead⟩
    rw [String.toList_append] at hlast
    cases hcs : line.toList with
    | nil =>
      rw [hcs, List.append_nil] at hlast
      rw [hcs] at hwhole
      exact hwhole ⟨hlast, hhead⟩
    | cons c cs =>
      -- The line ends in one of its own characters, which is no carriage return.
      rw [hcs, List.getLast?_append_of_ne_nil _ (List.cons_ne_nil _ _), ← hcs] at hlast
      have hfalse := hline '\r' (List.mem_of_getLast? hlast)
      cases hfalse
  rw [tokenize_append_of_seam hbehind, tokenize_append_of_seam hbefore]

/-- **Tokens are found line by line.** Every text that is empty or ends in a line break leaves to what
follows nothing but the doc string that is open. -/
theorem tokenize_lineLocal {s : String} (hs : EndsInBreak s.toList) : LineLocal s := by
  constructor
  case behind_eq =>
    intro t hwhole
    obtain ⟨hrest, hoffset⟩ := behind_tokenize s
    have hplace := TokenStream.lineStart_of_gave (s := TokenStream.ofSource s) hs (fun _ => rfl)
      (gave_tokenize s) hrest
    rw [behind_append ⟨Or.inl hs, hwhole⟩, TokenStream.extend, hrest, hoffset, hplace]
    rfl
  case tokenize_append => exact fun t hwhole => tokenize_append_of_seam ⟨Or.inl hs, hwhole⟩
  case tokenize_append_of_even =>
    intro t hwhole heven
    have hnone : leftOpen s = none := by
      have hopen := isSome_leftOpen s
      rw [heven] at hopen
      exact Option.not_isSome_iff_eq_none.mp (Bool.eq_false_iff.mp hopen)
    rw [tokenize_append_of_seam ⟨Or.inl hs, hwhole⟩, hnone]
    rfl
  case edit =>
    intro line line' rest hline hline' hrest hwhole hwhole'
    refine ⟨_, _, _, _, tokenize_line hs hline hrest hwhole, tokenize_line hs hline' hrest hwhole',
      textOfTokens_tokensFrom _ _ _, textOfTokens_tokensFrom _ _ _, fun hopen => ?_⟩
    rw [hopen]

/-- A delimiter is left open by the first text, so the second begins inside its doc string. -/
theorem tokenize_lineLocal_docString :
    EndsInBreak "Given a\n\"\"\"\n".toList ∧
      tokenize ("Given a\n\"\"\"\n" ++ "And b") = tokenize "Given a\n\"\"\"\n" ++
        (tokensFrom (leftOpen "Given a\n\"\"\"\n") "And b").map
          (Token.shift (byteSize "Given a\n\"\"\"\n")) :=
  ⟨by decide, (tokenize_lineLocal (by decide)).tokenize_append "And b" (by decide)⟩

end FeatureFile
