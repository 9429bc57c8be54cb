/-
# FeatureFile.Proofs.Token.Lexical — what a reader of tokens may rely on

What the outline, the views of steps and tables and the indentation take for granted about tokens:
which of them are keywords (`keyword_iff_heads`), how each class is written (`WellWritten`), and what
stands beside what (`Spot`). The spots are of no interest here any more; what follows from them is
said of neighbouring tokens.

Main statement: `tokenize_lexical`.
-/

import FeatureFile.Proofs.Token.Headed
import FeatureFile.Proofs.Token.Neighbours

namespace FeatureFile

open Text (isIndent isBreak)

/-! ## §A What spots say of neighbours -/

namespace Spot

variable {spot spot' : Spot} {k : TokenKind}

/-- Whether a cell may stand at a spot. -/
def isRow : Spot → Bool
  | pipe | pipeBlank => true
  | _ => false

/-- Whether no particular token is due at a spot. -/
def isFree : Spot → Bool
  | title | name | close => false
  | _ => true

/-- **`Follows spot k spot'`** — what a token of a class does, case by case. -/
inductive Follows : Spot → TokenKind → Spot → Prop
  | colon : Follows title .colon loose
  | name : Follows name .parameterName close
  | close : Follows close .parameterEnd loose
  | blank : Follows loose .whitespace blank
  | pipeBlank : Follows pipe .whitespace pipeBlank
  | cell {spot : Spot} (hrow : spot.isRow = true) : Follows spot .tableCell loose
  | pipe {spot : Spot} (hfree : spot.isFree = true) : Follows spot .pipe pipe
  | start {spot : Spot} (hfree : spot.isFree = true) : Follows spot .parameterStart name
  | step {spot : Spot} {k : Keyword} (hfree : spot.isFree = true) (hstep : k.isStep = true) :
      Follows spot (.keyword k) loose
  | block {spot : Spot} {k : Keyword} (hfree : spot.isFree = true) (hblock : k.isStep = false) :
      Follows spot (.keyword k) title
  | other {spot : Spot} {k : TokenKind} (hfree : spot.isFree = true)
      (hk : k ∈ [.newline, .comment, .tag, .text, .docStringDelimiter]) : Follows spot k loose

theorem follows_of_after (h : spot.after k = some spot') : Follows spot k spot' := by
  cases k with
  | keyword k =>
    have hfree : spot.isFree = true ∧ spot' = if k.isStep then loose else title := by
      cases spot <;> first | exact ⟨rfl, (Option.some.inj h).symm⟩ | cases h
    cases hstep : k.isStep with
    | true =>
      rw [hfree.2, if_pos hstep]
      exact .step hfree.1 hstep
    | false =>
      rw [hfree.2, if_neg (by simp [hstep])]
      exact .block hfree.1 hstep
  | newline | comment | tag | text | docStringDelimiter =>
    cases spot <;> cases h <;> exact .other rfl (by decide)
  | colon | whitespace | parameterStart | parameterName | parameterEnd | pipe | tableCell =>
    cases spot <;> cases h <;> constructor <;> rfl

theorem after_whitespace (h : spot.after .whitespace = some spot') :
    spot'.after .whitespace = none := by
  cases follows_of_after h with
  | blank | pipeBlank => rfl
  | other _ hk => exact absurd hk (by decide)

theorem eq_title_of_after {keyword : Keyword} (hblock : keyword.isStep = false)
    (h : spot.after (.keyword keyword) = some spot') : spot' = title := by
  cases follows_of_after h with
  | step _ hstep => rw [hblock] at hstep; cases hstep
  | block => rfl
  | other _ hk => simp at hk

theorem eq_name_of_after (h : spot.after .parameterStart = some spot') : spot' = name := by
  cases follows_of_after h with
  | start => rfl
  | other _ hk => exact absurd hk (by decide)

/-- Only a colon may stand behind a block keyword. -/
theorem after_title (h : title.after k = some spot') : k = .colon := by
  cases follows_of_after h with
  | colon => rfl
  | cell hfree | pipe hfree | start hfree | step hfree | block hfree | other hfree => cases hfree

theorem after_name (h : name.after k = some spot') : k = .parameterName ∧ spot' = close := by
  cases follows_of_after h with
  | name => exact ⟨rfl, rfl⟩
  | cell hfree | pipe hfree | start hfree | step hfree | block hfree | other hfree => cases hfree

theorem after_close (h : close.after k = some spot') : k = .parameterEnd := by
  cases follows_of_after h with
  | close => rfl
  | cell hfree | pipe hfree | start hfree | step hfree | block hfree | other hfree => cases hfree

/-- A name is due behind an opening bracket only. -/
theorem kind_of_after_name (h : spot.after k = some name) : k = .parameterStart := by
  cases follows_of_after h with
  | start => rfl

/-- A closing bracket is due behind a name only. -/
theorem kind_of_after_close (h : spot.after k = some close) : spot = name ∧ k = .parameterName := by
  cases follows_of_after h with
  | name => exact ⟨rfl, rfl⟩

theorem of_after_parameterName (h : spot.after .parameterName = some spot') : spot = name := by
  cases follows_of_after h with
  | name => rfl
  | other _ hk => exact absurd hk (by decide)

theorem of_after_parameterEnd (h : spot.after .parameterEnd = some spot') : spot = close := by
  cases follows_of_after h with
  | close => rfl
  | other _ hk => exact absurd hk (by decide)

theorem of_after_cell (h : spot.after .tableCell = some spot') :
    spot.isRow = true ∧ spot'.isRow = false := by
  cases follows_of_after h with
  | cell hrow => exact ⟨hrow, rfl⟩
  | other _ hk => exact absurd hk (by decide)

/-- Only a pipe leads to where a cell may stand. -/
theorem isRow_of_after (h : spot.after k = some spot') (hrow : spot.isRow = false)
    (hk : k ≠ .pipe) : spot'.isRow = false := by
  cases follows_of_after h with
  | pipe => exact absurd rfl hk
  | pipeBlank => cases hrow
  | _ => rfl

end Spot

/-! ## §B Neighbouring tokens -/

/-- A token of a source leads from the spot in front of it to the spot behind it. -/
theorem spot_of_tokenize {source : String} {a b : List Token} {t : Token}
    (h : tokenize source = a ++ t :: b) :
    ∃ spot spot', Spot.behind a = some spot ∧ Spot.behind (a ++ [t]) = some spot' ∧
      spot.after t.kind = some spot' ∧
      WellWritten ((TokenStream.ofSource source).behind a.length).doc t := by
  obtain ⟨spot, hspot, hstanding⟩ := exists_spot_of_tokenize h
  have hnext : ((TokenStream.ofSource source).behind a.length).next.1 = some t := by
    rw [TokenStream.next_ofSource, h]
    simp
  obtain ⟨spot', hafter, -, hwritten⟩ := TokenStream.standing_next hstanding hnext
  refine ⟨spot, spot', hspot, ?_, hafter, hwritten⟩
  rw [Spot.behind_concat, hspot]
  exact hafter

/-- Where a colon, a name or a closing bracket is due, one more token comes. -/
theorem exists_next_token {source : String} {a b : List Token} {spot : Spot}
    (h : tokenize source = a ++ b) (hspot : Spot.behind a = some spot)
    (hdue : spot = .title ∨ spot = .name ∨ spot = .close) : ∃ t b', b = t :: b' := by
  refine List.exists_cons_of_ne_nil ?_
  rintro rfl
  obtain ⟨spot', hspot', hstanding⟩ := exists_spot_of_tokenize h
  obtain rfl := Option.some.inj (hspot.symm.trans hspot')
  refine hstanding.ne_nil hdue ?_
  rw [List.append_nil] at h
  rw [TokenStream.line, ← h, (behind_tokenize source).1]
  rfl

/-- **`IsParameter s n e`** — the three tokens of a step parameter. -/
structure IsParameter (s n e : Token) : Prop where
  start_kind : s.kind = .parameterStart
  start_text : s.text.toList = ['<']
  name_kind : n.kind = .parameterName
  name_text : IsName n.text.toList
  end_kind : e.kind = .parameterEnd
  end_text : e.text.toList = ['>']

/-- Behind an opening bracket stand the name and the closing bracket. -/
theorem isParameter_of_start {source : String} {a b : List Token} {s : Token}
    (h : tokenize source = a ++ s :: b) (hkind : s.kind = .parameterStart) :
    ∃ n e b', b = n :: e :: b' ∧ IsParameter s n e := by
  obtain ⟨spot, spot₁, -, hspot₁, hafter, hstart⟩ := spot_of_tokenize h
  rw [hkind] at hafter
  obtain rfl := Spot.eq_name_of_after hafter
  rw [List.append_cons] at h
  obtain ⟨n, b₁, rfl⟩ := exists_next_token h hspot₁ (.inr (.inl rfl))
  obtain ⟨spot, spot₂, hspot, hspot₂, hafter, hname⟩ := spot_of_tokenize h
  obtain rfl := Option.some.inj (hspot₁.symm.trans hspot)
  obtain ⟨hnkind, rfl⟩ := Spot.after_name hafter
  rw [List.append_cons] at h
  obtain ⟨e, b', rfl⟩ := exists_next_token h hspot₂ (.inr (.inr rfl))
  obtain ⟨spot, _, hspot, -, hafter, hend⟩ := spot_of_tokenize h
  obtain rfl := Option.some.inj (hspot₂.symm.trans hspot)
  have hekind := Spot.after_close hafter
  have hstart := hstart.spelled
  have hname := hname.spelled
  have hend := hend.spelled
  rw [hkind] at hstart
  rw [hnkind] at hname
  rw [hekind] at hend
  exact ⟨n, e, b', rfl, hkind, hstart, hnkind, hname, hekind, hend⟩

/-- Where a name is due, an opening bracket has come. -/
theorem exists_start_of_behind {a : List Token} (h : Spot.behind a = some .name) :
    ∃ a' s, a = a' ++ [s] ∧ s.kind = .parameterStart := by
  rcases List.eq_nil_or_concat a with rfl | ⟨a', s, rfl⟩
  · cases h
  · rw [List.concat_eq_append, Spot.behind_concat] at h
    obtain ⟨spot, -, hafter⟩ := Option.bind_eq_some_iff.mp h
    exact ⟨a', s, List.concat_eq_append, Spot.kind_of_after_name hafter⟩

/-- Where a closing bracket is due, an opening one and a name have come. -/
theorem exists_name_of_behind {a : List Token} (h : Spot.behind a = some .close) :
    ∃ a' s n, a = a' ++ [s, n] ∧ s.kind = .parameterStart := by
  rcases List.eq_nil_or_concat a with rfl | ⟨a', n, rfl⟩
  · cases h
  · rw [List.concat_eq_append, Spot.behind_concat] at h
    obtain ⟨spot, hspot, hafter⟩ := Option.bind_eq_some_iff.mp h
    obtain ⟨rfl, -⟩ := Spot.kind_of_after_close hafter
    obtain ⟨a', s, rfl, hs⟩ := exists_start_of_behind hspot
    exact ⟨a', s, n, by simp, hs⟩

/-- Behind a spot where no cell may stand, none may until a pipe comes. -/
theorem isRow_of_behind_append {a m : List Token} {spot spot' : Spot}
    (ha : Spot.behind a = some spot) (hrow : spot.isRow = false)
    (h : Spot.behind (a ++ m) = some spot') (hm : ∀ p ∈ m, p.kind ≠ .pipe) :
    spot'.isRow = false := by
  induction m using List.reverseRecOn generalizing spot' with
  | nil =>
    rw [List.append_nil] at h
    rwa [← Option.some.inj (ha.symm.trans h)]
  | append_singleton m p ih =>
    rw [← List.append_assoc, Spot.behind_concat] at h
    obtain ⟨spot₁, hspot₁, hafter⟩ := Option.bind_eq_some_iff.mp h
    obtain ⟨hm, hp⟩ := List.forall_mem_append.mp hm
    exact Spot.isRow_of_after hafter (ih hspot₁ hm) (hp p List.mem_cons_self)

/-! ## §C All guarantees -/

/-- **`Lexical source`** — what the tokens of a source are like.

* `keyword_iff` — a token is a keyword if it heads a line, and only then;
* `doc_string` — it leaves a doc string open if the number of its delimiters is odd;
* `colon` — a block keyword has its colon behind it;
* `parameter_start`, `parameter_name`, `parameter_end` — the tokens of a step parameter occur in their
  order, with their texts;
* `written` — white space is a run of spaces and tabs, a line break is one of three texts, a cell is
  trimmed and holds no bare pipe, and so on by class; no token is empty;
* `line` — no other token holds a character of a line break;
* `whitespace_apart` — two runs of spaces and tabs never meet;
* `cells_apart` — between two cells there is a pipe;
* `word` — a word behind an even number of delimiters holds no space and no tab. -/
structure Lexical (source : String) : Prop where
  keyword_iff (front word : List Char) (k : Keyword) :
    (∃ a t b, tokenize source = a ++ t :: b ∧ textOfTokens a = front ∧ t.kind = .keyword k ∧
      t.text.toList = word) ↔
      ∃ before indent rest after, front = before ++ indent ∧
        Heads source.toList k before indent word rest after
  doc_string : (HeadedLine.openBehind (lines source.toList)).isSome =
    decide (Builder.delimiters (tokenize source) % 2 = 1)
  colon {a b : List Token} {t : Token} {k : Keyword} (h : tokenize source = a ++ t :: b)
    (hkind : t.kind = .keyword k) (hblock : k.isStep = false) :
    ∃ u b', b = u :: b' ∧ u.kind = .colon ∧ u.text.toList = [':']
  parameter_start {a b : List Token} {s : Token} (h : tokenize source = a ++ s :: b)
    (hkind : s.kind = .parameterStart) : ∃ n e b', b = n :: e :: b' ∧ IsParameter s n e
  parameter_name {a b : List Token} {n : Token} (h : tokenize source = a ++ n :: b)
    (hkind : n.kind = .parameterName) : ∃ a' s e b', a = a' ++ [s] ∧ b = e :: b' ∧ IsParameter s n e
  parameter_end {a b : List Token} {e : Token} (h : tokenize source = a ++ e :: b)
    (hkind : e.kind = .parameterEnd) : ∃ a' s n, a = a' ++ [s, n] ∧ IsParameter s n e
  written {t : Token} (h : t ∈ tokenize source) :
    t.text.toList ≠ [] ∧ Spelled t.kind t.text.toList
  line {t : Token} (h : t ∈ tokenize source) (hkind : t.kind ≠ .newline) :
    ∀ c ∈ t.text.toList, isBreak c = false
  whitespace_apart {a b : List Token} {t u : Token} (h : tokenize source = a ++ t :: u :: b)
    (hkind : t.kind = .whitespace) : u.kind ≠ .whitespace
  cells_apart {a m b : List Token} {t u : Token} (h : tokenize source = a ++ t :: (m ++ u :: b))
    (hkind : t.kind = .tableCell) (hkind' : u.kind = .tableCell) : ∃ p ∈ m, p.kind = .pipe
  word {a b : List Token} {t : Token} (h : tokenize source = a ++ t :: b) (hkind : t.kind = .text)
    (heven : Builder.delimiters a % 2 = 0) : ∀ c ∈ t.text.toList, isIndent c = false

/-- A word outside doc strings holds no space and no tab. -/
theorem isIndent_of_word {source : String} {a b : List Token} {t : Token}
    (h : tokenize source = a ++ t :: b) (hkind : t.kind = .text)
    (heven : Builder.delimiters a % 2 = 0) : ∀ c ∈ t.text.toList, isIndent c = false := by
  obtain ⟨-, -, -, -, -, hwritten⟩ := spot_of_tokenize h
  refine hwritten.word hkind ?_
  have hdoc := Builder.inDocString_eq_behind source a.length
  rw [h, List.take_left, Builder.inDocString_foldl, heven] at hdoc
  exact Option.isSome_eq_false_iff.mp hdoc.symm |> Option.isNone_iff_eq_none.mp

/-- **`tokenize_lexical`** — no line begins with two entries of the table of keywords, so their order
does not count, and the tokens of every source are as `Lexical` says. -/
theorem tokenize_lexical :
    (∀ line, ∀ entry ∈ Keyword.spellings, ∀ entry' ∈ Keyword.spellings,
        Keyword.Matches entry line → Keyword.Matches entry' line → entry = entry') ∧
      (∀ table : List (String × Keyword), table.Perm Keyword.spellings →
        Token.keywordIn? table = Token.keywordAt?) ∧
      ∀ source, Lexical source := by
  refine ⟨fun line entry hmem entry' hmem' => Keyword.eq_of_matches hmem hmem',
    fun table => Token.keywordIn?_of_perm, fun source => ?_⟩
  constructor
  case keyword_iff => exact fun front word k => keyword_iff_heads
  case doc_string => exact isSome_openBehind source
  case parameter_start => exact isParameter_of_start
  case word => exact isIndent_of_word
  case colon =>
    intro a b t k h hkind hblock
    obtain ⟨spot, spot', -, hspot', hafter, -⟩ := spot_of_tokenize h
    rw [hkind] at hafter
    obtain rfl := Spot.eq_title_of_after hblock hafter
    rw [List.append_cons] at h
    obtain ⟨u, b', rfl⟩ := exists_next_token h hspot' (.inl rfl)
    obtain ⟨spot, _, hspot, -, hafter, hwritten⟩ := spot_of_tokenize h
    obtain rfl := Option.some.inj (hspot'.symm.trans hspot)
    have hcolon := Spot.after_title hafter
    have hspelled := hwritten.spelled
    rw [hcolon] at hspelled
    exact ⟨u, b', rfl, hcolon, hspelled⟩
  case parameter_name =>
    intro a b n h hkind
    obtain ⟨spot, _, hspot, -, hafter, -⟩ := spot_of_tokenize h
    rw [hkind] at hafter
    obtain rfl := Spot.of_after_parameterName hafter
    obtain ⟨a', s, rfl, hs⟩ := exists_start_of_behind hspot
    rw [List.append_assoc, List.singleton_append] at h
    obtain ⟨n', e, b', heq, hparameter⟩ := isParameter_of_start h hs
    obtain ⟨rfl, rfl⟩ := List.cons.inj heq
    exact ⟨a', s, e, b', rfl, rfl, hparameter⟩
  case parameter_end =>
    intro a b e h hkind
    obtain ⟨spot, _, hspot, -, hafter, -⟩ := spot_of_tokenize h
    rw [hkind] at hafter
    obtain rfl := Spot.of_after_parameterEnd hafter
    obtain ⟨a', s, n, rfl, hs⟩ := exists_name_of_behind hspot
    rw [List.append_assoc, List.cons_append, List.singleton_append] at h
    obtain ⟨n', e', b', heq, hparameter⟩ := isParameter_of_start h hs
    obtain ⟨rfl, htail⟩ := List.cons.inj heq
    obtain ⟨rfl, rfl⟩ := List.cons.inj htail
    exact ⟨a', s, n, rfl, hparameter⟩
  case written =>
    intro t ht
    obtain ⟨a, b, h⟩ := List.append_of_mem ht
    obtain ⟨-, -, -, -, -, hwritten⟩ := spot_of_tokenize h
    exact ⟨hwritten.ne_nil, hwritten.spelled⟩
  case line =>
    intro t ht
    obtain ⟨a, b, h⟩ := List.append_of_mem ht
    obtain ⟨-, -, -, -, -, hwritten⟩ := spot_of_tokenize h
    exact hwritten.line
  case whitespace_apart =>
    intro a b t u h hkind hkind'
    obtain ⟨spot, spot', -, hspot', hafter, -⟩ := spot_of_tokenize h
    rw [hkind] at hafter
    rw [List.append_cons] at h
    obtain ⟨spot₂, _, hspot, -, hafter', -⟩ := spot_of_tokenize h
    obtain rfl := Option.some.inj (hspot'.symm.trans hspot)
    rw [hkind', Spot.after_whitespace hafter] at hafter'
    cases hafter'
  case cells_apart =>
    intro a m b t u h hkind hkind'
    by_contra hnone
    obtain ⟨spot, spot', -, hspot', hafter, -⟩ := spot_of_tokenize h
    rw [hkind] at hafter
    rw [List.append_cons, ← List.append_assoc] at h
    obtain ⟨spot₂, _, hspot, -, hafter', -⟩ := spot_of_tokenize h
    rw [hkind'] at hafter'
    have hrow := isRow_of_behind_append hspot' (Spot.of_after_cell hafter).2 hspot
      fun p hp hpipe => hnone ⟨p, hp, hpipe⟩
    rw [(Spot.of_after_cell hafter').1] at hrow
    cases hrow

end FeatureFile
