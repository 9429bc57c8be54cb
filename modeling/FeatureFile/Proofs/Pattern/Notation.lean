/-
# FeatureFile.Proofs.Pattern.Notation — one score for two notations

A brace expression is scored by its pieces and a regular expression by its characters. Written as a
regular expression, a literal character is one character or one behind a backslash, and either is
scanned as one literal (`ofRegex_escape_singleton`); a placeholder is a parenthesis with operators
and classes behind it, and is scanned as one placeholder. So the scan keeps in step with the parts of
a source, whatever its literals are (`ofRegex_chunks`).

⚠ This holds of literals, braces and the placeholders of two fragments. Optional texts and
alternations are written with a colon, which is scanned as a literal, and the fragments of other
types hold literals of their own. Main statement: `notations_agree`.
-/

import FeatureFile.Pattern
import FeatureFile.Proofs.Pattern.Rank

namespace FeatureFile

namespace Specificity

/-! ## §A The scan of a character -/

theorem ofRegex_escaped (c : Char) (rest : List Char) :
    ofRegex ('\\' :: c :: rest) =
      add { literals := if c.isAlphanum then 0 else 1 } (ofRegex rest) := by
  rw [ofRegex]

/-- A character that neither escapes nor opens is scanned by itself. -/
theorem ofRegex_cons {c : Char} (hslash : c ≠ '\\') (hopen : c ≠ '(') (rest : List Char) :
    ofRegex (c :: rest) = add { literals := if isOperator c then 0 else 1 } (ofRegex rest) :=
  ofRegex.eq_5 c rest (fun h _ => hslash h) (fun _ _ h _ => hslash h) hopen

theorem isAlphanum_of_isMeta {c : Char} (h : isMeta c = true) : c.isAlphanum = false := by
  have hall : ("\\.+*?()|[]\x7b\x7d^$#&-~".toList.all fun c => !c.isAlphanum) = true := by decide
  simpa using List.all_eq_true.mp hall c (List.contains_iff_mem.mp h)

theorem isMeta_of_isOperator {c : Char} (h : isOperator c = true) : isMeta c = true := by
  have hall : (".^$*+?)[]\x7b\x7d|".toList.all isMeta) = true := by decide
  exact List.all_eq_true.mp hall c (List.contains_iff_mem.mp h)

/-- **`ofRegex_escape_singleton`** — an escaped character is scanned as one literal, whichever
character it is. -/
theorem ofRegex_escape_singleton (c : Char) (rest : List Char) :
    ofRegex (escape [c] ++ rest) = add { literals := 1 } (ofRegex rest) := by
  rw [escape_singleton]
  split
  · rename_i hmeta
    rw [List.cons_append, List.cons_append, List.nil_append, ofRegex_escaped,
      isAlphanum_of_isMeta hmeta]
    rfl
  · rename_i hmeta
    have hslash : c ≠ '\\' := fun h => hmeta (h ▸ rfl)
    have hopen : c ≠ '(' := fun h => hmeta (h ▸ rfl)
    have hoperator : ¬isOperator c = true := fun h => hmeta (isMeta_of_isOperator h)
    rw [List.cons_append, List.nil_append, ofRegex_cons hslash hopen, if_neg hoperator]

end Specificity

/-! ## §B The scan of a source -/

/-- **`chunk.IsSimple`** — a part of a source is a character, or a group of any text or of digits. -/
def Chunk.IsSimple : Chunk → Prop
  | char _ => True
  | group fragment => fragment = ".+?" ∨ fragment = "\\d+"
  | optional _ | choice _ => False

/-- **`p.IsSimple`** — a piece is literal text, a brace, or a placeholder for any text or for
digits. -/
def Piece.IsSimple : Piece → Prop
  | literal _ | openBrace _ | closeBrace _ => True
  | placeholder p => p.fragment = ".+?".toList ∨ p.fragment = "\\d+".toList
  | optional _ | alternation _ => False

instance : (p : Piece) → Decidable p.IsSimple
  | .literal _ | .openBrace _ | .closeBrace _ => isTrue trivial
  | .placeholder p =>
    inferInstanceAs (Decidable (p.fragment = ".+?".toList ∨ p.fragment = "\\d+".toList))
  | .optional _ | .alternation _ => isFalse id

theorem Piece.IsSimple.chunks {p : Piece} (h : p.IsSimple) :
    ∀ chunk ∈ p.chunks, chunk.IsSimple := by
  cases p with
  | literal text =>
    intro chunk hchunk
    obtain ⟨c, -, rfl⟩ := List.mem_map.mp hchunk
    trivial
  | placeholder p =>
    exact List.forall_mem_singleton.mpr (h.imp String.toList_inj.mp String.toList_inj.mp)
  | openBrace | closeBrace => exact List.forall_mem_singleton.mpr trivial
  | optional | alternation => exact h.elim

namespace Specificity

/-- A group of any text or of digits is scanned as one placeholder. -/
theorem ofRegex_group {fragment : String} (h : fragment = ".+?" ∨ fragment = "\\d+")
    (rest : List Char) :
    ofRegex ((Chunk.group fragment).source ++ rest) = add { placeholders := 1 } (ofRegex rest) := by
  rw [Chunk.group_append]
  rcases h with rfl | rfl <;> simp [ofRegex, isOperator, add]

/-- **`ofRegex_chunks`** — simple parts are scanned as what they count for. -/
theorem ofRegex_chunks {chunks : List Chunk} (h : ∀ chunk ∈ chunks, chunk.IsSimple)
    (rest : List Char) :
    ofRegex (chunks.flatMap Chunk.source ++ rest) =
      add { literals := Chunk.literalsOf chunks, placeholders := chunks.countP Chunk.isGroup }
        (ofRegex rest) := by
  induction chunks with
  | nil => simp [add, Chunk.literalsOf]
  | cons chunk chunks ih =>
    obtain ⟨hchunk, hchunks⟩ := List.forall_mem_cons.mp h
    have hscan : ofRegex (chunk.source ++ (chunks.flatMap Chunk.source ++ rest)) =
        add { literals := chunk.literals, placeholders := if chunk.isGroup then 1 else 0 }
          (ofRegex (chunks.flatMap Chunk.source ++ rest)) := by
      cases chunk with
      | char c => exact ofRegex_escape_singleton c _
      | group fragment => exact ofRegex_group hchunk _
      | optional | choice => exact hchunk.elim
    rw [List.flatMap_cons, List.append_assoc, hscan, ih hchunks, Chunk.literalsOf, List.countP_cons]
    simp only [add, mk.injEq]
    omega

/-! ## §C Two notations -/

/-- **`notations_agree`** — a brace expression of literals, braces and placeholders for any text or
for digits has as many literal characters and placeholders as the regular expression that it is
written as. -/
theorem notations_agree {pattern source : List Char} {pieces : List Piece}
    (hlex : Piece.lex pattern = .ok pieces) (hsimple : ∀ p ∈ pieces, p.IsSimple)
    (hsource : expressionSource pattern = .ok source) :
    ∃ score raw, ofExpression pattern = .ok score ∧
      (StepPattern.regex (String.ofList source)).specificity = .ok raw ∧
      raw.literals = score.literals ∧ raw.placeholders = score.placeholders := by
  obtain ⟨pieces', hlex', rfl, -⟩ := Piece.exists_chunks hsource
  obtain rfl : pieces = pieces' := Except.ok.inj (hlex.symm.trans hlex')
  have hchunks : ∀ chunk ∈ pieces.flatMap Piece.chunks, chunk.IsSimple := by
    intro chunk hchunk
    obtain ⟨p, hp, hmem⟩ := List.mem_flatMap.mp hchunk
    exact (hsimple p hp).chunks chunk hmem
  refine ⟨_, _, ofExpression_of_lex hlex, congrArg (Except.ok ∘ ofRegex) String.toList_ofList, ?_⟩
  -- The anchors at the two ends count for nothing.
  rw [List.cons_append, ofRegex_cons (by decide) (by decide), ofRegex_chunks hchunks]
  exact ⟨Nat.zero_add _, Nat.zero_add _⟩

/-- A lone brace, an escaped parenthesis and a backslash behind a character beyond ASCII. -/
theorem notations_agree_braces :
    ∃ pieces, Piece.lex "5$ \x7b \x7bn:u8\x7d \\(é\\\\\x7bx\x7d \x7d".toList = .ok pieces ∧
      (∀ p ∈ pieces, p.IsSimple) ∧
      expressionSource "5$ \x7b \x7bn:u8\x7d \\(é\\\\\x7bx\x7d \x7d".toList =
        .ok "^5\\$ \\\x7b (\\d+) \\(é\\\\(.+?) \\\x7d$".toList ∧
      ∃ score raw,
        ofExpression "5$ \x7b \x7bn:u8\x7d \\(é\\\\\x7bx\x7d \x7d".toList = .ok score ∧
        (StepPattern.regex (String.ofList
          "^5\\$ \\\x7b (\\d+) \\(é\\\\(.+?) \\\x7d$".toList)).specificity = .ok raw ∧
        raw.literals = score.literals ∧ raw.placeholders = score.placeholders := by
  have hlex : Piece.lex "5$ \x7b \x7bn:u8\x7d \\(é\\\\\x7bx\x7d \x7d".toList =
      .ok [.literal "5$ ".toList, .openBrace 3, .literal [' '],
        .placeholder ⟨5, "n", some "u8"⟩, .literal " (é\\".toList,
        .placeholder ⟨18, "x", none⟩, .literal [' '], .closeBrace 22] := by
    decide +kernel
  have hsimple : ∀ p ∈ [Piece.literal "5$ ".toList, .openBrace 3, .literal [' '],
      .placeholder ⟨5, "n", some "u8"⟩, .literal " (é\\".toList,
      .placeholder ⟨18, "x", none⟩, .literal [' '], .closeBrace 22], p.IsSimple := by
    decide
  have hsource : expressionSource "5$ \x7b \x7bn:u8\x7d \\(é\\\\\x7bx\x7d \x7d".toList =
      .ok "^5\\$ \\\x7b (\\d+) \\(é\\\\(.+?) \\\x7d$".toList := by
    decide +kernel
  exact ⟨_, hlex, hsimple, hsource, notations_agree hlex hsimple hsource⟩

end Specificity

end FeatureFile
