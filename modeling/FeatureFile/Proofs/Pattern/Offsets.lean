/-
# FeatureFile.Proofs.Pattern.Offsets — scanners that count bytes

The scanners of brace expressions return what is left of a text. Here they are once more as scanners
that return a number: how far into a text optional text or the words of an alternation go, each
character counted with its bytes (`optionalSpan?`, `alternativesSpan`), and where in a pattern a
placeholder ends, found by a walk over the bytes of the whole pattern (`Placeholder.readAt`).

Main statements: the number is in each case the length of what is taken, so what is left stands just
there (`optionalSpan?_eq`, `alternativesSpan_eq`, `readAt_eq`).
-/

import FeatureFile.Proofs.Pattern.Braces
import FeatureFile.Proofs.Pattern.Grammar
import FeatureFile.Proofs.Text.Octets

namespace FeatureFile

open Text (byteLength bytes scan spent standsAt SeesAscii)

/-! ## §A Placeholders -/

namespace Placeholder

/-- The offset of the brace that closes a text, given how many inner braces are open and the bytes that
stand from an offset on. -/
def closingAt? : Nat → Nat → List UInt8 → Option Nat
  | _, _, [] => none
  | depth, n, b :: bs =>
    if Char.ofUInt8 b = '{' then closingAt? (depth + 1) (n + 1) bs
    else if Char.ofUInt8 b = '}' then
      match depth with
      | 0 => some n
      | depth + 1 => closingAt? depth (n + 1) bs
    else closingAt? depth (n + 1) bs

/-- The hint that stands from an offset on, and the offset where it ends. -/
def hintAt (pattern : List Char) (start : Nat) (name : String) (n : Nat) :
    Except PatternError (String × Nat) :=
  let stop := scan (· != '}') (bytes pattern) n
  let hint := Text.slice n stop pattern
  if hint.isEmpty || !hint.all isHintChar then .error (.placeholder .invalid start (some name))
  else .ok (String.ofList hint, stop)

/-- Behind a name and blanks: the hint, if there is one, and the offset where the closing brace must
stand. -/
def bodyAt (pattern : List Char) (start : Nat) (name : String) (n : Nat) :
    Except PatternError (Option String × Nat) :=
  if standsAt (· == ':') (bytes pattern) n then
    (hintAt pattern start name (n + 1)).map fun (hint, stop) => (some hint, stop)
  else
    match closingAt? 0 n ((bytes pattern).drop n) with
    | some stop => .ok (none, stop)
    | none => .error (.placeholder .unclosed start (some name))

/-- The placeholder whose closing brace must stand at an offset, and the offset behind that brace. -/
def closeAt (pattern : List Char) (start : Nat) (name : String) :
    Option String × Nat → Except PatternError (Placeholder × Nat)
  | (hint, n) =>
    if standsAt (· == '}') (bytes pattern) n then .ok (⟨start, name, hint⟩, n + 1)
    else .error (.placeholder .unclosed start (some name))

/-- Behind a name that ends at an offset: the placeholder, and the offset behind its closing brace. -/
def behindNameAt (pattern : List Char) (start : Nat) (name : String) (n : Nat) :
    Except PatternError (Placeholder × Nat) :=
  let body := scan isAsciiBlank (bytes pattern) n
  if standsAt isAsciiBlank (bytes pattern) n &&
      standsAt (fun c => c == ':' || c == '}') (bytes pattern) body then
    .error (.placeholder .invalid start (some name))
  else (bodyAt pattern start name body).bind (closeAt pattern start name)

/-- **`readAt pattern start`** — the placeholder whose opening brace stands at an offset of a pattern,
and the offset behind its closing brace. -/
def readAt (pattern : List Char) (start : Nat) : Except PatternError (Placeholder × Nat) :=
  let stop := scan isNameChar (bytes pattern) (start + 1)
  behindNameAt pattern start (String.ofList (Text.slice (start + 1) stop pattern)) stop

theorem seesAscii_isNameChar : SeesAscii isNameChar := by
  apply Text.seesAscii_of_lt
  intro c hc
  have hle : c.val ≤ 'z'.val := by
    rcases Bool.or_eq_true_iff.mp hc with halphanum | hunderscore
    · rcases Bool.or_eq_true_iff.mp halphanum with halpha | hdigit
      · rcases Bool.or_eq_true_iff.mp halpha with hupper | hlower
        · exact UInt32.le_trans (of_decide_eq_true hupper).2 (by decide)
        · exact of_decide_eq_true (Bool.and_eq_true_iff.mp hlower).2
      · exact UInt32.le_trans (of_decide_eq_true (Bool.and_eq_true_iff.mp hdigit).2) (by decide)
    · rw [eq_of_beq hunderscore]
      decide
  exact Nat.lt_of_le_of_lt (UInt32.le_iff_toNat_le.mp hle) (by decide)

theorem seesAscii_isAsciiBlank : SeesAscii isAsciiBlank := by
  apply Text.seesAscii_of_lt
  intro c hc
  simp only [isAsciiBlank, Bool.or_eq_true, beq_iff_eq] at hc
  rcases hc with (((rfl | rfl) | rfl) | rfl) | rfl <;> decide

theorem seesAscii_colonOrBrace : SeesAscii fun c => c == ':' || c == '}' := by
  apply Text.seesAscii_of_lt
  intro c hc
  simp only [Bool.or_eq_true, beq_iff_eq] at hc
  rcases hc with rfl | rfl <;> decide

theorem suffix_of_afterClosing {depth : Nat} {cs rest : List Char}
    (h : afterClosing depth cs = some rest) : rest <:+ cs := by
  obtain ⟨body, rfl⟩ := exists_of_afterClosing h
  exact ⟨body ++ ['}'], by simp⟩

/-- Bytes that are no braces are passed over. -/
theorem closingAt?_append {bs : List UInt8} (more : List UInt8) (depth n : Nat)
    (h : ∀ b ∈ bs, Char.ofUInt8 b ≠ '{' ∧ Char.ofUInt8 b ≠ '}') :
    closingAt? depth n (bs ++ more) = closingAt? depth (n + bs.length) more := by
  induction bs generalizing n with
  | nil => rfl
  | cons b bs ih =>
    obtain ⟨⟨hopen, hclose⟩, hbs⟩ := List.forall_mem_cons.mp h
    have hnext : closingAt? depth n (b :: bs ++ more) = closingAt? depth (n + 1) (bs ++ more) := by
      rw [List.cons_append, closingAt?.eq_def]
      simp only [if_neg hopen, if_neg hclose]
    rw [hnext, ih (n + 1) hbs, List.length_cons, Nat.add_assoc, Nat.add_comm 1]

/-- **The brace that closes** is found where it stands among the characters. -/
theorem closingAt?_bytes (depth n : Nat) (cs : List Char) :
    (closingAt? depth n (bytes cs)).map (· + 1) =
      (afterClosing depth cs).map fun rest => n + spent cs rest := by
  -- One more character in front moves every offset by its size.
  have hcons {depth m : Nat} (c : Char) (cs : List Char) :
      ((afterClosing depth cs).map fun rest => m + c.utf8Size + spent cs rest) =
        (afterClosing depth cs).map fun rest => m + spent (c :: cs) rest := by
    refine Option.map_congr fun rest hrest => ?_
    rw [Text.spent_cons c (suffix_of_afterClosing hrest), Nat.add_assoc]
  fun_induction afterClosing depth cs generalizing n with
  | case1 => rfl
  | case2 depth cs ih => exact (ih (n + 1)).trans (hcons '{' cs)
  | case3 cs =>
    rw [Option.map_some, Text.spent_cons '}' List.suffix_rfl, Text.spent_self]
    rfl
  | case4 depth cs ih => exact (ih (n + 1)).trans (hcons '}' cs)
  | case5 depth c cs hopen hclose hclose' ih =>
    have hne : c ≠ '{' ∧ c ≠ '}' := by
      refine ⟨hopen, ?_⟩
      rintro rfl
      cases depth with
      | zero => exact hclose rfl rfl
      | succ depth => exact hclose' depth rfl rfl
    have hbytes : ∀ b ∈ String.utf8EncodeChar c, Char.ofUInt8 b ≠ '{' ∧ Char.ofUInt8 b ≠ '}' := by
      intro b hb
      have hq {x : Char} (hx : x.toNat < 0x80) : (Char.ofUInt8 b == x) = (c == x) :=
        (Text.seesAscii_beq hx).eq_of_mem hb
      constructor <;> apply ne_of_beq_false
      · rw [hq (by decide)]
        exact beq_false_of_ne hne.1
      · rw [hq (by decide)]
        exact beq_false_of_ne hne.2
    rw [Text.bytes_cons, closingAt?_append _ _ _ hbytes, String.length_utf8EncodeChar, ih]
    exact hcons c cs

section Body

variable (start : Nat) (name : String) (a : List Char)

theorem hintAt_append (b : List Char) :
    hintAt (a ++ b) start name (byteLength a) =
      if (b.takeWhile (· != '}')).isEmpty || !(b.takeWhile (· != '}')).all isHintChar then
        .error (.placeholder .invalid start (some name))
      else .ok (String.ofList (b.takeWhile (· != '}')), byteLength (a ++ b.takeWhile (· != '}'))) := by
  have hsees : SeesAscii (· != '}') := fun c d hc hd =>
    congrArg (!·) (Text.seesAscii_beq (by decide) c d hc hd)
  rw [hintAt, Text.scan_append hsees, Text.slice_takeWhile]

/-- Behind an inside that a brace closes. -/
theorem closeAt_brace (hint : Option String) (inside rest : List Char) :
    closeAt (a ++ (inside ++ '}' :: rest)) start name (hint, byteLength (a ++ inside)) =
      .ok (⟨start, name, hint⟩, spent (a ++ (inside ++ '}' :: rest)) rest) := by
  have hspent : spent ((a ++ inside) ++ '}' :: rest) rest = byteLength (a ++ inside) + 1 := by
    have hspent := Text.spent_append (a ++ inside ++ ['}']) rest
    rwa [List.append_assoc _ ['}'], Text.byteLength_append _ ['}']] at hspent
  rw [closeAt, ← List.append_assoc, Text.standsAt_append (Text.seesAscii_beq (by decide)), hspent]
  rfl

theorem closeAt_end (hint : Option String) :
    closeAt a start name (hint, byteLength a) =
      .error (.placeholder .unclosed start (some name)) := by
  have hend := Text.standsAt_append (q := (· == '}')) (Text.seesAscii_beq (by decide)) a []
  rw [List.append_nil] at hend
  rw [closeAt, hend]
  rfl

/-- Behind a colon a hint is read. -/
theorem bodyAt_colon (rest : List Char) :
    (bodyAt (a ++ ':' :: rest) start name (byteLength a)).bind
        (closeAt (a ++ ':' :: rest) start name) =
      (readHint start name rest).map fun (hint, after) =>
        (⟨start, name, some hint⟩, spent (a ++ ':' :: rest) after) := by
  have hcolon : standsAt (· == ':') (bytes (a ++ ':' :: rest)) (byteLength a) = true :=
    Text.standsAt_append (Text.seesAscii_beq (by decide)) a (':' :: rest)
  have hbehind : byteLength a + 1 = byteLength (a ++ [':']) := by
    rw [Text.byteLength_append]
    rfl
  have hpattern : a ++ ':' :: rest = (a ++ [':']) ++ rest := by simp
  rw [bodyAt, if_pos hcolon, hpattern, hbehind, hintAt_append, readHint]
  simp only
  split
  · rfl
  · -- What stands behind the hint is a closing brace or nothing.
    have hstop := List.head?_dropWhile_not (· != '}') rest
    have hrest := List.takeWhile_append_dropWhile (p := (· != '}')) (l := rest)
    rw [Except.map, Except.bind]
    cases hdrop : rest.dropWhile (· != '}') with
    | nil =>
      rw [hdrop, List.append_nil] at hrest
      rw [hrest, closeAt_end]
      rfl
    | cons c after =>
      rw [hdrop] at hstop hrest
      obtain rfl : c = '}' := by simpa using hstop
      have hclose := closeAt_brace start name (a ++ [':'])
        (some (String.ofList (rest.takeWhile (· != '}')))) (rest.takeWhile (· != '}')) after
      rw [hrest] at hclose
      exact hclose

/-- Without a colon the brace that closes is looked for. -/
theorem bodyAt_balanced {b : List Char} (h : b.head? ≠ some ':') :
    (bodyAt (a ++ b) start name (byteLength a)).bind (closeAt (a ++ b) start name) =
      match afterClosing 0 b with
      | some rest => .ok (⟨start, name, none⟩, spent (a ++ b) rest)
      | none => .error (.placeholder .unclosed start (some name)) := by
  have hcolon : standsAt (· == ':') (bytes (a ++ b)) (byteLength a) = false := by
    rw [Text.standsAt_append (Text.seesAscii_beq (by decide))]
    cases b with
    | nil => rfl
    | cons c b => exact beq_false_of_ne fun hc => h (congrArg some hc)
  have hclosing := closingAt?_bytes 0 (byteLength a) b
  rw [bodyAt, if_neg (by simp [hcolon]), Text.drop_bytes]
  cases hafter : afterClosing 0 b with
  | none =>
    rw [hafter, Option.map_none, Option.map_eq_none_iff] at hclosing
    rw [hclosing]
    rfl
  | some rest =>
    rw [hafter, Option.map_some] at hclosing
    obtain ⟨n, hn, hstop⟩ := Option.map_eq_some_iff.mp hclosing
    obtain ⟨inside, rfl⟩ := exists_of_afterClosing hafter
    obtain rfl : n = byteLength (a ++ inside) := by
      have hspent := Text.spent_append (inside ++ ['}']) rest
      rw [List.append_assoc, List.singleton_append, Text.byteLength_append] at hspent
      rw [hspent] at hstop
      rw [Text.byteLength_append]
      exact Nat.succ.inj hstop
    rw [hn]
    exact closeAt_brace start name a none inside rest

/-- What is read behind a name. -/
theorem behindNameAt_append (r : List Char) :
    behindNameAt (a ++ r) start name (byteLength a) =
      Except.map (fun (found : Placeholder × List Char) => (found.1, spent (a ++ r) found.2))
        (if misplacesBlank r then .error (.placeholder .invalid start (some name))
        else
          match r.dropWhile isAsciiBlank with
          | ':' :: rest =>
            (readHint start name rest).map fun (hint, rest) => (⟨start, name, some hint⟩, rest)
          | body =>
            match afterClosing 0 body with
            | some rest => .ok (⟨start, name, none⟩, rest)
            | none => .error (.placeholder .unclosed start (some name))) := by
  have hsplit : a ++ r = (a ++ r.takeWhile isAsciiBlank) ++ r.dropWhile isAsciiBlank := by
    rw [List.append_assoc, List.takeWhile_append_dropWhile]
  have hclear : (standsAt isAsciiBlank (bytes (a ++ r)) (byteLength a) &&
      standsAt (fun c => c == ':' || c == '}') (bytes (a ++ r))
        (byteLength (a ++ r.takeWhile isAsciiBlank))) = misplacesBlank r := by
    rw [misplacesBlank, Text.standsAt_append seesAscii_isAsciiBlank]
    nth_rewrite 1 [hsplit]
    rw [Text.standsAt_append seesAscii_colonOrBrace]
  simp only [behindNameAt, Text.scan_append seesAscii_isAsciiBlank, hclear]
  split
  · rfl
  rw [hsplit]
  split
  · rename_i rest hcolon
    rw [hcolon, bodyAt_colon]
    cases readHint start name rest <;> rfl
  · rename_i hcolon
    rw [bodyAt_balanced start name _ (Piece.head?_ne_of_cons hcolon)]
    cases afterClosing 0 (r.dropWhile isAsciiBlank) <;> rfl

end Body

/-- **`readAt_eq`** — by its bytes the placeholder is read that is read by its characters, and it ends
where what is left begins. -/
theorem readAt_eq (before cs : List Char) :
    readAt (before ++ '{' :: cs) (byteLength before) =
      (read (byteLength before) cs).map fun (p, rest) =>
        (p, spent (before ++ '{' :: cs) rest) := by
  have hopen : byteLength before + 1 = byteLength (before ++ ['{']) := by
    rw [Text.byteLength_append]
    rfl
  have hbrace : before ++ '{' :: cs = (before ++ ['{']) ++ cs := by simp
  have hname : (before ++ ['{']) ++ cs =
      ((before ++ ['{']) ++ cs.takeWhile isNameChar) ++ cs.dropWhile isNameChar := by
    rw [List.append_assoc _ (cs.takeWhile _), List.takeWhile_append_dropWhile]
  rw [readAt, hopen, hbrace]
  simp only [Text.scan_append seesAscii_isNameChar, Text.slice_takeWhile]
  rw [hname, behindNameAt_append]
  exact congrArg _ (read_eq (byteLength before) cs).symm

end Placeholder

/-! ## §B Optional text and alternations -/

namespace Piece

/-- The text behind an opening parenthesis, and how many bytes are read up to the end of the closing
one, given how many stand in front. -/
def optionalSpan? : Nat → List Char → Option (List Char × Nat)
  | _, [] => none
  | _, ['\\'] => none
  | n, '\\' :: c :: rest =>
    (optionalSpan? (n + 1 + c.utf8Size) rest).map fun (text, stop) => (c :: text, stop)
  | n, ')' :: _ => some ([], n + 1)
  | n, c :: rest =>
    if c == '(' || c == '{' || c == '}' then none
    else (optionalSpan? (n + c.utf8Size) rest).map fun (text, stop) => (c :: text, stop)

/-- The words behind the first slash of an alternation, and how many bytes are read up to their end,
given how many stand in front. -/
def alternativesSpan : Nat → List Char → List (List Char) × Nat
  | n, [] => ([[]], n)
  | n, ['\\'] => ([[]], n + 1)
  | n, '\\' :: c :: rest =>
    let r := alternativesSpan (n + 1 + c.utf8Size) rest
    (pushWord c r.1, r.2)
  | n, '/' :: rest =>
    let r := alternativesSpan (n + 1) rest
    ([] :: r.1, r.2)
  | n, c :: rest =>
    if endsWords c then ([[]], n)
    else
      let r := alternativesSpan (n + c.utf8Size) rest
      (pushWord c r.1, r.2)

/-- **`optionalSpan?_eq`** — optional text is counted up to what is left behind it. -/
theorem optionalSpan?_eq (n : Nat) (cs : List Char) :
    optionalSpan? n cs =
      (optionalText cs).map fun (text, rest) => (text, n + spent cs rest) := by
  -- What is written in front of a text counts, and a character of it is kept.
  have hcons (n : Nat) (front : List Char) (c : Char) (cs : List Char) :
      ((optionalText cs).map fun (text, rest) => (text, n + byteLength front + spent cs rest)).map
          (fun (text, stop) => (c :: text, stop)) =
        ((optionalText cs).map fun (text, rest) => (c :: text, rest)).map
          fun (text, rest) => (text, n + spent (front ++ cs) rest) := by
    rw [Option.map_map, Option.map_map]
    refine Option.map_congr fun (text, rest) hrest => ?_
    show (c :: text, n + byteLength front + spent cs rest) =
      (c :: text, n + spent (front ++ cs) rest)
    rw [Text.spent_append_left front (suffix_of_optionalText hrest), Nat.add_assoc]
  fun_induction optionalText cs generalizing n with
  | case1 => rfl
  | case2 => rfl
  | case3 c cs ih =>
    rw [optionalSpan?, Nat.add_assoc, ih]
    exact hcons n ['\\', c] c cs
  | case4 cs =>
    have hspent := Text.spent_append [')'] cs
    rw [optionalSpan?, Option.map_some]
    exact congrArg (fun k => some ([], n + k)) hspent.symm
  | case5 c cs hend hescape hclose hc =>
    rw [optionalSpan?.eq_5 n c cs hend hescape hclose, if_pos hc]
    rfl
  | case6 c cs hend hescape hclose hc ih =>
    rw [optionalSpan?.eq_5 n c cs hend hescape hclose, if_neg hc, ih]
    exact hcons n [c] c cs

/-- **`alternativesSpan_eq`** — words are counted up to what is left behind them. -/
theorem alternativesSpan_eq (n : Nat) (cs : List Char) :
    alternativesSpan n cs = ((alternatives cs).1, n + spent cs (alternatives cs).2) := by
  -- What is written in front of the words counts.
  have hfront (front cs : List Char) (n : Nat) :
      n + byteLength front + spent cs (alternatives cs).2 =
        n + spent (front ++ cs) (alternatives cs).2 := by
    rw [Text.spent_append_left front (suffix_alternatives cs), Nat.add_assoc]
  fun_induction alternatives cs generalizing n with
  | case1 => rfl
  | case2 => rfl
  | case3 c cs r ih =>
    rw [alternativesSpan, Nat.add_assoc, ih]
    exact congrArg (Prod.mk _) (hfront ['\\', c] cs n)
  | case4 cs r ih =>
    rw [alternativesSpan, ih]
    exact congrArg (Prod.mk _) (hfront ['/'] cs n)
  | case5 c cs hend hescape hbar hc =>
    rw [alternativesSpan.eq_5 n c cs hend hescape hbar, if_pos hc, Text.spent_self]
    rfl
  | case6 c cs hend hescape hbar hc r ih =>
    rw [alternativesSpan.eq_5 n c cs hend hescape hbar, if_neg hc, ih]
    exact congrArg (Prod.mk _) (hfront [c] cs n)

end Piece

end FeatureFile
