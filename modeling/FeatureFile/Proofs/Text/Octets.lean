/-
# FeatureFile.Proofs.Text.Octets — walking over the bytes of a text

Some scanners walk over the bytes of a text and not over its characters. They look for ASCII only, and
no byte of a longer character can be taken for ASCII. So a class of characters that does not tell apart
what lies beyond ASCII (`SeesAscii`) stops a walk over the bytes of a text where it stops one over its
characters (`takeWhile_bytes`), and the offset that such a walk ends at is that of a character
(`scan_append`).
-/

import FeatureFile.Proofs.Text.Cuts

namespace FeatureFile.Text

/-! ## §A Bytes -/

/-- The bytes of a text in UTF-8. -/
def bytes (cs : List Char) : List UInt8 := cs.flatMap String.utf8EncodeChar

theorem bytes_cons (c : Char) (cs : List Char) :
    bytes (c :: cs) = String.utf8EncodeChar c ++ bytes cs :=
  List.flatMap_cons

theorem bytes_append (a b : List Char) : bytes (a ++ b) = bytes a ++ bytes b :=
  List.flatMap_append

@[simp] theorem length_bytes (cs : List Char) : (bytes cs).length = byteLength cs := by
  induction cs with
  | nil => rfl
  | cons c cs ih => rw [bytes_cons, List.length_append, String.length_utf8EncodeChar, ih, byteLength]

/-- The bytes behind a beginning of a text are those of the rest. -/
theorem drop_bytes (a b : List Char) : (bytes (a ++ b)).drop (byteLength a) = bytes b := by
  rw [bytes_append, ← length_bytes a]
  exact List.drop_left

theorem toNat_ofUInt8 (b : UInt8) : (Char.ofUInt8 b).toNat = b.toNat := by
  show b.toUInt32.toNat = b.toNat
  exact UInt8.toNat_toUInt32 b

/-- A byte of a character is that character in ASCII, and else no ASCII either. -/
theorem ofUInt8_of_mem {c : Char} {b : UInt8} (h : b ∈ String.utf8EncodeChar c) :
    Char.ofUInt8 b = c ∨ 0x80 ≤ (Char.ofUInt8 b).toNat ∧ 0x80 ≤ c.toNat := by
  have hval : c.toNat = c.val.toNat := rfl
  have hlead (n k : Nat) (hk : 0x80 ≤ k) (hlt : n + k < 256) : 0x80 ≤ (UInt8.ofNat (n + k)).toNat := by
    rw [UInt8.toNat_ofNat', Nat.mod_eq_of_lt hlt]
    omega
  rw [toNat_ofUInt8]
  unfold String.utf8EncodeChar at h
  simp only at h
  split at h
  · rename_i hle
    left
    obtain rfl := List.mem_singleton.mp h
    apply Char.ext
    apply UInt32.toNat_inj.mp
    show (UInt8.ofNat c.val.toNat).toUInt32.toNat = c.val.toNat
    rw [UInt8.toNat_toUInt32, UInt8.toNat_ofNat', Nat.mod_eq_of_lt (by omega)]
  · right
    refine ⟨?_, by omega⟩
    split at h
    · simp only [List.mem_cons, List.not_mem_nil, or_false] at h
      rcases h with rfl | rfl <;> exact hlead _ _ (by decide) (by omega)
    split at h <;> simp only [List.mem_cons, List.not_mem_nil, or_false] at h
    · rcases h with rfl | rfl | rfl <;> exact hlead _ _ (by decide) (by omega)
    · rcases h with rfl | rfl | rfl | rfl <;> exact hlead _ _ (by decide) (by omega)

/-! ## §B Classes of ASCII -/

/-- **`SeesAscii q`** — a class of characters does not tell apart those beyond ASCII. -/
def SeesAscii (q : Char → Bool) : Prop :=
  ∀ c d : Char, 0x80 ≤ c.toNat → 0x80 ≤ d.toNat → q c = q d

/-- A class all of whose characters are ASCII. -/
theorem seesAscii_of_lt {q : Char → Bool} (h : ∀ c, q c = true → c.toNat < 0x80) : SeesAscii q := by
  have hfalse {c : Char} (hc : 0x80 ≤ c.toNat) : q c = false := by
    by_contra hq
    have := h c (Bool.not_eq_false _ ▸ hq)
    omega
  intro c d hc hd
  rw [hfalse hc, hfalse hd]

theorem seesAscii_beq {x : Char} (hx : x.toNat < 0x80) : SeesAscii (· == x) := by
  apply seesAscii_of_lt
  intro c hc
  rwa [eq_of_beq hc]

variable {q : Char → Bool}

theorem SeesAscii.eq_of_mem (hq : SeesAscii q) {c : Char} {b : UInt8}
    (h : b ∈ String.utf8EncodeChar c) : q (Char.ofUInt8 b) = q c := by
  rcases ofUInt8_of_mem h with hc | ⟨hb, hc⟩
  · rw [hc]
  · exact hq _ _ hb hc

/-- What stands first among the bytes of a text. -/
theorem any_head?_bytes (hq : SeesAscii q) (cs : List Char) :
    ((bytes cs).head?.any fun b => q (Char.ofUInt8 b)) = cs.head?.any q := by
  cases cs with
  | nil => rfl
  | cons c cs =>
    obtain ⟨b, more, hb⟩ := List.exists_cons_of_ne_nil (String.utf8EncodeChar_ne_nil (c := c))
    rw [bytes_cons, hb]
    exact hq.eq_of_mem (hb ▸ List.mem_cons_self)

/-- **A walk over bytes** goes as far as one over characters. -/
theorem takeWhile_bytes (hq : SeesAscii q) (cs : List Char) :
    ((bytes cs).takeWhile fun b => q (Char.ofUInt8 b)) = bytes (cs.takeWhile q) := by
  induction cs with
  | nil => rfl
  | cons c cs ih =>
    cases hc : q c with
    | true =>
      have hall : ∀ b ∈ String.utf8EncodeChar c, q (Char.ofUInt8 b) = true :=
        fun b hb => (hq.eq_of_mem hb).trans hc
      rw [bytes_cons, List.takeWhile_append_of_pos hall, ih, List.takeWhile_cons_of_pos hc,
        bytes_cons]
    | false =>
      obtain ⟨b, more, hb⟩ := List.exists_cons_of_ne_nil (String.utf8EncodeChar_ne_nil (c := c))
      have hstop : q (Char.ofUInt8 b) = false := (hq.eq_of_mem (hb ▸ List.mem_cons_self)).trans hc
      rw [bytes_cons, hb, List.cons_append, List.takeWhile_cons_of_neg (by simp [hstop]),
        List.takeWhile_cons_of_neg (by simp [hc])]
      rfl

/-! ## §C Offsets -/

/-- **`spent cs rest`** — how many bytes of a text lie in front of an end of it. -/
def spent (cs rest : List Char) : Nat := byteLength cs - byteLength rest

theorem spent_self (cs : List Char) : spent cs cs = 0 := Nat.sub_self _

theorem spent_append (a b : List Char) : spent (a ++ b) b = byteLength a := by
  rw [spent, byteLength_append, Nat.add_sub_cancel]

theorem spent_append_left (a : List Char) {b rest : List Char} (h : rest <:+ b) :
    spent (a ++ b) rest = byteLength a + spent b rest := by
  obtain ⟨front, rfl⟩ := h
  rw [← List.append_assoc, spent_append, spent_append, byteLength_append]

theorem spent_cons (c : Char) {cs rest : List Char} (h : rest <:+ cs) :
    spent (c :: cs) rest = c.utf8Size + spent cs rest :=
  spent_append_left [c] h

/-- **`scan q bs n`** — the first offset, from an offset on, whose byte is not of a class. -/
def scan (q : Char → Bool) (bs : List UInt8) (n : Nat) : Nat :=
  n + ((bs.drop n).takeWhile fun b => q (Char.ofUInt8 b)).length

/-- Whether a byte of a class stands at an offset. -/
def standsAt (q : Char → Bool) (bs : List UInt8) (n : Nat) : Bool :=
  bs[n]?.any fun b => q (Char.ofUInt8 b)

/-- **`scan_append`** — a walk that begins at a character ends at one. -/
theorem scan_append (hq : SeesAscii q) (a b : List Char) :
    scan q (bytes (a ++ b)) (byteLength a) = byteLength (a ++ b.takeWhile q) := by
  rw [scan, drop_bytes, takeWhile_bytes hq, length_bytes, byteLength_append]

/-- Between the two ends of a walk stands what the walk went over. -/
theorem slice_takeWhile (q : Char → Bool) (a b : List Char) :
    slice (byteLength a) (byteLength (a ++ b.takeWhile q)) (a ++ b) = b.takeWhile q := by
  have hslice := slice_byteLength a (b.takeWhile q) (b.dropWhile q)
  rwa [List.takeWhile_append_dropWhile, ← byteLength_append] at hslice

theorem standsAt_append (hq : SeesAscii q) (a b : List Char) :
    standsAt q (bytes (a ++ b)) (byteLength a) = b.head?.any q := by
  rw [standsAt, ← any_head?_bytes hq b, ← drop_bytes a b, List.head?_drop]

end FeatureFile.Text
