/-
# FeatureFile.Proofs.CharSet.Inert — letters and names without parentheses

A character is inert if it is neither the backslash nor the opening parenthesis. All letters and
numbers are inert (`isInert_of_covers_alphabetic`), and so are the names by which sets of characters
are asked for: a name that is found has nothing in it but what the table has, and what does not
count in a name (`inert_of_named?`, `inert_of_valued?`).

The tables of letters are long. Their runs increase, so no more than the beginning up to the
backslash is looked at.
-/

import FeatureFile.CharSet.Named
import FeatureFile.Proofs.CharSet.Members

namespace FeatureFile

/-! ## §A Inert characters -/

/-- Whether a character neither escapes nor opens anything. -/
def isInert (c : Char) : Bool := c != '\\' && c != '('

theorem isInert_iff {c : Char} : isInert c = true ↔ c ≠ '\\' ∧ c ≠ '(' := by
  simp [isInert]

theorem eq_or_of_isInert {c : Char} (h : isInert c = false) : c = '\\' ∨ c = '(' := by
  simpa [isInert, imp_iff_not_or] using h

/-- Beyond ASCII all characters are inert. -/
theorem isInert_of_le {c : Char} (h : 0x80 ≤ c.toNat) : isInert c = true := by
  by_contra hinert
  rcases eq_or_of_isInert (by simpa using hinert) with rfl | rfl <;> exact absurd h (by decide)

/-- **`Inert cs`** — a text neither escapes nor opens anything. -/
def Inert (cs : List Char) : Prop := ∀ c ∈ cs, isInert c = true

theorem inert_append {a b : List Char} : Inert (a ++ b) ↔ Inert a ∧ Inert b :=
  List.forall_mem_append

theorem inert_cons {c : Char} {cs : List Char} : Inert (c :: cs) ↔ isInert c = true ∧ Inert cs :=
  List.forall_mem_cons

/-- A class of characters to which neither the backslash nor the opening parenthesis belongs is
inert. -/
theorem isInert_of {p : Char → Bool} (hslash : p '\\' = false) (hopen : p '(' = false) {c : Char}
    (h : p c = true) : isInert c = true := by
  refine isInert_iff.mpr ⟨?_, ?_⟩ <;> rintro rfl
  · exact absurd h (by simp [hslash])
  · exact absurd h (by simp [hopen])

/-- Whether the octets of a text are those of inert characters. Octets are at hand where the
characters of a text would have to be decoded. -/
def hasInertOctets (text : String) : Bool :=
  text.toByteArray.data.toList.all fun octet => octet != 0x5c && octet != 0x28

theorem inert_of_hasInertOctets {text : String} (h : hasInertOctets text = true) :
    Inert text.toList := by
  have hmem {c : Char} {octet : UInt8} (hc : String.utf8EncodeChar c = [octet])
      (hmem : c ∈ text.toList) : octet ∈ text.toByteArray.data.toList := by
    rw [← String.utf8Encode_toList, List.utf8Encode, List.toList_data_toByteArray]
    exact List.mem_flatMap.mpr ⟨c, hmem, by simp [hc]⟩
  intro c hc
  by_contra hinert
  rcases eq_or_of_isInert (by simpa using hinert) with rfl | rfl
  · have hoctet := List.all_eq_true.mp h 0x5c (hmem (by decide) hc)
    exact absurd hoctet (by decide)
  · have hoctet := List.all_eq_true.mp h 0x28 (hmem (by decide) hc)
    exact absurd hoctet (by decide)

namespace CharSet

/-! ## §B Letters and numbers -/

/-- Runs begin no earlier than where they are written from. -/
theorem Table.le_of_mem_runs {start : Nat} {numbers : List Nat} {run : (Nat × Nat) × Nat}
    (h : run ∈ runs start numbers) : start ≤ run.1.1 := by
  fun_induction runs start numbers with
  | case1 start distance number rest ih =>
    rcases List.mem_cons.mp h with rfl | h
    · exact Nat.le_refl _
    · have := ih h
      omega
  | case2 => exact absurd h List.not_mem_nil

/-- The runs that begin no later than a code point stand in front of the others. -/
theorem Table.mem_takeWhile_runs {start n : Nat} {numbers : List Nat} {run : (Nat × Nat) × Nat}
    (h : run ∈ runs start numbers) (hn : run.1.1 ≤ n) :
    run ∈ (runs start numbers).takeWhile fun run => run.1.1 ≤ n := by
  fun_induction runs start numbers with
  | case1 start distance number rest ih =>
    have hstart : start ≤ n := by
      rcases List.mem_cons.mp h with rfl | h
      · exact hn
      · have := le_of_mem_runs h
        omega
    rw [List.takeWhile_cons_of_pos (by simpa using hstart)]
    rcases List.mem_cons.mp h with rfl | h
    · exact List.mem_cons_self
    · exact List.mem_cons_of_mem _ (ih h)
  | case2 => exact absurd h List.not_mem_nil

/-- Ranges begin no earlier than behind the first gap. -/
theorem Table.le_of_mem_ranges {start : Nat} {numbers : List Nat} {r : Nat × Nat}
    (h : r ∈ ranges start numbers) : start + numbers.headD 0 ≤ r.1 := by
  fun_induction ranges start numbers with
  | case1 start gap distance rest ih =>
    rcases List.mem_cons.mp h with rfl | h
    · exact Nat.le_refl _
    · have := ih h
      rw [List.headD_cons]
      omega
  | case2 => exact absurd h List.not_mem_nil

theorem Table.inOrder_ranges (start : Nat) (numbers : List Nat) :
    InOrder (ranges start numbers) := by
  fun_induction ranges start numbers with
  | case1 start gap distance rest ih =>
    refine List.pairwise_cons.2 ⟨fun r hr => ?_, ih⟩
    have := le_of_mem_ranges hr
    omega
  | case2 => exact .nil

theorem Table.inOrder_runs (start : Nat) (numbers : List Nat) :
    InOrder ((runs start numbers).map (·.1)) := by
  fun_induction runs start numbers with
  | case1 start distance number rest ih =>
    refine List.pairwise_cons.2 ⟨fun r hr => ?_, ih⟩
    obtain ⟨run, hrun, rfl⟩ := List.mem_map.mp hr
    have hle := le_of_mem_runs hrun
    show start ≤ run.1.1
    omega
  | case2 => exact .nil

/-- The runs of some categories, before they are joined, are in order. -/
theorem inOrder_runs_filter (p : (Nat × Nat) × Nat → Bool) :
    InOrder ((categoryRuns.filter p).map (·.1)) :=
  (Table.inOrder_runs _ _).sublist (List.filter_sublist.map _)

theorem inOrder_ofCategories (short : List String) : InOrder (ofCategories short).ranges :=
  inOrder_joined (inOrder_runs_filter _)

theorem inOrder_alphabetic : InOrder alphabetic.ranges :=
  inOrder_union (inOrder_union (inOrder_ofCategories _) (inOrder_ofCategories _))
    (Table.inOrder_ranges _ _)

theorem contains_alphabetic (c : Char) :
    alphabetic.contains c =
      (letters.contains c || letterNumbers.contains c || otherAlphabetic.contains c) := by
  have hletters : InOrder letters.ranges := inOrder_ofCategories _
  have hnumbers : InOrder letterNumbers.ranges := inOrder_ofCategories _
  have hother : InOrder otherAlphabetic.ranges := Table.inOrder_ranges _ _
  rw [alphabetic, contains_union (inOrder_union hletters hnumbers) hother,
    contains_union hletters hnumbers]

/-- The small letters of ASCII are letters. -/
theorem contains_letters {c : Char} (hlow : 'a'.toNat ≤ c.toNat) (hhigh : c.toNat ≤ 'z'.toNat) :
    letters.contains c = true := by
  have hfront : (('a'.toNat, 'z'.toNat), 1) ∈
      categoryRuns.takeWhile fun run => run.1.1 ≤ 'a'.toNat :=
    List.contains_iff_mem.mp (by decide +kernel)
  have hrun := (List.takeWhile_sublist _).mem hfront
  show Text.inRanges _ (joined _) = true
  rw [inRanges_iff (inOrder_joined (inOrder_runs_filter _)), covers_joined (inOrder_runs_filter _)]
  refine ⟨_, List.mem_map_of_mem (List.mem_filter.mpr ⟨hrun, ?_⟩), hlow, hhigh⟩
  decide +kernel

/-- Whatever their order, joined ranges hold nothing new. -/
theorem covers_of_joined {ranges : List (Nat × Nat)} {n : Nat} (h : Covers (joined ranges) n) :
    Covers ranges n := by
  fun_induction joined ranges with
  | case1 a b c d rest hle ih =>
    rw [covers_cons, covers_cons]
    rcases (covers_cons ..).mp (ih h) with hfirst | hrest
    · omega
    · exact Or.inr (Or.inr hrest)
  | case2 a b c d rest hgt ih =>
    rw [covers_cons] at h ⊢
    exact h.imp_right ih
  | case3 => exact h

theorem covers_of_union {s t : CharSet} {n : Nat} (h : Covers (s.union t).ranges n) :
    Covers s.ranges n ∨ Covers t.ranges n := by
  obtain ⟨r, hr, hn⟩ := covers_of_joined h
  exact (List.mem_merge.mp hr).imp (fun hr => ⟨r, hr, hn⟩) fun hr => ⟨r, hr, hn⟩

/-- Whatever their order, ranges in which a code point is found hold it. -/
theorem covers_of_inRanges {ranges : List (Nat × Nat)} {n : Nat}
    (h : Text.inRanges n ranges = true) : Covers ranges n := by
  induction ranges with
  | nil => exact absurd h (by simp [Text.inRanges])
  | cons r rest ih =>
    obtain ⟨a, b⟩ := r
    rw [Text.inRanges] at h
    rw [covers_cons]
    split at h
    · exact absurd h (by simp)
    split at h
    · exact Or.inl ⟨by omega, by omega⟩
    · exact Or.inr (ih h)

/-- The backslash and the opening parenthesis are punctuation. -/
theorem punctuation_of_run {run : (Nat × Nat) × Nat} (hrun : run ∈ categoryRuns) {c : Char}
    (hinert : isInert c = false) (hlow : run.1.1 ≤ c.toNat) (hhigh : c.toNat ≤ run.1.2) :
    (categoryNames[run.2]?.bind (·.head?)) = some "po" ∨
      (categoryNames[run.2]?.bind (·.head?)) = some "ps" := by
  -- The runs up to the backslash are all that is looked at.
  have hall : ((categoryRuns.takeWhile fun run => run.1.1 ≤ 0x5c).all fun run =>
      ((categoryNames[run.2]?.bind (·.head?)) == some "po" ||
        (categoryNames[run.2]?.bind (·.head?)) == some "ps") ||
      !(run.1.1 ≤ 0x28 && 0x28 ≤ run.1.2) && !(run.1.1 ≤ 0x5c && 0x5c ≤ run.1.2)) = true := by
    decide +kernel
  have hc : c.toNat = 0x28 ∨ c.toNat = 0x5c := by
    rcases eq_or_of_isInert hinert with rfl | rfl
    · exact Or.inr rfl
    · exact Or.inl rfl
  have hcases := List.all_eq_true.mp hall run (Table.mem_takeWhile_runs hrun (by omega))
  simp only [Bool.or_eq_true, Bool.and_eq_true, Bool.not_eq_true', Bool.and_eq_false_iff,
    decide_eq_false_iff_not, beq_iff_eq] at hcases
  rcases hcases with hpunctuation | ⟨hopen, hslash⟩
  · exact hpunctuation
  · omega

/-- Categories that are no punctuation hold inert characters. -/
theorem isInert_of_covers_ofCategories {short : List String} (hother : "po" ∉ short)
    (hopen : "ps" ∉ short) {c : Char} (h : Covers (ofCategories short).ranges c.toNat) :
    isInert c = true := by
  obtain ⟨r, hr, hlow, hhigh⟩ := covers_of_joined h
  obtain ⟨run, hrun, rfl⟩ := List.mem_map.mp hr
  obtain ⟨hrun, hwanted⟩ := List.mem_filter.mp hrun
  obtain ⟨-, hname⟩ := List.mem_filter.mp (List.contains_iff_mem.mp hwanted)
  obtain ⟨name, hmem, heq⟩ := List.any_eq_true.mp hname
  have heq := eq_of_beq heq
  by_contra hinert
  rcases punctuation_of_run hrun (by simpa using hinert) hlow hhigh with hpo | hps
  · exact hother (Option.some.inj (hpo.symm.trans heq) ▸ hmem)
  · exact hopen (Option.some.inj (hps.symm.trans heq) ▸ hmem)

/-- Alphabetic characters are inert. -/
theorem isInert_of_covers_alphabetic {c : Char} (h : Covers alphabetic.ranges c.toNat) :
    isInert c = true := by
  rcases covers_of_union h with h | ⟨r, hr, hlow, -⟩
  · rcases covers_of_union h with h | h
    · exact isInert_of_covers_ofCategories (by decide) (by decide) h
    · exact isInert_of_covers_ofCategories (by decide) (by decide) h
  · -- What is listed beside letters begins beyond ASCII.
    have hfirst : 0x80 ≤ r.1 := by
      have hgap := Table.le_of_mem_ranges hr
      exact Nat.le_trans (by decide +kernel) hgap
    exact isInert_of_le (Nat.le_trans hfirst hlow)

/-! ## §C Names of sets -/

/-- A name is inert if what counts of it is. -/
theorem inert_of_normalName {name : List Char} (h : Inert (normalName name).toList) :
    Inert name := by
  intro c hc
  by_contra hinert
  have hc' : c = '\\' ∨ c = '(' := by
    by_contra hne
    exact hinert (isInert_iff.mpr ⟨fun h => hne (Or.inl h), fun h => hne (Or.inr h)⟩)
  have hlower : c.toLower = c := by rcases hc' with rfl | rfl <;> decide
  have hcounts : (c.toNat < 0x80 && !(c == ' ' || c == '_' || c == '-')) = true := by
    rcases hc' with rfl | rfl <;> decide
  have hmem : c ∈ (if beginsWithIs name then name.drop 2 else name) := by
    split
    · rename_i his
      match name, his with
      | a :: b :: rest, his =>
        obtain ⟨ha, hb⟩ : a.toLower = 'i' ∧ b.toLower = 's' := by simpa [beginsWithIs] using his
        rcases List.mem_cons.mp hc with rfl | hc
        · exact absurd (hlower.symm.trans ha) (by rcases hc' with rfl | rfl <;> decide)
        rcases List.mem_cons.mp hc with rfl | hc
        · exact absurd (hlower.symm.trans hb) (by rcases hc' with rfl | rfl <;> decide)
        · exact hc
    · exact hc
  have hcounted : c ∈ ((if beginsWithIs name then name.drop 2 else name).filter fun c =>
      c.toNat < 0x80 && !(c == ' ' || c == '_' || c == '-')).map Char.toLower :=
    List.mem_map.mpr ⟨c, List.mem_filter.mpr ⟨hmem, hcounts⟩, hlower⟩
  refine hinert (h c ?_)
  unfold normalName
  simp only
  generalize ((if beginsWithIs name then name.drop 2 else name).filter fun c =>
    c.toNat < 0x80 && !(c == ' ' || c == '_' || c == '-')).map Char.toLower = counted at hcounted ⊢
  split
  · rename_i hisc
    have hnormal := eq_of_beq (Bool.and_eq_true_iff.mp hisc).2
    have hlist := congrArg String.toList hnormal
    rw [String.toList_ofList] at hlist
    rw [hlist] at hcounted
    rcases hc' with rfl | rfl <;> exact absurd hcounted (by decide)
  · rw [String.toList_ofList]
    exact hcounted

/-- Names that are found in a table are inert if the table's are. -/
theorem inert_of_find? {α : Type} (names : α → List String) {table : List α} {name : String} {a : α}
    (hall : (table.all fun a => (names a).all hasInertOctets) = true)
    (h : (table.find? fun a => (names a).contains name) = some a) : Inert name.toList := by
  have ha := List.all_eq_true.mp hall a (List.mem_of_find?_eq_some h)
  have hmem : (names a).contains name = true :=
    List.find?_some (p := fun a => (names a).contains name) h
  exact inert_of_hasInertOctets (List.all_eq_true.mp ha name (List.contains_iff_mem.mp hmem))

theorem inert_of_property? {name : String} {s : CharSet} (h : property? name = some s) :
    Inert name.toList := by
  obtain ⟨entry, hfind, -⟩ := Option.map_eq_some_iff.mp h
  exact inert_of_find? Prod.fst (by decide +kernel) hfind

theorem inert_of_category? {name : String} {s : CharSet} (h : category? name = some s) :
    Inert name.toList := by
  unfold category? at h
  split at h
  · exact inert_of_hasInertOctets (by decide)
  · exact inert_of_hasInertOctets (by decide)
  · exact inert_of_hasInertOctets (by decide)
  · split at h
    · rename_i hfind
      exact inert_of_find? Prod.fst (by decide +kernel) hfind
    · split at h
      · rename_i hfind
        exact inert_of_find? id (by decide +kernel) hfind
      · exact absurd h (by simp)

theorem inert_of_scriptName? {name long : String} (h : scriptName? name = some long) :
    Inert name.toList := by
  obtain ⟨names, hfind, -⟩ := Option.bind_eq_some_iff.mp h
  exact inert_of_find? id (by decide +kernel) hfind

theorem inert_of_findIdx? {α : Type} {table : List α} {p : α → Bool} {name : List Char}
    {number : Nat} (hall : ∀ a ∈ table, p a = true → Inert name)
    (h : table.findIdx? p = some number) :
    Inert name := by
  obtain ⟨hlt, hp, -⟩ := List.findIdx?_eq_some_iff_getElem.mp h
  exact hall _ (List.getElem_mem hlt) hp

theorem inert_of_age? {name : String} {s : CharSet} (h : age? name = some s) :
    Inert name.toList := by
  obtain ⟨number, hfind, -⟩ := Option.map_eq_some_iff.mp h
  refine inert_of_findIdx? (fun version hversion hname => ?_) hfind
  have hall : (versions.all fun v =>
      hasInertOctets (toString v.1 ++ "." ++ toString v.2) &&
        hasInertOctets ("v" ++ toString v.1 ++ toString v.2)) = true := by
    decide +kernel
  obtain ⟨hdot, hletter⟩ := Bool.and_eq_true_iff.mp (List.all_eq_true.mp hall version hversion)
  rcases Bool.or_eq_true_iff.mp hname with heq | heq
  · rw [eq_of_beq heq]
    exact inert_of_hasInertOctets hdot
  · rw [eq_of_beq heq]
    exact inert_of_hasInertOctets hletter

theorem inert_of_break {p : BreakProperty} {name : String} {s : CharSet}
    (hall : (p.names.all fun names => names.all hasInertOctets) = true)
    (h : p.find? name = some s) : Inert name.toList := by
  obtain ⟨number, hfind, -⟩ := Option.map_eq_some_iff.mp h
  refine inert_of_findIdx? (fun names hnames hname => ?_) hfind
  have hoctets := List.all_eq_true.mp (List.all_eq_true.mp hall names hnames) name
    (List.contains_iff_mem.mp hname)
  exact inert_of_hasInertOctets hoctets

theorem inert_of_named? {name : List Char} {s : CharSet} (h : named? name = some s) :
    Inert name := by
  refine inert_of_normalName ?_
  unfold named? at h
  simp only at h
  split at h
  · rename_i hfound
    exact inert_of_property? hfound
  split at h
  · rename_i hfound
    exact inert_of_category? hfound
  · obtain ⟨long, hfound, -⟩ := Option.map_eq_some_iff.mp h
    exact inert_of_scriptName? hfound

theorem inert_of_valued? {property value : List Char} {s : CharSet}
    (h : valued? property value = some s) : Inert property ∧ Inert value := by
  suffices hnames : Inert (normalName property).toList ∧ Inert (normalName value).toList from
    ⟨inert_of_normalName hnames.1, inert_of_normalName hnames.2⟩
  unfold valued? at h
  simp only at h
  have hscript {α : Type} {name : String} {f : String → α} {a : α}
      (h : (scriptName? name).map f = some a) : Inert name.toList := by
    obtain ⟨long, hfound, -⟩ := Option.map_eq_some_iff.mp h
    exact inert_of_scriptName? hfound
  split at h
  case h_14 => exact absurd h (by simp)
  all_goals rename_i hproperty; rw [hproperty]
  all_goals refine ⟨inert_of_hasInertOctets (by decide), ?_⟩
  · exact inert_of_category? h
  · exact inert_of_category? h
  · exact hscript h
  · exact hscript h
  · exact hscript h
  · exact hscript h
  · exact inert_of_age? h
  · exact inert_of_break (by decide +kernel) h
  · exact inert_of_break (by decide +kernel) h
  · exact inert_of_break (by decide +kernel) h
  · exact inert_of_break (by decide +kernel) h
  · exact inert_of_break (by decide +kernel) h
  · exact inert_of_break (by decide +kernel) h

end CharSet

end FeatureFile
