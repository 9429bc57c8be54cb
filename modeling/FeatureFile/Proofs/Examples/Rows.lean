/-
# FeatureFile.Proofs.Examples.Rows — what a row of examples remembers

A row is known by its history: the insertions that made it, from an empty row on. A name keeps the
place of its first insertion and the value of its last one, and each insertion gives back the value
that it replaces. `Remembers` says this of a row and of what its insertions gave back; since one
insertion more only adds to a history (`insertAll_append`), each part of it is read off the place
where the history is cut.

The rows of a table are such rows. Their history is the header with the cells below it, so a name
that heads several columns has the value of the last of these, and this value is empty if the row
ends before that column, whatever stands in the columns before.

Main statement: `rows_keepLast`.
-/

import FeatureFile.Examples.Table
import Mathlib.Data.List.Forall2
import Mathlib.Data.List.Induction

namespace FeatureFile

namespace ExampleRow

/-- The names of a row, in order. -/
def names (row : ExampleRow) : List String := row.pairs.map Prod.fst

/-! ## §A Histories -/

/-- **`row.insertAll history`** — the row behind insertions, one after the other, and what each of
them gave back. -/
def insertAll (row : ExampleRow) : List (String × String) → ExampleRow × List (Option String)
  | [] => (row, [])
  | (name, value) :: history =>
    let first := row.insert name value
    let others := first.1.insertAll history
    (others.1, first.2 :: others.2)

/-- A history is run up to any point, and then on. -/
theorem insertAll_append (row : ExampleRow) (history later : List (String × String)) :
    row.insertAll (history ++ later) =
      (((row.insertAll history).1.insertAll later).1,
        (row.insertAll history).2 ++ ((row.insertAll history).1.insertAll later).2) := by
  induction history generalizing row with
  | nil => rfl
  | cons pair history ih =>
    rw [List.cons_append, insertAll, insertAll, ih]
    rfl

theorem length_insertAll (row : ExampleRow) (history : List (String × String)) :
    (row.insertAll history).2.length = history.length := by
  induction history generalizing row with
  | nil => rfl
  | cons pair history ih => exact congrArg (· + 1) (ih _)

/-- The row of a list of pairs is the row behind their insertions. -/
theorem ofPairs_eq (history : List (String × String)) :
    ofPairs history = (insertAll {} history).1 := by
  unfold ofPairs
  generalize ({} : ExampleRow) = row
  induction history generalizing row with
  | nil => rfl
  | cons pair history ih => exact ih _

/-! ## §B Names -/

/-- A value that is set in place adds no name, and any other adds its name at the end. -/
theorem names_insert (row : ExampleRow) (name value : String) :
    (row.insert name value).1.names =
      if name ∈ row.names then row.names else row.names ++ [name] := by
  show (put name value row.pairs).1.map Prod.fst =
    if name ∈ row.pairs.map Prod.fst then row.pairs.map Prod.fst
    else row.pairs.map Prod.fst ++ [name]
  induction row.pairs with
  | nil => rfl
  | cons pair rest ih =>
    obtain ⟨key, old⟩ := pair
    by_cases hkey : name = key
    · subst hkey
      simp [put]
    · have hne : (name == key) = false := beq_eq_false_iff_ne.mpr hkey
      simp only [put, hne, Bool.false_eq_true, if_false, List.map_cons, List.mem_cons, hkey,
        false_or, ih]
      split <;> rfl

theorem nodup_names_insert {row : ExampleRow} (h : row.names.Nodup) (name value : String) :
    (row.insert name value).1.names.Nodup := by
  rw [names_insert]
  split
  · exact h
  · rename_i hmem
    refine List.nodup_append.mpr ⟨h, List.pairwise_singleton _ _, ?_⟩
    intro key hkey other hother
    rw [List.mem_singleton.mp hother]
    rintro rfl
    exact hmem hkey

/-- The names behind a history are those that it inserts, each where it is inserted first. -/
theorem names_insertAll (history : List (String × String)) :
    (insertAll {} history).1.names = (history.map Prod.fst).eraseDups ∧
      (insertAll {} history).1.names.Nodup := by
  induction history using List.reverseRecOn with
  | nil => exact ⟨rfl, List.nodup_nil⟩
  | append_singleton history pair ih =>
    obtain ⟨heq, hnodup⟩ := ih
    rw [insertAll_append]
    refine ⟨?_, nodup_names_insert hnodup pair.1 pair.2⟩
    show ((insertAll {} history).1.insert pair.1 pair.2).1.names = _
    rw [names_insert, heq, List.map_append, List.eraseDups_append]
    by_cases hmem : pair.1 ∈ history.map Prod.fst
    · rw [if_pos (List.mem_eraseDups.mpr hmem)]
      simp [List.removeAll, hmem]
    · rw [if_neg (mt List.mem_eraseDups.mp hmem)]
      simp [List.removeAll, hmem, List.eraseDups_cons]

/-! ## §C Values -/

/-- Insertions for other names leave the value of a name alone. -/
theorem get?_insertAll_of_not_mem {row : ExampleRow} {name : String}
    {history : List (String × String)} (h : name ∉ history.map Prod.fst) :
    (row.insertAll history).1.get? name = row.get? name := by
  induction history generalizing row with
  | nil => rfl
  | cons pair history ih =>
    rw [List.map_cons, List.mem_cons, not_or] at h
    have hne : (name == pair.1) = false := beq_eq_false_iff_ne.mpr h.1
    show ((row.insert pair.1 pair.2).1.insertAll history).1.get? name = _
    rw [ih h.2, get?_insert, hne]
    rfl

/-- A name has the value that was inserted last for it. -/
theorem get?_insertAll_last (row : ExampleRow) {name : String} (value : String)
    (earlier : List (String × String)) {later : List (String × String)}
    (h : name ∉ later.map Prod.fst) :
    (row.insertAll (earlier ++ (name, value) :: later)).1.get? name = some value := by
  rw [insertAll_append]
  show (((row.insertAll earlier).1.insert name value).1.insertAll later).1.get? name = _
  rw [get?_insertAll_of_not_mem h, get?_insert, beq_self_eq_true, if_pos rfl]

/-- **`Remembers history row answers`** — what a row and the answers of its insertions keep of the
history of the row. -/
structure Remembers (history : List (String × String)) (row : ExampleRow)
    (answers : List (Option String)) : Prop where
  /-- No name stands twice. -/
  nodup_names : row.names.Nodup
  /-- The names stand in the order of their first insertion. -/
  names_eq : row.names = (history.map Prod.fst).eraseDups
  /-- A name has the value that was inserted last for it. -/
  get?_last : ∀ earlier name value later, history = earlier ++ (name, value) :: later →
    name ∉ later.map Prod.fst → row.get? name = some value
  /-- A name that was never inserted has no value. -/
  get?_absent : ∀ name, name ∉ history.map Prod.fst → row.get? name = none
  /-- Every insertion gives an answer. -/
  length_answers : answers.length = history.length
  /-- The answer is the value that the name had just before the insertion. -/
  answer_eq : ∀ earlier name value later, history = earlier ++ (name, value) :: later →
    answers[earlier.length]? = some ((insertAll {} earlier).1.get? name)

/-- **What a row remembers of its history.** -/
theorem remembers_insertAll (history : List (String × String)) :
    Remembers history (insertAll {} history).1 (insertAll {} history).2 where
  nodup_names := (names_insertAll history).2
  names_eq := (names_insertAll history).1
  get?_last := by
    rintro earlier name value later rfl hlater
    exact get?_insertAll_last {} value earlier hlater
  get?_absent _ h := get?_insertAll_of_not_mem h
  length_answers := length_insertAll {} history
  answer_eq := by
    rintro earlier name value later rfl
    have hlength := length_insertAll {} earlier
    rw [insertAll_append, List.getElem?_append_right (Nat.le_of_eq hlength), hlength, Nat.sub_self]
    exact congrArg some (insert_snd _ name value)

end ExampleRow

/-! ## §D Rows of a table -/

namespace ExamplesTable

theorem map_fst_pair (header cells : List String) : (pair header cells).map Prod.fst = header := by
  induction header generalizing cells with
  | nil => rfl
  | cons name header ih => cases cells <;> exact congrArg (name :: ·) (ih _)

/-- The pairs of a row at one column: those before it, the cell below the name or an empty one, and
those behind it. -/
theorem pair_append (before : List String) (name : String) (after cells : List String) :
    pair (before ++ name :: after) cells =
      pair before cells ++
        (name, cells.getD before.length "") :: pair after (cells.drop (before.length + 1)) := by
  induction before generalizing cells with
  | nil => cases cells <;> rfl
  | cons first before ih =>
    cases cells with
    | nil => exact congrArg ((first, "") :: ·) (ih [])
    | cons cell cells => exact congrArg ((first, cell) :: ·) (ih cells)

/-- **`ReadsRow header cells row`** — what a row of values gives for the names of a header. -/
structure ReadsRow (header cells : List String) (row : ExampleRow) : Prop where
  /-- The names are those of the header, each once, in the order of their first columns. -/
  nodup_names : row.names.Nodup
  names_eq : row.names = header.eraseDups
  /-- A name has the cell in the last column that it heads, an empty one if the row has no such
  column. -/
  get?_last : ∀ before name after, header = before ++ name :: after → name ∉ after →
    row.get? name = some (cells.getD before.length "")
  /-- Other names have no value. -/
  get?_absent : ∀ name, name ∉ header → row.get? name = none

theorem readsRow_ofPairs (header cells : List String) :
    ReadsRow header cells (ExampleRow.ofPairs (pair header cells)) := by
  rw [ExampleRow.ofPairs_eq]
  have hrow := ExampleRow.remembers_insertAll (pair header cells)
  have hnames := map_fst_pair header cells
  constructor
  case nodup_names => exact hrow.nodup_names
  case names_eq => rw [hrow.names_eq, hnames]
  case get?_last =>
    rintro before name after rfl hafter
    refine hrow.get?_last _ name _ _ (pair_append before name after cells) ?_
    rwa [map_fst_pair]
  case get?_absent =>
    intro name hname
    refine hrow.get?_absent name ?_
    rwa [hnames]

/-- **`rows_keepLast`** — a table has one row of values for each row of cells, which gives each name
of the header the cell in its last column; and a row behind any insertions has each name once, where
it was inserted first, with the value that was inserted last, while each insertion gave back the value
that the name had before. -/
theorem rows_keepLast :
    (∀ table : ExamplesTable, List.Forall₂ (ReadsRow table.header) table.cells table.rows) ∧
      ∀ history : List (String × String), ExampleRow.Remembers history
        (ExampleRow.insertAll {} history).1 (ExampleRow.insertAll {} history).2 := by
  refine ⟨fun table => ?_, ExampleRow.remembers_insertAll⟩
  rw [rows, List.forall₂_map_right_iff, List.forall₂_same]
  exact fun cells _ => readsRow_ofPairs table.header cells

/-- A name over two columns, in a row that ends before the second: the value in the first column is
not seen. -/
example : (ExamplesTable.mk ["a", "b", "a"] [["1", "2"]]).rows.map (·.pairs) =
    [[("a", ""), ("b", "2")]] := by decide +kernel

end ExamplesTable

end FeatureFile
