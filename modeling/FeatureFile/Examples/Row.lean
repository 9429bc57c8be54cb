/-
# FeatureFile.Examples.Row — the values of one example

A row gives values to parameter names. Names are unique and stand in the order of their first
insertion; a later value for a name replaces the earlier one in place. `get?` is the view: after an
insertion it answers the new value at that name and what it answered before everywhere else
(`get?_insert`), and what the insertion gives back is the answer before it (`insert_snd`).
-/

namespace FeatureFile

/-- Values for parameter names, in the order of insertion. -/
structure ExampleRow where
  pairs : List (String × String) := []
  deriving DecidableEq, Repr, Inhabited

namespace ExampleRow

/-- The value of a name. -/
def get? (row : ExampleRow) (name : String) : Option String := row.pairs.lookup name

/-- Sets the value of a name in a list of pairs: in place if the name occurs, else at the end. The
value that it replaces comes with it. -/
def put (name value : String) :
    List (String × String) → List (String × String) × Option String
  | [] => ([(name, value)], none)
  | (key, old) :: rest =>
    if name == key then ((key, value) :: rest, some old)
    else
      let r := put name value rest
      ((key, old) :: r.1, r.2)

/-- Sets the value of a name; the value that it had comes with it. -/
def insert (row : ExampleRow) (name value : String) : ExampleRow × Option String :=
  let r := put name value row.pairs
  (⟨r.1⟩, r.2)

/-- The row of a list of pairs, inserted one after the other. -/
def ofPairs (pairs : List (String × String)) : ExampleRow :=
  pairs.foldl (fun row (name, value) => (row.insert name value).1) {}

/-- The number of names. -/
def size (row : ExampleRow) : Nat := row.pairs.length

/-- Whether there are no names. -/
def isEmpty (row : ExampleRow) : Bool := row.pairs.isEmpty

theorem lookup_put (pairs : List (String × String)) (name value other : String) :
    (put name value pairs).1.lookup other =
      if other == name then some value else pairs.lookup other := by
  induction pairs with
  | nil => cases h : other == name <;> simp only [put, List.lookup_cons, List.lookup_nil, h] <;> rfl
  | cons pair rest ih =>
    obtain ⟨key, old⟩ := pair
    by_cases hkey : name = key
    · subst hkey
      cases h : other == name <;> simp [put, List.lookup_cons, h]
    · have hne : (name == key) = false := by simpa using hkey
      by_cases h : other = name
      · subst h; simp [put, List.lookup_cons, hne, ih]
      · have hno : (other == name) = false := by simpa using h
        simp [put, List.lookup_cons, hne, hno, ih]

/-- What a new value replaces is what the name had. -/
theorem put_snd (pairs : List (String × String)) (name value : String) :
    (put name value pairs).2 = pairs.lookup name := by
  induction pairs with
  | nil => rfl
  | cons pair rest ih =>
    obtain ⟨key, old⟩ := pair
    cases hkey : name == key with
    | true => simp only [put, hkey, List.lookup_cons, if_true]
    | false => simpa only [put, hkey, List.lookup_cons, Bool.false_eq_true, if_false] using ih

/-- After an insertion a row answers the new value at that name, and elsewhere what it answered
before. -/
theorem get?_insert (row : ExampleRow) (name value other : String) :
    (row.insert name value).1.get? other =
      if other == name then some value else row.get? other :=
  lookup_put row.pairs name value other

/-- An insertion gives back what the row answered before. -/
theorem insert_snd (row : ExampleRow) (name value : String) :
    (row.insert name value).2 = row.get? name :=
  put_snd row.pairs name value

end ExampleRow

end FeatureFile
