/-
# FeatureFile.Proofs.Catalog.History — what a catalog holds after its changes

A catalog begins empty and changes by insertions, of one definition or of many, and by the removal
of a file. What it holds after a run of changes is said without running them: the definitions that
compile and whose file no later change removes, in the order of their insertion (`survivors`).

The table by keyword keeps four things under every change (`Filed`): a keyword is entered once,
never without definitions, never a conjunction, and its definitions are registered for it. These
make the emptiness of the table the emptiness of the catalog, and let a removal be read keyword by
keyword.

The changes are also carried out in place (`Filing`), where a failure does not take back what was
done before it. It comes to the same (`Filing.run_replay`): a definition is compiled before its
keyword is entered, so what is refused has changed nothing. Main statement: `run_keepsHistory`.
-/

import FeatureFile.Catalog
import FeatureFile.Proofs.InPlace

namespace FeatureFile

/-! ## §A Compiled definitions -/

namespace StepDefinition

/-- **`d.Compiled`** — a definition holds the expression and the score of its pattern. -/
structure Compiled (d : StepDefinition) : Prop where
  compile_eq : d.pattern.compile = .ok d.compiled
  specificity_eq : d.pattern.specificity = .ok d.specificity

/-- **`d.Accepted keyword text location`** — a definition is what comes of a pattern that is handed
in for a keyword. -/
structure Accepted (d : StepDefinition) (keyword : StepKeyword) (text : String)
    (location : Location) : Prop where
  isConjunction_eq : keyword.isConjunction = false
  keyword_eq : d.keyword = keyword
  pattern_eq : d.pattern = .ofText text
  location_eq : d.location = location
  compiled : d.Compiled

theorem compile_eq_ok_iff {keyword : StepKeyword} {text : String} {location : Location}
    {d : StepDefinition} :
    compile keyword text location = .ok d ↔ d.Accepted keyword text location := by
  unfold compile
  constructor
  · intro h
    split at h
    · cases h
    · rename_i hkeyword
      simp only at h
      split at h
      · cases h
      · rename_i compiled hcompiled
        split at h
        · cases h
        · rename_i specificity hspecificity
          obtain rfl := Except.ok.inj h
          exact ⟨Bool.eq_false_iff.mpr hkeyword, rfl, rfl, rfl, hcompiled, hspecificity⟩
  · rintro ⟨hkeyword, rfl, hpattern, rfl, ⟨hcompiled, hspecificity⟩⟩
    simp only [hkeyword, ← hpattern, hcompiled, hspecificity, Bool.false_eq_true, if_false]

end StepDefinition

namespace Catalog

/-! ## §B The table by keyword -/

/-- **`Sound x`** — an entry of the table holds definitions, all of them registered for its keyword,
and the keyword is no conjunction. -/
structure Sound (x : StepKeyword × List StepDefinition) : Prop where
  ne_nil : x.2 ≠ []
  isConjunction_eq : x.1.isConjunction = false
  keyword_eq : ∀ d ∈ x.2, d.keyword = x.1

/-- **`c.Filed`** — the table holds each keyword once, with sound entries only. -/
structure Filed (c : Catalog) : Prop where
  nodup_keys : (c.byKeyword.map Prod.fst).Nodup
  sound : ∀ x ∈ c.byKeyword, Sound x

theorem filed_empty : Filed {} := ⟨List.nodup_nil, fun _ hx => absurd hx List.not_mem_nil⟩

theorem lookup_eq_none {table : List (StepKeyword × List StepDefinition)} {key : StepKeyword}
    (h : key ∉ table.map Prod.fst) : table.lookup key = none := by
  rw [List.lookup_eq_none_iff]
  intro x hx
  rw [bne_iff_ne]
  rintro rfl
  exact h (List.mem_map_of_mem hx)

theorem definitionsFor_cons (key keyword : StepKeyword) (ds : List StepDefinition)
    (table : List (StepKeyword × List StepDefinition)) :
    definitionsFor ⟨(key, ds) :: table⟩ keyword =
      if keyword = key then ds else definitionsFor ⟨table⟩ keyword := by
  unfold definitionsFor
  rw [List.lookup_cons]
  by_cases h : keyword = key
  · rw [beq_iff_eq.mpr h, if_pos h]
    rfl
  · rw [beq_eq_false_iff_ne.mpr h, if_neg h]

/-- Filing a definition puts it behind those of its keyword. -/
theorem definitionsFor_file (keyword key : StepKeyword) (d : StepDefinition)
    (table : List (StepKeyword × List StepDefinition)) :
    definitionsFor ⟨file keyword d table⟩ key =
      definitionsFor ⟨table⟩ key ++ if key = keyword then [d] else [] := by
  induction table with
  | nil => rw [file, definitionsFor_cons]; rfl
  | cons x table ih =>
    obtain ⟨first, ds⟩ := x
    rw [file]
    split
    · -- The walk stops at the entry of the keyword.
      rename_i hkeyword
      subst hkeyword
      rw [definitionsFor_cons, definitionsFor_cons]
      split
      · rfl
      · exact (List.append_nil _).symm
    · rename_i hkeyword
      rw [definitionsFor_cons, definitionsFor_cons, ih]
      split
      · rename_i hkey
        subst hkey
        rw [if_neg fun h => hkeyword h.symm, List.append_nil]
      · rfl

theorem keys_file (keyword : StepKeyword) (d : StepDefinition)
    (table : List (StepKeyword × List StepDefinition)) :
    (file keyword d table).map Prod.fst =
      if keyword ∈ table.map Prod.fst then table.map Prod.fst
      else table.map Prod.fst ++ [keyword] := by
  induction table with
  | nil => rfl
  | cons x table ih =>
    obtain ⟨first, ds⟩ := x
    rw [file]
    by_cases h : keyword = first
    · simp [h]
    · rw [if_neg h, List.map_cons, List.map_cons, ih]
      by_cases hmem : keyword ∈ table.map Prod.fst
      · rw [if_pos hmem, if_pos (List.mem_cons_of_mem _ hmem)]
      · have hnot : keyword ∉ first :: table.map Prod.fst := by simpa [h] using hmem
        rw [if_neg hmem, if_neg hnot]
        rfl

theorem sound_file {table : List (StepKeyword × List StepDefinition)} {d : StepDefinition}
    (htable : ∀ x ∈ table, Sound x) (hd : d.keyword.isConjunction = false) :
    ∀ x ∈ file d.keyword d table, Sound x := by
  induction table with
  | nil =>
    refine List.forall_mem_singleton.mpr ⟨List.cons_ne_nil _ _, hd, ?_⟩
    exact List.forall_mem_singleton.mpr rfl
  | cons first table ih =>
    obtain ⟨key, ds⟩ := first
    obtain ⟨hfirst, htable⟩ := List.forall_mem_cons.mp htable
    rw [file]
    split
    · rename_i hkey
      refine List.forall_mem_cons.mpr ⟨⟨by simp, hfirst.isConjunction_eq, ?_⟩, htable⟩
      exact List.forall_mem_append.mpr ⟨hfirst.keyword_eq, List.forall_mem_singleton.mpr hkey⟩
    · exact List.forall_mem_cons.mpr ⟨hfirst, ih htable⟩

/-- Filing a definition under its own keyword keeps the table. -/
theorem Filed.file {c : Catalog} (hc : c.Filed) {d : StepDefinition}
    (hd : d.keyword.isConjunction = false) : Filed ⟨file d.keyword d c.byKeyword⟩ := by
  refine ⟨?_, sound_file hc.sound hd⟩
  show ((Catalog.file d.keyword d c.byKeyword).map Prod.fst).Nodup
  rw [keys_file]
  split
  · exact hc.nodup_keys
  · rename_i hmem
    refine List.nodup_append.mpr ⟨hc.nodup_keys, List.pairwise_singleton _ _, ?_⟩
    intro key hkey other hother
    rw [List.mem_singleton.mp hother]
    rintro rfl
    exact hmem hkey

/-! ## §C Removing a file -/

/-- The keywords that are left after a removal are keywords of before. -/
theorem keys_removePath_sublist (c : Catalog) (path : String) :
    ((c.removePath path).byKeyword.map Prod.fst).Sublist (c.byKeyword.map Prod.fst) := by
  have hmap : (c.byKeyword.map fun x =>
      (x.1, x.2.filter fun d => !d.location.isIn path)).map Prod.fst = c.byKeyword.map Prod.fst := by
    rw [List.map_map]
    rfl
  rw [← hmap]
  exact List.Sublist.map _ List.filter_sublist

theorem Filed.removePath {c : Catalog} (hc : c.Filed) (path : String) :
    (c.removePath path).Filed := by
  refine ⟨hc.nodup_keys.sublist (keys_removePath_sublist c path), ?_⟩
  intro x hx
  obtain ⟨hx, hne⟩ := List.mem_filter.mp hx
  obtain ⟨⟨key, ds⟩, hmem, rfl⟩ := List.mem_map.mp hx
  refine ⟨by simpa using hne, (hc.sound _ hmem).isConjunction_eq, ?_⟩
  intro d hd
  exact (hc.sound _ hmem).keyword_eq d (List.mem_filter.mp hd).1

/-- A removal is read keyword by keyword. An entry that is left without definitions is dropped, and
no other entry of its keyword comes to light. -/
theorem Filed.definitionsFor_removePath {c : Catalog} (hc : c.Filed) (path : String)
    (keyword : StepKeyword) :
    (c.removePath path).definitionsFor keyword =
      (c.definitionsFor keyword).filter fun d => !d.location.isIn path := by
  obtain ⟨table⟩ := c
  have hnodup : (table.map Prod.fst).Nodup := hc.nodup_keys
  clear hc
  induction table with
  | nil => rfl
  | cons first table ih =>
    obtain ⟨key, ds⟩ := first
    obtain ⟨hkey, hnodup⟩ := List.nodup_cons.mp hnodup
    have hrest := ih hnodup
    rw [definitionsFor_cons]
    by_cases hleft : (ds.filter fun d => !d.location.isIn path) = []
    · -- The entry is dropped, and its keyword is entered nowhere else.
      have hdrop : Catalog.removePath ⟨(key, ds) :: table⟩ path =
          Catalog.removePath ⟨table⟩ path := by
        simp [Catalog.removePath, hleft]
      rw [hdrop, hrest]
      split
      · rename_i hkeyword
        subst hkeyword
        rw [hleft, definitionsFor, lookup_eq_none hkey]
        rfl
      · rfl
    · have hkeep : Catalog.removePath ⟨(key, ds) :: table⟩ path =
          ⟨(key, ds.filter fun d => !d.location.isIn path) ::
            (Catalog.removePath ⟨table⟩ path).byKeyword⟩ := by
        simp [Catalog.removePath, hleft]
      rw [hkeep, definitionsFor_cons]
      split
      · rfl
      · exact hrest

/-! ## §D Counting definitions -/

theorem Filed.isEmpty_iff {c : Catalog} (hc : c.Filed) : c.isEmpty = true ↔ c.size = 0 := by
  obtain ⟨table⟩ := c
  cases table with
  | nil => exact ⟨fun _ => rfl, fun _ => rfl⟩
  | cons first table =>
    have hpos := List.length_pos_iff.mpr (hc.sound first List.mem_cons_self).ne_nil
    have hsize : size ⟨first :: table⟩ = first.2.length + size ⟨table⟩ := List.length_append
    refine ⟨fun h => Bool.noConfusion h, fun h => ?_⟩
    omega

/-- The definitions of the three keywords are all there are. -/
theorem Filed.size_eq {c : Catalog} (hc : c.Filed) :
    c.size = (StepKeyword.concrete.flatMap c.definitionsFor).length := by
  obtain ⟨table⟩ := c
  induction table with
  | nil => rfl
  | cons first table ih =>
    obtain ⟨key, ds⟩ := first
    obtain ⟨hkey, hnodup⟩ := List.nodup_cons.mp hc.nodup_keys
    obtain ⟨hfirst, htable⟩ := List.forall_mem_cons.mp hc.sound
    have hsize : size ⟨(key, ds) :: table⟩ = ds.length + size ⟨table⟩ := List.length_append
    have hnone : definitionsFor ⟨table⟩ key = [] := by rw [definitionsFor, lookup_eq_none hkey]; rfl
    have hkeyword : key.isConjunction = false := hfirst.isConjunction_eq
    rw [hsize, ih ⟨hnodup, htable⟩]
    simp only [StepKeyword.concrete, List.flatMap_cons, List.flatMap_nil, List.length_append,
      definitionsFor_cons]
    cases key with
    | given | when | «then» =>
      simp only [hnone, reduceCtorEq, if_true, if_false, List.length_nil]
      omega
    | and | but => cases hkeyword

/-- No definition is registered for a conjunction. -/
theorem Filed.definitionsFor_eq_nil {c : Catalog} (hc : c.Filed) {keyword : StepKeyword}
    (h : keyword.isConjunction = true) : c.definitionsFor keyword = [] := by
  rw [definitionsFor, lookup_eq_none]
  · rfl
  · intro hmem
    obtain ⟨x, hx, rfl⟩ := List.mem_map.mp hmem
    rw [(hc.sound x hx).isConjunction_eq] at h
    cases h

/-- What is filed under a keyword is registered for it. -/
theorem Filed.keyword_of_mem {c : Catalog} (hc : c.Filed) {keyword : StepKeyword}
    {d : StepDefinition} (h : d ∈ c.definitionsFor keyword) : d.keyword = keyword := by
  unfold definitionsFor at h
  cases hlookup : c.byKeyword.lookup keyword with
  | none => rw [hlookup] at h; exact absurd h List.not_mem_nil
  | some ds =>
    rw [hlookup] at h
    obtain ⟨before, after, htable, -⟩ := List.lookup_eq_some_iff.mp hlookup
    exact (hc.sound (keyword, ds) (by rw [htable]; simp)).keyword_eq d h

end Catalog

/-! ## §E Changes -/

/-- A definition as it is handed in. -/
abbrev Submission := StepKeyword × String × Location

namespace Submission

/-- The definition, if it compiles. -/
def compiled? (s : Submission) : Option StepDefinition :=
  (StepDefinition.compile s.1 s.2.1 s.2.2).toOption

/-- Why the definition is refused, if it is. -/
def refusal? (s : Submission) : Option CatalogError :=
  match StepDefinition.compile s.1 s.2.1 s.2.2 with
  | .ok _ => none
  | .error e => some e

theorem compiled?_eq_some {s : Submission} {d : StepDefinition} (h : s.compiled? = some d) :
    StepDefinition.compile s.1 s.2.1 s.2.2 = .ok d := by
  unfold compiled? at h
  cases hcompile : StepDefinition.compile s.1 s.2.1 s.2.2 with
  | error e => rw [hcompile] at h; cases h
  | ok found => rw [hcompile] at h; exact congrArg _ (Option.some.inj h)

end Submission

/-- A call that changes a catalog. -/
inductive CatalogChange where
  | insert (s : Submission)
  | extend (entries : List Submission)
  | removePath (path : String)
  deriving DecidableEq, Repr

namespace CatalogChange

/-- The catalog after a change; an insertion that is refused leaves the one before. -/
def apply (c : Catalog) : CatalogChange → Catalog
  | insert (keyword, text, location) =>
    match c.insert keyword text location with
    | .ok c' => c'
    | .error _ => c
  | extend entries => (c.extend entries).1
  | removePath path => c.removePath path

/-- What a change hands in. -/
def submissions : CatalogChange → List Submission
  | insert s => [s]
  | extend entries => entries
  | removePath _ => []

/-- The definitions that a change adds. -/
def added (change : CatalogChange) : List StepDefinition :=
  change.submissions.filterMap Submission.compiled?

/-- Whether a change removes what is declared at a location. -/
def removes (change : CatalogChange) (l : Location) : Bool :=
  match change with
  | removePath path => l.isIn path
  | _ => false

/-- The change without what it hands in from a file; nothing is left of the insertion of one
definition of that file. -/
def without? (path : String) : CatalogChange → Option CatalogChange
  | insert s => if s.2.2.isIn path then none else some (insert s)
  | extend entries => some (extend (entries.filter fun s => !s.2.2.isIn path))
  | removePath other => some (removePath other)

end CatalogChange

namespace Catalog

/-- **`run changes`** — the catalog that begins empty and undergoes changes. -/
def run (changes : List CatalogChange) : Catalog := changes.foldl CatalogChange.apply {}

/-- **`survivors changes`** — the definitions that compile and that no later change removes, in the
order of their insertion. -/
def survivors : List CatalogChange → List StepDefinition
  | [] => []
  | change :: later =>
    (change.added.filter fun d => !later.any (·.removes d.location)) ++ survivors later

/-! ## §F One change -/

theorem insert_of_ok {s : Submission} {d : StepDefinition} (c : Catalog)
    (h : s.compiled? = some d) :
    c.insert s.1 s.2.1 s.2.2 = .ok ⟨file d.keyword d c.byKeyword⟩ := by
  have hcompile := Submission.compiled?_eq_some h
  rw [insert, hcompile, (StepDefinition.compile_eq_ok_iff.mp hcompile).keyword_eq]
  rfl

theorem insert_of_error {s : Submission} (c : Catalog) (h : s.compiled? = none) :
    ∃ e, s.refusal? = some e ∧ c.insert s.1 s.2.1 s.2.2 = .error e := by
  unfold Submission.compiled? at h
  unfold Submission.refusal? insert
  cases hcompile : StepDefinition.compile s.1 s.2.1 s.2.2 with
  | ok d => rw [hcompile] at h; cases h
  | error e => exact ⟨e, rfl, rfl⟩

theorem refusal?_of_compiled {s : Submission} {d : StepDefinition} (h : s.compiled? = some d) :
    s.refusal? = none := by
  rw [Submission.refusal?, Submission.compiled?_eq_some h]

theorem compiled?_of_refusal {s : Submission} {e : CatalogError} (h : s.refusal? = some e) :
    s.compiled? = none := by
  cases hcompiled : s.compiled? with
  | none => rfl
  | some d =>
    rw [refusal?_of_compiled hcompiled] at h
    cases h

/-- An insertion that is refused leaves the catalog as it was. -/
theorem apply_insert_of_error {c : Catalog} {s : Submission} {e : CatalogError}
    (h : c.insert s.1 s.2.1 s.2.2 = .error e) : CatalogChange.apply c (.insert s) = c := by
  rw [CatalogChange.apply, h]

/-- **`extend_eq`** — many insertions are single insertions one after the other, and the reports are
those of the refused ones, in order. -/
theorem extend_eq (c : Catalog) (entries : List Submission) :
    c.extend entries =
      (entries.foldl (fun c s => CatalogChange.apply c (.insert s)) c,
        entries.filterMap Submission.refusal?) := by
  induction entries generalizing c with
  | nil => rfl
  | cons s entries ih =>
    rw [List.foldl_cons, List.filterMap_cons]
    cases hcompiled : s.compiled? with
    | some d =>
      have hinsert := insert_of_ok c hcompiled
      rw [refusal?_of_compiled hcompiled, extend, CatalogChange.apply, hinsert]
      exact ih _
    | none =>
      obtain ⟨e, hrefusal, hinsert⟩ := insert_of_error c hcompiled
      rw [hrefusal, extend, CatalogChange.apply, hinsert]
      simp only [ih c]

/-- A change that only inserts, one definition or many, is a run of single insertions. -/
theorem apply_eq_foldl {change : CatalogChange} (c : Catalog)
    (h : ∀ path, change ≠ .removePath path) :
    change.apply c =
      change.submissions.foldl (fun c s => CatalogChange.apply c (.insert s)) c := by
  cases change with
  | insert s => rfl
  | extend entries => exact congrArg Prod.fst (extend_eq c entries)
  | removePath path => exact absurd rfl (h path)

theorem Filed.apply_insert {c : Catalog} (hc : c.Filed) (s : Submission) :
    (CatalogChange.apply c (.insert s)).Filed := by
  cases hcompiled : s.compiled? with
  | some d =>
    have haccepted := StepDefinition.compile_eq_ok_iff.mp (Submission.compiled?_eq_some hcompiled)
    rw [CatalogChange.apply, insert_of_ok c hcompiled]
    exact hc.file (haccepted.keyword_eq ▸ haccepted.isConjunction_eq)
  | none =>
    obtain ⟨e, -, hinsert⟩ := insert_of_error c hcompiled
    rw [apply_insert_of_error hinsert]
    exact hc

theorem definitionsFor_apply_insert (c : Catalog) (s : Submission) (keyword : StepKeyword) :
    (CatalogChange.apply c (.insert s)).definitionsFor keyword =
      c.definitionsFor keyword ++ s.compiled?.toList.filter fun d => d.keyword = keyword := by
  cases hcompiled : s.compiled? with
  | some d =>
    rw [CatalogChange.apply, insert_of_ok c hcompiled]
    refine (definitionsFor_file d.keyword keyword d c.byKeyword).trans ?_
    by_cases h : keyword = d.keyword
    · simp [h]
    · simp [h, Ne.symm h]
  | none =>
    obtain ⟨e, -, hinsert⟩ := insert_of_error c hcompiled
    rw [apply_insert_of_error hinsert]
    exact (List.append_nil _).symm

/-- A run of insertions keeps the table and adds what compiles to the end of each keyword. -/
theorem Filed.foldl_insert {c : Catalog} (hc : c.Filed) (entries : List Submission) :
    (entries.foldl (fun c s => CatalogChange.apply c (.insert s)) c).Filed ∧
      ∀ keyword,
        (entries.foldl (fun c s => CatalogChange.apply c (.insert s)) c).definitionsFor keyword =
          c.definitionsFor keyword ++
            (entries.filterMap Submission.compiled?).filter fun d => d.keyword = keyword := by
  induction entries generalizing c with
  | nil => exact ⟨hc, fun keyword => (List.append_nil _).symm⟩
  | cons s entries ih =>
    obtain ⟨hfiled, hdefinitions⟩ := ih (hc.apply_insert s)
    refine ⟨hfiled, fun keyword => ?_⟩
    rw [List.foldl_cons, hdefinitions, definitionsFor_apply_insert, List.append_assoc,
      ← List.filter_append]
    cases hcompiled : s.compiled? <;> simp [hcompiled]

/-- **One change.** It keeps the table; of each keyword it drops what it removes, and adds what it
adds at the end. -/
theorem Filed.apply {c : Catalog} (hc : c.Filed) (change : CatalogChange) :
    (change.apply c).Filed ∧
      ∀ keyword, (change.apply c).definitionsFor keyword =
        ((c.definitionsFor keyword).filter fun d => !change.removes d.location) ++
          change.added.filter fun d => d.keyword = keyword := by
  by_cases hremove : ∃ path, change = .removePath path
  · obtain ⟨path, rfl⟩ := hremove
    refine ⟨hc.removePath path, fun keyword => ?_⟩
    exact (hc.definitionsFor_removePath path keyword).trans (List.append_nil _).symm
  · have hinserts : ∀ path, change ≠ .removePath path := fun path h => hremove ⟨path, h⟩
    have hkeeps : ∀ l, change.removes l = false := by
      intro l
      cases change with
      | insert | extend => rfl
      | removePath path => exact absurd rfl (hinserts path)
    rw [apply_eq_foldl c hinserts]
    obtain ⟨hfiled, hdefinitions⟩ := hc.foldl_insert change.submissions
    refine ⟨hfiled, fun keyword => ?_⟩
    have hall : ((c.definitionsFor keyword).filter fun d => !change.removes d.location) =
        c.definitionsFor keyword := List.filter_eq_self.mpr fun d _ => by rw [hkeeps]; rfl
    rw [hdefinitions, hall]
    rfl

/-! ## §G A run of changes -/

/-- **A run of changes** from any well-filed catalog. -/
theorem Filed.foldl_apply {c : Catalog} (hc : c.Filed) (changes : List CatalogChange) :
    (changes.foldl CatalogChange.apply c).Filed ∧
      ∀ keyword, (changes.foldl CatalogChange.apply c).definitionsFor keyword =
        ((c.definitionsFor keyword).filter fun d => !changes.any (·.removes d.location)) ++
          (survivors changes).filter fun d => d.keyword = keyword := by
  induction changes generalizing c with
  | nil =>
    refine ⟨hc, fun keyword => ?_⟩
    exact ((List.append_nil _).trans (List.filter_eq_self.mpr fun _ _ => rfl)).symm
  | cons change later ih =>
    obtain ⟨hfiled, hstep⟩ := hc.apply change
    obtain ⟨hrun, hdefinitions⟩ := ih hfiled
    refine ⟨hrun, fun keyword => ?_⟩
    rw [List.foldl_cons, hdefinitions, hstep, survivors, List.filter_append, List.filter_append,
      List.append_assoc, List.filter_filter, List.filter_filter, List.filter_filter]
    congr 1
    · refine List.filter_congr fun d _ => ?_
      rw [List.any_cons, Bool.not_or, Bool.and_comm]
    · congr 1
      exact List.filter_congr fun d _ => Bool.and_comm _ _

theorem filed_run (changes : List CatalogChange) : (run changes).Filed :=
  (filed_empty.foldl_apply changes).1

theorem definitionsFor_run (changes : List CatalogChange) (keyword : StepKeyword) :
    (run changes).definitionsFor keyword =
      (survivors changes).filter fun d => d.keyword = keyword :=
  (filed_empty.foldl_apply changes).2 keyword

/-- What survives is registered for a keyword that stands for itself. -/
theorem isConjunction_of_mem_survivors {changes : List CatalogChange} {d : StepDefinition}
    (h : d ∈ survivors changes) : d.keyword.isConjunction = false := by
  induction changes with
  | nil => exact absurd h List.not_mem_nil
  | cons change later ih =>
    rcases List.mem_append.mp h with h | h
    · obtain ⟨s, -, hs⟩ := List.mem_filterMap.mp (List.mem_filter.mp h).1
      have haccepted := StepDefinition.compile_eq_ok_iff.mp (Submission.compiled?_eq_some hs)
      rw [haccepted.keyword_eq]
      exact haccepted.isConjunction_eq
    · exact ih h

theorem length_flatMap_filter {ds : List StepDefinition}
    (h : ∀ d ∈ ds, d.keyword.isConjunction = false) :
    (StepKeyword.concrete.flatMap fun k => ds.filter fun d => d.keyword = k).length =
      ds.length := by
  induction ds with
  | nil => rfl
  | cons d ds ih =>
    obtain ⟨hd, hds⟩ := List.forall_mem_cons.mp h
    have hrest := ih hds
    simp only [StepKeyword.concrete, List.flatMap_cons, List.flatMap_nil, List.length_append,
      List.filter_cons] at hrest ⊢
    cases hkeyword : d.keyword with
    | given | when | «then» =>
      simp only [reduceCtorEq, decide_true, decide_false, if_true, Bool.false_eq_true, if_false,
        List.length_cons]
      omega
    | and | but => rw [hkeyword] at hd; cases hd

theorem size_run (changes : List CatalogChange) :
    (run changes).size = (survivors changes).length := by
  rw [(filed_run changes).size_eq,
    ← length_flatMap_filter fun d hd => isConjunction_of_mem_survivors hd]
  exact congrArg (fun f => (StepKeyword.concrete.flatMap f).length) (funext (definitionsFor_run _))

/-! ## §H A history without a file -/

/-- **`c.SameAnswers c'`** — no question tells two catalogs apart. -/
structure SameAnswers (c c' : Catalog) : Prop where
  definitionsFor_eq : ∀ keyword, c.definitionsFor keyword = c'.definitionsFor keyword
  size_eq : c.size = c'.size
  isEmpty_eq : c.isEmpty = c'.isEmpty
  find_eq : ∀ text, c.find text = c'.find text
  findFor_eq : ∀ keyword text, c.findFor keyword text = c'.findFor keyword text

/-- Catalogs with the same definitions under each keyword answer alike, in whatever order their
tables hold the keywords. -/
theorem Filed.sameAnswers {c c' : Catalog} (hc : c.Filed) (hc' : c'.Filed)
    (h : ∀ keyword, c.definitionsFor keyword = c'.definitionsFor keyword) : c.SameAnswers c' := by
  have hall : c.definitionsFor = c'.definitionsFor := funext h
  have hsize : c.size = c'.size := by rw [hc.size_eq, hc'.size_eq, hall]
  have hfind : ∀ text, c.find text = c'.find text := by
    intro text
    rw [find, hall]
    rfl
  refine ⟨h, hsize, ?_, hfind, ?_⟩
  · rw [Bool.eq_iff_iff, hc.isEmpty_iff, hc'.isEmpty_iff, hsize]
  · intro keyword text
    rw [findFor, hfind, hall]
    rfl

theorem filterMap_compiled_without (path : String) (entries : List Submission) :
    (entries.filter fun s => !s.2.2.isIn path).filterMap Submission.compiled? =
      (entries.filterMap Submission.compiled?).filter fun d => !d.location.isIn path := by
  induction entries with
  | nil => rfl
  | cons s entries ih =>
    have hlocation : ∀ d, s.compiled? = some d → d.location = s.2.2 := fun d hd =>
      (StepDefinition.compile_eq_ok_iff.mp (Submission.compiled?_eq_some hd)).location_eq
    rw [List.filter_cons, List.filterMap_cons]
    cases hcompiled : s.compiled? with
    | none => split <;> simp [hcompiled, ih]
    | some d =>
      rw [List.filter_cons, hlocation d hcompiled]
      split <;> simp [hcompiled, ih]

theorem added_without (path : String) (change : CatalogChange) :
    (change.without? path).toList.flatMap CatalogChange.added =
      change.added.filter fun d => !d.location.isIn path := by
  cases change with
  | insert s =>
    refine Eq.trans ?_ (filterMap_compiled_without path [s])
    rw [CatalogChange.without?, List.filter_cons]
    cases s.2.2.isIn path with
    | true => rfl
    | false => exact List.append_nil _
  | extend entries => exact (List.append_nil _).trans (filterMap_compiled_without path entries)
  | removePath other => rfl

theorem any_removes_without (path : String) (changes : List CatalogChange) (l : Location) :
    (changes.filterMap (CatalogChange.without? path)).any (·.removes l) =
      changes.any (·.removes l) := by
  induction changes with
  | nil => rfl
  | cons change later ih =>
    rw [List.filterMap_cons, List.any_cons]
    cases change with
    | insert s =>
      rw [CatalogChange.without?]
      cases s.2.2.isIn path with
      | true => exact ih
      | false => exact ih
    | extend entries => exact ih
    | removePath other => exact congrArg (l.isIn other || ·) ih

/-- What survives a history without a file is what survives the whole history elsewhere. -/
theorem survivors_without (path : String) (changes : List CatalogChange) :
    survivors (changes.filterMap (CatalogChange.without? path)) =
      (survivors changes).filter fun d => !d.location.isIn path := by
  induction changes with
  | nil => rfl
  | cons change later ih =>
    have hcons : survivors ((change :: later).filterMap (CatalogChange.without? path)) =
        (((change.without? path).toList.flatMap CatalogChange.added).filter fun d =>
          !later.any (·.removes d.location)) ++
          survivors (later.filterMap (CatalogChange.without? path)) := by
      rw [List.filterMap_cons]
      cases change.without? path with
      | none => rfl
      | some left =>
        rw [survivors, Option.toList_some, List.flatMap_singleton]
        simp only [any_removes_without]
    rw [hcons, added_without, ih, survivors, List.filter_append, List.filter_filter,
      List.filter_filter]
    congr 1
    exact List.filter_congr fun d _ => Bool.and_comm _ _

/-! ## §I Changes in place -/

/-- A change of a catalog in place. A failure leaves the catalog as it stands at that point. -/
abbrev Filing := InPlace Catalog CatalogError

namespace Filing

/-- Enters a keyword with no definitions, unless it is entered already. -/
def enter (keyword : StepKeyword) (table : List (StepKeyword × List StepDefinition)) :
    List (StepKeyword × List StepDefinition) :=
  if keyword ∈ table.map Prod.fst then table else table ++ [(keyword, [])]

/-- Adds a definition behind those of a keyword that is entered. -/
def push (keyword : StepKeyword) (d : StepDefinition) :
    List (StepKeyword × List StepDefinition) → List (StepKeyword × List StepDefinition)
  | [] => []
  | (key, ds) :: rest =>
    if keyword = key then (key, ds ++ [d]) :: rest else (key, ds) :: push keyword d rest

/-- Compiles a definition, enters its keyword, and adds the definition there. -/
def insert (s : Submission) : Filing Unit := do
  let d ← ofExcept (StepDefinition.compile s.1 s.2.1 s.2.2)
  modify fun c => ⟨enter s.1 c.byKeyword⟩
  modify fun c => ⟨push s.1 d c.byKeyword⟩

/-- Adds definitions one after the other; what is refused is reported behind other reports. -/
def extend (reports : List CatalogError) : List Submission → StateM Catalog (List CatalogError)
  | [] => pure reports
  | s :: rest => do
    match ← (insert s).run with
    | .ok () => extend reports rest
    | .error e => extend (reports ++ [e]) rest

/-- Drops the definitions declared in a file under each keyword, and then the keywords that have
none left. -/
def removePath (path : String) : StateM Catalog Unit := do
  modify fun c =>
    ⟨c.byKeyword.map fun (key, ds) => (key, ds.filter fun d => !d.location.isIn path)⟩
  modify fun c => ⟨c.byKeyword.filter fun (_, ds) => !ds.isEmpty⟩

/-- A change, with the reports of what it refuses. -/
def change : CatalogChange → StateM Catalog (List CatalogError)
  | .insert s => do
    match ← (insert s).run with
    | .ok () => return []
    | .error e => return [e]
  | .extend entries => extend [] entries
  | .removePath path => do
    removePath path
    return []

/-- Changes one after the other, with all reports. -/
def replay : List CatalogChange → StateM Catalog (List CatalogError)
  | [] => return []
  | x :: rest => do
    let reports ← change x
    return reports ++ (← replay rest)

/-- To enter a keyword and then to add a definition under it is to file the definition. -/
theorem push_enter (keyword : StepKeyword) (d : StepDefinition)
    (table : List (StepKeyword × List StepDefinition)) :
    push keyword d (enter keyword table) = file keyword d table := by
  induction table with
  | nil => simp [enter, push, file]
  | cons first table ih =>
    obtain ⟨key, ds⟩ := first
    by_cases hkey : keyword = key
    · simp [enter, push, file, hkey]
    · have henter : enter keyword ((key, ds) :: table) = (key, ds) :: enter keyword table := by
        simp only [enter, List.map_cons, List.mem_cons, hkey, false_or]
        split <;> rfl
      rw [henter, push, file, if_neg hkey, if_neg hkey, ih]

/-- **One insertion in place.** What is refused leaves the catalog as it was. -/
theorem apply_insert (c : Catalog) (s : Submission) :
    (insert s).apply c =
      match c.insert s.1 s.2.1 s.2.2 with
      | .ok c' => (.ok (), c')
      | .error e => (.error e, c) := by
  unfold insert Catalog.insert
  cases StepDefinition.compile s.1 s.2.1 s.2.2 with
  | error e => rfl
  | ok d =>
    show (Except.ok (), Catalog.mk (push s.1 d (enter s.1 c.byKeyword))) =
      (Except.ok (), Catalog.mk (file s.1 d c.byKeyword))
    rw [push_enter]

/-- **Many insertions in place.** -/
theorem run_extend (c : Catalog) (reports : List CatalogError) (entries : List Submission) :
    (extend reports entries).run c = (reports ++ (c.extend entries).2, (c.extend entries).1) := by
  induction entries generalizing c reports with
  | nil => exact congrArg (·, c) (List.append_nil reports).symm
  | cons s entries ih =>
    have hfirst : (insert s).run.run c = _ := apply_insert c s
    rw [extend, StateT.run_bind, hfirst, Catalog.extend]
    cases c.insert s.1 s.2.1 s.2.2 with
    | ok c' => exact ih c' reports
    | error e =>
      refine (ih c (reports ++ [e])).trans ?_
      rw [List.append_assoc]
      rfl

/-- **One change in place** leaves the catalog of the change, and reports what it refuses. -/
theorem run_change (c : Catalog) (x : CatalogChange) :
    (change x).run c = (x.submissions.filterMap Submission.refusal?, x.apply c) := by
  cases x with
  | insert s =>
    have hfirst : (insert s).run.run c = _ := apply_insert c s
    rw [change, StateT.run_bind, hfirst, CatalogChange.submissions, CatalogChange.apply]
    cases hcompiled : s.compiled? with
    | some d =>
      rw [insert_of_ok c hcompiled, List.filterMap_cons, refusal?_of_compiled hcompiled]
      rfl
    | none =>
      obtain ⟨e, hrefusal, hinsert⟩ := insert_of_error c hcompiled
      rw [hinsert, List.filterMap_cons, hrefusal]
      rfl
  | extend entries =>
    refine (run_extend c [] entries).trans ?_
    rw [List.nil_append, CatalogChange.apply, extend_eq]
    rfl
  | removePath path => rfl

/-- **A run of changes in place** leaves the catalog of the run, and reports what is refused, in
order. -/
theorem run_replay (c : Catalog) (changes : List CatalogChange) :
    (replay changes).run c =
      (changes.flatMap fun x => x.submissions.filterMap Submission.refusal?,
        changes.foldl CatalogChange.apply c) := by
  induction changes generalizing c with
  | nil => rfl
  | cons x rest ih =>
    rw [replay, StateT.run_bind, run_change]
    show ((replay rest >>= fun reports => pure (_ ++ reports)) : StateM _ _).run (x.apply c) = _
    rw [StateT.run_bind, ih]
    rfl

end Filing

/-! ## §J What a catalog keeps -/

/-- **`c.KeepsHistory changes`** — the catalog is what changes leave of an empty one. -/
structure KeepsHistory (c : Catalog) (changes : List CatalogChange) : Prop where
  /-- Under each keyword are the survivors that are registered for it, in order. -/
  definitionsFor_eq : ∀ keyword,
    c.definitionsFor keyword = (survivors changes).filter fun d => d.keyword = keyword
  /-- Nothing is filed under a conjunction. -/
  conjunctions_eq : c.definitionsFor .and = [] ∧ c.definitionsFor .but = []
  /-- No keyword is entered twice, and none without definitions of its own. -/
  entered : (c.byKeyword.map Prod.fst).Nodup ∧
    ∀ keyword ds, (keyword, ds) ∈ c.byKeyword →
      ds ≠ [] ∧ keyword.isConjunction = false ∧ ∀ d ∈ ds, d.keyword = keyword
  size_eq : c.size = (survivors changes).length
  isEmpty_iff : c.isEmpty = true ↔ c.size = 0
  /-- An insertion that is refused changes nothing. -/
  refused : ∀ s : Submission, ∀ e, c.insert s.1 s.2.1 s.2.2 = .error e →
    s.refusal? = some e ∧ CatalogChange.apply c (.insert s) = c
  /-- Many insertions are single ones in a row, with the reports of the refused ones. -/
  extend_eq : ∀ entries, c.extend entries =
    (entries.foldl (fun c s => CatalogChange.apply c (.insert s)) c,
      entries.filterMap Submission.refusal?)
  /-- Every definition of many that compiles is added, whatever is refused before it. -/
  extended : ∀ entries keyword, (c.extend entries).1.definitionsFor keyword =
    c.definitionsFor keyword ++
      (entries.filterMap Submission.compiled?).filter fun d => d.keyword = keyword
  /-- Carried out in place, the changes leave this catalog, and what is refused is reported. -/
  inPlace : (Filing.replay changes).run {} =
    (changes.flatMap fun x => x.submissions.filterMap Submission.refusal?, c)
  /-- An insertion that is refused in place says why and leaves the catalog as it was. -/
  refused_inPlace : ∀ s : Submission, ∀ e, s.refusal? = some e →
    (Filing.insert s).apply c = (.error e, c)
  /-- One that is not refused files the definition. -/
  inserted_inPlace : ∀ s : Submission, ∀ d, s.compiled? = some d →
    (Filing.insert s).apply c = (.ok (), CatalogChange.apply c (.insert s))
  extended_inPlace : ∀ entries,
    (Filing.extend [] entries).run c = ((c.extend entries).2, (c.extend entries).1)
  /-- Removing a file is never having inserted from it. -/
  removed : ∀ path, (c.removePath path).SameAnswers
    (run (changes.filterMap (CatalogChange.without? path)))

theorem refusal?_of_insert {c : Catalog} {s : Submission} {e : CatalogError}
    (h : c.insert s.1 s.2.1 s.2.2 = .error e) : s.refusal? = some e := by
  cases hcompiled : s.compiled? with
  | some d => rw [insert_of_ok c hcompiled] at h; cases h
  | none =>
    obtain ⟨other, hrefusal, hinsert⟩ := insert_of_error c hcompiled
    rw [hinsert] at h
    rw [hrefusal, Except.error.inj h]

/-- **`run_keepsHistory`** — after every run of changes a catalog holds exactly the definitions that
compile and that no later change removes, each under its keyword and in order. -/
theorem run_keepsHistory (changes : List CatalogChange) : (run changes).KeepsHistory changes := by
  have hfiled := filed_run changes
  constructor
  case definitionsFor_eq => exact definitionsFor_run changes
  case conjunctions_eq =>
    exact ⟨hfiled.definitionsFor_eq_nil rfl, hfiled.definitionsFor_eq_nil rfl⟩
  case entered =>
    refine ⟨hfiled.nodup_keys, fun keyword ds hmem => ?_⟩
    have hsound := hfiled.sound _ hmem
    exact ⟨hsound.ne_nil, hsound.isConjunction_eq, hsound.keyword_eq⟩
  case size_eq => exact size_run changes
  case isEmpty_iff => exact hfiled.isEmpty_iff
  case refused => exact fun s e h => ⟨refusal?_of_insert h, apply_insert_of_error h⟩
  case extend_eq => exact extend_eq (run changes)
  case extended =>
    intro entries keyword
    rw [extend_eq]
    exact (hfiled.foldl_insert entries).2 keyword
  case inPlace => exact Filing.run_replay {} changes
  case refused_inPlace =>
    intro s e h
    obtain ⟨other, hrefusal, hinsert⟩ := insert_of_error (run changes) (compiled?_of_refusal h)
    rw [Filing.apply_insert, hinsert, Option.some.inj (hrefusal.symm.trans h)]
  case inserted_inPlace =>
    intro s d h
    rw [Filing.apply_insert, CatalogChange.apply, insert_of_ok (run changes) h]
  case extended_inPlace => exact Filing.run_extend (run changes) []
  case removed =>
    intro path
    refine (hfiled.removePath path).sameAnswers (filed_run _) fun keyword => ?_
    rw [hfiled.definitionsFor_removePath, definitionsFor_run, definitionsFor_run, survivors_without,
      List.filter_filter, List.filter_filter]
    exact List.filter_congr fun d _ => Bool.and_comm _ _

end Catalog

end FeatureFile
