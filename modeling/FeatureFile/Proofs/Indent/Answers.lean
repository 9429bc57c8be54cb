/-
# FeatureFile.Proofs.Indent.Answers — how a document answers calls

A document is asked to answer the Enter key, to take in a text, and to change whether it may be
written to (`Call`). Enter is checked in two places: the handler looks at the lock and at the length
of the text before anything else, and the insertion, which is reached only if the handler is on,
nothing is selected and a keyword stands in front of the caret, looks for a character boundary. So a
caret inside a character is an error only where something would be inserted.

What each answer means is said as a condition on the document before the call (`EnterAnswers`,
`InsertAnswers`), and every run of calls gives such answers one after the other (`Follows`). A call
is also carried out in place (`Edit`), where a failure does not take back what was done before it:
it comes to the same, since every check stands in front of the one place that writes.

Main statement: `run_givesAnswers`.
-/

import FeatureFile.Proofs.InPlace
import FeatureFile.Proofs.Indent.LastKeyword
import FeatureFile.Proofs.Text.Cuts

namespace FeatureFile

open Text (byteLength byteSize)

/-! ## §A Calls -/

/-- What a document is asked to do. -/
inductive Call where
  /-- Enter is pressed at a caret. -/
  | enter (h : LineBreakHandler) (c : Caret)
  | insert (offset : Nat) (text : String)
  | setWritable (writable : Bool)
  deriving DecidableEq, Repr

/-- What comes of a call. -/
inductive Answer where
  /-- Whether Enter was handled. -/
  | handled (handled : Bool)
  | inserted
  | switched
  | refused (e : Error)
  deriving DecidableEq, Repr

/-- Whether the text was changed. -/
def Answer.edits : Answer → Bool
  | .handled done => done
  | .inserted => true
  | .switched | .refused _ => false

namespace Document

/-- The document behind a call, and the answer. -/
def call (d : Document) : Call → Document × Answer
  | .enter h c =>
    match h.handle d c with
    | .ok (d, handled) => (d, .handled handled)
    | .error e => (d, .refused e)
  | .insert offset text =>
    match d.insert offset text with
    | .ok d => (d, .inserted)
    | .error e => (d, .refused e)
  | .setWritable writable => ({ d with writable }, .switched)

/-- The document behind calls one after the other, and the answers. -/
def run (d : Document) : List Call → Document × List Answer
  | [] => (d, [])
  | x :: calls =>
    let (d, answer) := d.call x
    let (d, answers) := d.run calls
    (d, answer :: answers)

end Document

/-! ## §B Calls in place -/

/-- An edit of a document in place. A failure leaves the document as it stands at that point. -/
abbrev Edit := InPlace Document Error

namespace Edit

/-- Inserts a text at a byte offset. -/
def insert (offset : Nat) (text : String) : Edit Unit := do
  let d ← get
  if !d.writable then throw .writeBlocked
  match Text.splitAt? offset d.text.toList with
  | some (before, after) => set { d with text := String.ofList (before ++ text.toList ++ after) }
  | none => throw (.offsetOutOfRange offset d.length)

/-- Answers the Enter key at a caret. -/
def enter (h : LineBreakHandler) (c : Caret) : Edit Bool := do
  let d ← get
  if !d.writable then throw .writeBlocked
  if d.length < c.offset then throw (.offsetOutOfRange c.offset d.length)
  if !h.enabled then return false
  if c.hasSelection then return false
  if c.offset == 0 then return false
  match lineBreakText? d.text c.offset h.options with
  | none => return false
  | some text =>
    insert c.offset text
    return true

end Edit

/-- The answer that a value or a failure gives. -/
def Answer.ofResult {α : Type} (done : α → Answer) : Except Error α → Answer
  | .ok a => done a
  | .error e => .refused e

/-! ## §C What answers mean -/

/-- **`KeywordBefore text offset`** — a keyword starts in front of an offset. -/
def KeywordBefore (text : String) (offset : Nat) : Prop :=
  ∃ t ∈ tokenize text, t.keyword? ≠ none ∧ t.span.start < offset

/-- **`Asks h d c`** — a press of Enter asks for an insertion: the handler is on, nothing is
selected, the caret is not at the start, and a keyword precedes it. -/
structure Asks (h : LineBreakHandler) (d : Document) (c : Caret) : Prop where
  enabled : h.enabled = true
  unselected : c.selectionStop ≤ c.selectionStart
  positive : 0 < c.offset
  keyword : KeywordBefore d.text c.offset

/-- **`EnterAnswers h c d answer d'`** — what an answer to Enter says about the document before it,
and what it leaves behind. -/
structure EnterAnswers (h : LineBreakHandler) (c : Caret) (d : Document) (answer : Answer)
    (d' : Document) : Prop where
  blocked : answer = .refused .writeBlocked ↔ d.writable = false
  outside : answer = .refused (.offsetOutOfRange c.offset d.length) ↔
    d.writable = true ∧
      (d.length < c.offset ∨ Text.isBoundary c.offset d.text.toList = false ∧ Asks h d c)
  handled : answer = .handled true ↔
    d.writable = true ∧ Text.isBoundary c.offset d.text.toList = true ∧ Asks h d c
  passed : answer = .handled false ↔
    d.writable = true ∧ c.offset ≤ d.length ∧ ¬Asks h d c
  complete : answer = .refused .writeBlocked ∨
    answer = .refused (.offsetOutOfRange c.offset d.length) ∨ answer = .handled true ∨
      answer = .handled false
  inserts : answer = .handled true →
    ∃ x, lineBreakText? d.text c.offset h.options = some x ∧ d.Inserts c.offset x d'
  unchanged : answer ≠ .handled true → d' = d
  writable : d'.writable = d.writable
  inPlace : ∃ result, (Edit.enter h c).apply d = (result, d') ∧
    Answer.ofResult .handled result = answer

/-- **`InsertAnswers offset x d answer d'`** — what an answer to an insertion says about the
document before it, and what it leaves behind. -/
structure InsertAnswers (offset : Nat) (x : String) (d : Document) (answer : Answer)
    (d' : Document) : Prop where
  blocked : answer = .refused .writeBlocked ↔ d.writable = false
  outside : answer = .refused (.offsetOutOfRange offset d.length) ↔
    d.writable = true ∧ Text.isBoundary offset d.text.toList = false
  inserted : answer = .inserted ↔
    d.writable = true ∧ Text.isBoundary offset d.text.toList = true
  complete : answer = .refused .writeBlocked ∨
    answer = .refused (.offsetOutOfRange offset d.length) ∨ answer = .inserted
  inserts : answer = .inserted → d.Inserts offset x d'
  unchanged : answer ≠ .inserted → d' = d
  writable : d'.writable = d.writable
  inPlace : ∃ result, (Edit.insert offset x).apply d = (result, d') ∧
    Answer.ofResult (fun _ => .inserted) result = answer

/-- **`Answers d x answer d'`** — a document gives an answer to a call, and it is left as another
one. -/
def Answers (d : Document) (x : Call) (answer : Answer) (d' : Document) : Prop :=
  match x with
  | .enter h c => EnterAnswers h c d answer d'
  | .insert offset text => InsertAnswers offset text d answer d'
  | .setWritable writable => answer = .switched ∧ d' = { d with writable }

/-- **`Follows d calls answers d'`** — each call is answered by the document that the calls before
it have left. -/
inductive Follows : Document → List Call → List Answer → Document → Prop
  | nil {d : Document} : Follows d [] [] d
  | cons {d d' d'' : Document} {x : Call} {calls : List Call} {answer : Answer}
      {answers : List Answer} : Answers d x answer d' → Follows d' calls answers d'' →
      Follows d (x :: calls) (answer :: answers) d''

/-! ## §D One call in place -/

namespace Edit

theorem apply_insert (d : Document) (offset : Nat) (x : String) :
    (insert offset x).apply d =
      match d.insert offset x with
      | .ok d' => (.ok (), d')
      | .error e => (.error e, d) := by
  unfold insert Document.insert
  rw [InPlace.apply_get_bind]
  cases hwritable : d.writable with
  | false => rfl
  | true => cases Text.splitAt? offset d.text.toList <;> simp

theorem apply_enter (d : Document) (h : LineBreakHandler) (c : Caret) :
    (enter h c).apply d =
      match h.handle d c with
      | .ok (d', done) => (.ok done, d')
      | .error e => (.error e, d) := by
  unfold enter LineBreakHandler.handle
  rw [InPlace.apply_get_bind]
  cases hwritable : d.writable with
  | false => rfl
  | true =>
    by_cases hlt : d.length < c.offset
    · simp [hlt]
    cases hguard : !h.enabled || c.hasSelection || c.offset == 0 with
    | true =>
      have hguard' : (!h.enabled) = true ∨ c.hasSelection = true ∨ (c.offset == 0) = true := by
        simpa [or_assoc] using hguard
      rcases hguard' with h' | h' | h' <;> simp [hlt, h']
    | false =>
      obtain ⟨⟨henabled, hselection⟩, hoffset⟩ :
          (h.enabled = true ∧ c.hasSelection = false) ∧ c.offset ≠ 0 := by simpa using hguard
      cases lineBreakText? d.text c.offset h.options with
      | none => simp [hlt, henabled, hselection, hoffset]
      | some x =>
        have hinsert : (insert c.offset x >>= fun _ => pure true).apply d =
            match (d.insert c.offset x).map fun d => (d, true) with
            | .ok (d', done) => (.ok done, d')
            | .error e => (.error e, d) := by
          rw [InPlace.apply_bind, apply_insert]
          cases d.insert c.offset x <;> rfl
        simp [-bind_pure_comp, hlt, henabled, hselection, hoffset, hinsert]

end Edit

/-! ## §E One call -/

/-- Something is inserted where a keyword precedes the caret, and only there. -/
theorem lineBreakText?_eq_none_iff {source : String} {offset : Nat} {o : IndentOptions} :
    lineBreakText? source offset o = none ↔ ¬KeywordBefore source offset := by
  have hordered := (tiles_tokenize source).pairwise_start
  unfold lineBreakText? KeywordBefore
  rw [Option.map_eq_none_iff, lastKeywordBefore?_eq_none_iff hordered]
  simp only [not_exists, not_and, Nat.not_lt]

/-- A boundary lies in the text. -/
theorem le_length_of_isBoundary {d : Document} {offset : Nat}
    (h : Text.isBoundary offset d.text.toList = true) : offset ≤ d.length := by
  obtain ⟨before, after, htext, hlen⟩ := Text.exists_of_isBoundary h
  rw [Document.length, byteSize, htext, Text.byteLength_append]
  omega

/-- An insertion comes to the same in place. -/
theorem insert_inPlace (d : Document) (offset : Nat) (x : String) :
    ∃ result, (Edit.insert offset x).apply d = (result, (d.call (.insert offset x)).1) ∧
      Answer.ofResult (fun _ => .inserted) result = (d.call (.insert offset x)).2 := by
  rw [Edit.apply_insert, Document.call]
  cases d.insert offset x <;> exact ⟨_, rfl, rfl⟩

/-- A press of Enter comes to the same in place. -/
theorem enter_inPlace (d : Document) (h : LineBreakHandler) (c : Caret) :
    ∃ result, (Edit.enter h c).apply d = (result, (d.call (.enter h c)).1) ∧
      Answer.ofResult .handled result = (d.call (.enter h c)).2 := by
  rw [Edit.apply_enter, Document.call]
  cases h.handle d c <;> exact ⟨_, rfl, rfl⟩

/-- An insertion at a boundary goes where the text is cut. -/
theorem inserts_of_splitAt? {d : Document} {offset : Nat} {x : String} {before after : List Char}
    (h : Text.splitAt? offset d.text.toList = some (before, after)) :
    d.Inserts offset x { d with text := String.ofList (before ++ x.toList ++ after) } := by
  obtain ⟨happend, hlen⟩ := Text.splitAt?_append h
  exact ⟨before, after, happend.symm, hlen, rfl⟩

theorem insert_answers (d : Document) (offset : Nat) (x : String) :
    InsertAnswers offset x d (d.call (.insert offset x)).2 (d.call (.insert offset x)).1 := by
  have hplace := insert_inPlace d offset x
  cases hwritable : d.writable with
  | false =>
    have hcall : d.call (.insert offset x) = (d, .refused .writeBlocked) := by
      simp [Document.call, Document.insert, hwritable]
    rw [hcall] at hplace ⊢
    constructor
    case inPlace => exact hplace
    all_goals simp [hwritable]
  | true =>
    cases hcut : Text.splitAt? offset d.text.toList with
    | none =>
      have hcall : d.call (.insert offset x) =
          (d, .refused (.offsetOutOfRange offset d.length)) := by
        simp [Document.call, Document.insert, hwritable, hcut]
      rw [hcall] at hplace ⊢
      constructor
      case inPlace => exact hplace
      all_goals simp [hwritable, Text.isBoundary, hcut]
    | some halves =>
      obtain ⟨before, after⟩ := halves
      have hcall : d.call (.insert offset x) =
          ({ d with text := String.ofList (before ++ x.toList ++ after) }, .inserted) := by
        simp [Document.call, Document.insert, hwritable, hcut]
      rw [hcall] at hplace ⊢
      constructor
      case inserts => exact fun _ => inserts_of_splitAt? hcut
      case inPlace => exact hplace
      all_goals simp [hwritable, Text.isBoundary, hcut]

/-- A press that asks for no insertion is left to the caller. -/
theorem handle_of_not_asks {h : LineBreakHandler} {d : Document} {c : Caret}
    (hwritable : d.writable = true) (hle : c.offset ≤ d.length) (hasks : ¬Asks h d c) :
    h.handle d c = .ok (d, false) := by
  unfold LineBreakHandler.handle
  rw [if_neg (by simp [hwritable]), if_neg (by omega)]
  split
  · rfl
  · rename_i hguard
    obtain ⟨⟨henabled, hselection⟩, hoffset⟩ :
        (h.enabled = true ∧ c.selectionStop ≤ c.selectionStart) ∧ c.offset ≠ 0 := by
      simpa [Caret.hasSelection] using hguard
    have hkeyword : ¬KeywordBefore d.text c.offset := fun hkeyword =>
      hasks ⟨henabled, hselection, Nat.pos_of_ne_zero hoffset, hkeyword⟩
    rw [lineBreakText?_eq_none_iff.mpr hkeyword]

/-- A press that asks for an insertion inserts what belongs there, if the document lets it. -/
theorem handle_of_asks {h : LineBreakHandler} {d : Document} {c : Caret}
    (hwritable : d.writable = true) (hle : c.offset ≤ d.length) (hasks : Asks h d c) :
    ∃ x, lineBreakText? d.text c.offset h.options = some x ∧
      h.handle d c = (d.insert c.offset x).map fun d => (d, true) := by
  obtain ⟨x, hx⟩ : ∃ x, lineBreakText? d.text c.offset h.options = some x :=
    Option.ne_none_iff_exists'.mp fun hnone =>
      lineBreakText?_eq_none_iff.mp hnone hasks.keyword
  have hselection : c.hasSelection = false := by
    simpa [Caret.hasSelection] using hasks.unselected
  have hoffset : c.offset ≠ 0 := Nat.ne_of_gt hasks.positive
  refine ⟨x, hx, ?_⟩
  unfold LineBreakHandler.handle
  rw [if_neg (by simp [hwritable]), if_neg (by omega),
    if_neg (by simp [hasks.enabled, hselection, hoffset]), hx]

/-- Enter is answered by the first of these that applies: a lock, a caret behind the text, nothing
to insert, a caret inside a character, and the insertion. -/
theorem enter_answers (d : Document) (h : LineBreakHandler) (c : Caret) :
    EnterAnswers h c d (d.call (.enter h c)).2 (d.call (.enter h c)).1 := by
  have hplace := enter_inPlace d h c
  cases hwritable : d.writable with
  | false =>
    have hcall : d.call (.enter h c) = (d, .refused .writeBlocked) := by
      simp [Document.call, LineBreakHandler.handle, hwritable]
    rw [hcall] at hplace ⊢
    constructor
    case inPlace => exact hplace
    all_goals simp [hwritable]
  | true =>
    by_cases hlt : d.length < c.offset
    · have hcall : d.call (.enter h c) = (d, .refused (.offsetOutOfRange c.offset d.length)) := by
        simp [Document.call, LineBreakHandler.handle, hwritable, hlt]
      have hboundary : Text.isBoundary c.offset d.text.toList = false := by
        by_contra hboundary
        have := le_length_of_isBoundary (by simpa using hboundary)
        omega
      rw [hcall] at hplace ⊢
      constructor
      case inPlace => exact hplace
      all_goals simp [hwritable, hlt, hboundary]
    have hle : c.offset ≤ d.length := Nat.le_of_not_lt hlt
    by_cases hasks : Asks h d c
    · obtain ⟨x, hx, hhandle⟩ := handle_of_asks hwritable hle hasks
      cases hcut : Text.splitAt? c.offset d.text.toList with
      | none =>
        have hcall : d.call (.enter h c) =
            (d, .refused (.offsetOutOfRange c.offset d.length)) := by
          simp [Document.call, hhandle, Document.insert, hwritable, hcut, Except.map]
        rw [hcall] at hplace ⊢
        constructor
        case inPlace => exact hplace
        all_goals simp [hwritable, Text.isBoundary, hcut, hasks]
      | some halves =>
        obtain ⟨before, after⟩ := halves
        have hcall : d.call (.enter h c) =
            ({ d with text := String.ofList (before ++ x.toList ++ after) }, .handled true) := by
          simp [Document.call, hhandle, Document.insert, hwritable, hcut, Except.map]
        rw [hcall] at hplace ⊢
        constructor
        case inserts => exact fun _ => ⟨x, hx, inserts_of_splitAt? hcut⟩
        case inPlace => exact hplace
        all_goals simp [hwritable, Text.isBoundary, hcut, hasks, hlt]
    · have hcall : d.call (.enter h c) = (d, .handled false) := by
        simp [Document.call, handle_of_not_asks hwritable hle hasks]
      rw [hcall] at hplace ⊢
      constructor
      case inPlace => exact hplace
      all_goals simp [hwritable, hasks, hle]

/-- Every call is answered as its kind says. -/
theorem call_answers (d : Document) (x : Call) : Answers d x (d.call x).2 (d.call x).1 := by
  cases x with
  | enter h c => exact enter_answers d h c
  | insert offset text => exact insert_answers d offset text
  | setWritable writable => exact ⟨rfl, rfl⟩

/-! ## §F Runs -/

/-- What a call makes of the permission to write. -/
def Call.setting? : Call → Option Bool
  | .setWritable writable => some writable
  | .enter .. | .insert .. => none

/-- Only a change of the permission changes it. -/
theorem Answers.writable {d d' : Document} {x : Call} {answer : Answer}
    (h : Answers d x answer d') : d'.writable = x.setting?.getD d.writable := by
  cases x with
  | enter => exact EnterAnswers.writable h
  | insert => exact InsertAnswers.writable h
  | setWritable writable => exact congrArg Document.writable h.2

/-- A call changes the text only if its answer says so. -/
theorem Answers.text {d d' : Document} {x : Call} {answer : Answer} (h : Answers d x answer d')
    (hedits : answer.edits = false) : d'.text = d.text := by
  cases x with
  | enter =>
    have hne : answer ≠ .handled true := by
      rintro rfl
      exact absurd hedits (by decide)
    exact congrArg Document.text (EnterAnswers.unchanged h hne)
  | insert =>
    have hne : answer ≠ .inserted := by
      rintro rfl
      exact absurd hedits (by decide)
    exact congrArg Document.text (InsertAnswers.unchanged h hne)
  | setWritable =>
    obtain ⟨-, rfl⟩ := h
    rfl

/-- **`run_givesAnswers`** — along every run each call is answered by the document that the calls
before it have left: what the answer is, is decided by whether the document may be written to, by
where the caret lies, and by whether an insertion is asked for. What may be written to in the end is
what the last change of the permission said, and where no answer tells of an edit, the text is the
one of the beginning. -/
theorem run_givesAnswers (d : Document) (calls : List Call) :
    Follows d calls (d.run calls).2 (d.run calls).1 ∧
      (d.run calls).1.writable = ((calls.filterMap Call.setting?).getLast?.getD d.writable) ∧
      ((∀ answer ∈ (d.run calls).2, answer.edits = false) → (d.run calls).1.text = d.text) := by
  induction calls generalizing d with
  | nil => exact ⟨.nil, rfl, fun _ => rfl⟩
  | cons x calls ih =>
    obtain ⟨hfollows, hwritable, htext⟩ := ih (d.call x).1
    have hstep := call_answers d x
    have hrun : d.run (x :: calls) =
        (((d.call x).1.run calls).1, (d.call x).2 :: ((d.call x).1.run calls).2) := rfl
    rw [hrun]
    refine ⟨.cons hstep hfollows, ?_, fun hedits => ?_⟩
    · rw [hwritable, hstep.writable]
      cases hsetting : x.setting? with
      | none => rw [List.filterMap_cons_none hsetting, Option.getD_none]
      | some writable =>
        rw [List.filterMap_cons_some hsetting, List.getLast?_cons, Option.getD_some,
          Option.getD_some]
    · obtain ⟨hhere, hrest⟩ := List.forall_mem_cons.mp hedits
      rw [htext hrest, hstep.text hhere]

end FeatureFile
