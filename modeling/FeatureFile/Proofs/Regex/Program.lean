/-
# FeatureFile.Proofs.Regex.Program — the code of an expression does what the expression matches

A stretch of code is understood by what its threads pass of the text on the way from its address to
where it continues (`Block`). Such stretches compose: one behind the other, at a branch, in a loop.
So the code of an expression, wherever it is placed in a program, passes the text as the expression
matches it (`block_code`), and what the whole program records at its end is what a match records
(`finishes_program_iff`).

Both directions speak of threads that reach the end of the program; the number of their steps
carries the induction over a loop, since each turn leaves fewer steps to take.
-/

import FeatureFile.Proofs.Regex.Matches

namespace FeatureFile

namespace Regex

open Instruction

/-! ## §A Threads that reach the end -/

/-- **`Finishes program text n t found`** — a thread can reach the end in so many steps, and has
recorded `found` when it does. -/
inductive Finishes (program : Array Instruction) (text : Array Char) :
    Nat → Thread → List (Nat × Nat) → Prop
  | accept {t : Thread} (h : program[t.pc]? = some .accept) :
    Finishes program text 0 t t.marks
  | step {n : Nat} {t u : Thread} {x : Instruction} {found : List (Nat × Nat)}
    (h : program[t.pc]? = some x) (hu : u ∈ advance text t x)
    (hn : Finishes program text n u found) : Finishes program text (n + 1) t found

section Blocks

variable {program : Array Instruction} {text : Array Char} {pc next : Nat} {P Q : Passage}

/-- A thread at an instruction that does not accept goes where the instruction sends it. -/
theorem Finishes.advance {n : Nat} {t : Thread} {x : Instruction} {found : List (Nat × Nat)}
    (h : Finishes program text n t found) (hx : program[t.pc]? = some x) (hne : x ≠ .accept) :
    ∃ k u, n = k + 1 ∧ u ∈ advance text t x ∧ Finishes program text k u found := by
  cases h with
  | accept ha => exact absurd (Option.some.inj (hx.symm.trans ha)) hne
  | step hy hu hn =>
    obtain rfl := Option.some.inj (hx.symm.trans hy)
    exact ⟨_, _, rfl, hu, hn⟩

/-- A thread at the end records nothing more. -/
theorem Finishes.found_eq {n : Nat} {t : Thread} {found : List (Nat × Nat)}
    (h : Finishes program text n t found) (hx : program[t.pc]? = some .accept) :
    found = t.marks := by
  cases h with
  | accept _ => rfl
  | step hy hu _ =>
    obtain rfl := Option.some.inj (hx.symm.trans hy)
    simp [Regex.advance] at hu

/-! ## §B Stretches of code -/

/-- **`Block program text pc next P`** — the threads at `pc` that reach the end are those that pass
the text as `P` says and then, in fewer steps, reach the end from `next`. -/
structure Block (program : Array Instruction) (text : Array Char) (pc next : Nat) (P : Passage) :
    Prop where
  enter {i j n : Nat} {m marks found : List (Nat × Nat)} :
    P i j m → Finishes program text n ⟨next, j, m ++ marks⟩ found →
      ∃ k, Finishes program text k ⟨pc, i, marks⟩ found
  leave {i n : Nat} {marks found : List (Nat × Nat)} :
    Finishes program text n ⟨pc, i, marks⟩ found →
      ∃ j m k, k < n ∧ P i j m ∧ Finishes program text k ⟨next, j, m ++ marks⟩ found

/-- One instruction, given where it sends a thread. -/
theorem block_instruction {x : Instruction} (hx : program[pc]? = some x) (hne : x ≠ .accept)
    (hadvance : ∀ i marks u, u ∈ advance text ⟨pc, i, marks⟩ x ↔
      ∃ j m, P i j m ∧ u = ⟨next, j, m ++ marks⟩) : Block program text pc next P := by
  constructor
  · intro i j n m marks found hP hn
    exact ⟨n + 1, .step hx ((hadvance i marks _).2 ⟨j, m, hP, rfl⟩) hn⟩
  · intro i n marks found h
    obtain ⟨k, u, rfl, hu, hk⟩ := h.advance hx hne
    obtain ⟨j, m, hP, rfl⟩ := (hadvance i marks u).1 hu
    exact ⟨j, m, k, Nat.lt_succ_self k, hP, hk⟩

/-- One stretch behind another. -/
theorem Block.andThen {mid : Nat} (hP : Block program text pc mid P)
    (hQ : Block program text mid next Q) : Block program text pc next (P.andThen Q) := by
  constructor
  · rintro i j n _ marks found ⟨k, m₁, m₂, h₁, h₂, rfl⟩ hn
    rw [List.append_assoc] at hn
    obtain ⟨n', hn'⟩ := hQ.enter h₂ hn
    exact hP.enter h₁ hn'
  · intro i n marks found h
    obtain ⟨k, m₁, n₁, hlt₁, h₁, hn₁⟩ := hP.leave h
    obtain ⟨j, m₂, n₂, hlt₂, h₂, hn₂⟩ := hQ.leave hn₁
    refine ⟨j, m₂ ++ m₁, n₂, by omega, ⟨k, m₁, m₂, h₁, h₂, rfl⟩, ?_⟩
    rwa [List.append_assoc]

/-- Two stretches behind a branch. -/
theorem Block.branch {first second : Nat} (hx : program[pc]? = some (.branch first second))
    (hP : Block program text first next P) (hQ : Block program text second next Q) :
    Block program text pc next (P.either Q) := by
  constructor
  · rintro i j n m marks found (h | h) hn
    · obtain ⟨k, hk⟩ := hP.enter h hn
      exact ⟨k + 1, .step hx (by simp [Regex.advance]) hk⟩
    · obtain ⟨k, hk⟩ := hQ.enter h hn
      exact ⟨k + 1, .step hx (by simp [Regex.advance]) hk⟩
  · intro i n marks found h
    obtain ⟨k, u, rfl, hu, hk⟩ := h.advance hx (by simp)
    simp only [Regex.advance, List.mem_cons, List.not_mem_nil, or_false] at hu
    rcases hu with rfl | rfl
    · obtain ⟨j, m, k', hlt, h', hk'⟩ := hP.leave hk
      exact ⟨j, m, k', by omega, .inl h', hk'⟩
    · obtain ⟨j, m, k', hlt, h', hk'⟩ := hQ.leave hk
      exact ⟨j, m, k', by omega, .inr h', hk'⟩

/-- The two ways of a thread at the branch of a loop, whichever it prefers. -/
theorem mem_advance_turn {greedy : Bool} {body exit : Nat} {t u : Thread} :
    u ∈ advance text t (turn greedy body exit) ↔
      u = { t with pc := body } ∨ u = { t with pc := exit } := by
  cases greedy <;> simp [turn, Regex.advance, or_comm]

theorem turn_ne_accept (greedy : Bool) (body exit : Nat) : turn greedy body exit ≠ .accept := by
  cases greedy <;> simp [turn]

/-- A stretch that may be passed over. -/
theorem Block.turn {greedy : Bool} {body : Nat}
    (hx : program[pc]? = some (turn greedy body next)) (hP : Block program text body next P) :
    Block program text pc next (P.either .stay) := by
  constructor
  · rintro i j n m marks found (h | ⟨rfl, rfl⟩) hn
    · obtain ⟨k, hk⟩ := hP.enter h hn
      exact ⟨k + 1, .step hx (mem_advance_turn.2 (.inl rfl)) hk⟩
    · exact ⟨n + 1, .step hx (mem_advance_turn.2 (.inr rfl)) hn⟩
  · intro i n marks found h
    obtain ⟨k, u, rfl, hu, hk⟩ := h.advance hx (turn_ne_accept _ _ _)
    rcases mem_advance_turn.1 hu with rfl | rfl
    · obtain ⟨j, m, k', hlt, h', hk'⟩ := hP.leave hk
      exact ⟨j, m, k', by omega, .inl h', hk'⟩
    · exact ⟨i, [], k, Nat.lt_succ_self k, .inr ⟨rfl, rfl⟩, hk⟩

/-- A stretch that leads back to the branch before it. -/
theorem Block.loop {greedy : Bool} {body : Nat}
    (hx : program[pc]? = some (.turn greedy body next)) (hP : Block program text body pc P) :
    Block program text pc next (P.between 0 none) := by
  constructor
  · rintro i j n m marks found ⟨count, -, -, hturns⟩ hn
    induction count generalizing i n m marks with
    | zero =>
      obtain ⟨rfl, rfl⟩ := hturns
      exact ⟨n + 1, .step hx (mem_advance_turn.2 (.inr rfl)) hn⟩
    | succ count ih =>
      obtain ⟨k, m₁, m₂, h₁, h₂, rfl⟩ := hturns
      rw [List.append_assoc] at hn
      obtain ⟨n', hn'⟩ := ih h₂ hn
      obtain ⟨n'', hn''⟩ := hP.enter h₁ hn'
      exact ⟨n'' + 1, .step hx (mem_advance_turn.2 (.inl rfl)) hn''⟩
  · intro i n marks found h
    -- Each turn ends at the branch with fewer steps left.
    induction n using Nat.strong_induction_on generalizing i marks with
    | h n ih =>
      obtain ⟨k, u, rfl, hu, hk⟩ := h.advance hx (turn_ne_accept _ _ _)
      rcases mem_advance_turn.1 hu with rfl | rfl
      · obtain ⟨l, m₁, n₁, hlt₁, h₁, hn₁⟩ := hP.leave hk
        obtain ⟨j, m₂, n₂, hlt₂, ⟨count, _, _, h₂⟩, hn₂⟩ := ih n₁ (by omega) hn₁
        refine ⟨j, m₂ ++ m₁, n₂, by omega, ?_, by rwa [List.append_assoc]⟩
        exact ⟨count + 1, Nat.zero_le _, by simp, l, m₁, m₂, h₁, h₂, rfl⟩
      · exact ⟨i, [], k, Nat.lt_succ_self k, ⟨0, Nat.le_refl _, by simp, rfl, rfl⟩, hk⟩

/-! ## §C Placed code -/

/-- **`Placed program pc code`** — a program holds some code at an address. -/
def Placed (program : Array Instruction) : Nat → List Instruction → Prop
  | _, [] => True
  | pc, x :: code => program[pc]? = some x ∧ Placed program (pc + 1) code

theorem placed_append {pc : Nat} {code rest : List Instruction} :
    Placed program pc (code ++ rest) ↔
      Placed program pc code ∧ Placed program (pc + code.length) rest := by
  induction code generalizing pc with
  | nil => simp [Placed]
  | cons x code ih =>
    simp only [List.cons_append, Placed, ih, List.length_cons, and_assoc]
    rw [Nat.add_right_comm, Nat.add_assoc]

theorem placed_toArray (before code : List Instruction) :
    Placed (before ++ code).toArray before.length code := by
  induction code generalizing before with
  | nil => trivial
  | cons x code ih =>
    refine ⟨by simp, ?_⟩
    have := ih (before ++ [x])
    simpa using this

/-- The first block of a chain continues at the rest of the chain, if there is one. -/
theorem chain_succ (size : Nat) (block : Nat → Nat → List Instruction) (count pc next : Nat) :
    chain size block (count + 1) pc next =
      block pc (if count = 0 then next else pc + size) ++
        chain size block count (pc + size) next := by
  unfold chain
  rw [List.range_succ_eq_map, List.flatMap_cons, List.flatMap_map]
  congr 1
  · simp
  · refine List.flatMap_congr fun i _ => ?_
    have hpc : pc + (i + 1) * size = pc + size + i * size := by
      rw [Nat.add_mul, Nat.one_mul]; omega
    have hnext : pc + (i + 1 + 1) * size = pc + size + (i + 1) * size := by
      rw [Nat.add_mul (i + 1), Nat.one_mul]; omega
    simp only [Nat.succ_eq_add_one, Nat.add_right_cancel_iff, hpc, hnext]

/-- Blocks behind one another take as many turns. -/
theorem block_chain {size : Nat} {block : Nat → Nat → List Instruction}
    (hsize : ∀ pc next, (block pc next).length = size)
    (hblock : ∀ pc next, Placed program pc (block pc next) → Block program text pc next P)
    (count : Nat) (h : Placed program pc (chain size block (count + 1) pc next)) :
    Block program text pc next (P.turns (count + 1)) := by
  induction count generalizing pc with
  | zero =>
    rw [chain_succ, placed_append] at h
    rw [Passage.turns_one]
    exact hblock pc next h.1
  | succ count ih =>
    rw [chain_succ, placed_append, if_neg (Nat.succ_ne_zero count), hsize] at h
    exact (hblock pc (pc + size) h.1).andThen (ih h.2)

/-- The last block of a chain continues where the chain does. -/
theorem placed_last {size : Nat} {block : Nat → Nat → List Instruction}
    (hsize : ∀ pc next, (block pc next).length = size) (count : Nat)
    (h : Placed program pc (chain size block (count + 1) pc next)) :
    Placed program (pc + count * size) (block (pc + count * size) next) := by
  induction count generalizing pc with
  | zero =>
    rw [chain_succ, placed_append] at h
    rw [Nat.zero_mul]
    exact h.1
  | succ count ih =>
    rw [chain_succ, placed_append, if_neg (Nat.succ_ne_zero count), hsize] at h
    rw [show pc + (count + 1) * size = pc + size + count * size by
      rw [Nat.add_mul, Nat.one_mul]; omega]
    exact ih h.2

/-- Optional turns behind one another: from each of them the chain may be left. -/
theorem block_optional {size : Nat} {body : Nat → Nat → List Instruction} {greedy : Bool}
    (hsize : ∀ pc next, (body pc next).length = size)
    (hbody : ∀ pc next, Placed program pc (body pc next) → Block program text pc next P)
    (count : Nat)
    (h : Placed program pc (chain (size + 1)
      (fun pc after => turn greedy (pc + 1) next :: body (pc + 1) after) (count + 1) pc next)) :
    Block program text pc next (P.between 0 (some (count + 1))) := by
  induction count generalizing pc with
  | zero =>
    rw [chain_succ, placed_append] at h
    obtain ⟨⟨hturn, hplaced⟩, -⟩ := h
    rw [← Passage.between_succ, Passage.between_zero, Passage.andThen_stay]
    exact .turn hturn (hbody _ _ hplaced)
  | succ count ih =>
    rw [chain_succ, placed_append, if_neg (Nat.succ_ne_zero count)] at h
    obtain ⟨⟨hturn, hplaced⟩, hrest⟩ := h
    rw [List.length_cons, hsize] at hrest
    rw [← Passage.between_succ]
    exact .turn hturn ((hbody _ _ hplaced).andThen (ih hrest))

/-! ## §D The code of an expression -/

/-- The code of a text that goes on consumes its first character and goes on to the others. -/
theorem literalCode_cons (c d : Char) (cs : List Char) (pc next : Nat) :
    literalCode (c :: d :: cs) pc next =
      consume (.single c) (pc + 1) :: literalCode (d :: cs) (pc + 1) next := by
  unfold literalCode
  rw [List.mapIdx_cons]
  congr 1
  refine List.mapIdx_eq_mapIdx_iff.2 fun i hi => ?_
  simp only [List.length_cons, Nat.add_right_cancel_iff]
  congr 2
  omega

theorem block_consume {chars : CharSet} (hx : program[pc]? = some (.consume chars next)) :
    Block program text pc next (.within text (oneOf chars)) := by
  refine block_instruction hx (by simp) ?_
  intro i marks u
  simp only [Regex.advance, Passage.within, mem_oneOf]
  constructor
  · intro hu
    split at hu
    · rename_i hany
      obtain ⟨c, hc, hmem⟩ := (Option.any_eq_true _ _).1 hany
      exact ⟨i + 1, [], ⟨⟨[c], ⟨c, hmem, rfl⟩, hc, rfl⟩, rfl⟩, List.mem_singleton.1 hu⟩
    · simp at hu
  · rintro ⟨j, m, ⟨⟨_, ⟨c, hmem, rfl⟩, hc, rfl⟩, rfl⟩, rfl⟩
    rw [hc, Option.any_some, if_pos hmem]
    exact List.mem_singleton_self _

theorem block_literal (c : Char) (cs : List Char)
    (h : Placed program pc (literalCode (c :: cs) pc next)) :
    Block program text pc next (.within text {c :: cs}) := by
  have hone (c : Char) : oneOf (.single c) = {[c]} := by
    ext w
    rw [mem_oneOf]
    simp only [CharSet.contains_single, beq_iff_eq, exists_eq_left]
    rfl
  induction cs generalizing c pc with
  | nil =>
    rw [← hone]
    exact block_consume h.1
  | cons d cs ih =>
    rw [literalCode_cons] at h
    have hfirst : Block program text pc (pc + 1) (.within text {[c]}) := by
      rw [← hone]
      exact block_consume h.1
    rw [show c :: d :: cs = [c] ++ d :: cs from rfl, ← Passage.singleton_mul_singleton,
      Passage.within_mul]
    exact hfirst.andThen (ih d h.2)

theorem block_require {a : Assertion} (hx : program[pc]? = some (.require a next)) :
    Block program text pc next ((check a).Matches text) := by
  refine block_instruction hx (by simp) ?_
  intro i marks u
  simp only [Regex.advance]
  constructor
  · intro hu
    split at hu
    · rename_i hholds
      exact ⟨i, [], ⟨hholds, rfl, rfl⟩, List.mem_singleton.1 hu⟩
    · simp at hu
  · rintro ⟨j, m, ⟨hholds, rfl, rfl⟩, rfl⟩
    rw [if_pos hholds]
    exact List.mem_singleton_self _

theorem block_jump (hx : program[pc]? = some (.jump next)) :
    Block program text pc next .stay := by
  refine block_instruction hx (by simp) ?_
  intro i marks u
  simp only [Regex.advance, List.mem_singleton]
  constructor
  · intro hu
    exact ⟨i, [], ⟨rfl, rfl⟩, hu⟩
  · rintro ⟨j, m, ⟨rfl, rfl⟩, rfl⟩
    rfl

theorem block_mark {slot : Nat} (hx : program[pc]? = some (.mark slot next)) :
    Block program text pc next (.record slot) := by
  refine block_instruction hx (by simp) ?_
  intro i marks u
  simp only [Regex.advance, List.mem_singleton]
  constructor
  · intro hu
    exact ⟨i, [(slot, i)], ⟨rfl, rfl⟩, hu⟩
  · rintro ⟨j, m, ⟨rfl, rfl⟩, rfl⟩
    rfl

/-- A loop takes the turns that it must, and then any number of them. -/
theorem block_loopCode {size : Nat} {body : Nat → Nat → List Instruction} {greedy : Bool}
    (hsize : ∀ pc next, (body pc next).length = size)
    (hbody : ∀ pc next, Placed program pc (body pc next) → Block program text pc next P)
    (consumes : Bool) (least : Nat)
    (h : Placed program pc (loopCode size consumes body greedy least pc next)) :
    Block program text pc next (P.between least none) := by
  unfold loopCode at h
  split at h
  · rename_i hzero
    subst hzero
    split at h
    · exact .loop h.1 (hbody _ _ h.2)
    · -- The second branch is a loop of its own, and the first one leads into its body.
      obtain ⟨hfirst, hsecond, hplaced⟩ := h
      have inner := Block.loop hsecond (hbody _ _ hplaced)
      rw [← Passage.between_none]
      exact .turn hfirst ((hbody _ _ hplaced).andThen inner)
  · obtain ⟨count, rfl⟩ := Nat.exists_eq_succ_of_ne_zero ‹least ≠ 0›
    rw [placed_append, length_chain hsize] at h
    obtain ⟨hchain, hturn, -⟩ := h
    have hmust := block_chain hsize hbody count hchain
    have hmay := Block.loop hturn (hbody _ _ (placed_last hsize count hchain))
    have := hmust.andThen hmay
    rwa [Passage.turns_andThen_between] at this

/-- A bounded repetition takes the turns that it must, and then optional ones. -/
theorem block_boundedCode {size : Nat} {body : Nat → Nat → List Instruction} {greedy : Bool}
    (hsize : ∀ pc next, (body pc next).length = size)
    (hbody : ∀ pc next, Placed program pc (body pc next) → Block program text pc next P)
    {least most : Nat} (hle : least ≤ most)
    (h : Placed program pc (boundedCode size body greedy least most pc next)) :
    Block program text pc next (P.between least (some most)) := by
  unfold boundedCode at h
  split at h
  · -- No turn at all is a jump.
    rename_i hmost
    obtain rfl : least = 0 := by omega
    rw [hmost, Passage.between_zero]
    exact block_jump h.1
  · rename_i hmost
    rw [placed_append, length_chain hsize] at h
    obtain ⟨hmust, hmay⟩ := h
    have hsplit := P.turns_andThen_between least (some (most - least))
    rw [Option.map_some, Nat.add_sub_cancel' hle] at hsplit
    rw [← hsplit]
    by_cases heq : least = most
    · -- All turns are taken, and the chain leads on itself.
      obtain ⟨count, rfl⟩ := Nat.exists_eq_succ_of_ne_zero hmost
      rw [if_pos heq, heq] at hmust
      rw [heq, Nat.sub_self, Passage.between_zero, Passage.andThen_stay]
      exact block_chain hsize hbody count hmust
    · obtain ⟨extra, hextra⟩ := Nat.exists_eq_succ_of_ne_zero (Nat.sub_ne_zero_of_lt
        (Nat.lt_of_le_of_ne hle heq))
      rw [hextra] at hmay ⊢
      have hoptional := block_optional hsize hbody extra hmay
      rw [if_neg heq] at hmust
      cases least with
      | zero => simpa [Passage.turns] using hoptional
      | succ count => exact (block_chain hsize hbody count hmust).andThen hoptional

end Blocks

/-- **`r.Bounded`** — the bounds of every repetition are in order. -/
def Bounded : Regex → Prop
  | empty | literal .. | set _ | check _ => True
  | repetition least most _ r => (∀ k ∈ most, least ≤ k) ∧ r.Bounded
  | group _ _ r => r.Bounded
  | seq r s | alt r s => r.Bounded ∧ s.Bounded

/-- **`block_code`** — the code of an expression passes the text as the expression matches it. -/
theorem block_code {program : Array Instruction} {text : Array Char} {r : Regex}
    (hr : r.Bounded) {pc next : Nat} (h : Placed program pc (r.code pc next)) :
    Block program text pc next (r.Matches text) := by
  induction r generalizing pc next with
  | empty => exact block_jump h.1
  | literal c cs => exact block_literal c cs h
  | set chars => exact block_consume h.1
  | check a => exact block_require h.1
  | repetition least most greedy r ih =>
    have hbody (pc next : Nat) (hplaced : Placed program pc (r.code pc next)) :
        Block program text pc next (r.Matches text) := ih hr.2 hplaced
    cases most with
    | none => exact block_loopCode r.length_code hbody r.consumes least h
    | some most => exact block_boundedCode r.length_code hbody (hr.1 most rfl) h
  | group index name r ih =>
    obtain ⟨hopen, hrest⟩ := h
    rw [placed_append, length_code] at hrest
    exact (block_mark hopen).andThen ((ih hr hrest.1).andThen (block_mark hrest.2.1))
  | seq r s ihr ihs =>
    rw [code, placed_append, length_code] at h
    exact (ihr hr.1 h.1).andThen (ihs hr.2 h.2)
  | alt r s ihr ihs =>
    obtain ⟨hbranch, hrest⟩ := h
    rw [placed_append, length_code] at hrest
    exact .branch hbranch (ihr hr.1 hrest.1) (ihs hr.2 hrest.2)

/-! ## §E Whole programs -/

/-- **`finishes_program_iff`** — the program of an expression can reach its end from a position just
where the expression matches from there, and it then has recorded what the match records. -/
theorem finishes_program_iff {r : Regex} (hr : r.Bounded) {text : Array Char} {i : Nat}
    {found : List (Nat × Nat)} :
    (∃ n, Finishes r.program text n ⟨0, i, []⟩ found) ↔
      ∃ j, (group 0 none r).Matches text i j found := by
  have hplaced := placed_toArray [] ((group 0 none r).code 0 (group 0 none r).size ++ [accept])
  rw [List.nil_append, placed_append, length_code, List.length_nil, Nat.zero_add] at hplaced
  obtain ⟨hcode, haccept, -⟩ := hplaced
  have hblock : Block r.program text 0 (group 0 none r).size ((group 0 none r).Matches text) :=
    block_code (r := group 0 none r) hr hcode
  constructor
  · rintro ⟨n, hn⟩
    obtain ⟨j, m, k, -, hm, hk⟩ := hblock.leave hn
    rw [List.append_nil] at hk
    rw [hk.found_eq haccept]
    exact ⟨j, hm⟩
  · rintro ⟨j, hm⟩
    have hend : Finishes r.program text 0 ⟨(group 0 none r).size, j, found ++ []⟩ found := by
      rw [List.append_nil]
      exact .accept haccept
    exact hblock.enter hm hend

end Regex

end FeatureFile
