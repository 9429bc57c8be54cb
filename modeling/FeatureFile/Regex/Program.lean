/-
# FeatureFile.Regex.Program — expressions as branching programs

An expression is laid out as a list of instructions; a thread runs them on a text and, at a branch,
prefers the first target. `code r pc next` is the code of `r` placed at address `pc` that continues
at `next`, and it begins at `pc`. A repetition is written out: first the turns that it must take,
and then a loop, or one optional turn after the other. A loop over a body that may match the empty
text has two branches, one before the first turn and one after each turn, so that an empty first
turn is taken once and an empty later turn is not.
-/

import FeatureFile.Regex.Basic

namespace FeatureFile

/-- One instruction of a program. -/
inductive Instruction where
  /-- Continue elsewhere. -/
  | jump (next : Nat)
  /-- Consume a character of a set. -/
  | consume (chars : CharSet) (next : Nat)
  /-- Require an assertion. -/
  | require (assertion : Assertion) (next : Nat)
  /-- Prefer the first target to the second. -/
  | branch (first second : Nat)
  /-- Record the position in a slot. -/
  | mark (slot next : Nat)
  /-- Stop with a match. -/
  | accept
  deriving DecidableEq, Repr

namespace Instruction

/-- The branch of a loop: a greedy one prefers its body, a lazy one its exit. -/
def turn (greedy : Bool) (body exit : Nat) : Instruction :=
  if greedy then branch body exit else branch exit body

/-- Blocks of one size, one behind the other. Each is given its address and where it continues: at
the block behind it, and the last one at `next`. -/
def chain (size : Nat) (block : Nat → Nat → List Instruction) (count pc next : Nat) :
    List Instruction :=
  (List.range count).flatMap fun i =>
    block (pc + i * size) (if i + 1 = count then next else pc + (i + 1) * size)

theorem length_chain {size : Nat} {block : Nat → Nat → List Instruction}
    (h : ∀ pc next, (block pc next).length = size) (count pc next : Nat) :
    (chain size block count pc next).length = count * size := by
  simp only [chain, List.length_flatMap, h, List.map_const', List.sum_replicate_nat,
    List.length_range]

end Instruction

namespace Regex

open Instruction

/-- The number of instructions of a repetition whose body has a given size. -/
def repetitionSize (size : Nat) (consumes : Bool) (least : Nat) : Option Nat → Nat
  | none => if least = 0 then (if consumes then size + 1 else size + 2) else least * size + 1
  | some most =>
    if most = 0 then 1 else least * size + (most - least) * (size + 1)

/-- The number of instructions of an expression. -/
def size : Regex → Nat
  | empty | set _ | check _ => 1
  | literal _ rest => rest.length + 1
  | repetition least most _ r => repetitionSize r.size r.consumes least most
  | group _ _ r => r.size + 2
  | seq r s => r.size + s.size
  | alt r s => r.size + s.size + 1

/-- The instructions of a text. -/
def literalCode (text : List Char) (pc next : Nat) : List Instruction :=
  let length := text.length
  text.mapIdx fun i c => consume (.single c) (if i + 1 = length then next else pc + i + 1)

/-- The instructions of a loop without an upper bound. -/
def loopCode (size : Nat) (consumes : Bool) (body : Nat → Nat → List Instruction)
    (greedy : Bool) (least pc next : Nat) : List Instruction :=
  if least = 0 then
    if consumes then turn greedy (pc + 1) next :: body (pc + 1) pc
    else turn greedy (pc + 2) next :: turn greedy (pc + 2) next :: body (pc + 2) (pc + 1)
  else
    chain size body least pc (pc + least * size) ++
      [turn greedy (pc + (least - 1) * size) next]

/-- The instructions of a repetition with an upper bound. -/
def boundedCode (size : Nat) (body : Nat → Nat → List Instruction)
    (greedy : Bool) (least most pc next : Nat) : List Instruction :=
  let optional := pc + least * size
  if most = 0 then [jump next]
  else
    chain size body least pc (if least = most then next else optional) ++
      chain (size + 1) (fun pc after => turn greedy (pc + 1) next :: body (pc + 1) after)
        (most - least) optional next

/-- The instructions of an expression at an address, continuing at another. -/
def code : Regex → Nat → Nat → List Instruction
  | empty, _, next => [jump next]
  | literal c cs, pc, next => literalCode (c :: cs) pc next
  | set chars, _, next => [consume chars next]
  | check a, _, next => [require a next]
  | repetition least most greedy r, pc, next =>
    match most with
    | none => loopCode r.size r.consumes r.code greedy least pc next
    | some most => boundedCode r.size r.code greedy least most pc next
  | group index _ r, pc, next =>
    mark (2 * index) (pc + 1) :: (r.code (pc + 1) (pc + 1 + r.size) ++ [mark (2 * index + 1) next])
  | seq r s, pc, next => r.code pc (pc + r.size) ++ s.code (pc + r.size) next
  | alt r s, pc, next =>
    branch (pc + 1) (pc + 1 + r.size) :: (r.code (pc + 1) next ++ s.code (pc + 1 + r.size) next)

/-- The code of an expression is as long as its size says. -/
theorem length_code (r : Regex) (pc next : Nat) : (r.code pc next).length = r.size := by
  induction r generalizing pc next with
  | empty | set _ | check _ => rfl
  | literal c cs => simp [code, literalCode, size]
  | repetition least most g r ih =>
    cases most with
    | none =>
      simp only [code, size, loopCode, repetitionSize]
      split
      · split <;> simp [ih]
      · simp [length_chain ih]
    | some most =>
      simp only [code, size, boundedCode, repetitionSize]
      split
      · rfl
      · rw [List.length_append, length_chain ih, length_chain (by simp [ih])]
  | group i n r ih => simp [code, size, ih]
  | seq r s ihr ihs => simp [code, size, ihr, ihs]
  | alt r s ihr ihs => simp [code, size, ihr, ihs]

/-- The program of an expression: the whole match is group zero, and then it accepts. -/
def program (r : Regex) : Array Instruction :=
  let whole := group 0 none r
  (whole.code 0 whole.size ++ [accept]).toArray

end Regex

end FeatureFile
