/-
# FeatureFile.Proofs.Text.Brackets — brackets that balance

Among the elements of a list some open and some close. A reader that counts what is open takes one
element after the other; what it finds is said here without a counter, by the beginnings of the list.
With a number of brackets open before it, a list is *covered* if no beginning of it closes more than is
open then, and it *balances* if besides nothing is open behind it.

One step of a counter is `behind`. Both notions go through it (`covers_cons_iff`,
`balances_cons_iff`), and it fails just where a bracket closes and none is open
(`not_covers_of_behind`).
-/

import Mathlib.Data.List.Basic

namespace FeatureFile

/-- What opens and what closes among the elements of a list; nothing does both. -/
structure Brackets (α : Type) where
  opens : α → Bool
  closes : α → Bool
  not_both : ∀ x, opens x = true → closes x = false

namespace Brackets

variable {α : Type} (b : Brackets α)

/-- **`b.Covers depth xs`** — with so many brackets open before it, no beginning of a list closes more
than is open. -/
def Covers (depth : Nat) (xs : List α) : Prop :=
  ∀ ys, ys <+: xs → ys.countP b.closes ≤ depth + ys.countP b.opens

/-- **`b.Balances depth xs`** — with so many brackets open before it, a list closes all of them and all
that it opens, and never more. -/
structure Balances (depth : Nat) (xs : List α) : Prop where
  covers : b.Covers depth xs
  closes_eq : xs.countP b.closes = depth + xs.countP b.opens

/-- How many brackets are open behind an element; nothing if it closes one where none is open. -/
def behind (depth : Nat) (x : α) : Option Nat :=
  if b.opens x then some (depth + 1)
  else if b.closes x then
    match depth with
    | 0 => none
    | depth + 1 => some depth
  else some depth

variable {b} {depth : Nat} {x : α} {xs : List α}

theorem covers_nil : b.Covers depth [] := by
  intro ys hys
  rw [List.prefix_nil.mp hys]
  exact Nat.zero_le _

theorem balances_nil_iff : b.Balances depth [] ↔ depth = 0 := by
  constructor
  · intro h
    simpa using h.closes_eq.symm
  · rintro rfl
    exact ⟨covers_nil, rfl⟩

/-- What an element adds on the two sides is what the counter moves by. -/
theorem count_of_behind {d : Nat} (h : b.behind depth x = some d) :
    d + (if b.closes x then 1 else 0) = depth + if b.opens x then 1 else 0 := by
  unfold behind at h
  split at h
  · rename_i hopens
    obtain rfl := Option.some.inj h
    simp [hopens, b.not_both x hopens]
  · rename_i hopens
    split at h
    · rename_i hcloses
      cases depth with
      | zero => cases h
      | succ depth =>
        obtain rfl := Option.some.inj h
        simp [hopens, hcloses]
    · rename_i hcloses
      obtain rfl := Option.some.inj h
      simp [hopens, hcloses]

/-- **One element of a covered list.** -/
theorem covers_cons_iff {d : Nat} (h : b.behind depth x = some d) :
    b.Covers depth (x :: xs) ↔ b.Covers d xs := by
  have hcount := count_of_behind h
  constructor
  · intro hcovers ys hys
    have hle := hcovers (x :: ys) (List.cons_prefix_cons.mpr ⟨rfl, hys⟩)
    rw [List.countP_cons, List.countP_cons] at hle
    omega
  · intro hcovers ys hys
    rcases List.prefix_cons_iff.mp hys with rfl | ⟨zs, rfl, hzs⟩
    · exact Nat.zero_le _
    · have hle := hcovers zs hzs
      rw [List.countP_cons, List.countP_cons]
      omega

/-- **One element of a list that balances.** -/
theorem balances_cons_iff {d : Nat} (h : b.behind depth x = some d) :
    b.Balances depth (x :: xs) ↔ b.Balances d xs := by
  have hcount := count_of_behind h
  constructor
  · rintro ⟨hcovers, hcloses⟩
    rw [List.countP_cons, List.countP_cons] at hcloses
    exact ⟨(covers_cons_iff h).mp hcovers, by omega⟩
  · rintro ⟨hcovers, hcloses⟩
    refine ⟨(covers_cons_iff h).mpr hcovers, ?_⟩
    rw [List.countP_cons, List.countP_cons]
    omega

/-- A bracket that closes where none is open is covered by nothing. -/
theorem not_covers_of_behind (h : b.behind depth x = none) : ¬b.Covers depth (x :: xs) := by
  unfold behind at h
  split at h
  · cases h
  · rename_i hopens
    split at h
    · rename_i hcloses
      cases depth with
      | succ depth => cases h
      | zero =>
        intro hcovers
        have hone := hcovers [x] (List.cons_prefix_cons.mpr ⟨rfl, List.nil_prefix⟩)
        simp [hopens, hcloses] at hone
    · cases h

end Brackets

end FeatureFile
