/-
# FeatureFile.Proofs.Regex.Search — the search finds a match where there is one

The search drops a thread at a place that was explored before. Nothing is lost by that, as long as
every explored place from which the end can be reached leads to it through a thread that is still
waiting, and in fewer steps (`Covered`). So the search finds a match if there is one from any of its
starts (`search_isSome`), and what it finds is recorded by a match (`search_sound`). The fuel is
enough: a place is left for at most two others, and only once.
-/

import FeatureFile.Proofs.Regex.Program

namespace FeatureFile

namespace Regex

variable {program : Array Instruction} {text : Array Char}

/-! ## §A Where threads go -/

theorem length_advance_le (t : Thread) (x : Instruction) : (advance text t x).length ≤ 2 := by
  cases x <;> simp only [advance] <;> (try split) <;> simp

/-- A thread stays inside the text. -/
theorem pos_le_of_mem_advance {t u : Thread} {x : Instruction} (hu : u ∈ advance text t x)
    (ht : t.pos ≤ text.size) : u.pos ≤ text.size := by
  cases x with
  | consume chars next =>
    simp only [advance] at hu
    split at hu
    · rename_i hany
      obtain ⟨c, hc, _⟩ := (Option.any_eq_true _ _).1 hany
      obtain ⟨hlt, _⟩ := Array.getElem?_eq_some_iff.1 hc
      rw [List.mem_singleton.1 hu]
      exact hlt
    · simp at hu
  | require a next =>
    simp only [advance] at hu
    split at hu
    · rw [List.mem_singleton.1 hu]
      exact ht
    · simp at hu
  | branch first second =>
    simp only [advance, List.mem_cons, List.not_mem_nil, or_false] at hu
    rcases hu with rfl | rfl <;> exact ht
  | accept => simp [advance] at hu
  | jump | mark =>
    rw [List.mem_singleton.1 hu]
    exact ht

/-- Where a thread goes does not hang on what it has recorded. -/
theorem advance_marks {t u : Thread} {x : Instruction} (hu : u ∈ advance text t x)
    (marks : List (Nat × Nat)) :
    ∃ marks', { u with marks := marks' } ∈ advance text { t with marks } x := by
  cases x with
  | consume chars next =>
    simp only [advance] at hu ⊢
    split at hu
    · rename_i hany
      rw [if_pos hany, List.mem_singleton.1 hu]
      exact ⟨marks, List.mem_singleton_self _⟩
    · simp at hu
  | require a next =>
    simp only [advance] at hu ⊢
    split at hu
    · rename_i hholds
      rw [if_pos hholds, List.mem_singleton.1 hu]
      exact ⟨marks, List.mem_singleton_self _⟩
    · simp at hu
  | branch first second =>
    simp only [advance, List.mem_cons, List.not_mem_nil, or_false] at hu ⊢
    rcases hu with rfl | rfl
    · exact ⟨marks, .inl rfl⟩
    · exact ⟨marks, .inr rfl⟩
  | accept => simp [advance] at hu
  | jump next =>
    rw [List.mem_singleton.1 hu]
    exact ⟨marks, List.mem_singleton_self _⟩
  | mark slot next =>
    rw [List.mem_singleton.1 hu]
    exact ⟨(slot, t.pos) :: marks, List.mem_singleton_self _⟩

/-! ## §B Live threads -/

/-- **`Live program text n t`** — a thread can reach the end in so many steps. -/
def Live (program : Array Instruction) (text : Array Char) (n : Nat) (t : Thread) : Prop :=
  ∃ found, Finishes program text n t found

theorem Live.marks {n : Nat} {t u : Thread} (h : Live program text n t) (hpc : u.pc = t.pc)
    (hpos : u.pos = t.pos) : Live program text n u := by
  obtain ⟨found, h⟩ := h
  obtain ⟨pc, pos, marks⟩ := u
  obtain rfl : pc = t.pc := hpc
  obtain rfl : pos = t.pos := hpos
  induction h generalizing marks with
  | accept h => exact ⟨_, .accept h⟩
  | step hx hu _ ih =>
    obtain ⟨marks', hu'⟩ := advance_marks hu marks
    obtain ⟨found, hn⟩ := ih marks'
    exact ⟨found, .step hx hu' hn⟩

theorem Live.step {n : Nat} {t : Thread} {x : Instruction} (h : Live program text n t)
    (hx : program[t.pc]? = some x) (hne : x ≠ .accept) :
    ∃ k < n, ∃ u ∈ advance text t x, Live program text k u := by
  obtain ⟨found, h⟩ := h
  obtain ⟨k, u, rfl, hu, hk⟩ := h.advance hx hne
  exact ⟨k, Nat.lt_succ_self k, u, hu, found, hk⟩

theorem not_live {n : Nat} {t : Thread} (hx : program[t.pc]? = none) :
    ¬ Live program text n t := by
  rintro ⟨found, h⟩
  cases h with
  | accept h => rw [hx] at h; exact absurd h (by simp)
  | step h _ _ => rw [hx] at h; exact absurd h (by simp)

/-! ## §C Explored places -/

/-- The place of a thread in the table. -/
def place (text : Array Char) (t : Thread) : Nat := t.pc * (text.size + 1) + t.pos

/-- Inside the text, a place tells the instruction and the position. -/
theorem place_inj {t u : Thread} (ht : t.pos ≤ text.size) (hu : u.pos ≤ text.size)
    (h : place text t = place text u) : t.pc = u.pc ∧ t.pos = u.pos := by
  unfold place at h
  have hpos : t.pos = u.pos := by
    have := congrArg (· % (text.size + 1)) h
    simpa only [Nat.mul_add_mod', Nat.mod_eq_of_lt (Nat.lt_succ_of_le ht),
      Nat.mod_eq_of_lt (Nat.lt_succ_of_le hu)] using this
  rw [hpos] at h
  exact ⟨Nat.eq_of_mul_eq_mul_right (Nat.succ_pos _) (Nat.add_right_cancel h), hpos⟩

theorem place_lt {t : Thread} (hpc : t.pc < program.size) (hpos : t.pos ≤ text.size) :
    place text t < program.size * (text.size + 1) := by
  have : (t.pc + 1) * (text.size + 1) ≤ program.size * (text.size + 1) :=
    Nat.mul_le_mul_right _ hpc
  rw [Nat.add_mul, Nat.one_mul] at this
  unfold place
  omega

/-- **`Explored text seen t`** — the place of a thread counts as explored. -/
def Explored (text : Array Char) (seen : Array Bool) (t : Thread) : Prop :=
  seen.getD (place text t) true = true

theorem explored_set {seen : Array Bool} {t u : Thread} (ht : t.pos ≤ text.size)
    (hu : u.pos ≤ text.size)
    (h : Explored text (seen.setIfInBounds (place text t) true) u) :
    (u.pc = t.pc ∧ u.pos = t.pos) ∨ Explored text seen u := by
  by_cases heq : place text t = place text u
  · exact .inl (place_inj hu ht heq.symm)
  · refine .inr ?_
    simpa only [Explored, Array.getD_eq_getD_getElem?, Array.getElem?_setIfInBounds_ne heq] using h

/-- Exploring a place leaves one place fewer. -/
theorem count_explore {seen : Array Bool} {t : Thread} (h : ¬ Explored text seen t) :
    (seen.setIfInBounds (place text t) true).count false + 1 = seen.count false := by
  unfold Explored at h
  have hlt : place text t < seen.size := by
    by_contra hge
    rw [Array.getD_eq_getD_getElem?, Array.getElem?_eq_none (by omega)] at h
    exact h rfl
  have hfalse : seen[place text t] = false := by
    rw [Array.getD_eq_getD_getElem?, Array.getElem?_eq_getElem hlt] at h
    simpa using h
  have hpos : 0 < seen.count false :=
    Array.count_pos_iff.2 (hfalse ▸ Array.getElem_mem hlt)
  rw [Array.setIfInBounds, dif_pos hlt, Array.count_set hlt, hfalse]
  show seen.count false - 1 + 0 + 1 = seen.count false
  omega

/-- **`Covered program text seen stack`** — an explored place from which the end can be reached has
a waiting thread that reaches it in fewer steps. -/
def Covered (program : Array Instruction) (text : Array Char) (seen : Array Bool)
    (stack : List Thread) : Prop :=
  ∀ n t, t.pos ≤ text.size → Explored text seen t → Live program text n t →
    ∃ u ∈ stack, ∃ k < n, Live program text k u

/-- A thread at an explored place may be dropped. -/
theorem Covered.drop {seen : Array Bool} {t : Thread} {rest : List Thread}
    (h : Covered program text seen (t :: rest)) (ht : t.pos ≤ text.size)
    (hseen : Explored text seen t) : Covered program text seen rest := by
  intro n
  induction n using Nat.strong_induction_on with
  | h n ih =>
    intro v hv hvseen hlive
    obtain ⟨u, hu, k, hk, hku⟩ := h n v hv hvseen hlive
    rcases List.mem_cons.1 hu with rfl | hu
    · -- The waiting thread is the dropped one, so another one waits for its place.
      obtain ⟨w, hw, l, hl, hlw⟩ := ih k hk u ht hseen hku
      exact ⟨w, hw, l, by omega, hlw⟩
    · exact ⟨u, hu, k, hk, hku⟩

/-- A thread that cannot reach the end may be dropped. -/
theorem Covered.drop_dead {seen : Array Bool} {t : Thread} {rest : List Thread}
    (h : Covered program text seen (t :: rest)) (hdead : ∀ n, ¬ Live program text n t) :
    Covered program text seen rest := by
  intro n v hv hvseen hlive
  obtain ⟨u, hu, k, hk, hku⟩ := h n v hv hvseen hlive
  rcases List.mem_cons.1 hu with rfl | hu
  · exact absurd hku (hdead k)
  · exact ⟨u, hu, k, hk, hku⟩

/-- A thread may be replaced by the threads it goes on as. -/
theorem Covered.expand {seen : Array Bool} {t : Thread} {rest : List Thread} {x : Instruction}
    (h : Covered program text seen (t :: rest)) (ht : t.pos ≤ text.size)
    (hx : program[t.pc]? = some x) (hne : x ≠ .accept) :
    Covered program text (seen.setIfInBounds (place text t) true)
      (advance text t x ++ rest) := by
  intro n v hv hvseen hlive
  have go {m : Nat} (hm : m ≤ n) (hlive : Live program text m t) :
      ∃ u ∈ advance text t x ++ rest, ∃ k < n, Live program text k u := by
    obtain ⟨k, hk, u, hu, hku⟩ := hlive.step hx hne
    exact ⟨u, List.mem_append_left _ hu, k, by omega, hku⟩
  rcases explored_set ht hv hvseen with ⟨hpc, hpos⟩ | hold
  · exact go (Nat.le_refl n) (hlive.marks hpc.symm hpos.symm)
  · obtain ⟨u, hu, k, hk, hku⟩ := h n v hv hold hlive
    rcases List.mem_cons.1 hu with rfl | hu
    · exact go (Nat.le_of_lt hk) hku
    · exact ⟨u, List.mem_append_right _ hu, k, hk, hku⟩

/-! ## §D The search -/

/-- What is found was recorded by one of the waiting threads. -/
theorem finishes_of_explore {fuel : Nat} {seen : Array Bool} {stack : List Thread}
    {found : List (Nat × Nat)} (h : explore program text fuel seen stack = some found) :
    ∃ t ∈ stack, ∃ n, Finishes program text n t found := by
  fun_induction explore program text fuel seen stack with
  | case1 | case2 => simp at h
  | case3 fuel seen t rest place hseen ih =>
    obtain ⟨u, hu, n, hn⟩ := ih h
    exact ⟨u, List.mem_cons_of_mem _ hu, n, hn⟩
  | case4 fuel seen t rest place hseen hx ih =>
    obtain ⟨u, hu, n, hn⟩ := ih h
    exact ⟨u, List.mem_cons_of_mem _ hu, n, hn⟩
  | case5 fuel seen t rest place hseen hx =>
    obtain rfl := Option.some.inj h
    exact ⟨t, List.mem_cons_self, 0, .accept hx⟩
  | case6 fuel seen t rest place hseen x hne hx ih =>
    obtain ⟨u, hu, n, hn⟩ := ih h
    rcases List.mem_append.1 hu with hu | hu
    · exact ⟨t, List.mem_cons_self, n + 1, .step hx hu hn⟩
    · exact ⟨u, List.mem_cons_of_mem _ hu, n, hn⟩

/-- If nothing is found, none of the waiting threads can reach the end. -/
theorem not_live_of_explore {fuel : Nat} {seen : Array Bool} {stack : List Thread}
    (hcovered : Covered program text seen stack) (hpos : ∀ t ∈ stack, t.pos ≤ text.size)
    (hfuel : 2 * seen.count false + stack.length < fuel)
    (h : explore program text fuel seen stack = none) :
    ∀ t ∈ stack, ∀ n, ¬ Live program text n t := by
  fun_induction explore program text fuel seen stack with
  | case1 => omega
  | case2 => simp
  | case3 fuel seen t rest place hseen ih =>
    obtain ⟨ht, hrest⟩ := List.forall_mem_cons.1 hpos
    -- The place is explored already: a way to the end from it would begin at another thread.
    have hdrop := hcovered.drop ht hseen
    have hdead := ih hdrop hrest (by rw [List.length_cons] at hfuel; omega) h
    refine List.forall_mem_cons.2 ⟨?_, hdead⟩
    intro n hlive
    obtain ⟨u, hu, k, -, hku⟩ := hdrop n t ht hseen hlive
    exact hdead u hu k hku
  | case4 fuel seen t rest place hseen hx ih =>
    obtain ⟨ht, hrest⟩ := List.forall_mem_cons.1 hpos
    have hdead (n : Nat) : ¬ Live program text n t := not_live hx
    exact List.forall_mem_cons.2 ⟨hdead,
      ih (hcovered.drop_dead hdead) hrest (by rw [List.length_cons] at hfuel; omega) h⟩
  | case5 => simp at h
  | case6 fuel seen t rest place hseen x hne hx ih =>
    obtain ⟨ht, hrest⟩ := List.forall_mem_cons.1 hpos
    have hbound : ∀ u ∈ advance text t x ++ rest, u.pos ≤ text.size := by
      intro u hu
      rcases List.mem_append.1 hu with hu | hu
      · exact pos_le_of_mem_advance hu ht
      · exact hrest u hu
    -- One place more is explored, and at most two threads are added for the one that is taken.
    have hless : 2 * (seen.setIfInBounds place true).count false +
        (advance text t x ++ rest).length < fuel := by
      have hcount := count_explore hseen
      have htwo : (advance text t x).length ≤ 2 := length_advance_le t x
      rw [List.length_cons] at hfuel
      rw [List.length_append]
      show 2 * (seen.setIfInBounds (Regex.place text t) true).count false + _ < _
      omega
    have hdead := ih (hcovered.expand ht hx hne) hbound hless h
    refine List.forall_mem_cons.2 ⟨?_, fun u hu => hdead u (List.mem_append_right _ hu)⟩
    intro n hlive
    obtain ⟨k, -, u, hu, hku⟩ := hlive.step hx hne
    exact hdead u (List.mem_append_left _ hu) k hku

/-- Before the search no place from which the end can be reached is explored. -/
theorem covered_start (program : Array Instruction) (text : Array Char) (stack : List Thread) :
    Covered program text (Array.replicate (program.size * (text.size + 1)) false) stack := by
  intro n t ht hseen hlive
  by_cases hpc : t.pc < program.size
  · have hlt := place_lt hpc ht
    rw [Explored, Array.getD_eq_getD_getElem?, Array.getElem?_replicate, if_pos hlt] at hseen
    exact absurd hseen (by simp)
  · exact absurd hlive (not_live (Array.getElem?_eq_none (by omega)))

/-- **`search_sound`** — what the search finds is recorded by a match. -/
theorem search_sound {r : Regex} (hr : r.Bounded) {found : List (Nat × Nat)}
    (h : r.search text = some found) :
    ∃ i ≤ text.size, ∃ j, (group 0 none r).Matches text i j found := by
  obtain ⟨t, ht, n, hn⟩ := finishes_of_explore h
  obtain ⟨i, hi, rfl⟩ := List.mem_map.1 ht
  exact ⟨i, Nat.le_of_lt_succ (List.mem_range.1 hi), (finishes_program_iff hr).1 ⟨n, hn⟩⟩

/-- **`search_isSome`** — the search finds a match if there is one. -/
theorem search_isSome {r : Regex} (hr : r.Bounded) {i j : Nat} {m : List (Nat × Nat)}
    (hi : i ≤ text.size) (h : r.Matches text i j m) : (r.search text).isSome = true := by
  by_contra hnone
  rw [Bool.not_eq_true, Option.isSome_eq_false_iff, Option.isNone_iff_eq_none] at hnone
  obtain ⟨n, hn⟩ := (finishes_program_iff hr).2 ⟨j, matches_group.2 ⟨m, h, rfl⟩⟩
  refine not_live_of_explore (covered_start r.program text _) ?_ ?_ hnone ⟨0, i, []⟩ ?_ n ⟨_, hn⟩
  · intro t ht
    obtain ⟨k, hk, rfl⟩ := List.mem_map.1 ht
    exact Nat.le_of_lt_succ (List.mem_range.1 hk)
  · rw [Array.count_replicate_self, List.length_map, List.length_range]
    omega
  · exact List.mem_map.2 ⟨i, List.mem_range.2 (Nat.lt_succ_of_le hi), rfl⟩

end Regex

end FeatureFile
