/-
# FeatureFile.Proofs.InPlace — changes in place

A change in place works on a state that it can read and write, and it may fail on the way. A failure
leaves the state as it stands at that point: nothing is taken back.
-/

namespace FeatureFile

/-- A change of a state in place, with a value or a failure. -/
abbrev InPlace (σ ε : Type) := ExceptT ε (StateM σ)

namespace InPlace

section Apply

variable {σ ε α β : Type}

/-- What a change in place comes to: its value or failure, and the state behind it. -/
def apply (e : InPlace σ ε α) (s : σ) : Except ε α × σ := e.run.run s

variable (s : σ)

theorem apply_get_bind (f : σ → InPlace σ ε α) :
    apply ((get : InPlace σ ε σ) >>= f) s = (f s).apply s := rfl

@[simp] theorem apply_pure (a : α) : apply (pure a : InPlace σ ε α) s = (.ok a, s) := rfl

@[simp] theorem apply_set (s' : σ) : apply (set s' : InPlace σ ε Unit) s = (.ok (), s') := rfl

@[simp] theorem apply_throw (e : ε) : apply (throw e : InPlace σ ε α) s = (.error e, s) := rfl

/-- What comes behind a failure is not carried out, and nothing is taken back. -/
theorem apply_bind (e : InPlace σ ε α) (f : α → InPlace σ ε β) :
    apply (e >>= f) s =
      match e.apply s with
      | (.ok a, s') => (f a).apply s'
      | (.error x, s') => (.error x, s') := by
  show (ExceptT.run e >>= ExceptT.bindCont f).run s = _
  rw [StateT.run_bind]
  show _ = match (ExceptT.run e).run s with
    | (.ok a, s') => (f a).apply s'
    | (.error x, s') => (.error x, s')
  obtain ⟨_ | _, _⟩ := (ExceptT.run e).run s <;> rfl

end Apply

end InPlace

end FeatureFile
