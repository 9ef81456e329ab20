/-!
Steps on a state that may fail. A step that fails leaves the state as far as it got, so the state can be
looked at, mended and used again.
-/

namespace Dataflow

abbrev Steps (ε σ : Type) := ExceptT ε (StateM σ)

namespace Steps
variable {ε σ α β : Type}

def on (step : Steps ε σ α) (s : σ) : Except ε α × σ := step.run.run s

def lift : Except ε α → Steps ε σ α
  | .ok a => pure a
  | .error e => throw e

def attempt (step : Steps ε σ α) : Steps ε σ (Except ε α) :=
  tryCatch (return .ok (← step)) fun e => return .error e

@[simp] theorem on_pure (a : α) (s : σ) : on (pure a : Steps ε σ α) s = (.ok a, s) := rfl

@[simp] theorem on_throw (e : ε) (s : σ) : on (throw e : Steps ε σ α) s = (.error e, s) := rfl

@[simp] theorem on_get (s : σ) : on (get : Steps ε σ σ) s = (.ok s, s) := rfl

@[simp] theorem on_set (t s : σ) : on (set t : Steps ε σ PUnit) s = (.ok ⟨⟩, t) := rfl

@[simp] theorem on_modify (f : σ → σ) (s : σ) : on (modify f : Steps ε σ PUnit) s = (.ok ⟨⟩, f s) := rfl

@[simp] theorem on_lift (r : Except ε α) (s : σ) : on (lift r : Steps ε σ α) s = (r, s) := by
  cases r <;> rfl

theorem on_bind (step : Steps ε σ α) (next : α → Steps ε σ β) (s : σ) :
    on (step >>= next) s = match on step s with
      | (.ok a, t) => on (next a) t
      | (.error e, t) => (.error e, t) := by
  rcases ran : step.run.run s with ⟨_ | _, t⟩ <;>
    (simp only [on, ExceptT.run_bind, StateT.run_bind, ran]; rfl)

end Steps

end Dataflow
