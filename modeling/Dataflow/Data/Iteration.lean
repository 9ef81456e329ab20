/-!
Loops that may go on forever. A step either gives a result or the state to go on with.
-/

namespace Dataflow

namespace Iteration
variable {σ τ : Type} (step : σ → τ ⊕ σ)

def run (s : σ) : Option τ :=
  match step s with
  | .inl result => some result
  | .inr next => unop% run next
partial_fixpoint

variable {step} {s next : σ} {result : τ}

theorem run_of_inl (done : step s = .inl result) : run step s = some result := by
  rw [run, done]

theorem run_of_inr (goes : step s = .inr next) : run step s = run step next := by
  rw [run, goes]

theorem induct {motive : σ → τ → Prop} (done : ∀ s result, step s = .inl result → motive s result)
    (goes : ∀ s next result, step s = .inr next → motive next result → motive s result)
    (ran : run step s = some result) : motive s result := by
  refine run.partial_correctness step motive ?_ s result ran
  intro again ih s result ran
  cases taken : step s with
  | inl found =>
      rw [taken] at ran
      exact Option.some.inj ran ▸ done s found taken
  | inr next =>
      rw [taken] at ran
      exact goes s next result taken (ih next result ran)

end Iteration

end Dataflow
