import Dataflow.Proofs.Data.Maps
import Dataflow.Proofs.Solver.Runs
import Dataflow.Solver.Analysis

/-!
Stability. A node is stable if updating it would change nothing. The invariant of a run is that a node which does
not await an update is stable, so that all nodes are where a run ends (`Settling.stable_of_ends`). Updates of facts
that meet what comes in at a node and compute what goes out have this invariant if whatever a node meets makes it
a dependent (`Scheme.settling`); no order of facts is needed. Nor is one needed for what holds of every fact at every
step, which has to be kept by meets and by what is computed from them (`Scheme.Preserves.after`).
-/

namespace Dataflow

namespace System
variable {ν σ : Type} [DecidableEq ν] {s : System ν σ} {us : List ν} {rest : Agenda ν} {state : σ} {n m : ν}

/-- Systems that can settle: an update makes its node stable and keeps others so, except for nodes that depend on
a change that it makes. -/
structure Settling (s : System ν σ) (us : List ν) (Stable : σ → ν → Prop) : Prop where
  dependents : ∀ n, ∀ m ∈ s.dependents n, m ∈ us
  kept : ∀ n ∈ us, ∀ m ∈ us, ∀ state, (m ∈ s.dependents n → (s.update n state).2 = false) →
    n = m ∨ Stable state m → Stable (s.update n state).1 m

variable {Stable : σ → ν → Prop}

theorem Settling.advance (settling : s.Settling us Stable) {a : Agenda ν} (ranges : a.Over us)
    (stable : ∀ m ∈ us, ¬ a.Awaits m → Stable state m) (front : a.next? = some (n, rest)) :
    ∀ m ∈ us, ¬ (s.advance n rest state).1.Awaits m → Stable (s.advance n rest state).2 m := by
  intro m inside idle
  obtain ⟨member, ranges⟩ := ranges.next? front
  refine settling.kept n member m inside state (fun depends => ?_) ?_
  · cases changed : (s.update n state).2 with
    | false => rfl
    | true =>
        -- the change would be followed up
        refine absurd ?_ idle
        simpa [System.advance, changed] using ranges.awaits_changed depends inside
  · by_cases here : n = m
    · exact .inl here
    · refine .inr (stable m inside fun awaits => ?_)
      rcases Agenda.awaits_rest front awaits with same | later
      · exact here same.symm
      · exact idle (awaits_advance later)

theorem Settling.stable_of_ends (settling : s.Settling us Stable) {agenda : Agenda ν} (ranges : agenda.Over us)
    (all : ∀ n ∈ us, agenda.Awaits n) {k : Nat} {final : σ} (ends : s.Ends agenda state k final) :
    ∀ n ∈ us, Stable final n := by
  obtain ⟨a, run, empty⟩ := ends
  have stable : ∀ m ∈ us, ¬ a.Awaits m → Stable final m := by
    clear empty
    induction run with
    | start => exact fun m inside idle => absurd (all m inside) idle
    | next run front _ ih => exact settling.advance (over_after settling.dependents ranges run) ih front
  exact fun n inside => stable n inside (Agenda.not_awaits_of_next?_none empty n)

end System

/-- How updates compute facts: what comes in at a node is met, what goes out is computed from that, and the old
fact behind the node is replaced if the new one differs. -/
structure Scheme (ν φ : Type) where
  initial : φ
  meets : Facts ν φ → ν → φ
  computes : ν → φ → φ
  replace : φ → φ → φ × Bool

namespace Scheme
variable {ν φ : Type} [DecidableEq ν]

def update (c : Scheme ν φ) (n : ν) (f : Facts ν φ) : Facts ν φ × Bool :=
  let before := c.meets f n
  let (behind, changed) := c.replace (f.behind.getD n c.initial) (c.computes n before)
  (⟨f.before.insert n before, f.behind.insert n behind⟩, changed)

structure Lawful (c : Scheme ν φ) (same : φ → φ → Bool) : Prop where
  refl : ∀ x, same x x = true
  replace_eq : ∀ old new, c.replace old new = if same old new then (old, false) else (new, true)

def StableAt (c : Scheme ν φ) (same : φ → φ → Bool) (f : Facts ν φ) (n : ν) : Prop :=
  ∃ before behind, f.before.get? n = some before ∧ f.behind.get? n = some behind ∧
    before = c.meets f n ∧ same behind (c.computes n before) = true

variable {c : Scheme ν φ} {same : φ → φ → Bool} {f : Facts ν φ} {n m : ν}

theorem before_update :
    (c.update n f).1.before.get? m = if n = m then some (c.meets f n) else f.before.get? m := by
  simp [update]

theorem behind_update :
    (c.update n f).1.behind.get? m =
      if n = m then some (c.replace (f.behind.getD n c.initial) (c.computes n (c.meets f n))).1
      else f.behind.get? m := by
  simp [update]

theorem changed_update :
    (c.update n f).2 = (c.replace (f.behind.getD n c.initial) (c.computes n (c.meets f n))).2 := rfl

theorem behind_update_of_ne (ne : n ≠ m) :
    (c.update n f).1.behind.getD m c.initial = f.behind.getD m c.initial := by
  simp [OrderedMap.getD, behind_update, ne]

theorem behind_update_of_unchanged (lawful : c.Lawful same) (unchanged : (c.update n f).2 = false) :
    (c.update n f).1.behind.getD m c.initial = f.behind.getD m c.initial := by
  by_cases here : n = m
  · subst here
    rw [changed_update, lawful.replace_eq] at unchanged
    rw [OrderedMap.getD, behind_update, if_pos rfl, Option.getD_some, lawful.replace_eq]
    split at unchanged
    · simp [*]
    · cases unchanged
  · exact behind_update_of_ne here

theorem stableAt_update (lawful : c.Lawful same) (kept : c.meets (c.update n f).1 m = c.meets f m)
    (stable : n = m ∨ c.StableAt same f m) : c.StableAt same (c.update n f).1 m := by
  by_cases here : n = m
  · subst here
    refine ⟨_, _, before_update.trans (if_pos rfl), behind_update.trans (if_pos rfl), kept.symm, ?_⟩
    rw [lawful.replace_eq]
    split
    · assumption
    · exact lawful.refl _
  · obtain ⟨before, behind, found, found', meet, alike⟩ := stable.resolve_left here
    exact ⟨before, behind, by rw [before_update, if_neg here, found], by rw [behind_update, if_neg here, found'],
      by rw [kept, meet], alike⟩

/-- Where meets look at the facts behind the sources of a node only, and a node depends on its sources, updates
settle. -/
theorem settling {s : System ν (Facts ν φ)} {us : List ν} (sources : ν → List ν) (lawful : c.Lawful same)
    (updates : s.update = c.update) (inside : ∀ n, ∀ m ∈ s.dependents n, m ∈ us)
    (looks : ∀ f f' m, (∀ k ∈ sources m, f'.behind.getD k c.initial = f.behind.getD k c.initial) →
      c.meets f' m = c.meets f m)
    (depends : ∀ n, ∀ m ∈ us, n ∈ sources m → m ∈ s.dependents n) : s.Settling us (c.StableAt same) where
  dependents := inside
  kept n _ m inner f unchanged stable := by
    rw [updates] at unchanged ⊢
    refine stableAt_update lawful (looks _ _ m fun k source => ?_) stable
    by_cases here : n = k
    · exact behind_update_of_unchanged lawful (unchanged (depends n m inner (here ▸ source)))
    · exact behind_update_of_ne here

/-! ## What holds of every fact -/

theorem present_after {s : System ν (Facts ν φ)} (updates : s.update = c.update) {agenda a : Agenda ν}
    {first : Facts ν φ} {k : Nat} (run : s.After agenda first k a f)
    (present : ∃ before behind, first.before.get? m = some before ∧ first.behind.get? m = some behind) :
    ∃ before behind, f.before.get? m = some before ∧ f.behind.get? m = some behind := by
  induction run with
  | start => exact present
  | @next _ _ _ g n _ _ _ ih =>
      obtain ⟨before, behind, found, found'⟩ := ih
      simp only [System.advance, updates, before_update, behind_update, found, found']
      split <;> exact ⟨_, _, rfl, rfl⟩

end Scheme

def Facts.Each {ν φ : Type} [DecidableEq ν] (P : ν → φ → Prop) (f : Facts ν φ) : Prop :=
  ∀ n fact, f.before.get? n = some fact ∨ f.behind.get? n = some fact → P n fact

namespace Scheme
variable {ν φ : Type} [DecidableEq ν] {c : Scheme ν φ} {same : φ → φ → Bool} {P : ν → φ → Prop} {f : Facts ν φ} {n : ν}

structure Preserves (c : Scheme ν φ) (P : ν → φ → Prop) : Prop where
  initial : ∀ n, P n c.initial
  meets : ∀ f n, f.Each P → P n (c.meets f n)
  computes : ∀ n fact, P n fact → P n (c.computes n fact)

theorem Preserves.update (preserves : c.Preserves P) (lawful : c.Lawful same) (each : f.Each P) :
    (c.update n f).1.Each P := by
  have before : P n (c.meets f n) := preserves.meets f n each
  have old : P n (f.behind.getD n c.initial) := by
    rw [OrderedMap.getD]
    cases found : f.behind.get? n with
    | none => exact preserves.initial n
    | some fact => exact each n fact (.inr found)
  intro m fact found
  rw [before_update, behind_update, lawful.replace_eq] at found
  by_cases here : n = m
  · subst here
    rw [if_pos rfl, if_pos rfl, Option.some.injEq, Option.some.injEq] at found
    rcases found with rfl | rfl
    · exact before
    · split
      · exact old
      · exact preserves.computes n _ before
  · rw [if_neg here, if_neg here] at found
    exact each m fact found

theorem Preserves.after {s : System ν (Facts ν φ)} (preserves : c.Preserves P) (lawful : c.Lawful same)
    (updates : s.update = c.update) {agenda a : Agenda ν} {first : Facts ν φ} {k : Nat} (each : first.Each P)
    (run : s.After agenda first k a f) : f.Each P := by
  induction run with
  | start => exact each
  | @next _ _ _ g n _ _ _ ih =>
      have next : (s.update n g).1.Each P := updates ▸ preserves.update lawful ih
      exact next

end Scheme

end Dataflow
