import Dataflow.Solver.Engine

/-!
Runs of a system, update by update. `After` relates the start of a run to what it has come to; a run settles
exactly when it comes to an empty agenda within its limit (`solve_settled_iff`). A run whose changes use up a
potential comes to an empty agenda (`exists_end`), and one that comes back to where it was never does
(`endless_of_recurs`). Two systems can run in step, update for update (`Paired.ends`).
-/

namespace Dataflow

deriving instance DecidableEq for Agenda

namespace Agenda
variable {ν : Type}

/-- Whether a node is still to be updated, in this round or, after a change, in the next one. -/
def Awaits (n : ν) : Agenda ν → Prop
  | .worklist queue => n ∈ queue
  | .sweep all pending changed => n ∈ pending ∨ changed = true ∧ n ∈ all

def Over (us : List ν) : Agenda ν → Prop
  | .worklist queue => ∀ n ∈ queue, n ∈ us
  | .sweep all pending _ => all = us ∧ ∀ n ∈ pending, n ∈ us

theorem not_awaits_of_next?_none {a : Agenda ν} (empty : a.next? = none) (n : ν) : ¬ a.Awaits n := by
  cases a with
  | worklist queue => cases queue <;> simp_all [next?, Awaits]
  | sweep all pending changed =>
      cases pending <;> cases changed <;> cases all <;> simp_all [next?, Awaits]

inductive Gives : Agenda ν → ν → Agenda ν → Prop where
  | queued {n : ν} {rest : List ν} : Gives (.worklist (n :: rest)) n (.worklist rest)
  | swept {all rest : List ν} {n : ν} {changed : Bool} :
      Gives (.sweep all (n :: rest) changed) n (.sweep all rest changed)
  | again {n : ν} {rest : List ν} : Gives (.sweep (n :: rest) [] true) n (.sweep (n :: rest) rest false)

theorem gives_of_next? {a rest : Agenda ν} {n : ν} (front : a.next? = some (n, rest)) : a.Gives n rest := by
  unfold next? at front
  split at front <;> cases front <;> constructor

theorem awaits_rest {a rest : Agenda ν} {n m : ν} (front : a.next? = some (n, rest))
    (awaits : a.Awaits m) : m = n ∨ rest.Awaits m := by
  cases gives_of_next? front with
  | queued => exact List.mem_cons.mp awaits
  | swept => simpa [Awaits, or_assoc] using awaits
  | again => simpa [Awaits] using awaits

theorem Over.next? {us : List ν} {a rest : Agenda ν} {n : ν} (ranges : a.Over us)
    (front : a.next? = some (n, rest)) : n ∈ us ∧ rest.Over us := by
  cases gives_of_next? front with
  | queued => exact List.forall_mem_cons.mp ranges
  | swept =>
      obtain ⟨all, inside⟩ := ranges
      obtain ⟨first, others⟩ := List.forall_mem_cons.mp inside
      exact ⟨first, all, others⟩
  | again =>
      obtain ⟨rfl, -⟩ := ranges
      exact ⟨List.mem_cons_self, rfl, fun m member => List.mem_cons_of_mem _ member⟩

/-- Bounds the updates that an agenda asks for before it is empty or something changes. -/
def rank : Agenda ν → Nat
  | .worklist queue => queue.length
  | .sweep all pending changed => pending.length + if changed then all.length + 1 else 0

theorem rank_rest {a rest : Agenda ν} {n : ν} (front : a.next? = some (n, rest)) : rest.rank < a.rank := by
  cases gives_of_next? front with
  | queued => exact Nat.lt_succ_self _
  | swept =>
      simp only [rank, List.length_cons]
      omega
  | again =>
      simp only [rank, List.length_cons, List.length_nil, Bool.false_eq_true, if_false, if_true]
      omega

variable [DecidableEq ν]

theorem mem_enqueue {queue ns : List ν} {n : ν} : n ∈ enqueue queue ns ↔ n ∈ queue ∨ n ∈ ns := by
  induction ns generalizing queue with
  | nil => simp [enqueue]
  | cons head tail ih =>
      simp only [enqueue, List.foldl_cons] at ih ⊢
      rw [ih]
      by_cases queued : head ∈ queue <;> grind

theorem awaits_changed {a : Agenda ν} {n : ν} (dependents : List ν) (awaits : a.Awaits n) :
    (a.changed dependents).Awaits n := by
  cases a with
  | worklist queue => exact mem_enqueue.mpr (.inl awaits)
  | sweep all pending changed =>
      rcases awaits with pending | ⟨-, inside⟩
      · exact .inl pending
      · exact .inr ⟨rfl, inside⟩

theorem Over.awaits_changed {us dependents : List ν} {a : Agenda ν} {n : ν} (ranges : a.Over us)
    (depends : n ∈ dependents) (inside : n ∈ us) : (a.changed dependents).Awaits n := by
  cases a with
  | worklist queue => exact mem_enqueue.mpr (.inr depends)
  | sweep all pending changed => exact .inr ⟨rfl, ranges.1 ▸ inside⟩

theorem Over.changed {us dependents : List ν} {a : Agenda ν} (ranges : a.Over us)
    (inside : ∀ n ∈ dependents, n ∈ us) : (a.changed dependents).Over us := by
  cases a with
  | worklist queue => exact fun n member => (mem_enqueue.mp member).elim (ranges n) (inside n)
  | sweep all pending changed => exact ranges

end Agenda

def Outcome.state? {ν σ : Type} : Outcome ν σ → Option σ
  | .settled state _ => some state
  | _ => none

theorem Outcome.settled_of_state? {ν σ : Type} {o : Outcome ν σ} {state : σ} (found : o.state? = some state) :
    ∃ updates, o = .settled state updates := by
  cases o with
  | settled final updates => exact ⟨updates, congrArg (Outcome.settled · updates) (Option.some.inj found)⟩
  | _ => cases found

theorem Outcome.map_settled_iff {ν σ τ : Type} {f : σ → τ} {o : Outcome ν σ} {final : τ} {updates : Nat} :
    o.map f = .settled final updates ↔ ∃ state, o = .settled state updates ∧ f state = final := by
  cases o with
  | settled state count =>
      simp only [map, settled.injEq]
      constructor
      · rintro ⟨rfl, rfl⟩
        exact ⟨state, ⟨rfl, rfl⟩, rfl⟩
      · rintro ⟨_, ⟨rfl, rfl⟩, rfl⟩
        exact ⟨rfl, rfl⟩
  | _ => simp [map]

theorem Outcome.exists_of_state? {ν σ : Type} {o : Outcome ν σ} (settled : o.state?.isSome = true) :
    ∃ state updates, o = .settled state updates := by
  obtain ⟨state, found⟩ := Option.isSome_iff_exists.mp settled
  exact ⟨state, settled_of_state? found⟩

namespace System
variable {ν σ : Type} [DecidableEq ν]

inductive After (s : System ν σ) (agenda : Agenda ν) (state : σ) : Nat → Agenda ν → σ → Prop where
  | start : s.After agenda state 0 agenda state
  | next {k : Nat} {a rest : Agenda ν} {t : σ} {n : ν} :
      s.After agenda state k a t → a.next? = some (n, rest) → s.ready n = true →
      s.After agenda state (k + 1) (s.advance n rest t).1 (s.advance n rest t).2

theorem After.cons {s : System ν σ} {agenda rest a : Agenda ν} {state t : σ} {n : ν} {k : Nat}
    (front : agenda.next? = some (n, rest)) (ready : s.ready n = true)
    (run : s.After (s.advance n rest state).1 (s.advance n rest state).2 k a t) :
    s.After agenda state (k + 1) a t := by
  induction run with
  | start => exact .next .start front ready
  | next _ later ready ih => exact .next ih later ready

def Ends (s : System ν σ) (agenda : Agenda ν) (state : σ) (k : Nat) (final : σ) : Prop :=
  ∃ a, s.After agenda state k a final ∧ a.next? = none

theorem After.head {s : System ν σ} {agenda a : Agenda ν} {state t : σ} {k : Nat}
    (run : s.After agenda state k a t) :
    k = 0 ∧ a = agenda ∧ t = state ∨ ∃ j n rest, k = j + 1 ∧ agenda.next? = some (n, rest) ∧
      s.ready n = true ∧ s.After (s.advance n rest state).1 (s.advance n rest state).2 j a t := by
  induction run with
  | start => exact .inl ⟨rfl, rfl, rfl⟩
  | next _ later ready ih =>
      rcases ih with ⟨rfl, rfl, rfl⟩ | ⟨j, n, rest, rfl, front, ready', run⟩
      · exact .inr ⟨_, _, _, rfl, later, ready, .start⟩
      · exact .inr ⟨_, _, _, rfl, front, ready', .next run later ready⟩

theorem ends_of_empty {s : System ν σ} {agenda : Agenda ν} {state final : σ} {k : Nat}
    (empty : agenda.next? = none) : s.Ends agenda state k final ↔ k = 0 ∧ final = state := by
  constructor
  · rintro ⟨a, run, -⟩
    rcases run.head with ⟨rfl, -, rfl⟩ | ⟨j, n, rest, -, front, -⟩
    · exact ⟨rfl, rfl⟩
    · simp [empty] at front
  · rintro ⟨rfl, rfl⟩
    exact ⟨agenda, .start, empty⟩

theorem ends_of_front {s : System ν σ} {agenda rest : Agenda ν} {state final : σ} {n : ν} {k : Nat}
    (front : agenda.next? = some (n, rest)) :
    s.Ends agenda state k final ↔ s.ready n = true ∧ ∃ j, k = j + 1 ∧
      s.Ends (s.advance n rest state).1 (s.advance n rest state).2 j final := by
  constructor
  · rintro ⟨a, run, empty⟩
    rcases run.head with ⟨-, rfl, -⟩ | ⟨j, m, rest', rfl, front', ready, run⟩
    · simp [front] at empty
    · rw [front] at front'
      obtain ⟨rfl, rfl⟩ := front'
      exact ⟨ready, j, rfl, a, run, empty⟩
  · rintro ⟨ready, j, rfl, a, run, empty⟩
    exact ⟨a, run.cons front ready, empty⟩

theorem settled_iff_of_empty {s : System ν σ} {fuel count t : Nat} {agenda : Agenda ν} {state final : σ}
    (empty : agenda.next? = none) :
    (.settled state count : Outcome ν σ) = .settled final t ↔
      ∃ k, s.Ends agenda state k final ∧ k ≤ fuel ∧ t = count + k := by
  simp only [Outcome.settled.injEq, ends_of_empty empty]
  constructor
  · rintro ⟨rfl, rfl⟩
    exact ⟨0, ⟨rfl, rfl⟩, Nat.zero_le fuel, rfl⟩
  · rintro ⟨k, ⟨rfl, rfl⟩, -, rfl⟩
    exact ⟨rfl, rfl⟩

theorem run_settled_iff {s : System ν σ} {fuel count t : Nat} {agenda : Agenda ν} {state final : σ} :
    s.run fuel agenda state count = .settled final t ↔
      ∃ k, s.Ends agenda state k final ∧ k ≤ fuel ∧ t = count + k := by
  induction fuel generalizing agenda state count with
  | zero =>
      unfold run
      cases front : agenda.next? with
      | none => exact settled_iff_of_empty front
      | some head =>
          obtain ⟨n, rest⟩ := head
          by_cases ready : s.ready n <;> grind [ends_of_front front]
  | succ fuel ih =>
      unfold run
      cases front : agenda.next? with
      | none => exact settled_iff_of_empty front
      | some head =>
          obtain ⟨n, rest⟩ := head
          simp only [ends_of_front front]
          by_cases ready : s.ready n
          · simp only [ready, if_true, ih, true_and]
            constructor
            · rintro ⟨k, ends, bound, rfl⟩
              exact ⟨k + 1, ⟨k, rfl, ends⟩, by omega, by omega⟩
            · rintro ⟨-, ⟨k, rfl, ends⟩, bound, rfl⟩
              exact ⟨k, ends, by omega, by omega⟩
          · simp [ready]

theorem turn_of_empty {s : System ν σ} {agenda : Agenda ν} (empty : agenda.next? = none) (state : σ) (count : Nat) :
    s.turn (agenda, state, count) = .inl (.settled state count) := by
  simp [turn, empty]

theorem turn_of_front {s : System ν σ} {agenda rest : Agenda ν} {n : ν} (front : agenda.next? = some (n, rest))
    (state : σ) (count : Nat) :
    s.turn (agenda, state, count) = if s.ready n then
        .inr ((s.advance n rest state).1, (s.advance n rest state).2, count + 1)
      else .inl (.stuck n) := by
  simp [turn, front]

theorem runToEnd_of_empty {s : System ν σ} {agenda : Agenda ν} (empty : agenda.next? = none) (state : σ) (count : Nat) :
    s.runToEnd agenda state count = some (.settled state count) := Iteration.run_of_inl (turn_of_empty empty state count)

theorem runToEnd_of_front {s : System ν σ} {agenda rest : Agenda ν} {n : ν} (front : agenda.next? = some (n, rest))
    (ready : s.ready n = true) (state : σ) (count : Nat) :
    s.runToEnd agenda state count =
      s.runToEnd (s.advance n rest state).1 (s.advance n rest state).2 (count + 1) :=
  Iteration.run_of_inr (by rw [turn_of_front front, if_pos ready])

theorem runToEnd_induct {s : System ν σ} {motive : Agenda ν → σ → Outcome ν σ → Nat → Prop}
    (empty : ∀ agenda state count, agenda.next? = none → motive agenda state (.settled state count) count)
    (stuck : ∀ agenda state count n rest, agenda.next? = some (n, rest) → s.ready n = false →
      motive agenda state (.stuck n) count)
    (goes : ∀ agenda state count n rest outcome, agenda.next? = some (n, rest) → s.ready n = true →
      motive (s.advance n rest state).1 (s.advance n rest state).2 outcome (count + 1) →
      motive agenda state outcome count)
    {agenda : Agenda ν} {state : σ} {count : Nat} {outcome : Outcome ν σ}
    (ran : s.runToEnd agenda state count = some outcome) : motive agenda state outcome count := by
  refine Iteration.induct (motive := fun now outcome => motive now.1 now.2.1 outcome now.2.2) ?_ ?_ ran
  · rintro ⟨agenda, state, count⟩ outcome ends
    cases front : agenda.next? with
    | none =>
        rw [turn_of_empty front] at ends
        exact Sum.inl.inj ends ▸ empty agenda state count front
    | some head =>
        rw [turn_of_front front] at ends
        cases ready : s.ready head.1 with
        | true => simp [ready] at ends
        | false =>
            rw [ready] at ends
            exact Sum.inl.inj ends ▸ stuck agenda state count head.1 head.2 front ready
  · rintro ⟨agenda, state, count⟩ next outcome goesOn holds
    cases front : agenda.next? with
    | none => simp [turn_of_empty front] at goesOn
    | some head =>
        rw [turn_of_front front] at goesOn
        cases ready : s.ready head.1 with
        | true =>
            simp only [ready, if_true, Sum.inr.injEq] at goesOn
            subst goesOn
            exact goes agenda state count head.1 head.2 outcome front ready holds
        | false => simp [ready] at goesOn

theorem ends_of_runToEnd {s : System ν σ} {agenda : Agenda ν} {state : σ} {count : Nat}
    {outcome : Outcome ν σ} (ran : s.runToEnd agenda state count = some outcome) :
    ∀ {final t}, outcome = .settled final t → ∃ k, s.Ends agenda state k final ∧ t = count + k := by
  refine runToEnd_induct (motive := fun agenda state outcome count =>
    ∀ {final t}, outcome = .settled final t → ∃ k, s.Ends agenda state k final ∧ t = count + k) ?_ ?_ ?_ ran
  · intro agenda state count front final t settled
    obtain ⟨rfl, rfl⟩ := Outcome.settled.inj settled
    exact ⟨0, (ends_of_empty front).mpr ⟨rfl, rfl⟩, rfl⟩
  · intro agenda state count n rest _ _ final t settled
    cases settled
  · intro agenda state count n rest outcome front ready ih final t settled
    obtain ⟨k, ends, rfl⟩ := ih settled
    exact ⟨k + 1, (ends_of_front front).mpr ⟨ready, k, rfl, ends⟩, by omega⟩

theorem runToEnd_of_ends {s : System ν σ} {agenda : Agenda ν} {state final : σ} {k : Nat} (count : Nat)
    (ends : s.Ends agenda state k final) :
    s.runToEnd agenda state count = some (.settled final (count + k)) := by
  induction k generalizing agenda state count with
  | zero =>
      cases front : agenda.next? with
      | none => simp [runToEnd_of_empty front, ((ends_of_empty front).mp ends).2]
      | some head => obtain ⟨-, j, impossible, -⟩ := (ends_of_front front).mp ends; omega
  | succ k ih =>
      cases front : agenda.next? with
      | none => have := ((ends_of_empty front).mp ends).1; omega
      | some head =>
          obtain ⟨ready, j, same, ends⟩ := (ends_of_front front).mp ends
          obtain rfl : k = j := by omega
          rw [runToEnd_of_front front ready, ih (count + 1) ends]
          congr 2
          omega

/-- Solving settles exactly in the state in which the run ends, if that comes within the limit. -/
theorem solve_settled_iff {s : System ν σ} {agenda : Agenda ν} {state final : σ} {limit : Option Int} {t : Nat} :
    s.solve agenda state limit = .settled final t ↔
      s.Ends agenda state t final ∧ ∀ k, limit = some k → t ≤ k.toNat := by
  cases limit with
  | some k =>
      simp only [solve, run_settled_iff]
      constructor
      · rintro ⟨j, ends, bound, rfl⟩
        simpa using ⟨ends, bound⟩
      · rintro ⟨ends, bound⟩
        exact ⟨t, ends, bound k rfl, by omega⟩
  | none =>
      simp only [solve, reduceCtorEq, false_implies, implies_true, and_true]
      constructor
      · intro settled
        cases ran : s.runToEnd agenda state 0 with
        | none => simp [ran] at settled
        | some outcome =>
            rw [ran, Option.getD_some] at settled
            obtain ⟨k, ends, rfl⟩ := ends_of_runToEnd ran settled
            simpa using ends
      · intro ends
        simp [runToEnd_of_ends 0 ends]

/-! ## What runs keep -/

section Keeps
variable {s : System ν σ} {us : List ν} {rest : Agenda ν} {state : σ} {n m : ν}

theorem over_advance (inside : ∀ n, ∀ m ∈ s.dependents n, m ∈ us) (ranges : rest.Over us) :
    (s.advance n rest state).1.Over us := by
  simp only [advance]
  split
  · exact ranges.changed (inside n)
  · exact ranges

theorem over_after (inside : ∀ n, ∀ m ∈ s.dependents n, m ∈ us) {agenda a : Agenda ν} (ranges : agenda.Over us)
    {k : Nat} {t : σ} (run : s.After agenda state k a t) : a.Over us := by
  induction run with
  | start => exact ranges
  | next _ front _ ih => exact over_advance inside (ih.next? front).2

theorem run_ne_stuck (inside : ∀ n, ∀ m ∈ s.dependents n, m ∈ us) (ready : ∀ n ∈ us, s.ready n = true)
    {agenda : Agenda ν} (ranges : agenda.Over us) (fuel count : Nat) : s.run fuel agenda state count ≠ .stuck m := by
  induction fuel generalizing agenda state count with
  | zero =>
      unfold run
      cases front : agenda.next? with
      | none => exact nofun
      | some head => simp [ready head.1 (ranges.next? front).1]
  | succ fuel ih =>
      unfold run
      cases front : agenda.next? with
      | none => exact nofun
      | some head =>
          obtain ⟨first, others⟩ := ranges.next? front
          simp only [ready head.1 first, if_true]
          exact ih (over_advance inside others) _

theorem runToEnd_ne_stuck (inside : ∀ n, ∀ m ∈ s.dependents n, m ∈ us) (ready : ∀ n ∈ us, s.ready n = true)
    {agenda : Agenda ν} (ranges : agenda.Over us) (count : Nat) : s.runToEnd agenda state count ≠ some (.stuck m) := by
  intro ran
  refine runToEnd_induct (motive := fun agenda _ outcome _ => agenda.Over us → outcome ≠ .stuck m) ?_ ?_ ?_ ran ranges rfl
  · intro agenda state count _ _ impossible
    cases impossible
  · intro agenda state count n rest front unready ranges
    simp [ready n (ranges.next? front).1] at unready
  · intro agenda state count n rest outcome front _ ih ranges
    exact ih (over_advance inside (ranges.next? front).2)

theorem solve_ne_stuck (inside : ∀ n, ∀ m ∈ s.dependents n, m ∈ us) (ready : ∀ n ∈ us, s.ready n = true)
    {agenda : Agenda ν} (ranges : agenda.Over us) (state : σ) (limit : Option Int) (m : ν) :
    s.solve agenda state limit ≠ .stuck m := by
  cases limit with
  | some k => exact run_ne_stuck inside ready ranges _ _
  | none =>
      have moves : s.runToEnd agenda state 0 ≠ some (.stuck m) := runToEnd_ne_stuck inside ready ranges 0
      unfold solve
      cases ran : s.runToEnd agenda state 0 with
      | none => exact nofun
      | some outcome => exact fun same => moves (by rw [ran]; exact congrArg some same)

theorem awaits_advance (awaits : rest.Awaits m) : (s.advance n rest state).1.Awaits m := by
  simp only [advance]
  split
  · exact Agenda.awaits_changed _ awaits
  · exact awaits

end Keeps

/-! ## Two systems in step -/

/-- Two systems that agree on what depends on a node, and whose updates keep a relation of their states and tell of the
same changes. -/
structure Paired {τ : Type} (s : System ν σ) (r : System ν τ) (us : List ν) (Rel : σ → τ → Prop) : Prop where
  ready : ∀ n ∈ us, s.ready n = r.ready n
  dependents : ∀ n ∈ us, s.dependents n = r.dependents n
  inside : ∀ n ∈ us, ∀ m ∈ s.dependents n, m ∈ us
  update : ∀ n ∈ us, ∀ x y, Rel x y → Rel (s.update n x).1 (r.update n y).1 ∧ (s.update n x).2 = (r.update n y).2

section Paired
variable {τ : Type} {s : System ν σ} {r : System ν τ} {us : List ν} {Rel : σ → τ → Prop}

omit [DecidableEq ν] in
theorem Paired.symm (paired : s.Paired r us Rel) : r.Paired s us fun y x => Rel x y where
  ready n member := (paired.ready n member).symm
  dependents n member := (paired.dependents n member).symm
  inside n member := paired.dependents n member ▸ paired.inside n member
  update n member y x related := (paired.update n member x y related).imp id Eq.symm

theorem Paired.advance (paired : s.Paired r us Rel) {rest : Agenda ν} (ranges : rest.Over us) {n : ν} (member : n ∈ us)
    {x : σ} {y : τ} (related : Rel x y) : (s.advance n rest x).1 = (r.advance n rest y).1 ∧
      (s.advance n rest x).1.Over us ∧ Rel (s.advance n rest x).2 (r.advance n rest y).2 := by
  obtain ⟨kept, same⟩ := paired.update n member x y related
  refine ⟨?_, ?_, kept⟩
  · simp only [System.advance, same, paired.dependents n member]
  · simp only [System.advance]
    split
    · exact ranges.changed (paired.inside n member)
    · exact ranges

theorem Paired.after (paired : s.Paired r us Rel) {agenda a : Agenda ν} (ranges : agenda.Over us) {x x' : σ} {y : τ}
    (related : Rel x y) {k : Nat} (run : s.After agenda x k a x') :
    a.Over us ∧ ∃ y', r.After agenda y k a y' ∧ Rel x' y' := by
  induction run with
  | start => exact ⟨ranges, y, .start, related⟩
  | @next _ _ rest _ n _ front ready ih =>
      obtain ⟨ranges, y', run, related⟩ := ih
      obtain ⟨member, ranges⟩ := ranges.next? front
      obtain ⟨same, ranges, related⟩ := paired.advance ranges member related
      refine ⟨ranges, _, ?_, related⟩
      rw [same]
      exact .next run front (paired.ready n member ▸ ready)

theorem Paired.ends (paired : s.Paired r us Rel) {agenda : Agenda ν} (ranges : agenda.Over us) {x final : σ} {y : τ}
    (related : Rel x y) {k : Nat} (ends : s.Ends agenda x k final) : ∃ y', r.Ends agenda y k y' ∧ Rel final y' := by
  obtain ⟨a, run, empty⟩ := ends
  obtain ⟨-, y', run', related⟩ := paired.after ranges related run
  exact ⟨y', ⟨a, run', empty⟩, related⟩

end Paired

/-- A run ends if every change uses up some of a potential, which nothing else adds to. -/
theorem exists_end (s : System ν σ) (Inv : Agenda ν → σ → Prop) (potential : σ → Nat)
    (step : ∀ a state n rest, Inv a state → a.next? = some (n, rest) → s.ready n = true ∧
      Inv (s.advance n rest state).1 (s.advance n rest state).2 ∧
      if (s.update n state).2 then potential (s.update n state).1 < potential state
      else potential (s.update n state).1 ≤ potential state)
    (agenda : Agenda ν) (state : σ) (inv : Inv agenda state) : ∃ k final, s.Ends agenda state k final := by
  cases front : agenda.next? with
  | none => exact ⟨0, state, agenda, .start, front⟩
  | some head =>
      obtain ⟨n, rest⟩ := head
      obtain ⟨ready, inv', drops⟩ := step agenda state n rest inv front
      -- a change uses up potential; without one the agenda gets shorter
      have decrease : potential (s.advance n rest state).2 < potential state ∨
          potential (s.advance n rest state).2 ≤ potential state ∧
            (s.advance n rest state).1.rank < agenda.rank := by
        cases changed : (s.update n state).2 with
        | true => exact .inl (by simpa [advance, changed] using drops)
        | false =>
            refine .inr ⟨by simpa [advance, changed] using drops, ?_⟩
            simpa [advance, changed] using Agenda.rank_rest front
      obtain ⟨k, final, ends⟩ := exists_end s Inv potential step _ _ inv'
      exact ⟨k + 1, final, (ends_of_front front).mpr ⟨ready, k, rfl, ends⟩⟩
termination_by (potential state, agenda.rank)
decreasing_by
  rcases decrease with less | ⟨le, less⟩
  · exact .left _ _ less
  · rcases Nat.lt_or_eq_of_le le with less' | same
    · exact .left _ _ less'
    · rw [same]
      exact .right _ less

/-! ## Runs without end -/

def walk (s : System ν σ) : Nat → Agenda ν × σ → Option (Agenda ν × σ)
  | 0, now => some now
  | k + 1, now =>
      match now.1.next? with
      | none => none
      | some (n, rest) => if s.ready n then s.walk k (s.advance n rest now.2) else none

theorem walk_add (s : System ν σ) (j k : Nat) (now : Agenda ν × σ) :
    s.walk (j + k) now = (s.walk j now).bind (s.walk k) := by
  induction j generalizing now with
  | zero => rw [Nat.zero_add, walk, Option.bind_some]
  | succ j ih =>
      rw [Nat.succ_add, walk, walk]
      split
      · rfl
      · split
        · exact ih _
        · rfl

theorem exists_walk_eq_none {s : System ν σ} {agenda : Agenda ν} {state : σ} {count : Nat}
    {outcome : Outcome ν σ} (ran : s.runToEnd agenda state count = some outcome) :
    ∃ k, s.walk k (agenda, state) = none := by
  refine runToEnd_induct (motive := fun agenda state _ _ => ∃ k, s.walk k (agenda, state) = none) ?_ ?_ ?_ ran
  · intro agenda state count front
    exact ⟨1, by simp [walk, front]⟩
  · intro agenda state count n rest front unready
    exact ⟨1, by simp [walk, front, unready]⟩
  · intro agenda state count n rest outcome front ready ih
    obtain ⟨k, halts⟩ := ih
    exact ⟨k + 1, by simpa [walk, front, ready] using halts⟩

theorem walk_mul {s : System ν σ} {period : Nat} {now : Agenda ν × σ} (back : s.walk period now = some now)
    (rounds : Nat) : s.walk (rounds * period) now = some now := by
  induction rounds with
  | zero => rw [Nat.zero_mul, walk]
  | succ rounds ih => rw [Nat.succ_mul, walk_add, ih, Option.bind_some, back]

theorem endless_of_recurs {s : System ν σ} {agenda : Agenda ν} {state : σ} {k period : Nat}
    (going : (s.walk k (agenda, state)).isSome = true)
    (recurs : s.walk (k + (period + 1)) (agenda, state) = s.walk k (agenda, state)) :
    s.solve agenda state none = .endless := by
  obtain ⟨now, came⟩ := Option.isSome_iff_exists.mp going
  have back : s.walk (period + 1) now = some now := by
    rwa [walk_add, came, Option.bind_some] at recurs
  cases ran : s.runToEnd agenda state 0 with
  | none => simp [solve, ran]
  | some outcome =>
      -- after enough rounds the run would be past its halt
      obtain ⟨j, halts⟩ := exists_walk_eq_none ran
      have further : s.walk (k + j * (period + 1)) (agenda, state) = some now := by
        rw [walk_add, came, Option.bind_some, walk_mul back]
      have beyond : k + j * (period + 1) = j + (k + j * period) := by
        rw [Nat.mul_succ]
        omega
      rw [beyond, walk_add, halts, Option.bind_none] at further
      cases further

end System

end Dataflow
