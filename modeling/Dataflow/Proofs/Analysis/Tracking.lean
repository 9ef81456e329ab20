import Dataflow.Proofs.Analysis.Monotone
import Dataflow.Proofs.Fact.Entries
import Dataflow.Proofs.Ir.Variables

/-!
What the facts of constant propagation bind, at every step of solving. An entry of a fact is a parameter or comes from
a statement, so what meets keep and what holds of these holds of all entries (`Kept.after`). The facts of a finished
body bind variables of the body that hold an integer, to signed words or to no constant (`facts_track`). Other
variables are never bound and read as undefined, so that what is computed from one is not known to be no constant:
it is so only where another operand is (`reads_untracked`).
-/

namespace Dataflow

namespace Constants

structure Belongs (f : Constants Var) (b : Body) : Prop where
  own : ∀ v ∈ f.keys, v ∈ b.vars
  defined : ∀ v, f.get? v ≠ some .undefined
  inRange : ∀ v c, f.get? v = some (.const c) → Word32.InRange c

structure Tracks (f : Constants Var) (b : Body) : Prop extends f.Belongs b where
  ints : ∀ v ∈ f.keys, v.holdsInt = true

end Constants

namespace Propagation

section Entries
variable {P : Var → Value → Prop} {f : Constants Var}

theorem all_boundary (b : Body) : (boundary b).All fun v x => v ∈ b.params ∧ v.holdsInt = true ∧ x = .nac := by
  refine Constants.All.empty.foldl_set fun _ _ v member _ => ?_
  obtain ⟨param, int⟩ := List.mem_filter.mp member
  exact ⟨param, int, rfl⟩

theorem all_sent {P : Node → Var → Value → Prop} {f : Facts Node (Constants Var)}
    (each : f.Each fun n fact => fact.All (P n)) (n : Node) : (sent f n).All (P n) := by
  rw [sent, OrderedMap.getD]
  cases found : f.behind.get? n with
  | none => exact .empty
  | some fact => exact each n fact (.inr found)

theorem all_transfer {s : Option Stmt} (all : f.All P)
    (writes : ∀ stmt v, ∀ e : Exp, s = some stmt → stmt.defVar? = some v → v.holdsInt = true →
      e.evaluate f ≠ .undefined → P v (e.evaluate f)) : (transfer s f).All P := by
  cases s with
  | none => exact all
  | some stmt =>
      rcases transfer_cases stmt with same | ⟨v, e, written, -, int, sets⟩
      · rw [same]
        exact all
      · rw [sets]
        exact all.set (writes stmt v e rfl written int)

end Entries

structure Kept (b : Body) (P : Var → Value → Prop) : Prop where
  meets : ∀ v x y, P v x → P v y → P v (x.meet y)
  params : ∀ v ∈ b.params, v.holdsInt = true → P v .nac
  writes : ∀ f, Constants.All P f → ∀ s ∈ b.stmts, ∀ v, ∀ e : Exp, s.defVar? = some v → v.holdsInt = true →
    e.evaluate f ≠ .undefined → P v (e.evaluate f)

section Steps
variable {b : Body} {g : Cfg} {strategy : Strategy} {k : Nat} {a : Agenda Node} {f : Facts Node (Constants Var)}
  {P : Var → Value → Prop}

theorem Kept.preserves (kept : Kept b P) (g : Cfg) : (analysis.scheme g b).Preserves fun _ fact => fact.All P where
  initial _ := .empty
  meets _ _ each := Constants.All.gather kept.meets .empty fun m _ => all_sent each m
  computes _ fact all := all_transfer all fun s v e stands => kept.writes fact all s (Body.mem_of_stmt? stands) v e

theorem Kept.initial (kept : Kept b P) (g : Cfg) : (analysis.initialFacts g b).Each fun _ fact => fact.All P := by
  have outside : (boundary b).All P := by
    intro v x entry
    obtain ⟨param, int, rfl⟩ := all_boundary b v x entry
    exact kept.params v param int
  have blank {n : Node} {fact : Constants Var}
      (found : (OrderedMap.ofList (g.nodes.map fun n => (n, analysis.initial))).get? n = some fact) : fact.All P := by
    rw [OrderedMap.get?_ofList_map] at found
    split at found
    · rw [← Option.some.inj found]
      exact .empty
    · cases found
  intro n fact found
  simp only [Analysis.initialFacts, OrderedMap.get?_insert] at found
  rcases found with before | behind
  · exact blank before
  · split at behind
    · rw [← Option.some.inj behind]
      exact outside
    · exact blank behind

theorem Kept.after (kept : Kept b P)
    (run : (analysis.system g b).After (analysis.agenda g strategy) (analysis.initialFacts g b) k a f) :
    f.Each fun _ fact => fact.All P :=
  (kept.preserves g).after (lawful.scheme g b) rfl (kept.initial g) run

theorem kept_ints (b : Body) : Kept b fun v _ => v.holdsInt = true :=
  ⟨fun _ _ _ int _ => int, fun _ _ int => int, fun _ _ _ _ _ _ _ int _ => int⟩

theorem kept_values (b : Body) : Kept b fun _ x => x.Bound :=
  ⟨fun _ _ _ left right => left.meet right, fun _ _ _ => ⟨Value.noConfusion, trivial⟩,
    fun _ all _ _ _ _ _ _ defined => Exp.bound_evaluate all defined⟩

theorem kept_own (contained : b.SelfContained) : Kept b fun v _ => v ∈ b.vars :=
  ⟨fun _ _ _ own _ => own, fun v param _ => contained.params v param,
    fun _ _ s member v _ written _ _ => contained.written s member v written⟩

/-! ## Facts of finished bodies -/

/-- At every step of either strategy there are facts on both sides of every node, and all facts are about variables
of the body that hold an integer. -/
theorem facts_track (finished : b.Finished)
    (run : (analysis.system g b).After (analysis.agenda g strategy) (analysis.initialFacts g b) k a f) :
    (f.Each fun _ fact => fact.Tracks b) ∧
      ∀ n ∈ g.nodes, ∃ before behind, f.before.get? n = some before ∧ f.behind.get? n = some behind := by
  constructor
  · intro n fact found
    have own := (kept_own finished.selfContained).after run n fact found
    have ints := (kept_ints b).after run n fact found
    have values := (kept_values b).after run n fact found
    refine ⟨⟨fun v bound => ?_, fun v entry => (values v _ entry).1 rfl, fun v c entry => (values v _ entry).2⟩,
      fun v bound => ?_⟩
    · obtain ⟨x, entry⟩ := OrderedMap.mem_keys_iff.mp bound
      exact own v x entry
    · obtain ⟨x, entry⟩ := OrderedMap.mem_keys_iff.mp bound
      exact ints v x entry
  · intro n inside
    refine Scheme.present_after (c := analysis.scheme g b) rfl run ?_
    by_cases first : analysis.start g = n <;>
      simp [Analysis.initialFacts, OrderedMap.get?_ofList_map, first, inside]

end Steps

end Propagation

namespace Blend
open Propagation (analysis transfer)

def method : MethodRef := ⟨⟨0, "Main"⟩, ⟨"f", [.int, .long, .long], .int⟩⟩

def p : Var := ⟨"p", .int, some method, 0⟩

def l : Var := ⟨"l", .long, some method, 1⟩

def m : Var := ⟨"m", .long, some method, 2⟩

def c : Var := ⟨"c", .int, some method, 3⟩

def instrs : List Instr := [
  .branch .gt (.ident "p") (.int 0) "less",
  .assign (.ident "c") (.int 4294967297),
  .goto "end",
  .label "less",
  .compute "c" .lt (.ident "l") (.ident "m"),
  .label "end",
  .ret (some "c")]

def body : Body where
  method := method
  this := none
  params := [p, l, m]
  stmts := [
    .branch .gt (.var p) (.lit 0) (some (.stmt 3 method)),
    .assign (.var c) (.lit 4294967297),
    .goto (some (.stmt 4 method)),
    .assign (.var c) (.bin .lt (.var l) (.var m)),
    .ret (some c)]
  vars := [p, l, m, c]

def graph : Cfg := (Cfg.bare 0 method 5).drawAll ((Cfg.bare 0 method 5).edgesOf body)

set_option maxRecDepth 10000 in
theorem body_finished : body.Finished := by
  have done : (Drafting.finish.on (.ofInstrs method true ["p", "l", "m"] instrs)).1 = .ok body := rfl
  exact Body.finished_of_instrs done

-- what is known where the long numbers are compared
def compared : Constants Var := OrderedMap.ofList [(p, .nac)]

theorem exists_facts (strategy : Strategy) : ∃ k a f,
    (analysis.system graph body).After (analysis.agenda graph strategy) (analysis.initialFacts graph body) k a f ∧
      f.before.get? (graph.node 3) = some compared ∧
      ∃ last, f.before.get? (graph.node 4) = some last ∧ last.get? c = some (.const 1) := by
  have computed : ((analysis.solve graph body strategy (some 40)).state?.bind fun s =>
      (s.input.get? (graph.node 4)).map fun last =>
        decide (s.input.get? (graph.node 3) = some compared ∧ last.get? c = some (.const 1))) = some true := by
    cases strategy <;> decide +kernel
  simp only [Option.bind_eq_some_iff, Option.map_eq_some_iff, decide_eq_true_eq] at computed
  obtain ⟨s, solved, last, there, here, one⟩ := computed
  obtain ⟨t, settled⟩ := Outcome.settled_of_state? solved
  obtain ⟨f, rfl, ⟨a, run, -⟩, -⟩ := Analysis.solve_settled_iff.mp settled
  exact ⟨t, a, f, run, here, last, there, one⟩

theorem blend_tracks : body.Finished ∧ ∃ k a f,
    (analysis.system graph body).After (analysis.agenda graph .iterative) (analysis.initialFacts graph body) k a f ∧
      (∃ fact, f.before.get? (graph.node 4) = some fact ∧ fact.get? c = some (.const 1)) ∧
      (f.Each fun _ fact => fact.Tracks body) ∧
      ∀ n ∈ graph.nodes, ∃ before behind, f.before.get? n = some before ∧ f.behind.get? n = some behind := by
  obtain ⟨k, a, f, run, -, last, there, one⟩ := exists_facts .iterative
  exact ⟨body_finished, k, a, f, run, ⟨last, there, one⟩, Propagation.facts_track body_finished run⟩

end Blend

/-! ## Variables that hold no integer -/

theorem Value.const_of_binary {op : BinOp} {x y : Value} {c : Int} (known : binary op x y = .const c) :
    (∃ m, x = .const m) ∧ ∃ n, y = .const n := by
  unfold binary at known
  split at known
  · cases known
  · split at known
    · exact ⟨⟨_, rfl⟩, _, rfl⟩
    all_goals cases known

theorem Exp.evaluate_ne_const {f : Constants Var} {e : Exp} {u : Var} (reads : u ∈ e.operands)
    (unknown : f.value u = .undefined) (c : Int) : e.evaluate f ≠ .const c := by
  intro known
  induction e generalizing c with
  | var v =>
      obtain rfl := List.mem_singleton.mp reads
      exact absurd (unknown.symm.trans known) Value.noConfusion
  | bin op left right ihLeft ihRight =>
      obtain ⟨⟨m, first⟩, n, second⟩ := Value.const_of_binary known
      rcases List.mem_append.mp reads with there | there
      · exact ihLeft there m first
      · exact ihRight there n second
  | _ => cases reads

def Exp.Spoilt (f : Constants Var) (e : Exp) : Prop :=
  ∃ op left right, e = .bin op left right ∧ ¬ (op.divides = true ∧ right.evaluate f = .const 0) ∧
    (left.evaluate f = .nac ∨ right.evaluate f = .nac)

theorem Exp.evaluate_eq_nac_iff {f : Constants Var} {e : Exp} {u : Var} (reads : u ∈ e.operands)
    (unknown : f.value u = .undefined) : e.evaluate f = .nac ↔ e.Spoilt f := by
  cases e with
  | var v =>
      obtain rfl := List.mem_singleton.mp reads
      simp [evaluate, unknown, Spoilt]
  | bin op left right =>
      rw [evaluate, Value.binary_eq_nac_iff]
      constructor
      · exact fun spoilt => ⟨op, left, right, rfl, spoilt⟩
      · rintro ⟨_, _, _, same, spoilt⟩
        obtain ⟨rfl, rfl, rfl⟩ := Exp.bin.inj same
        exact spoilt
  | _ => cases reads

namespace Propagation

section Steps
variable {b : Body} {g : Cfg} {strategy : Strategy} {k : Nat} {a : Agenda Node} {f : Facts Node (Constants Var)}

theorem value_untracked
    (run : (analysis.system g b).After (analysis.agenda g strategy) (analysis.initialFacts g b) k a f) {n : Node}
    {fact : Constants Var} (found : f.before.get? n = some fact) {u : Var} (untracked : u.holdsInt = false) :
    fact.value u = .undefined := by
  by_contra known
  have int : u.holdsInt = true := ((kept_ints b).after run n fact (.inl found)).value known
  exact absurd (int.symm.trans untracked) (by decide)

/-- In front of every node and at every step, a variable that holds no integer reads as undefined. A variable to which
something is assigned that is computed from it is bound to no constant if another operand is no constant, and is not
bound otherwise. -/
theorem reads_untracked
    (run : (analysis.system g b).After (analysis.agenda g strategy) (analysis.initialFacts g b) k a f) {n : Node}
    {fact : Constants Var} (found : f.before.get? n = some fact) {x u : Var} {e : Exp} (int : x.holdsInt = true)
    (reads : u ∈ e.operands) (untracked : u.holdsInt = false) :
    fact.value u = .undefined ∧
      (e.Spoilt fact → (transfer (some (.assign (.var x) e)) fact).get? x = some .nac) ∧
      (¬ e.Spoilt fact → (transfer (some (.assign (.var x) e)) fact).get? x = none) := by
  have unknown := value_untracked run found untracked
  have written : (transfer (some (.assign (.var x) e)) fact).get? x =
      if e.evaluate fact = .undefined then none else some (e.evaluate fact) := by
    simp only [transfer, Stmt.defVar?, Stmt.def?, Stmt.rvalue?, Option.bind_some, Exp.var?, int, if_true]
    exact fact.get?_set_self x (e.evaluate fact)
  -- a constant is ruled out by the unknown operand, so it is undefined or no constant that is written
  refine ⟨unknown, fun spoilt => ?_, fun sound => ?_⟩
  · rw [written, (Exp.evaluate_eq_nac_iff reads unknown).mpr spoilt]
    rfl
  · rw [written, if_pos]
    cases value : e.evaluate fact with
    | undefined => rfl
    | const c => exact absurd value (Exp.evaluate_ne_const reads unknown c)
    | nac => exact absurd ((Exp.evaluate_eq_nac_iff reads unknown).mp value) sound

end Steps

end Propagation

namespace Blend
open Propagation (analysis transfer)

theorem blend_reads : ∃ k a f,
    (analysis.system graph body).After (analysis.agenda graph .worklist) (analysis.initialFacts graph body) k a f ∧
      f.before.get? (graph.node 3) = some compared ∧ l.holdsInt = false ∧ compared.value l = .undefined ∧
      (transfer (body.stmt? (graph.node 3)) compared).get? c = none ∧
      (transfer (some (.assign (.var c) (.bin .lt (.var l) (.var p)))) compared).get? c = some .nac := by
  obtain ⟨k, a, f, run, here, -⟩ := exists_facts .worklist
  obtain ⟨unknown, -, unbound⟩ := Propagation.reads_untracked run here (x := c) (u := l)
    (e := .bin .lt (.var l) (.var m)) rfl (by decide) rfl
  obtain ⟨-, bound, -⟩ := Propagation.reads_untracked run here (x := c) (u := l)
    (e := .bin .lt (.var l) (.var p)) rfl (by decide) rfl
  refine ⟨k, a, f, run, here, rfl, unknown, unbound ?_, bound ⟨_, _, _, rfl, by decide, by decide⟩⟩
  rintro ⟨_, _, _, same, -, nac⟩
  obtain ⟨rfl, rfl, rfl⟩ := Exp.bin.inj same
  exact absurd nac (by decide)

/-- Although `c` is computed from variables that hold no integer, it stays unbound, and where both ways meet it passes
for the constant of the other way. -/
theorem blend_mistaken : body.Finished ∧ Cfg.build 0 body = .ok graph ∧
    body.stmt? (graph.node 3) = some (.assign (.var c) (.bin .lt (.var l) (.var m))) ∧
    (c.holdsInt = true ∧ l.holdsInt = false ∧ m.holdsInt = false) ∧
    ∀ strategy, ∃ k a f,
      (analysis.system graph body).After (analysis.agenda graph strategy) (analysis.initialFacts graph body) k a f ∧
        ∃ first last, f.before.get? (graph.node 3) = some first ∧ f.before.get? (graph.node 4) = some last ∧
          (transfer (body.stmt? (graph.node 3)) first).get? c ≠ some .nac ∧ last.get? c = some (.const 1) := by
  refine ⟨body_finished, rfl, rfl, ⟨rfl, rfl, rfl⟩, fun strategy => ?_⟩
  obtain ⟨k, a, f, run, here, last, there, one⟩ := exists_facts strategy
  exact ⟨k, a, f, run, compared, last, here, there, by decide, one⟩

end Blend

end Dataflow
