import Dataflow.Analysis.Problem
import Dataflow.Proofs.Cfg.Edges
import Dataflow.Proofs.Fact.Changes
import Dataflow.Proofs.Solver.Stability
import Mathlib.Data.List.Basic

/-!
What solving gives is a solution: at every node but the start, the fact before the node is the meet of what its
neighbours send, and the fact behind it is what its statement makes of that. No order of facts is used, so the
statements of the body may transfer facts in any way.
-/

namespace Dataflow

deriving instance DecidableEq for Facts

namespace Analysis
variable {φ : Type}

structure Lawful (a : Analysis φ) : Prop where
  refl : ∀ x, a.same x x = true
  replace_eq : ∀ old new, a.replace old new = if a.same old new then (old, false) else (new, true)
  bottom : a.initial = a.lattice.bottom
  meets : ∀ x target, a.meetInto x target = a.lattice.meet target x

/-- The facts at a node solve the equations of the problem there. -/
def StableAt (a : Analysis φ) (g : Cfg) (b : Body) (f : Facts Node φ) (n : Node) : Prop :=
  ∃ before behind, f.before.get? n = some before ∧ f.behind.get? n = some behind ∧
    before = a.lattice.meetAll ((a.sources g n).map (f.behind.getD · a.initial)) ∧
    a.same behind (a.transfer (b.stmt? n) before) = true

structure Solves (a : Analysis φ) (g : Cfg) (b : Body) (f : Facts Node φ) : Prop where
  start : f.before.get? (a.start g) = some a.initial ∧ f.behind.get? (a.start g) = some (a.boundary b)
  inner : ∀ n ∈ g.nodes, n ≠ a.start g → a.StableAt g b f n

theorem mem_unknowns {a : Analysis φ} {g : Cfg} {n : Node} :
    n ∈ a.unknowns g ↔ n ∈ g.nodes ∧ n ≠ a.start g := by
  unfold unknowns
  cases a.direction <;> simp

theorem contains_start (a : Analysis φ) (g : Cfg) : g.contains (a.start g) = true := by
  unfold start
  cases a.direction <;> simp [Cfg.contains, Cfg.entry, Cfg.exit]

theorem mem_dependents_iff {a : Analysis φ} {g : Cfg} (mirrored : g.Mirrored) {n m : Node} :
    m ∈ a.dependents g n ↔ n ∈ a.sources g m := by
  unfold dependents sources
  cases a.direction with
  | forward => exact mirrored.mem_preds_iff.symm
  | backward => exact mirrored.mem_preds_iff

theorem sources_inside {a : Analysis φ} {g : Cfg} (mirrored : g.Mirrored) {n m : Node}
    (source : m ∈ a.sources g n) : g.contains m = true := by
  unfold sources at source
  cases direction : a.direction with
  | forward =>
      rw [direction] at source
      exact (mirrored.succs_inside (mirrored.mem_preds_iff.mp source)).1
  | backward =>
      rw [direction] at source
      exact (mirrored.succs_inside source).2

theorem ready_of_mem {a : Analysis φ} {g : Cfg} (mirrored : g.Mirrored) {n : Node} (inside : n ∈ g.nodes) :
    a.ready g n = true := by
  simp only [ready, Bool.and_eq_true, List.all_eq_true]
  exact ⟨Cfg.mem_nodes.mp inside, fun m source => sources_inside mirrored source⟩

theorem Lawful.merged_eq {a : Analysis φ} (lawful : a.Lawful) (g : Cfg) (f : Facts Node φ) (n : Node) :
    a.merged g f n = a.lattice.meetAll ((a.sources g n).map (f.behind.getD · a.initial)) := by
  rw [merged, Lattice.meetAll, List.foldl_map, ← lawful.bottom]
  exact List.foldl_ext _ _ _ fun acc m _ => lawful.meets _ acc

theorem merged_congr {a : Analysis φ} {g : Cfg} {f f' : Facts Node φ} {n : Node}
    (agree : ∀ m ∈ a.sources g n, f'.behind.getD m a.initial = f.behind.getD m a.initial) :
    a.merged g f' n = a.merged g f n := by
  exact List.foldl_ext _ _ _ fun acc m source => by rw [agree m source]

theorem behind_initialFacts (a : Analysis φ) (g : Cfg) (b : Body) (n : Node) :
    (a.initialFacts g b).behind.getD n a.initial = if n = a.start g then a.boundary b else a.initial := by
  by_cases first : n = a.start g
  · simp [initialFacts, OrderedMap.getD, first]
  · have blank : (a.initialFacts g b).behind.get? n = if n ∈ g.nodes then some a.initial else none := by
      simp [initialFacts, OrderedMap.get?_ofList_map, Ne.symm first]
    rw [OrderedMap.getD, blank, if_neg first]
    split <;> rfl

/-! ## One update -/

def scheme (a : Analysis φ) (g : Cfg) (b : Body) : Scheme Node φ where
  initial := a.initial
  meets := a.merged g
  computes n := a.transfer (b.stmt? n)
  replace := a.replace

theorem Lawful.scheme {a : Analysis φ} (lawful : a.Lawful) (g : Cfg) (b : Body) :
    (a.scheme g b).Lawful a.same := ⟨lawful.refl, lawful.replace_eq⟩

theorem Lawful.stableAt_iff {a : Analysis φ} (lawful : a.Lawful) {g : Cfg} {b : Body} {f : Facts Node φ} {n : Node} :
    a.StableAt g b f n ↔ (a.scheme g b).StableAt a.same f n := by
  rw [StableAt, ← lawful.merged_eq]
  rfl

section Update
variable {a : Analysis φ} {g : Cfg} {b : Body} {f : Facts Node φ} {n m : Node}

theorem before_update :
    (a.update g b n f).1.before.get? m = if n = m then some (a.merged g f n) else f.before.get? m :=
  (a.scheme g b).before_update

theorem behind_update :
    (a.update g b n f).1.behind.get? m =
      if n = m then some (a.replace (f.behind.getD n a.initial) (a.transfer (b.stmt? n) (a.merged g f n))).1
      else f.behind.get? m :=
  (a.scheme g b).behind_update

theorem changed_update :
    (a.update g b n f).2 =
      (a.replace (f.behind.getD n a.initial) (a.transfer (b.stmt? n) (a.merged g f n))).2 := rfl

theorem behind_update_of_ne (ne : n ≠ m) :
    (a.update g b n f).1.behind.getD m a.initial = f.behind.getD m a.initial :=
  (a.scheme g b).behind_update_of_ne ne

theorem behind_update_of_unchanged (lawful : a.Lawful) (unchanged : (a.update g b n f).2 = false) :
    (a.update g b n f).1.behind.getD m a.initial = f.behind.getD m a.initial :=
  (a.scheme g b).behind_update_of_unchanged (lawful.scheme g b) unchanged

end Update

/-! ## Whole runs -/

theorem dependents_unknown {a : Analysis φ} {g : Cfg} {b : Body} (mirrored : g.Mirrored) {n m : Node}
    (depends : m ∈ (a.system g b).dependents n) : m ∈ a.unknowns g := by
  simp only [system, List.mem_filter, decide_eq_true_eq] at depends
  refine mem_unknowns.mpr ⟨Cfg.mem_nodes.mpr ?_, depends.2⟩
  have next := depends.1
  unfold Analysis.dependents at next
  cases direction : a.direction with
  | forward =>
      rw [direction] at next
      exact (mirrored.succs_inside next).2
  | backward =>
      rw [direction] at next
      exact (mirrored.succs_inside (mirrored.mem_preds_iff.mp next)).1

theorem settling {a : Analysis φ} {g : Cfg} {b : Body} (lawful : a.Lawful) (mirrored : g.Mirrored) :
    (a.system g b).Settling (a.unknowns g) ((a.scheme g b).StableAt a.same) := by
  refine Scheme.settling (a.sources g) (lawful.scheme g b) rfl
    (fun _ _ depends => dependents_unknown mirrored depends) (fun f f' m agree => merged_congr agree) ?_
  intro n m inner source
  simp only [system, List.mem_filter, decide_eq_true_eq]
  exact ⟨(mem_dependents_iff mirrored).mpr source, (mem_unknowns.mp inner).2⟩

theorem agenda_over (a : Analysis φ) (g : Cfg) (strategy : Strategy) :
    (a.agenda g strategy).Over (a.unknowns g) := by
  cases strategy with
  | worklist => exact fun n member => member
  | iterative => exact ⟨rfl, by simp⟩

theorem agenda_awaits {a : Analysis φ} {g : Cfg} (strategy : Strategy) {n : Node} (unknown : n ∈ a.unknowns g) :
    (a.agenda g strategy).Awaits n := by
  cases strategy with
  | worklist => exact unknown
  | iterative => exact .inr ⟨rfl, unknown⟩

theorem start_after {a : Analysis φ} {g : Cfg} {b : Body} (mirrored : g.Mirrored) {strategy : Strategy} {k : Nat}
    {agenda : Agenda Node} {f : Facts Node φ}
    (run : (a.system g b).After (a.agenda g strategy) (a.initialFacts g b) k agenda f) :
    f.before.get? (a.start g) = some a.initial ∧ f.behind.get? (a.start g) = some (a.boundary b) := by
  induction run with
  | start =>
      have inside : a.start g ∈ g.nodes := Cfg.mem_nodes.mpr (a.contains_start g)
      simp [initialFacts, OrderedMap.get?_ofList_map, inside]
  | next run front _ ih =>
      have ranges := System.over_after (fun _ _ => dependents_unknown mirrored) (a.agenda_over g strategy) run
      have ne := (mem_unknowns.mp (ranges.next? front).1).2
      simp only [System.advance, system, before_update, behind_update, if_neg ne]
      exact ih

theorem solve_settled_iff {a : Analysis φ} {g : Cfg} {b : Body} {strategy : Strategy} {limit : Option Int}
    {s : Solution Node φ} {t : Nat} :
    a.solve g b strategy limit = .settled s t ↔ ∃ facts, s = ⟨a.direction, facts, t, strategy⟩ ∧
      (a.system g b).Ends (a.agenda g strategy) (a.initialFacts g b) t facts ∧
      ∀ k, limit = some k → t ≤ k.toNat := by
  unfold solve
  simp only [← System.solve_settled_iff]
  cases (a.system g b).solve (a.agenda g strategy) (a.initialFacts g b) limit with
  | settled facts transfers => simp only [Outcome.settled.injEq]; grind
  | _ => simp

theorem solve_none_of_settled {a : Analysis φ} {g : Cfg} {b : Body} {strategy : Strategy} {limit : Option Int}
    {s : Solution Node φ} {t : Nat} (settled : a.solve g b strategy limit = .settled s t) :
    a.solve g b strategy none = .settled s t := by
  obtain ⟨facts, rfl, ends, -⟩ := solve_settled_iff.mp settled
  exact solve_settled_iff.mpr ⟨facts, rfl, ends, by simp⟩

theorem solve_eq_endless {a : Analysis φ} {g : Cfg} {b : Body} {strategy : Strategy} {limit : Option Int}
    (endless : (a.system g b).solve (a.agenda g strategy) (a.initialFacts g b) limit = .endless) :
    a.solve g b strategy limit = .endless := by
  rw [solve, endless]

theorem solves_of_settled {a : Analysis φ} {g : Cfg} {b : Body} (lawful : a.Lawful) (mirrored : g.Mirrored)
    {strategy : Strategy} {limit : Option Int} {s : Solution Node φ} {t : Nat}
    (settled : a.solve g b strategy limit = .settled s t) : a.Solves g b s.facts := by
  obtain ⟨facts, rfl, ends, -⟩ := solve_settled_iff.mp settled
  have stable := (settling lawful mirrored).stable_of_ends (a.agenda_over g strategy)
    (fun n unknown => agenda_awaits strategy unknown) ends
  obtain ⟨agenda, run, -⟩ := ends
  exact ⟨start_after mirrored run,
    fun n inside inner => lawful.stableAt_iff.mpr (stable n (mem_unknowns.mpr ⟨inside, inner⟩))⟩

theorem Solves.unstable_eq {a : Analysis φ} {g : Cfg} {b : Body} {f : Facts Node φ} (lawful : a.Lawful)
    (mirrored : g.Mirrored) (solves : a.Solves g b f) : a.unstable g b f = .ok [] := by
  unfold unstable
  have ready : (g.nodes.filter (· ≠ a.start g)).find? (fun n => !a.ready g n) = none := by
    simp only [List.find?_eq_none, List.mem_filter]
    intro n inner
    simp [ready_of_mem mirrored inner.1]
  simp only [ready, Except.ok.injEq, List.filter_eq_nil_iff, List.mem_filter, decide_eq_true_eq]
  rintro n ⟨inside, inner⟩
  obtain ⟨before, behind, here, there, met, same⟩ := lawful.stableAt_iff.mp (solves.inner n inside inner)
  obtain rfl : before = a.merged g f n := met
  have kept : a.same behind (a.transfer (b.stmt? n) (a.merged g f n)) = true := same
  simp only [OrderedMap.getD, here, Option.getD_some, lawful.refl, update, there, lawful.replace_eq, kept]
  simp

theorem checked_of_settled {a : Analysis φ} {g : Cfg} {b : Body} (lawful : a.Lawful) (mirrored : g.Mirrored)
    {strategy : Strategy} {limit : Option Int} {s : Solution Node φ} {t : Nat}
    (settled : a.solve g b strategy limit = .settled s t) :
    a.Solves g b s.facts ∧ a.unstable g b s.facts = .ok [] := by
  have solves := solves_of_settled lawful mirrored settled
  exact ⟨solves, solves.unstable_eq lawful mirrored⟩

end Analysis

def Solution.SameAt {ν φ : Type} [DecidableEq ν] (same : φ → φ → Bool) (s u : Solution ν φ) (n : ν) : Prop :=
  (∃ x y, s.input.get? n = some x ∧ u.input.get? n = some y ∧ same x y = true) ∧
    ∃ x y, s.output.get? n = some x ∧ u.output.get? n = some y ∧ same x y = true

/-! ## The two problems -/

theorem Propagation.lawful : Propagation.analysis.Lawful where
  refl _ := OrderedMap.same_iff.mpr fun _ => rfl
  replace_eq _ _ := rfl
  bottom := rfl
  meets := Constants.meetInto_eq_meet

theorem Liveness.lawful : Liveness.analysis.Lawful where
  refl _ := OrderedSet.same_iff.mpr fun _ => Iff.rfl
  replace_eq _ _ := rfl
  bottom := rfl
  meets f target := (SetFact.unionWith_eq target f).symm

def Solved.Fixpoint (g : Cfg) (b : Body) : Solved → Prop
  | .constants s => Propagation.analysis.Solves g b s.facts
  | .liveness s => Liveness.analysis.Solves g b s.facts

/-- Whatever either strategy returns for either problem, on a graph as built or with more edges, solves the
problem, and checking it finds no unstable node. -/
theorem Problem.fixpoint_of_settled {b : Body} {g : Cfg} (drawn : g.Drawn b) {q : Problem} {strategy : Strategy}
    {limit : Option Int} {s : Solved} {t : Nat} (settled : q.solve g b strategy limit = .settled s t) :
    s.problem = q ∧ s.Fixpoint g b ∧ s.unstable g b = .ok [] := by
  cases q with
  | constants =>
      obtain ⟨found, ran, rfl⟩ := Outcome.map_settled_iff.mp settled
      exact ⟨rfl, Analysis.checked_of_settled Propagation.lawful drawn.mirrored ran⟩
  | liveness =>
      obtain ⟨found, ran, rfl⟩ := Outcome.map_settled_iff.mp settled
      exact ⟨rfl, Analysis.checked_of_settled Liveness.lawful drawn.mirrored ran⟩

namespace Loop

def method : MethodRef := ⟨⟨0, "Main"⟩, ⟨"f", [.int], .int⟩⟩

def p : Var := ⟨"p", .int, some method, 0⟩

def x : Var := ⟨"x", .int, some method, 1⟩

def body : Body where
  method := method
  this := none
  params := [p]
  stmts := [
    .assign (.var x) (.lit 0),
    .branch .ge (.var x) (.var p) (some (.stmt 4 method)),
    .assign (.var x) (.bin .add (.var x) (.lit 1)),
    .goto (some (.stmt 1 method)),
    .ret (some x)]
  vars := [p, x]

def graph : Cfg := (Cfg.bare 0 method 5).drawAll ((Cfg.bare 0 method 5).edgesOf body)

theorem graph_built : Cfg.build 0 body = .ok graph := rfl

def knotted : Cfg := graph.drawAll [⟨graph.node 0, graph.node 0, .exceptional, none⟩]

theorem knotted_drawn : knotted.Drawn body :=
  .extended (.built graph_built) (Cfg.addEdge_ok_iff.mpr ⟨rfl, rfl, rfl⟩)

theorem loop_fixpoint :
    (∃ s t, Problem.constants.solve knotted body .worklist (some 40) = .settled s t ∧
      s.problem = .constants ∧ s.Fixpoint knotted body ∧ s.unstable knotted body = .ok []) ∧
    ∃ s t, Problem.liveness.solve knotted body .iterative (some 40) = .settled s t ∧
      s.problem = .liveness ∧ s.Fixpoint knotted body ∧ s.unstable knotted body = .ok [] := by
  obtain ⟨s, t, settled⟩ : ∃ s t, Problem.constants.solve knotted body .worklist (some 40) = .settled s t :=
    Outcome.exists_of_state? (by decide +kernel)
  obtain ⟨s', t', settled'⟩ : ∃ s t, Problem.liveness.solve knotted body .iterative (some 40) = .settled s t :=
    Outcome.exists_of_state? (by decide +kernel)
  exact ⟨⟨s, t, settled, Problem.fixpoint_of_settled knotted_drawn settled⟩,
    s', t', settled', Problem.fixpoint_of_settled knotted_drawn settled'⟩

end Loop

end Dataflow
