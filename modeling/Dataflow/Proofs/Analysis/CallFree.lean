import Dataflow.Proofs.Analysis.Precision
import Dataflow.Proofs.CallGraph.Building
import Dataflow.Proofs.Icfg.Composition

/-!
Propagation through calls where there are none. A method whose body makes no call is taken as the only entry. The joined
graph is then that of the method, and both solvers start with the same facts but for what stands in front of the entry.
The one for whole programs updates the entry first, which changes nothing; from then on both take the same nodes, and
update for update their facts have the same values (`paired`). So either comes to an end just if the other does, with the
same facts, and one needs one update more (`solvers_agree_on_callFree`). Transfers need not be monotone.
-/

namespace Dataflow

theorem Exp.evaluate_congr {f f' : Constants Var} (values : f.value = f'.value) (e : Exp) :
    e.evaluate f = e.evaluate f' := by
  induction e with
  | var v => exact congrFun values v
  | bin op left right ihLeft ihRight => rw [evaluate, evaluate, ihLeft, ihRight]
  | _ => rfl

theorem Propagation.transfer_congr {f f' : Constants Var} (values : f.value = f'.value) (s : Option Stmt) :
    (transfer s f).value = (transfer s f').value := by
  cases s with
  | none => exact values
  | some s =>
      rcases transfer_cases s with same | ⟨v, e, -, -, -, writes⟩
      · rw [same]
        exact values
      · rw [writes]
        funext u
        rw [Constants.value_set, Constants.value_set, e.evaluate_congr values, values]

namespace CallGraph

def only (m : MethodRef) : CallGraph := ((empty.addEntry m).addReachable m).1

theorem mem_reachable_only {m n : MethodRef} : n ∈ (only m).reachable ↔ n = m := by
  simp [only, addEntry, addReachable, empty]

theorem ofEntries_only {p : Program} {h : Option Hierarchy} {m : MethodRef} (silent : p.sites m = []) :
    ofEntries p h [m] = .ok (only m) := by
  have nothing : p.called h m = [] := by rw [Program.called, silent, List.flatMap_nil]
  have alone : closure p h [m] = [m] := by
    have visits : Search.Visits (p.called h) [m] [] (closure p h [m]) :=
      Search.visits_reach (closure_closed h [m]) fun m => List.mem_append_left _
    generalize closure p h [m] = later at visits
    cases visits with
    | again known _ => cases known
    | visit _ rest =>
        rw [nothing] at rest
        cases rest
        rfl
  rw [ofEntries, alone, List.foldlM_cons, addMethod, silent]
  rfl

end CallGraph

namespace Interprocedural
open Propagation (sent Neat boundary)
open CallGraph (only)

structure CallFree (p : Program) (m : MethodRef) (b : Body) (c : Cfg) : Prop where
  body : p.body? m = some b
  own : b.method = m
  drawn : c.Drawn b
  rooted : c.Rooted
  silent : ∀ s ∈ b.stmts, s.isCall = false

def alone (p : Program) (m : MethodRef) (c : Cfg) : Icfg := Icfg.join p (only m) ((only m).graphs p fun _ => c)

abbrev whole (p : Program) (m : MethodRef) (c : Cfg) : System Node (Facts Node (Constants Var)) :=
  system p (alone p m c) (only m)

abbrev start (p : Program) (m : MethodRef) (c : Cfg) : Facts Node (Constants Var) :=
  initialFacts p (alone p m c) (only m)

namespace CallFree
variable {p : Program} {m : MethodRef} {b : Body} {c : Cfg} {n : Node}

theorem flows (free : CallFree p m b c) : (only m).Flows p fun _ => c where
  own m' reachable b' body := by
    obtain rfl := CallGraph.mem_reachable_only.mp reachable
    obtain rfl : b = b' := Option.some.inj (free.body.symm.trans body)
    exact free.own
  drawn m' reachable b' body := by
    obtain rfl := CallGraph.mem_reachable_only.mp reachable
    obtain rfl : b = b' := Option.some.inj (free.body.symm.trans body)
    exact free.drawn
  apart m' reachable m'' reachable' _ _ _ := by
    rw [CallGraph.mem_reachable_only.mp reachable, CallGraph.mem_reachable_only.mp reachable']

theorem built (free : CallFree p m b c) :
    Icfg.build p (only m) ((only m).graphs p fun _ => c) = .ok (alone p m c) := Icfg.build_ok free.flows

theorem sites_eq (free : CallFree p m b c) : p.sites m = [] := by
  rw [Program.sites, free.body]
  refine List.eq_nil_iff_forall_not_mem.mpr fun s site => ?_
  obtain ⟨-, placed⟩ := Program.mem_sites_iff.mp site
  cases free.silent _ (List.mem_of_getElem? placed)

/-! ## The joined graph -/

theorem values_eq (free : CallFree p m b c) : ((only m).graphs p fun _ => c).values = [c] := by
  have bodied : (only m).bodied p = [m] := List.filter_cons_of_pos (Program.hasBody_of_body? free.body)
  rw [Icfg.values_graphs, bodied]
  rfl

theorem nodes_eq (free : CallFree p m b c) : (alone p m c).nodes = c.nodes := by
  rw [alone, Icfg.nodes_join, free.values_eq, List.flatMap_singleton]

theorem outgoing_eq (free : CallFree p m b c) : (alone p m c).outgoing = c.edges.map (Icfg.lift b) := by
  have whole : (alone p m c).outgoing = ((only m).graphs p fun _ => c).values.flatMap (Icfg.inner p) ++ [] :=
    Icfg.outgoing_join _ _ _
  have reachable : m ∈ (only m).reachable := CallGraph.mem_reachable_only.mpr rfl
  rw [whole, free.values_eq, List.flatMap_singleton, List.append_nil, Icfg.inner_eq free.flows reachable free.body]

theorem succs_eq (free : CallFree p m b c) (inside : n ∈ c.nodes) : (alone p m c).succs n = c.succs n := by
  have leaving : (alone p m c).outEdges n = (c.outEdges n).map (Icfg.lift b) := by
    rw [Icfg.outEdges, free.outgoing_eq, List.filter_map, ← Cfg.filter_edges inside]
    simp [Function.comp_def]
  rw [Icfg.succs, leaving, List.map_map, Cfg.succs]
  simp [Function.comp_def]

theorem mem_inEdges_iff (free : CallFree p m b c) {e : IcfgEdge} :
    e ∈ (alone p m c).inEdges n ↔ ∃ way ∈ c.outgoing, way.target = n ∧ e = Icfg.lift b way := by
  simp only [(Icfg.mirrored_of_build free.built).mem_inEdges, free.outgoing_eq, List.mem_map,
    free.drawn.mirrored.mem_edges_iff]
  constructor
  · rintro ⟨⟨way, drawn, rfl⟩, target⟩
    exact ⟨way, drawn, by rwa [Icfg.lift_target] at target, rfl⟩
  · rintro ⟨way, drawn, target, rfl⟩
    exact ⟨⟨way, drawn, rfl⟩, by rwa [Icfg.lift_target]⟩

theorem inEdges_entry (free : CallFree p m b c) : (alone p m c).inEdges c.entry = [] := by
  refine List.eq_nil_iff_forall_not_mem.mpr fun e enters => ?_
  obtain ⟨way, drawn, target, -⟩ := free.mem_inEdges_iff.mp enters
  exact free.rooted way drawn target

theorem passed_lift (free : CallFree p m b c) (x : Node → Constants Var) (way : Edge) :
    passed p x (Icfg.lift b way) = x way.source := by
  have plain : (Icfg.lift b way).passage = .normal way.kind := by
    refine Icfg.passage_lift_of_not_invoke fun call result here => ?_
    cases free.silent _ (Body.mem_of_stmt? here)
  rw [passed, plain, Icfg.lift_source]
  rfl

theorem get?_boundaries_eq (free : CallFree p m b c) (n : Node) :
    (boundaries p (alone p m c) (only m)).get? n = if n = c.entry then some (boundary b) else none := by
  have outside {fact : Constants Var} : (boundaries p (alone p m c) (only m)).get? n = some fact ↔ _ :=
    get?_boundaries_iff free.flows free.built
  split
  · next first =>
      have entry : m ∈ (only m).entries := by simp [only, CallGraph.addEntry, CallGraph.addReachable]
      exact outside.mpr ⟨m, b, entry, CallGraph.mem_reachable_only.mpr rfl, free.body, first.symm, rfl⟩
  · next other =>
      refine Option.eq_none_iff_forall_ne_some.mpr fun fact found => ?_
      obtain ⟨m', b', -, -, -, first, -⟩ := outside.mp found
      exact other first.symm

/-! ## One update -/

theorem transferNode_eq (free : CallFree p m b c) (n : Node) :
    transferNode (b.stmt? n) = Propagation.transfer (b.stmt? n) := by
  cases here : b.stmt? n with
  | none => rfl
  | some s => exact transferNode_of_not_call (free.silent s (Body.mem_of_stmt? here))

theorem value_incoming (free : CallFree p m b c) (inner : n ≠ c.entry) {x y : Node → Constants Var}
    (values : ∀ k, (x k).value = (y k).value) :
    (Constants.gather OrderedMap.empty (c.preds n) x).value = (incoming p (alone p m c) (only m) n y).value := by
  have mirrored := free.drawn.mirrored
  have le (k : Node) : x k ≤ y k := fun v => (congrFun (values k) v).le
  have ge (k : Node) : y k ≤ x k := fun v => (congrFun (values k) v).ge
  have below : Constants.gather OrderedMap.empty (c.preds n) x ≤ incoming p (alone p m c) (only m) n y := by
    refine Constants.gather_le (Constants.empty_le _) fun k source => ?_
    obtain ⟨way, drawn, rfl, target⟩ := Cfg.mem_succs.mp (mirrored.mem_preds_iff.mp source)
    have enters : Icfg.lift b way ∈ (alone p m c).inEdges n := free.mem_inEdges_iff.mpr ⟨way, drawn, target, rfl⟩
    calc x way.source
      _ ≤ y way.source := le _
      _ = passed p y (Icfg.lift b way) := (free.passed_lift y way).symm
      _ ≤ _ := Constants.le_gather enters
  have above : incoming p (alone p m c) (only m) n y ≤ Constants.gather OrderedMap.empty (c.preds n) x := by
    rw [incoming, free.get?_boundaries_eq, if_neg inner]
    refine Constants.gather_le (Constants.empty_le _) fun e enters => ?_
    obtain ⟨way, drawn, target, rfl⟩ := free.mem_inEdges_iff.mp enters
    have source : way.source ∈ c.preds n :=
      mirrored.mem_preds_iff.mpr (Cfg.mem_succs.mpr ⟨way, drawn, rfl, target⟩)
    calc passed p y (Icfg.lift b way)
      _ = y way.source := free.passed_lift y way
      _ ≤ x way.source := ge _
      _ ≤ _ := Constants.le_gather source
  exact funext fun v => le_antisymm (below v) (above v)

theorem stmtAt_alone (free : CallFree p m b c) (inside : n ∈ c.nodes) : stmtAt p n = b.stmt? n :=
  stmtAt_eq free.flows (CallGraph.mem_reachable_only.mpr rfl) free.body (Cfg.mem_nodes.mp inside)

theorem value_next (free : CallFree p m b c) (inside : n ∈ c.nodes) (inner : n ≠ c.entry) {x y : Node → Constants Var}
    (values : ∀ k, (x k).value = (y k).value) :
    (Propagation.next c b n x).value = (next p (alone p m c) (only m) n y).value := by
  rw [Propagation.next, next, free.stmtAt_alone inside, free.transferNode_eq]
  exact Propagation.transfer_congr (free.value_incoming inner values) _

end CallFree

structure Agree (f f' : Facts Node (Constants Var)) : Prop where
  neat : Neat f
  neat' : Neat f'
  values : ∀ n, (sent f n).value = (sent f' n).value

theorem agree_update {s r : System Node (Facts Node (Constants Var))}
    {next next' : Node → (Node → Constants Var) → Constants Var} (computes : Propagation.Computes s next)
    (computes' : Propagation.Computes r next') {f f' : Facts Node (Constants Var)} {n : Node} (agree : Agree f f')
    (same : (next n (sent f)).value = (next' n (sent f')).value) :
    Agree (s.update n f).1 (r.update n f').1 ∧ (s.update n f).2 = (r.update n f').2 := by
  refine ⟨⟨computes.neat n agree.neat, computes'.neat n agree.neat', fun m => ?_⟩, ?_⟩
  · by_cases here : n = m
    · subst here
      rw [computes.value_here, computes'.value_here, same]
    · rw [computes.elsewhere n m f here, computes'.elsewhere n m f' here, agree.values m]
  · -- in normal form, facts are the same if their values are
    have told : (sent f n).same (next n (sent f)) = (sent f' n).same (next' n (sent f')) := by
      rw [Bool.eq_iff_iff, Constants.same_iff_value (agree.neat n) (computes.normal n _),
        Constants.same_iff_value (agree.neat' n) (computes'.normal n _), agree.values n, same]
    rw [computes.changed, computes'.changed, told]

namespace CallFree
variable {p : Program} {m : MethodRef} {b : Body} {c : Cfg} {n : Node}

/-! ## Whole runs -/

theorem ready_of_mem (free : CallFree p m b c) (inside : n ∈ c.nodes) : (whole p m c).ready n = true := by
  simp only [whole, system, Icfg.contains, free.nodes_eq]
  exact decide_eq_true inside

theorem paired (free : CallFree p m b c) :
    (Propagation.analysis.system c b).Paired (whole p m c) (Propagation.analysis.unknowns c) Agree where
  ready n unknown := by
    have inside := (Analysis.mem_unknowns.mp unknown).1
    rw [free.ready_of_mem inside]
    exact Analysis.ready_of_mem free.drawn.mirrored inside
  dependents n unknown := by
    have forward : Propagation.analysis.dependents c n = c.succs n := rfl
    simp only [Analysis.system, whole, system, forward, free.succs_eq (Analysis.mem_unknowns.mp unknown).1]
    refine List.filter_eq_self.mpr fun k next => ?_
    obtain ⟨way, drawn, -, rfl⟩ := Cfg.mem_succs.mp next
    exact decide_eq_true (free.rooted way drawn)
  inside n _ k depends := Analysis.dependents_unknown free.drawn.mirrored depends
  update n unknown f f' agree := by
    obtain ⟨inside, inner⟩ := Analysis.mem_unknowns.mp unknown
    exact agree_update (Propagation.computes c b) (computes free.flows free.built) agree
      (free.value_next inside inner agree.values)

theorem sent_start (free : CallFree p m b c) (n : Node) :
    sent (start p m c) n = if n = c.entry then boundary b else OrderedMap.empty := by
  rw [start, sent_initialFacts, free.get?_boundaries_eq]
  split <;> rfl

theorem next_entry (free : CallFree p m b c) (x : Node → Constants Var) :
    next p (alone p m c) (only m) c.entry x = boundary b := by
  rw [next, incoming, free.inEdges_entry, free.get?_boundaries_eq, if_pos rfl]
  rfl

def opened (p : Program) (m : MethodRef) (c : Cfg) : Facts Node (Constants Var) :=
  ((whole p m c).update c.entry (start p m c)).1

theorem same_entry (free : CallFree p m b c) : (sent (start p m c) c.entry).same
    (next p (alone p m c) (only m) c.entry (sent (start p m c))) = true := by
  rw [free.next_entry, free.sent_start, if_pos rfl]
  exact OrderedMap.same_iff.mpr fun _ => rfl

theorem agree_opened (free : CallFree p m b c) : Agree (Propagation.analysis.initialFacts c b) (opened p m c) where
  neat := (Propagation.rising_initialFacts c b).fits
  neat' := (computes free.flows free.built).neat c.entry (rising_initialFacts free.flows free.built).fits
  values n := by
    have kept : sent (opened p m c) n = sent (start p m c) n := by
      have computes := computes free.flows free.built
      by_cases here : c.entry = n
      · subst here
        exact (computes.here _ _).trans (if_pos free.same_entry)
      · exact computes.elsewhere _ n _ here
    rw [kept, Propagation.sent_initialFacts, free.sent_start]

theorem nodes_eq_cons (c : Cfg) : c.nodes = c.entry :: Propagation.analysis.unknowns c := by
  have unknowns : Propagation.analysis.unknowns c = c.nodes.filter (· ≠ c.entry) := rfl
  rw [unknowns, Cfg.nodes, List.cons_append, List.filter_cons_of_neg (by simp), List.filter_eq_self.mpr]
  intro n member
  rcases List.mem_append.mp member with stmt | last
  · obtain ⟨pos, -, rfl⟩ := List.mem_map.mp stmt
    rfl
  · obtain rfl := List.mem_singleton.mp last
    rfl

theorem ends_iff (free : CallFree p m b c) {k : Nat} {final : Facts Node (Constants Var)} :
    (whole p m c).Ends (.worklist (alone p m c).nodes) (start p m c) k final ↔ ∃ j, k = j + 1 ∧
      (whole p m c).Ends (.worklist (Propagation.analysis.unknowns c)) (opened p m c) j final := by
  have front : (Agenda.worklist (alone p m c).nodes).next? =
      some (c.entry, .worklist (Propagation.analysis.unknowns c)) := by
    rw [free.nodes_eq, nodes_eq_cons]
    rfl
  have ready : (whole p m c).ready c.entry = true := free.ready_of_mem (mem_nodes_entry c)
  have unchanged : ((whole p m c).update c.entry (start p m c)).2 = false := by
    rw [(computes free.flows free.built).changed, free.same_entry]
    rfl
  have advances : (whole p m c).advance c.entry (.worklist (Propagation.analysis.unknowns c)) (start p m c) =
      (.worklist (Propagation.analysis.unknowns c), opened p m c) := by
    rw [System.advance]
    simp only [unchanged]
    rfl
  rw [System.ends_of_front front, advances, and_iff_right ready]

theorem settled_of_within (free : CallFree p m b c) {u : Solution Node (Constants Var)} {k : Nat}
    (settled : Propagation.analysis.solve c b .worklist none = .settled u k) :
    ∃ facts, solve p (alone p m c) (only m) none = .settled ⟨.forward, facts, k + 1, .worklist⟩ (k + 1) ∧
      Agree u.facts facts := by
  obtain ⟨f, rfl, ends, -⟩ := Analysis.solve_settled_iff.mp settled
  have ranges := Propagation.analysis.agenda_over c .worklist
  obtain ⟨facts, ends', agree⟩ := free.paired.ends ranges free.agree_opened ends
  exact ⟨facts, solve_settled_iff.mpr ⟨facts, rfl, free.ends_iff.mpr ⟨k, rfl, ends'⟩, by simp⟩, agree⟩

theorem within_of_settled (free : CallFree p m b c) {s : Solution Node (Constants Var)} {t : Nat}
    (settled : solve p (alone p m c) (only m) none = .settled s t) :
    ∃ u k, Propagation.analysis.solve c b .worklist none = .settled u k := by
  obtain ⟨facts, rfl, ends, -⟩ := solve_settled_iff.mp settled
  obtain ⟨j, rfl, rest⟩ := free.ends_iff.mp ends
  have ranges := Propagation.analysis.agenda_over c .worklist
  obtain ⟨f, ends', -⟩ := free.paired.symm.ends ranges free.agree_opened rest
  exact ⟨_, j, Analysis.solve_settled_iff.mpr ⟨f, rfl, ends', by simp⟩⟩

theorem same_of_agree (free : CallFree p m b c) {f f' : Facts Node (Constants Var)} (agree : Agree f f')
    (solves : Propagation.analysis.Solves c b f)
    (stable : ∀ n ∈ c.nodes, (scheme p (alone p m c) (only m)).StableAt OrderedMap.same f' n) (inside : n ∈ c.nodes) :
    (n ≠ c.entry → ∃ x y, f'.before.get? n = some x ∧ f.before.get? n = some y ∧ x.same y = true) ∧
      ∃ x y, f'.behind.get? n = some x ∧ f.behind.get? n = some y ∧ x.same y = true := by
  obtain ⟨before, behind, found, found', rfl, -⟩ := stable n inside
  have here : sent f' n = behind := Propagation.sent_of_get? found'
  refine ⟨fun inner => ?_, behind, sent f n, found', Propagation.get?_behind solves inside, ?_⟩
  · refine ⟨_, _, found, (Propagation.facts_of_solves solves inside inner).1, ?_⟩
    have normal := normal_boundaries free.flows free.built n
    exact (Constants.same_iff_value normal.gather (.gather .empty)).mpr (free.value_incoming inner agree.values).symm
  · rw [← here]
    exact (Constants.same_iff_value (agree.neat' n) (agree.neat n)).mpr (agree.values n).symm

end CallFree

/-- On a finished body that makes no calls, taken as the only entry, propagation through calls comes to an end just if
propagation within the method does, needs one update more, and finds the same facts, except in front of the entry. -/
theorem solvers_agree_on_callFree {p : Program} {m : MethodRef} {b : Body} {id : Nat} {c : Cfg}
    (body : p.body? m = some b) (own : b.method = m) (finished : b.Finished)
    (silent : ∀ s ∈ b.stmts, s.isCall = false) (drawn : Cfg.build id b = .ok c) (h : Option Hierarchy) :
    ∃ g i, CallGraph.ofEntries p h [m] = .ok g ∧ Icfg.build p g (g.graphs p fun _ => c) = .ok i ∧
      ((∃ s t, solve p i g none = .settled s t) ↔
        ∃ u k, Propagation.analysis.solve c b .worklist none = .settled u k) ∧
      ∀ s t u k, solve p i g none = .settled s t → Propagation.analysis.solve c b .worklist none = .settled u k →
        s.transfers = u.transfers + 1 ∧
        (∀ n ∈ c.nodes, n ≠ c.entry →
          ∃ x y, s.input.get? n = some x ∧ u.input.get? n = some y ∧ x.same y = true) ∧
        ∀ n ∈ c.nodes, ∃ x y, s.output.get? n = some x ∧ u.output.get? n = some y ∧ x.same y = true := by
  have free : CallFree p m b c :=
    ⟨body, own, .built drawn, Cfg.rooted_of_jumpWithin drawn finished.jumpWithin, silent⟩
  refine ⟨only m, alone p m c, CallGraph.ofEntries_only free.sites_eq, free.built, ⟨?_, ?_⟩, ?_⟩
  · rintro ⟨s, t, settled⟩
    exact free.within_of_settled settled
  · rintro ⟨u, k, settled⟩
    obtain ⟨facts, settled', -⟩ := free.settled_of_within settled
    exact ⟨_, _, settled'⟩
  · intro s t u k settled settled'
    obtain ⟨facts, again, agree⟩ := free.settled_of_within settled'
    have solves := Analysis.solves_of_settled Propagation.lawful free.drawn.mirrored settled'
    have stable := stable_of_settled (Icfg.mirrored_of_build free.built) again
    obtain ⟨rfl, -⟩ := Outcome.settled.inj (settled.symm.trans again)
    obtain ⟨f, rfl, -⟩ := Analysis.solve_settled_iff.mp settled'
    have same {n : Node} (inside : n ∈ c.nodes) := free.same_of_agree agree solves (free.nodes_eq ▸ stable) inside
    exact ⟨rfl, fun n inside => (same inside).1, fun n inside => (same inside).2⟩

end Interprocedural

namespace Race
open Loop (method)

def program : Program :=
  ⟨[⟨⟨0, "Main"⟩, none, [], false, false, [⟨method.sig, true, false, none, some body⟩]⟩]⟩

/-- With a division in the loop the order of updates decides on the facts, and both solvers have the same order. -/
theorem race_agrees : (program.body? method = some body ∧ body.Finished ∧
      (∀ s ∈ body.stmts, s.isCall = false) ∧ Cfg.build 0 body = .ok graph) ∧
    ∃ g i s t u k, CallGraph.ofEntries program none [method] = .ok g ∧
      Icfg.build program g (g.graphs program fun _ => graph) = .ok i ∧
      Interprocedural.solve program i g none = .settled s t ∧
      Propagation.analysis.solve graph body .worklist none = .settled u k ∧ s.transfers = u.transfers + 1 ∧
      ∀ n ∈ graph.nodes, ∃ x y, s.output.get? n = some x ∧ u.output.get? n = some y ∧ x.same y = true := by
  have silent : ∀ s ∈ body.stmts, s.isCall = false := by decide
  have drawn : Cfg.build 0 body = .ok graph := rfl
  obtain ⟨u, k, settled⟩ : ∃ u k, Propagation.analysis.solve graph body .worklist (some 40) = .settled u k :=
    Outcome.exists_of_state? (by decide +kernel)
  have within := Analysis.solve_none_of_settled settled
  obtain ⟨g, i, resolved, joined, both, same⟩ :=
    Interprocedural.solvers_agree_on_callFree (p := program) rfl rfl body_finished silent drawn none
  obtain ⟨s, t, through⟩ := both.mpr ⟨u, k, within⟩
  obtain ⟨more, -, outputs⟩ := same s t u k through within
  exact ⟨⟨rfl, body_finished, silent, drawn⟩, g, i, s, t, u, k, resolved, joined, through, within, more, outputs⟩

end Race

end Dataflow
