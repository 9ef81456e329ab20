import Dataflow.Proofs.Analysis.Interprocedural

/-!
What solving gives for a whole program solves the equations of the joined graph (`solves_through_calls`). In front of
a node stands the meet of what comes from outside, if it is the entry of an entry method, with what the edges into the
node make of the facts behind their sources; behind it stands what its statement makes of that, and a call changes
nothing. Transfers need not be monotone. That every edge comes from a node, so that there is a fact behind its source,
rests on how the call graph was made.
-/

namespace Dataflow

namespace Interprocedural
open Propagation (sent)
variable {p : Program} {g : CallGraph} {flow : MethodRef → Cfg} {i : Icfg} {n : Node}

def FromOutside (p : Program) (g : CallGraph) (flow : MethodRef → Cfg) (n : Node) (fact : Constants Var) : Prop :=
  ∃ m b, m ∈ g.entries ∧ m ∈ g.reachable ∧ p.body? m = some b ∧ (flow m).entry = n ∧ Propagation.boundary b = fact

inductive Passes (b : Body) (n : Node) (before behind : Constants Var) : Prop where
  | call {call : Call} {result : Option Var} :
      b.stmt? n = some (.invoke call result) → behind.same before = true → Passes b n before behind
  | other : (∀ call result, b.stmt? n ≠ some (.invoke call result)) →
      behind.same (Propagation.transfer (b.stmt? n) before) = true → Passes b n before behind

structure SolvesAt (p : Program) (g : CallGraph) (flow : MethodRef → Cfg) (i : Icfg)
    (input output : Node → Constants Var) (n : Node) : Prop where
  before : ∃ given : Option (Constants Var), (∀ fact, given = some fact ↔ FromOutside p g flow n fact) ∧
    (input n).same (Constants.lattice.meetAll (given.toList ++
      (i.inEdges n).map fun e => transferEdge p e.passage (output e.source))) = true
  behind : ∃ m b, m ∈ g.reachable ∧ p.body? m = some b ∧ n ∈ (flow m).nodes ∧ Passes b n (input n) (output n)

theorem get?_boundaries_iff (flows : g.Flows p flow) (built : Icfg.build p g (g.graphs p flow) = .ok i)
    {fact : Constants Var} : (boundaries p i g).get? n = some fact ↔ FromOutside p g flow n fact := by
  constructor
  · intro found
    obtain ⟨rfl, -⟩ := Icfg.build_ok_iff.mp built
    obtain ⟨m, entry, given⟩ := List.mem_filterMap.mp (OrderedMap.mem_of_get?_ofList found)
    split at given
    · next id b joined body =>
        obtain ⟨rfl, rfl⟩ := Prod.mk.inj (Option.some.inj given)
        rw [Icfg.graphs_join, OrderedMap.get?_mapValues] at joined
        obtain ⟨c, graph, rfl⟩ := Option.map_eq_some_iff.mp joined
        obtain ⟨-, reachable, -, rfl⟩ := CallGraph.of_get?_graphs graph
        exact ⟨m, b, (List.mem_filter.mp entry).1, reachable, body, rfl, rfl⟩
    · cases given
  · rintro ⟨m, b, entry, reachable, body, rfl, rfl⟩
    exact get?_boundaries flows built reachable entry body

theorem get?_initialFacts (p : Program) (i : Icfg) (g : CallGraph) (n : Node) :
    (initialFacts p i g).behind.get? n =
      ((boundaries p i g).get? n).or (if n ∈ i.nodes then some OrderedMap.empty else none) := by
  rw [initialFacts, OrderedMap.get?_foldl_entries, OrderedMap.get?_ofList_map]

theorem normal_boundaries (flows : g.Flows p flow) (built : Icfg.build p g (g.graphs p flow) = .ok i) (n : Node) :
    (((boundaries p i g).get? n).getD OrderedMap.empty).Normal := by
  cases found : (boundaries p i g).get? n with
  | none => exact .empty
  | some fact =>
      obtain ⟨m, b, -, -, -, -, rfl⟩ := (get?_boundaries_iff flows built).mp found
      exact Constants.Normal.empty.foldl_set _ _

theorem same_meets (flows : g.Flows p flow) (built : Icfg.build p g (g.graphs p flow) = .ok i)
    (f : Facts Node (Constants Var)) (n : Node) :
    ((scheme p i g).meets f n).same (Constants.lattice.meetAll (((boundaries p i g).get? n).toList ++
      (i.inEdges n).map (inflow p f))) = true := by
  have normal := normal_boundaries flows built n
  have values := Constants.value_meetAll_given ((boundaries p i g).get? n) (i.inEdges n) (inflow p f)
  rw [meets_eq, Constants.same_iff_equiv normal.gather (.meetAll _)]
  exact ⟨fun v => (congrFun values v).ge, fun v => (congrFun values v).le⟩

theorem passes_of_same {b : Body} {before behind : Constants Var}
    (same : behind.same (transferNode (b.stmt? n) before) = true) : Passes b n before behind := by
  by_cases calls : ∃ call result, b.stmt? n = some (.invoke call result)
  · obtain ⟨call, result, here⟩ := calls
    rw [here] at same
    exact .call here same
  · refine .other (fun call result here => calls ⟨call, result, here⟩) ?_
    cases here : b.stmt? n with
    | none => rwa [here] at same
    | some s =>
        have plain : s.isCall = false := by
          cases s with
          | invoke call result => exact absurd ⟨call, result, here⟩ calls
          | _ => rfl
        rwa [here, transferNode_of_not_call plain] at same

/-- Whatever is returned for a graph that was joined along any call graph has facts on both sides of every node, and
they solve the equations everywhere. Bodies may have been added since the call graph was made, but the calls of its
edges are still in them. -/
theorem solves_through_calls {Past : Program → Prop} (made : g.Made Past)
    (kept : ∀ q, Past q → ∀ site : CallSite, site.belongs q = true → site.belongs p = true)
    (flows : g.Flows p flow) (built : Icfg.build p g (g.graphs p flow) = .ok i) {limit : Option Int}
    {s : Solution Node (Constants Var)} {t : Nat} (settled : solve p i g limit = .settled s t) :
    ∃ input output : Node → Constants Var,
      (∀ n ∈ i.nodes, s.input.get? n = some (input n) ∧ s.output.get? n = some (output n)) ∧
      (∀ e ∈ i.outgoing, e ∈ i.inEdges e.target) ∧ (∀ n, ∀ e ∈ i.inEdges n, e.source ∈ i.nodes) ∧
      ∀ n ∈ i.nodes, SolvesAt p g flow i input output n := by
  have stable := stable_of_settled (Icfg.mirrored_of_build built) settled
  obtain ⟨facts, rfl, -⟩ := solve_settled_iff.mp settled
  have mirrored := Icfg.mirrored_of_build built
  have sources (n : Node) (e : IcfgEdge) (enters : e ∈ i.inEdges n) : e.source ∈ i.nodes :=
    Icfg.source_mem_nodes flows built (made.belongs kept) (mirrored.mem_inEdges.mp enters).1
  refine ⟨(scheme p i g).meets facts, sent facts, fun n member => ?_,
    fun e edge => mirrored.mem_inEdges.mpr ⟨edge, rfl⟩, sources, fun n member => ⟨?_, ?_⟩⟩
  · obtain ⟨before, behind, found, found', rfl, -⟩ := stable n member
    exact ⟨found, by rw [sent, OrderedMap.getD, found']; exact found'⟩
  · exact ⟨_, fun fact => get?_boundaries_iff flows built, same_meets flows built facts n⟩
  · obtain ⟨m, b, reachable, body, inside⟩ := Icfg.of_mem_nodes built member
    obtain ⟨before, behind, -, found, rfl, same⟩ := stable n member
    have here : sent facts n = behind := by rw [sent, OrderedMap.getD, found, Option.getD_some]
    refine ⟨m, b, reachable, body, inside, passes_of_same ?_⟩
    rw [here, ← stmtAt_eq flows reachable body (Cfg.mem_nodes.mp inside)]
    exact same

end Interprocedural

namespace Echo
open Loop (method p)

def k : Var := ⟨"k", .int, some method, 1⟩

def r : Var := ⟨"r", .int, some method, 2⟩

def body : Body where
  method := method
  this := none
  params := [p]
  stmts := [.assign (.var k) (.lit 1), .invoke ⟨.static, method, [k], none⟩ (some r), .ret (some r)]
  vars := [p, k, r]

def program : Program := ⟨[⟨⟨0, "Main"⟩, none, [], false, false, [⟨method.sig, true, false, none, some body⟩]⟩]⟩

def flow (_ : MethodRef) : Cfg := (Cfg.bare 0 method 3).drawAll ((Cfg.bare 0 method 3).edgesOf body)

def calls : CallGraph := (CallGraph.ofEntries program none [method]).toOption.getD .empty

def joined : Icfg := Icfg.join program calls (calls.graphs program flow)

theorem flows : calls.Flows program flow := by
  have only {m : MethodRef} (reachable : m ∈ calls.reachable) : m = method := by
    have listed : calls.reachable.toList = [method] := rfl
    rwa [OrderedSet.mem_iff, listed, List.mem_singleton] at reachable
  have drawn : (flow method).Drawn body := .built (show Cfg.build 0 body = .ok (flow method) from rfl)
  have own {b : Body} (found : program.body? method = some b) : body = b := Option.some.inj found
  constructor
  · intro m reachable b found
    obtain rfl := only reachable
    rw [← own found]
    rfl
  · intro m reachable b found
    obtain rfl := only reachable
    rwa [← own found]
  · intro m reachable m' reachable' _ _ _
    rw [only reachable, only reachable']

theorem echo_solves : (calls.Made (· = program) ∧ Icfg.build program calls (calls.graphs program flow) = .ok joined ∧
      Interprocedural.FromOutside program calls flow (.entry 0) (Propagation.boundary body) ∧
      (joined.inEdges (.entry 0)).map IcfgEdge.source = [.stmt 1 method]) ∧
    ∃ s t, Interprocedural.solve program joined calls (some 60) = .settled s t ∧
      ∃ input output : Node → Constants Var,
        (∀ n ∈ joined.nodes, s.input.get? n = some (input n) ∧ s.output.get? n = some (output n)) ∧
        (∀ e ∈ joined.outgoing, e ∈ joined.inEdges e.target) ∧
        (∀ n, ∀ e ∈ joined.inEdges n, e.source ∈ joined.nodes) ∧
        ∀ n ∈ joined.nodes, Interprocedural.SolvesAt program calls flow joined input output n := by
  obtain ⟨s, t, settled⟩ : ∃ s t, Interprocedural.solve program joined calls (some 60) = .settled s t :=
    Outcome.exists_of_state? (by decide +kernel)
  have resolved : CallGraph.ofEntries program none [method] = .ok calls := rfl
  have built : Icfg.build program calls (calls.graphs program flow) = .ok joined := rfl
  have made := CallGraph.made_ofEntries resolved
  have outside : Interprocedural.FromOutside program calls flow (.entry 0) (Propagation.boundary body) :=
    ⟨method, body, by decide +kernel, by decide +kernel, rfl, rfl, rfl⟩
  have kept (q : Program) (past : q = program) (site : CallSite) (belongs : site.belongs q = true) :
      site.belongs program = true := past ▸ belongs
  exact ⟨⟨made, built, outside, by decide +kernel⟩, s, t, settled,
    Interprocedural.solves_through_calls made kept flows built settled⟩

end Echo

end Dataflow
