import Dataflow.Icfg.Build
import Dataflow.Proofs.Cfg.Edges
import Dataflow.Proofs.Data.Maps

/-!
Interprocedural graphs hold what they are joined from: every edge of the graph of a reachable method with a body,
and for each edge of the call graph between such methods the way into the callee and the ways back.
-/

namespace Dataflow

/-- Graphs for the reachable methods of a program: that of a method with a body is drawn for the body, which is its
own, and no other has its number. -/
structure CallGraph.Flows (g : CallGraph) (p : Program) (flow : MethodRef → Cfg) : Prop where
  own : ∀ m ∈ g.reachable, ∀ b, p.body? m = some b → b.method = m
  drawn : ∀ m ∈ g.reachable, ∀ b, p.body? m = some b → (flow m).Drawn b
  apart : ∀ m ∈ g.reachable, ∀ m' ∈ g.reachable, p.hasBody m = true → p.hasBody m' = true →
    (flow m).id = (flow m').id → m = m'

def CallGraph.graphs (g : CallGraph) (p : Program) (flow : MethodRef → Cfg) : OrderedMap MethodRef Cfg :=
  OrderedMap.ofList ((g.reachable.toList.filter p.hasBody).map fun m => (m, flow m))

theorem Program.hasBody_of_body? {p : Program} {m : MethodRef} {b : Body} (body : p.body? m = some b) :
    p.hasBody m = true := by
  rw [hasBody, body, Option.isSome_some]

namespace CallGraph
variable {g : CallGraph} {p : Program} {flow : MethodRef → Cfg} {m : MethodRef} {b : Body}

theorem get?_graphs (g : CallGraph) (p : Program) (flow : MethodRef → Cfg) (m : MethodRef) :
    (g.graphs p flow).get? m = if m ∈ g.reachable ∧ p.hasBody m = true then some (flow m) else none := by
  rw [graphs, OrderedMap.get?_ofList_map]
  simp only [List.mem_filter, OrderedSet.mem_iff]

theorem mem_values_graphs (reachable : m ∈ g.reachable) (body : p.body? m = some b) :
    flow m ∈ (g.graphs p flow).values := by
  have found : (g.graphs p flow).get? m = some (flow m) := by
    rw [get?_graphs, if_pos ⟨reachable, Program.hasBody_of_body? body⟩]
  exact List.mem_map.mpr ⟨_, OrderedMap.get?_eq_some_iff.mp found, rfl⟩

theorem of_get?_graphs {c : Cfg} (found : (g.graphs p flow).get? m = some c) :
    ∃ b, m ∈ g.reachable ∧ p.body? m = some b ∧ c = flow m := by
  rw [get?_graphs] at found
  split at found
  · next there =>
      obtain ⟨b, body⟩ := Option.isSome_iff_exists.mp there.2
      exact ⟨b, there.1, body, (Option.some.inj found).symm⟩
  · cases found

theorem of_mem_values_graphs {c : Cfg} (member : c ∈ (g.graphs p flow).values) :
    ∃ m b, m ∈ g.reachable ∧ p.body? m = some b ∧ c = flow m := by
  obtain ⟨⟨m, c⟩, listed, rfl⟩ := List.mem_map.mp member
  exact ⟨m, of_get?_graphs (OrderedMap.get?_eq_some_iff.mpr listed)⟩

theorem Flows.method_eq (flows : g.Flows p flow) (reachable : m ∈ g.reachable) (body : p.body? m = some b) :
    (flow m).method = m :=
  (flows.drawn m reachable b body).shape.1.trans (flows.own m reachable b body)

theorem Flows.eq_of_mem_nodes {m' : MethodRef} {b' : Body} (flows : g.Flows p flow) (reachable : m ∈ g.reachable)
    (body : p.body? m = some b) (reachable' : m' ∈ g.reachable) (body' : p.body? m' = some b') {n : Node}
    (inside : n ∈ (flow m).nodes) (inside' : n ∈ (flow m').nodes) : m = m' := by
  have number := flows.apart m reachable m' reachable' (Program.hasBody_of_body? body) (Program.hasBody_of_body? body')
  rw [Cfg.mem_nodes] at inside inside'
  cases n with
  | entry id | exit id =>
      simp only [Cfg.contains, decide_eq_true_eq] at inside inside'
      exact number (inside.symm.trans inside')
  | stmt pos home =>
      simp only [Cfg.contains, Bool.and_eq_true, decide_eq_true_eq] at inside inside'
      rw [← flows.method_eq reachable body, ← flows.method_eq reachable' body', ← inside.1, ← inside'.1]
  | stray stamp => cases inside

end CallGraph

namespace Icfg

@[simp] theorem lift_source (b : Body) (e : Edge) : (lift b e).source = e.source := by
  unfold lift
  split <;> rfl

@[simp] theorem lift_target (b : Body) (e : Edge) : (lift b e).target = e.target := by
  unfold lift
  split <;> rfl

theorem mem_succs {i : Icfg} {n m : Node} : m ∈ i.succs n ↔ ∃ e ∈ i.outgoing, e.source = n ∧ e.target = m := by
  simp [succs, outEdges, and_assoc]

structure Mirrored (i : Icfg) : Prop where
  alike : i.incoming = i.outgoing
  inside : ∀ e ∈ i.outgoing, e.target ∈ i.nodes

theorem Mirrored.mem_inEdges {i : Icfg} (mirrored : i.Mirrored) {e : IcfgEdge} {n : Node} :
    e ∈ i.inEdges n ↔ e ∈ i.outgoing ∧ e.target = n := by
  rw [inEdges, mirrored.alike, List.mem_filter, decide_eq_true_eq]

theorem foldl_add (i : Icfg) (es : List IcfgEdge) :
    es.foldl add i = { i with outgoing := i.outgoing ++ es, incoming := i.incoming ++ es } := by
  induction es generalizing i with
  | nil => simp
  | cons e es ih =>
      rw [List.foldl_cons, ih]
      simp [add]

theorem passage_lift_of_invoke {b : Body} {e : Edge} {pos : Nat} {m : MethodRef} {call : Call} {result : Option Var}
    (source : e.source = .stmt pos m) (here : b.stmt? e.source = some (.invoke call result)) :
    (lift b e).passage = .callToReturn e.kind ⟨some m, pos, call, result⟩ := by
  unfold lift
  rw [here, source]

theorem passage_lift_of_not_invoke {b : Body} {e : Edge}
    (other : ∀ call result, b.stmt? e.source ≠ some (.invoke call result)) :
    (lift b e).passage = .normal e.kind := by
  unfold lift
  split
  · next here => exact absurd here (other _ _)
  · rfl

theorem build_ok_iff {p : Program} {g : CallGraph} {graphs : OrderedMap MethodRef Cfg} {i : Icfg} :
    build p g graphs = .ok i ↔ i = join p g graphs ∧ ∀ e ∈ i.outgoing, e.target ∈ i.nodes := by
  simp only [build]
  constructor
  · intro built
    split at built
    · next inside =>
        obtain rfl := Except.ok.inj built
        simpa [contains] using inside
    · cases built
  · rintro ⟨rfl, inside⟩
    rw [if_pos]
    simpa [contains] using inside

theorem join_eq (p : Program) (g : CallGraph) (graphs : OrderedMap MethodRef Cfg) :
    join p g graphs = { bare graphs with
      outgoing := graphs.values.flatMap (inner p) ++ g.edges.toList.flatMap (outer p graphs)
      incoming := graphs.values.flatMap (inner p) ++ g.edges.toList.flatMap (outer p graphs) } := foldl_add _ _

theorem graphs_join (p : Program) (g : CallGraph) (graphs : OrderedMap MethodRef Cfg) :
    (join p g graphs).graphs = graphs.mapValues fun _ c => c.id := by
  rw [join_eq]
  rfl

theorem nodes_join (p : Program) (g : CallGraph) (graphs : OrderedMap MethodRef Cfg) :
    (join p g graphs).nodes = graphs.values.flatMap Cfg.nodes := by
  rw [join_eq]
  rfl

theorem outgoing_join (p : Program) (g : CallGraph) (graphs : OrderedMap MethodRef Cfg) :
    (join p g graphs).outgoing = graphs.values.flatMap (inner p) ++ g.edges.toList.flatMap (outer p graphs) := by
  rw [join_eq]

theorem mirrored_of_build {p : Program} {g : CallGraph} {graphs : OrderedMap MethodRef Cfg} {i : Icfg}
    (built : build p g graphs = .ok i) : i.Mirrored := by
  obtain ⟨rfl, inside⟩ := build_ok_iff.mp built
  exact ⟨by rw [join_eq], inside⟩

section Joined
variable {p : Program} {flow : MethodRef → Cfg} {g : CallGraph} {i : Icfg} {m : MethodRef} {b : Body}

theorem mem_nodes_join (reachable : m ∈ g.reachable) (body : p.body? m = some b) {n : Node}
    (inside : n ∈ (flow m).nodes) : n ∈ (join p g (g.graphs p flow)).nodes := by
  rw [nodes_join]
  exact List.mem_flatMap.mpr ⟨flow m, CallGraph.mem_values_graphs reachable body, inside⟩

theorem mem_nodes_of_flow (built : build p g (g.graphs p flow) = .ok i) (reachable : m ∈ g.reachable)
    (body : p.body? m = some b) {n : Node} (inside : n ∈ (flow m).nodes) : n ∈ i.nodes := by
  obtain ⟨rfl, -⟩ := build_ok_iff.mp built
  exact mem_nodes_join reachable body inside

theorem inner_eq (flows : g.Flows p flow) (reachable : m ∈ g.reachable) (body : p.body? m = some b) :
    inner p (flow m) = (flow m).edges.map (lift b) := by
  rw [inner, flows.method_eq reachable body, body]

theorem lift_mem_outgoing (flows : g.Flows p flow) (built : build p g (g.graphs p flow) = .ok i)
    (reachable : m ∈ g.reachable) (body : p.body? m = some b) {e : Edge} (edge : e ∈ (flow m).outgoing) :
    lift b e ∈ i.outgoing := by
  obtain ⟨rfl, -⟩ := build_ok_iff.mp built
  rw [outgoing_join]
  refine List.mem_append_left _ (List.mem_flatMap.mpr ⟨flow m, CallGraph.mem_values_graphs reachable body, ?_⟩)
  rw [inner_eq flows reachable body]
  exact List.mem_map_of_mem ((flows.drawn m reachable b body).mirrored.mem_edges_iff.mpr edge)

theorem outer_eq {e : CallEdge} {d : Body} (home : e.site.home = some m) (reachable : m ∈ g.reachable)
    (body : p.body? m = some b) (reached : e.callee ∈ g.reachable) (runs : p.body? e.callee = some d) :
    outer p (g.graphs p flow) e = ⟨.stmt e.site.pos m, (flow e.callee).entry, .call e.site e.callee⟩ ::
      ((flow m).succs (.stmt e.site.pos m)).map fun n =>
        ⟨(flow e.callee).exit, n, .ret e.site e.callee d.returnVars⟩ := by
  have caller : e.site.home.bind (g.graphs p flow).get? = some (flow m) := by
    rw [home, Option.bind_some, CallGraph.get?_graphs, if_pos ⟨reachable, Program.hasBody_of_body? body⟩]
  have callee : (g.graphs p flow).get? e.callee = some (flow e.callee) := by
    rw [CallGraph.get?_graphs, if_pos ⟨reached, Program.hasBody_of_body? runs⟩]
  have site : e.site.node? = some (.stmt e.site.pos m) := by rw [CallSite.node?, home, Option.map_some]
  rw [outer, caller, callee, site, runs]
  rfl

theorem outer_subset_outgoing (built : build p g (g.graphs p flow) = .ok i) {e : CallEdge} (edge : e ∈ g.edges) :
    ∀ passing ∈ outer p (g.graphs p flow) e, passing ∈ i.outgoing := by
  obtain ⟨rfl, -⟩ := build_ok_iff.mp built
  intro passing member
  rw [outgoing_join]
  exact List.mem_append_right _ (List.mem_flatMap.mpr ⟨e, edge, member⟩)

theorem of_mem_nodes (built : build p g (g.graphs p flow) = .ok i) {n : Node} (member : n ∈ i.nodes) :
    ∃ m b, m ∈ g.reachable ∧ p.body? m = some b ∧ n ∈ (flow m).nodes := by
  obtain ⟨rfl, -⟩ := build_ok_iff.mp built
  rw [nodes_join] at member
  obtain ⟨c, joined, inside⟩ := List.mem_flatMap.mp member
  obtain ⟨m, b, reachable, body, rfl⟩ := CallGraph.of_mem_values_graphs joined
  exact ⟨m, b, reachable, body, inside⟩

theorem mem_nodes_of_belongs (flows : g.Flows p flow) (built : build p g (g.graphs p flow) = .ok i) {s : CallSite}
    (home : s.home = some m) (belongs : s.belongs p = true) (reachable : m ∈ g.reachable) :
    .stmt s.pos m ∈ i.nodes := by
  cases body : p.body? m with
  | none => simp [CallSite.belongs, home, body] at belongs
  | some b =>
      have placed : b.stmts[s.pos]? = some s.stmt := by simpa [CallSite.belongs, home, body] using belongs
      have bound : s.pos < b.stmts.length := (List.getElem?_eq_some_iff.mp placed).1
      refine mem_nodes_of_flow built reachable body (Cfg.mem_nodes.mpr ?_)
      simp [Cfg.contains, flows.method_eq reachable body, (flows.drawn m reachable b body).shape.2, bound]

structure Connects (p : Program) (g : CallGraph) (call : CallEdge) (m : MethodRef) (b d : Body) : Prop where
  edge : call ∈ g.edges
  home : call.site.home = some m
  reachable : m ∈ g.reachable
  body : p.body? m = some b
  reached : call.callee ∈ g.reachable
  runs : p.body? call.callee = some d

inductive Joins (p : Program) (g : CallGraph) (flow : MethodRef → Cfg) : IcfgEdge → Prop where
  | within {m : MethodRef} {b : Body} {e : Edge} :
      m ∈ g.reachable → p.body? m = some b → e ∈ (flow m).outgoing → Joins p g flow (lift b e)
  | into {call : CallEdge} {m : MethodRef} {b d : Body} : Connects p g call m b d →
      Joins p g flow ⟨.stmt call.site.pos m, (flow call.callee).entry, .call call.site call.callee⟩
  | back {call : CallEdge} {m : MethodRef} {b d : Body} {n : Node} : Connects p g call m b d →
      n ∈ (flow m).succs (.stmt call.site.pos m) →
      Joins p g flow ⟨(flow call.callee).exit, n, .ret call.site call.callee d.returnVars⟩

theorem connects_of_mem_outer {call : CallEdge} (edge : call ∈ g.edges) {e : IcfgEdge}
    (across : e ∈ outer p (g.graphs p flow) call) : ∃ m b d, Connects p g call m b d := by
  unfold outer at across
  split at across
  · next caller callee site calls runs node =>
      obtain ⟨m, home, found⟩ := Option.bind_eq_some_iff.mp calls
      obtain ⟨b, reachable, body, -⟩ := CallGraph.of_get?_graphs found
      obtain ⟨d, reached, runs, -⟩ := CallGraph.of_get?_graphs runs
      exact ⟨m, b, d, edge, home, reachable, body, reached, runs⟩
  · cases across

theorem joins_of_mem (flows : g.Flows p flow) {e : IcfgEdge} (edge : e ∈ (join p g (g.graphs p flow)).outgoing) :
    Joins p g flow e := by
  rw [outgoing_join] at edge
  rcases List.mem_append.mp edge with within | across
  · obtain ⟨c, joined, within⟩ := List.mem_flatMap.mp within
    obtain ⟨m, b, reachable, body, rfl⟩ := CallGraph.of_mem_values_graphs joined
    rw [inner_eq flows reachable body] at within
    obtain ⟨drawn, listed, rfl⟩ := List.mem_map.mp within
    exact .within reachable body ((flows.drawn m reachable b body).mirrored.mem_edges_iff.mp listed)
  · obtain ⟨call, called, across⟩ := List.mem_flatMap.mp across
    obtain ⟨m, b, d, connects⟩ := connects_of_mem_outer called across
    rw [outer_eq connects.home connects.reachable connects.body connects.reached connects.runs] at across
    rcases List.mem_cons.mp across with rfl | back
    · exact .into connects
    · obtain ⟨n, next, rfl⟩ := List.mem_map.mp back
      exact .back connects next

theorem source_mem_nodes (flows : g.Flows p flow) (built : build p g (g.graphs p flow) = .ok i)
    (belongs : ∀ e ∈ g.edges, e.site.belongs p = true) {e : IcfgEdge} (edge : e ∈ i.outgoing) : e.source ∈ i.nodes := by
  obtain ⟨rfl, -⟩ := build_ok_iff.mp built
  cases joins_of_mem flows edge with
  | @within m b e reachable body drawn =>
      rw [lift_source]
      have inside := ((flows.drawn m reachable b body).mirrored.inside e drawn).1
      exact mem_nodes_join reachable body (Cfg.mem_nodes.mpr inside)
  | into connects =>
      exact mem_nodes_of_belongs flows built connects.home (belongs _ connects.edge) connects.reachable
  | back connects _ =>
      exact mem_nodes_join connects.reached connects.runs (Cfg.mem_nodes.mpr (by simp [Cfg.contains, Cfg.exit]))

theorem build_ok (flows : g.Flows p flow) : build p g (g.graphs p flow) = .ok (join p g (g.graphs p flow)) := by
  refine build_ok_iff.mpr ⟨rfl, fun e edge => ?_⟩
  cases joins_of_mem flows edge with
  | @within m b e reachable body drawn =>
      rw [lift_target]
      have inside := ((flows.drawn m reachable b body).mirrored.inside e drawn).2
      exact mem_nodes_join reachable body (Cfg.mem_nodes.mpr inside)
  | into connects =>
      exact mem_nodes_join connects.reached connects.runs (Cfg.mem_nodes.mpr (by simp [Cfg.contains, Cfg.entry]))
  | back connects next =>
      have inside := ((flows.drawn _ connects.reachable _ connects.body).mirrored.succs_inside next).2
      exact mem_nodes_join connects.reachable connects.body (Cfg.mem_nodes.mpr inside)

/-- The edges into a node of a method: those of its graph, calls if it is the entry, and ways back from its calls. -/
theorem mem_inEdges_cases (flows : g.Flows p flow) (built : build p g (g.graphs p flow) = .ok i)
    (reachable : m ∈ g.reachable) (body : p.body? m = some b) {n : Node} (inside : n ∈ (flow m).nodes) {e : IcfgEdge}
    (enters : e ∈ i.inEdges n) :
    (∃ way ∈ (flow m).outgoing, way.target = n ∧ e = lift b way) ∨
      (n = (flow m).entry ∧ ∃ source site, e = ⟨source, n, .call site m⟩) ∨
      ∃ call d, Connects p g call m b d ∧ n ∈ (flow m).succs (.stmt call.site.pos m) ∧
        e = ⟨(flow call.callee).exit, n, .ret call.site call.callee d.returnVars⟩ := by
  obtain ⟨edge, target⟩ := (mirrored_of_build built).mem_inEdges.mp enters
  obtain ⟨rfl, -⟩ := build_ok_iff.mp built
  -- no other method has this node
  have same {m' : MethodRef} {b' : Body} (reachable' : m' ∈ g.reachable) (body' : p.body? m' = some b')
      (inside' : n ∈ (flow m').nodes) : m' = m ∧ b' = b := by
    obtain rfl := flows.eq_of_mem_nodes reachable body reachable' body' inside inside'
    exact ⟨rfl, Option.some.inj (body'.symm.trans body)⟩
  cases joins_of_mem flows edge with
  | @within m' b' way reachable' body' drawn =>
      rw [lift_target] at target
      have inside' := Cfg.mem_nodes.mpr ((flows.drawn m' reachable' b' body').mirrored.inside way drawn).2
      obtain ⟨rfl, rfl⟩ := same reachable' body' (target ▸ inside')
      exact .inl ⟨way, drawn, target, rfl⟩
  | @into call m' b' d connects =>
      have first : (flow call.callee).entry = n := target
      have inside' : n ∈ (flow call.callee).nodes :=
        first ▸ Cfg.mem_nodes.mpr (by simp [Cfg.contains, Cfg.entry])
      obtain ⟨rfl, -⟩ := same connects.reached connects.runs inside'
      exact .inr (.inl ⟨first.symm, _, _, by rw [first]⟩)
  | @back call m' b' d n' connects next =>
      obtain rfl : n' = n := target
      have inside' := Cfg.mem_nodes.mpr ((flows.drawn m' connects.reachable b' connects.body).mirrored.succs_inside next).2
      obtain ⟨rfl, rfl⟩ := same connects.reachable connects.body inside'
      exact .inr (.inr ⟨call, d, connects, next, rfl⟩)

end Joined

end Icfg

end Dataflow
