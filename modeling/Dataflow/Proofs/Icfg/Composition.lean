import Dataflow.Proofs.CallGraph.Indexes
import Dataflow.Proofs.Data.Lists
import Dataflow.Proofs.Icfg.Edges
import Mathlib.Data.List.Flatten

/-!
An interprocedural graph is composed of control flow graphs and a call graph and of nothing else. Its nodes are those of
the graphs, each once; its edges are what the edges of the graphs carry over to, one for one, and then for each call that
runs a reachable body one edge into it and one back to each place where the caller goes on (`Composed`). Joining succeeds
whenever the reachable bodies are finished and no jump of theirs is left open (`join_composed`).
-/

namespace Dataflow

def CallGraph.bodied (g : CallGraph) (p : Program) : List MethodRef := g.reachable.toList.filter p.hasBody

def CallGraph.crossings (g : CallGraph) (p : Program) : List CallEdge :=
  g.edges.toList.filter fun e => g.reachable.contains e.callee && p.hasBody e.callee

namespace Icfg

inductive Carries (p : Program) (e : Edge) : IcfgEdge → Prop where
  | past {pos : Nat} {m : MethodRef} {b : Body} {call : Call} {result : Option Var} : e.source = .stmt pos m →
      p.body? m = some b → b.stmts[pos]? = some (.invoke call result) →
      Carries p e ⟨e.source, e.target, .callToReturn e.kind ⟨some m, pos, call, result⟩⟩
  | plain : (∀ pos m b call result, e.source = .stmt pos m → p.body? m = some b →
      b.stmts[pos]? ≠ some (.invoke call result)) → Carries p e ⟨e.source, e.target, .normal e.kind⟩

/-- What an edge of the call graph carries over to: one edge to the entry of the callee, and one from its exit to each
place where the caller goes on, each place once. -/
def Crosses (p : Program) (flow : MethodRef → Cfg) (e : CallEdge) (edges : List IcfgEdge) : Prop :=
  ∃ (m : MethodRef) (d : Body) (sites : List Node), e.site.home = some m ∧ p.body? e.callee = some d ∧ sites.Nodup ∧
    (∀ n, n ∈ sites ↔ ∃ way ∈ (flow m).edges, way.source = .stmt e.site.pos m ∧ way.target = n) ∧
    edges = ⟨.stmt e.site.pos m, (flow e.callee).entry, .call e.site e.callee⟩ ::
      sites.map fun n => ⟨(flow e.callee).exit, n, .ret e.site e.callee d.returnVars⟩

structure Composed (p : Program) (g : CallGraph) (flow : MethodRef → Cfg) (i : Icfg) : Prop where
  nodes : i.nodes = (g.bodied p).flatMap fun m => (flow m).nodes
  once : i.nodes.Nodup
  edges : ∃ (within : List IcfgEdge) (across : List (List IcfgEdge)), i.outgoing = within ++ across.flatten ∧
    i.incoming = within ++ across.flatten ∧
    List.Forall₂ (Carries p) ((g.bodied p).flatMap fun m => (flow m).edges) within ∧
    List.Forall₂ (Crosses p flow) (g.crossings p) across
  ends : ∀ e ∈ i.outgoing, e.source ∈ i.nodes ∧ e.target ∈ i.nodes
  listed : ∀ e, (i.outEdges e.source).count e = (i.inEdges e.target).count e

theorem lift_eq (b : Body) (e : Edge) : lift b e = ⟨e.source, e.target, (lift b e).passage⟩ := by
  rw [← lift_source b e, ← lift_target b e]

section Joined
variable {p : Program} {flow : MethodRef → Cfg} {g : CallGraph} {m m' : MethodRef} {b b' : Body}

theorem mem_bodied : m ∈ g.bodied p ↔ m ∈ g.reachable ∧ ∃ b, p.body? m = some b := by
  rw [CallGraph.bodied, List.mem_filter, Program.hasBody, Option.isSome_iff_exists]
  rfl

theorem bodied_nodup (g : CallGraph) (p : Program) : (g.bodied p).Nodup := g.reachable.nodup.filter p.hasBody

theorem values_graphs (g : CallGraph) (p : Program) (flow : MethodRef → Cfg) :
    (g.graphs p flow).values = (g.bodied p).map flow := by
  have distinct : (((g.bodied p).map fun m => (m, flow m)).map Prod.fst).Nodup := by
    rw [List.map_map, show (Prod.fst ∘ fun m => (m, flow m)) = id from rfl, List.map_id]
    exact bodied_nodup g p
  have kept : (g.graphs p flow).entries = (g.bodied p).map fun m => (m, flow m) := OrderedMap.entries_ofList distinct
  rw [OrderedMap.values, kept, List.map_map]
  rfl

theorem carries_lift (flows : g.Flows p flow) (reachable : m ∈ g.reachable) (body : p.body? m = some b) {e : Edge}
    (edge : e ∈ (flow m).edges) : Carries p e (lift b e) := by
  have mirrored := (flows.drawn m reachable b body).mirrored
  have inside := (mirrored.inside e (mirrored.mem_edges_iff.mp edge)).1
  -- a statement from which the edge comes is one of the method's own
  have placed {pos : Nat} {m' : MethodRef} (source : e.source = .stmt pos m') :
      m' = m ∧ b.stmt? e.source = b.stmts[pos]? := by
    rw [source, Cfg.contains, flows.method_eq reachable body, Bool.and_eq_true, decide_eq_true_eq] at inside
    rw [source, Body.stmt?, flows.own m reachable b body, if_pos inside.1]
    exact ⟨inside.1, rfl⟩
  by_cases invokes : ∃ call result, b.stmt? e.source = some (.invoke call result)
  · obtain ⟨call, result, found⟩ := invokes
    cases source : e.source with
    | stmt pos m' =>
        obtain ⟨rfl, same⟩ := placed source
        rw [lift_eq, passage_lift_of_invoke source found]
        exact .past source body (same ▸ found)
    | _ =>
        rw [source] at found
        cases found
  · rw [lift_eq, passage_lift_of_not_invoke fun call result found => invokes ⟨call, result, found⟩]
    refine .plain fun pos m' b' call result source body' found => invokes ⟨call, result, ?_⟩
    obtain ⟨rfl, same⟩ := placed source
    obtain rfl : b = b' := Option.some.inj (body.symm.trans body')
    exact same.trans found

theorem outer_eq_nil {e : CallEdge} (edge : e ∈ g.edges)
    (stays : (g.reachable.contains e.callee && p.hasBody e.callee) = false) : outer p (g.graphs p flow) e = [] := by
  refine List.eq_nil_iff_forall_not_mem.mpr fun passing across => ?_
  obtain ⟨m, b, d, connects⟩ := connects_of_mem_outer edge across
  rw [OrderedSet.contains_iff.mpr connects.reached, Program.hasBody_of_body? connects.runs] at stays
  cases stays

theorem crosses_outer {Past : Program → Prop} (flows : g.Flows p flow) (made : g.Made Past)
    (kept : ∀ q, Past q → ∀ s : CallSite, s.belongs q = true → s.belongs p = true) {e : CallEdge}
    (member : e ∈ g.crossings p) : Crosses p flow e (outer p (g.graphs p flow) e) := by
  obtain ⟨edge, crosses⟩ := List.mem_filter.mp member
  rw [Bool.and_eq_true, OrderedSet.contains_iff] at crosses
  obtain ⟨d, runs⟩ := Option.isSome_iff_exists.mp crosses.2
  obtain ⟨⟨m, reachable, home⟩, -⟩ := made.accepted e edge
  obtain ⟨b, body, -⟩ := (CallSite.belongs_iff home).mp (made.belongs kept e edge)
  have mirrored := (flows.drawn m reachable b body).mirrored
  refine ⟨m, d, (flow m).succs (.stmt e.site.pos m), home, runs, OrderedSet.nodup _, fun n => ?_, ?_⟩
  · simp only [Cfg.mem_succs, mirrored.mem_edges_iff]
  · exact outer_eq home reachable body crosses.1 runs

theorem composed_join {Past : Program → Prop} (flows : g.Flows p flow) (made : g.Made Past)
    (kept : ∀ q, Past q → ∀ s : CallSite, s.belongs q = true → s.belongs p = true) :
    Composed p g flow (join p g (g.graphs p flow)) where
  nodes := by rw [nodes_join, values_graphs, List.flatMap_map]
  once := by
    rw [nodes_join, values_graphs, List.flatMap_map, List.nodup_flatMap]
    refine ⟨fun m _ => (flow m).nodes_nodup, (bodied_nodup g p).imp_of_mem ?_⟩
    intro m m' member member' different n inside inside'
    obtain ⟨reachable, b, body⟩ := mem_bodied.mp member
    obtain ⟨reachable', b', body'⟩ := mem_bodied.mp member'
    exact different (flows.eq_of_mem_nodes reachable body reachable' body' inside inside')
  edges := by
    have drawn : (join p g (g.graphs p flow)).outgoing = ((g.bodied p).flatMap fun m => inner p (flow m)) ++
        ((g.crossings p).map (outer p (g.graphs p flow))).flatten := by
      rw [outgoing_join, values_graphs, List.flatMap_map, Lists.flatMap_filter_of_nil fun e edge => outer_eq_nil edge]
      rfl
    refine ⟨_, _, drawn, (mirrored_of_build (build_ok flows)).alike.trans drawn, ?_, ?_⟩
    · refine List.rel_flatten ?_
      rw [List.forall₂_map_left_iff, List.forall₂_map_right_iff, List.forall₂_same]
      intro m member
      obtain ⟨reachable, b, body⟩ := mem_bodied.mp member
      rw [inner_eq flows reachable body, List.forall₂_map_right_iff, List.forall₂_same]
      exact fun e edge => carries_lift flows reachable body edge
    · rw [List.forall₂_map_right_iff, List.forall₂_same]
      exact fun e edge => crosses_outer flows made kept edge
  ends e edge := by
    have built := build_ok flows
    exact ⟨source_mem_nodes flows built (made.belongs kept) edge, (build_ok_iff.mp built).2 e edge⟩
  listed e := by
    rw [outEdges, inEdges, (mirrored_of_build (build_ok flows)).alike, List.count_filter (by simp),
      List.count_filter (by simp)]

end Joined

end Icfg

/-! ## Graphs kept in a workspace -/

namespace Workspace

def stored? (w : Workspace) (m : MethodRef) : Option Stored := (w.stores.getD m OrderedMap.empty).get? "cfg"

def kept? (w : Workspace) (m : MethodRef) : Option Cfg :=
  match w.stored? m with
  | some (.graph id) => w.graphs[id]?
  | _ => none

def flow (w : Workspace) (m : MethodRef) : Cfg := (w.kept? m).getD (.bare 0 m 0)

/-- Graphs have their own numbers, and for these methods a graph that is kept is one of the body, and no datum has been
put in its place. -/
structure Tidy (w : Workspace) (ms : List MethodRef) : Prop where
  numbered : ∀ (k : Nat) (c : Cfg), w.graphs[k]? = some c → c.id = k
  plain : ∀ m ∈ ms, ∀ d, w.stored? m = some (.datum d) → d = .null
  drawn : ∀ m ∈ ms, ∀ b, w.program.body? m = some b → ∀ id, w.stored? m = some (.graph id) →
    ∃ c : Cfg, w.graphs[id]? = some c ∧ c.Drawn b

structure Keeps (w w' : Workspace) : Prop where
  program : w'.program = w.program
  kept : ∀ m c, w.kept? m = some c → w'.kept? m = some c

theorem Keeps.refl (w : Workspace) : w.Keeps w := ⟨rfl, fun _ _ => id⟩

theorem Keeps.trans {w w' w'' : Workspace} (first : w.Keeps w') (second : w'.Keeps w'') : w.Keeps w'' :=
  ⟨second.program.trans first.program, fun m c kept => second.kept m c (first.kept m c kept)⟩

def keeping (w : Workspace) (m : MethodRef) (c : Cfg) : Workspace :=
  { w with
    graphs := w.graphs ++ [c]
    log := w.log ++ [⟨.debug, "ctrlflow_graph", c.described⟩]
    stores := w.stores.insert m ((w.stores.getD m OrderedMap.empty).insert "cfg" (.graph c.id)) }

section Keeping
variable {w : Workspace} {ms : List MethodRef} {m m' : MethodRef} {b : Body} {c c' : Cfg}

theorem kept?_eq_some_iff : w.kept? m = some c ↔ ∃ id, w.stored? m = some (.graph id) ∧ w.graphs[id]? = some c := by
  unfold kept?
  split
  · next id stored => simp [stored]
  · next other => exact ⟨fun none => (by cases none), fun ⟨id, stored, _⟩ => (other id stored).elim⟩

theorem stored?_keeping_self : (w.keeping m c).stored? m = some (.graph c.id) := by
  simp [stored?, keeping, OrderedMap.getD]

theorem stored?_keeping_of_ne (other : m' ≠ m) : (w.keeping m c).stored? m' = w.stored? m' := by
  simp [stored?, keeping, OrderedMap.getD, Ne.symm other]

theorem getElem?_keeping {k : Nat} (found : w.graphs[k]? = some c') : (w.keeping m c).graphs[k]? = some c' := by
  have bound : k < w.graphs.length := (List.getElem?_eq_some_iff.mp found).1
  rw [keeping, List.getElem?_append_left bound, found]

theorem getElem?_keeping_self (number : c.id = w.graphs.length) : (w.keeping m c).graphs[c.id]? = some c := by
  simp [keeping, number]

theorem kept?_keeping_self (number : c.id = w.graphs.length) : (w.keeping m c).kept? m = some c :=
  kept?_eq_some_iff.mpr ⟨c.id, stored?_keeping_self, getElem?_keeping_self number⟩

theorem keeps_keeping (nothing : w.kept? m = none) : w.Keeps (w.keeping m c) where
  program := rfl
  kept m' c' before := by
    have other : m' ≠ m := by
      rintro rfl
      rw [nothing] at before
      cases before
    obtain ⟨id, stored, found⟩ := kept?_eq_some_iff.mp before
    exact kept?_eq_some_iff.mpr ⟨id, (stored?_keeping_of_ne other).trans stored, getElem?_keeping found⟩

theorem Tidy.keeping (tidy : w.Tidy ms) (number : c.id = w.graphs.length) (body : w.program.body? m = some b)
    (drawn : c.Drawn b) : (w.keeping m c).Tidy ms where
  numbered k c' found := by
    rw [Workspace.keeping, List.getElem?_append] at found
    split at found
    · exact tidy.numbered k c' found
    · obtain ⟨last, rfl⟩ := List.getElem?_eq_some_iff.mp found
      rw [List.length_singleton] at last
      simp only [List.getElem_singleton, number]
      omega
  plain m' member d stored := by
    by_cases same : m' = m
    · rw [same, stored?_keeping_self] at stored
      cases stored
    · exact tidy.plain m' member d ((stored?_keeping_of_ne same).symm.trans stored)
  drawn m' member b' body' id stored := by
    by_cases same : m' = m
    · subst same
      obtain rfl : b = b' := Option.some.inj (body.symm.trans body')
      rw [stored?_keeping_self] at stored
      cases stored
      exact ⟨c, getElem?_keeping_self number, drawn⟩
    · rw [stored?_keeping_of_ne same] at stored
      obtain ⟨c', found, drawn'⟩ := tidy.drawn m' member b' body' id stored
      exact ⟨c', getElem?_keeping found, drawn'⟩

theorem Tidy.getElem?_id (tidy : w.Tidy ms) (kept : w.kept? m = some c) : w.graphs[c.id]? = some c := by
  obtain ⟨id, -, found⟩ := kept?_eq_some_iff.mp kept
  rwa [tidy.numbered id c found]

theorem Tidy.drawn_of_kept (tidy : w.Tidy ms) (member : m ∈ ms) (body : w.program.body? m = some b)
    (kept : w.kept? m = some c) : c.Drawn b := by
  obtain ⟨id, stored, found⟩ := kept?_eq_some_iff.mp kept
  obtain ⟨c', found', drawn⟩ := tidy.drawn m member b body id stored
  exact Option.some.inj (found'.symm.trans found) ▸ drawn

theorem Tidy.flows {g : CallGraph} (tidy : w.Tidy g.reachable.toList)
    (own : ∀ m ∈ g.reachable, ∀ b, w.program.body? m = some b → b.method = m)
    (each : ∀ m ∈ g.bodied w.program, w.kept? m = some (w.flow m)) : g.Flows w.program w.flow := by
  have drawn (m : MethodRef) (reachable : m ∈ g.reachable) (b : Body) (body : w.program.body? m = some b) :
      (w.flow m).Drawn b :=
    tidy.drawn_of_kept reachable body (each m (Icfg.mem_bodied.mpr ⟨reachable, b, body⟩))
  have method (m : MethodRef) (reachable : m ∈ g.reachable) (has : w.program.hasBody m = true) :
      (w.flow m).method = m := by
    obtain ⟨b, body⟩ := Option.isSome_iff_exists.mp has
    exact (drawn m reachable b body).shape.1.trans (own m reachable b body)
  refine ⟨own, drawn, fun m reachable m' reachable' has has' number => ?_⟩
  have found := tidy.getElem?_id (each m (List.mem_filter.mpr ⟨reachable, has⟩))
  have found' := tidy.getElem?_id (each m' (List.mem_filter.mpr ⟨reachable', has'⟩))
  rw [number, found'] at found
  rw [← method m reachable has, ← method m' reachable' has', Option.some.inj found]

end Keeping

end Workspace

namespace Session
variable {w : Workspace} {ms : List MethodRef} {m : MethodRef} {b : Body}

theorem on_buildGraph (body : w.program.body? m = some b) {c : Cfg} (built : Cfg.build w.graphs.length b = .ok c) :
    (buildGraph m).on w = (.ok c, { w with
      graphs := w.graphs ++ [c], log := w.log ++ [⟨.debug, "ctrlflow_graph", c.described⟩] }) := by
  have found : (bodyOf m).on w = (.ok b, w) := by
    simp [bodyOf, Steps.on_bind, Program.body, body]
  rw [buildGraph, Steps.on_bind, found]
  simp only [Steps.on_bind, Steps.on_get, built]
  rfl

theorem on_keptGraph_of_kept {c : Cfg} (kept : w.kept? m = some c) : (keptGraph m).on w = (.ok (.ok c), w) := by
  obtain ⟨id, stored, found⟩ := Workspace.kept?_eq_some_iff.mp kept
  rw [keptGraph, Steps.on_bind, show (storeOf m).on w = (.ok (w.stores.getD m OrderedMap.empty), w) from rfl]
  simp only [show (w.stores.getD m OrderedMap.empty).get? "cfg" = _ from stored, Steps.on_bind, Steps.on_get, found]
  rfl

theorem on_keptGraph_of_none (nothing : w.kept? m = none) (plain : ∀ d, w.stored? m = some (.datum d) → d = .null)
    (body : w.program.body? m = some b) {c : Cfg} (built : Cfg.build w.graphs.length b = .ok c) :
    (keptGraph m).on w = (.ok (.ok c), w.keeping m c) := by
  have fresh : (do
      let g ← buildGraph m
      store m "cfg" (.graph g.id)
      return .ok g : Session (Except Datum Cfg)).on w = (.ok (.ok c), w.keeping m c) := by
    rw [Steps.on_bind, on_buildGraph body built]
    rfl
  rw [keptGraph, Steps.on_bind, show (storeOf m).on w = (.ok (w.stores.getD m OrderedMap.empty), w) from rfl]
  simp only [show (w.stores.getD m OrderedMap.empty).get? "cfg" = w.stored? m from rfl]
  -- null and results of other kinds count as nothing
  split
  · next id stored =>
      have missing : w.graphs[id]? = none := by simpa [Workspace.kept?, stored] using nothing
      rw [Steps.on_bind, Steps.on_get]
      simp only [missing]
      exact fresh
  · exact fresh
  · next d other stored => exact absurd (plain d stored) other
  · exact fresh

theorem on_graphToJoin (tidy : w.Tidy ms) (member : m ∈ ms) (body : w.program.body? m = some b)
    (fits : ∀ id, ∃ c, Cfg.build id b = .ok c) :
    ∃ c w', (graphToJoin m).on w = (.ok (m, some c), w') ∧ w.Keeps w' ∧ w'.Tidy ms ∧ w'.kept? m = some c := by
  have passed {c : Cfg} {w' : Workspace} (asked : (keptGraph m).on w = (.ok (.ok c), w')) :
      (graphToJoin m).on w = (.ok (m, some c), w') := by
    rw [graphToJoin, Steps.on_bind, asked]
    rfl
  cases kept : w.kept? m with
  | some c => exact ⟨c, w, passed (on_keptGraph_of_kept kept), .refl w, tidy, kept⟩
  | none =>
      obtain ⟨c, built⟩ := fits w.graphs.length
      have number : c.id = w.graphs.length := by
        obtain ⟨-, rfl⟩ := Cfg.build_ok_iff.mp built
        rfl
      exact ⟨c, w.keeping m c, passed (on_keptGraph_of_none kept (tidy.plain m member) body built),
        Workspace.keeps_keeping kept, tidy.keeping number body (.built built), Workspace.kept?_keeping_self number⟩

theorem flow_eq {c : Cfg} (kept : w.kept? m = some c) : w.flow m = c := by rw [Workspace.flow, kept, Option.getD_some]

theorem on_mapM_graphToJoin (tidy : w.Tidy ms) {todo : List MethodRef} (among : ∀ m ∈ todo, m ∈ ms)
    (fits : ∀ m ∈ todo, ∃ b, w.program.body? m = some b ∧ ∀ id, ∃ c, Cfg.build id b = .ok c) :
    ∃ w', (todo.mapM graphToJoin).on w = (.ok (todo.map fun m => (m, some (w'.flow m))), w') ∧ w.Keeps w' ∧
      w'.Tidy ms ∧ ∀ m ∈ todo, w'.kept? m = some (w'.flow m) := by
  induction todo generalizing w with
  | nil => exact ⟨w, rfl, .refl w, tidy, by simp⟩
  | cons head tail ih =>
      obtain ⟨b, body, buildable⟩ := fits head List.mem_cons_self
      obtain ⟨c, between, first, keeps, tidy', kept⟩ := on_graphToJoin tidy (among head List.mem_cons_self) body buildable
      obtain ⟨w', rest, keeps', tidy'', each⟩ := ih tidy' (fun m member => among m (List.mem_cons_of_mem _ member))
        (fun m member => by rw [keeps.program]; exact fits m (List.mem_cons_of_mem _ member))
      -- the graph of the first is still kept when those of the others have been asked for
      have still := keeps'.kept head c kept
      refine ⟨w', ?_, keeps.trans keeps', tidy'', ?_⟩
      · rw [List.mapM_cons, Steps.on_bind, first]
        simp only [Steps.on_bind, rest]
        rw [List.map_cons, flow_eq still]
        rfl
      · intro m member
        rcases List.mem_cons.mp member with rfl | member
        · rw [flow_eq still, still]
        · exact each m member

theorem on_join {id : Nat} {g : CallGraph} {i : Icfg} {w' : Workspace} {flow : MethodRef → Cfg}
    (found : w.callGraphs[id]? = some g)
    (asked : ((g.bodied w.program).mapM graphToJoin).on w =
      (.ok ((g.bodied w.program).map fun m => (m, some (flow m))), w'))
    (same : w'.program = w.program) (built : Icfg.build w.program g (g.graphs w.program flow) = .ok i) :
    (join id).on w = (.ok ⟨i, id⟩, { w' with log := w'.log ++ [⟨.debug, "interproc_analysis", i.described⟩] }) := by
  have built' : Icfg.build w'.program g (g.graphs w.program flow) = .ok i := by
    rw [same]
    exact built
  have all : ((g.bodied w.program).map fun m => (m, some (flow m))).filterMap (fun k => k.2.map (k.1, ·)) =
      (g.bodied w.program).map fun m => (m, flow m) := by
    rw [List.filterMap_map, ← List.filterMap_eq_map]
    rfl
  have none_missing : ((g.bodied w.program).map fun m => (m, some (flow m))).any (·.2.isNone) = false := by
    simp
  rw [join, Steps.on_bind, CallGraph.on_callGraph found]
  simp only [Steps.on_bind, Steps.on_get]
  rw [show g.reachable.toList.filter w.program.hasBody = g.bodied w.program from rfl, asked]
  simp only [none_missing, all, Bool.false_eq_true, if_false, Steps.on_bind, Steps.on_get, Steps.on_lift]
  rw [show OrderedMap.ofList ((g.bodied w.program).map fun m => (m, flow m)) = g.graphs w.program flow from rfl, built']
  rfl

/-- Joining the graphs of methods along a call graph succeeds if the reachable bodies are finished by their own
instructions and no jump is left open, and it gives what the graphs and the call graph compose to. -/
theorem join_composed {Past : Program → Prop} {id : Nat} {g : CallGraph} (found : w.callGraphs[id]? = some g)
    (made : g.Made Past) (placed : ∀ q, Past q → ∀ s : CallSite, s.belongs q = true → s.belongs w.program = true)
    (finished : ∀ m ∈ g.reachable, ∀ b, w.program.body? m = some b →
      b.Finished ∧ b.method = m ∧ ∀ s ∈ b.stmts, s.aimed = true)
    (tidy : w.Tidy g.reachable.toList) :
    ∃ i w', (join id).on w = (.ok ⟨i, id⟩, w') ∧ w'.program = w.program ∧
      (∀ m ∈ g.bodied w.program, w'.kept? m = some (w'.flow m)) ∧ g.Flows w.program w'.flow ∧
      Icfg.Composed w.program g w'.flow i := by
  have fits (m : MethodRef) (member : m ∈ g.bodied w.program) :
      ∃ b, w.program.body? m = some b ∧ ∀ id, ∃ c, Cfg.build id b = .ok c := by
    obtain ⟨reachable, b, body⟩ := Icfg.mem_bodied.mp member
    obtain ⟨done, -, aimed⟩ := finished m reachable b body
    exact ⟨b, body, Cfg.exists_build aimed done.jumps_inside⟩
  obtain ⟨w', asked, keeps, tidy', each⟩ :=
    on_mapM_graphToJoin tidy (fun m member => (Icfg.mem_bodied.mp member).1) fits
  have flows : g.Flows w.program w'.flow := by
    rw [← keeps.program] at finished each ⊢
    exact tidy'.flows (fun m reachable b body => (finished m reachable b body).2.1) each
  have joined := on_join found asked keeps.program (Icfg.build_ok flows)
  exact ⟨_, _, joined, keeps.program, each, flows, Icfg.composed_join flows made placed⟩

end Session

namespace Descent

def method : MethodRef := ⟨⟨0, "Main"⟩, ⟨"descend", [.int], .int⟩⟩

def trace : MethodRef := ⟨⟨0, "Main"⟩, ⟨"trace", [.int], .int⟩⟩

def instrs : List Instr := [
  .branch .eq (.ident "n") (.int 0) "done",
  .invoke .static method ["n"] none (some "r"),
  .invoke .static trace ["r"] none none,
  .label "done",
  .ret (some "n")]

def n : Var := ⟨"n", .int, some method, 0⟩

def r : Var := ⟨"r", .int, some method, 1⟩

def body : Body where
  method := method
  this := none
  params := [n]
  stmts := [
    .branch .eq (.var n) (.lit 0) (some (.stmt 3 method)),
    .invoke ⟨.static, method, [n], none⟩ (some r),
    .invoke ⟨.static, trace, [r], none⟩ none,
    .ret (some n)]
  vars := [n, r]

set_option maxRecDepth 10000 in
theorem body_finished : body.Finished := by
  have done : (Drafting.finish.on (.ofInstrs method true ["n"] instrs)).1 = .ok body := rfl
  exact Body.finished_of_instrs done

def program : Program := ⟨[⟨⟨0, "Main"⟩, none, [], false, false,
  [⟨method.sig, true, false, none, some body⟩, ⟨trace.sig, true, false, none, none⟩]⟩]⟩

def calls : CallGraph := (CallGraph.ofEntries program none [method]).toOption.getD .empty

def workspace : Workspace := { Workspace.empty with program := program, callGraphs := [calls] }

theorem eq_of_body? {m : MethodRef} {b : Body} (reachable : m ∈ calls.reachable) (found : program.body? m = some b) :
    m = method ∧ b = body := by
  have listed : calls.reachable.toList = [method, trace] := rfl
  rw [OrderedSet.mem_iff, listed, List.mem_cons, List.mem_singleton] at reachable
  rcases reachable with rfl | rfl
  · exact ⟨rfl, (Option.some.inj found).symm⟩
  · cases found

theorem descent_joined : (body.Finished ∧ workspace.callGraphs[0]? = some calls ∧ calls.Made (· = program) ∧
      calls.edges.toList.map CallEdge.callee = [method, trace] ∧
      (calls.crossings program).map CallEdge.callee = [method]) ∧
    ∃ i w', (Session.join 0).on workspace = (.ok ⟨i, 0⟩, w') ∧ Icfg.Composed program calls w'.flow i := by
  have resolved : CallGraph.ofEntries program none [method] = .ok calls := rfl
  have made := CallGraph.made_ofEntries resolved
  have finished (m : MethodRef) (reachable : m ∈ calls.reachable) (b : Body) (found : program.body? m = some b) :
      b.Finished ∧ b.method = m ∧ ∀ s ∈ b.stmts, s.aimed = true := by
    obtain ⟨rfl, rfl⟩ := eq_of_body? reachable found
    exact ⟨body_finished, rfl, by decide⟩
  have tidy : workspace.Tidy calls.reachable.toList := {
    numbered := fun k c found => by cases found
    plain := fun m _ d stored => by cases stored
    drawn := fun m _ b _ id stored => by cases stored }
  have placed (q : Program) (past : q = program) (s : CallSite) (belongs : s.belongs q = true) :
      s.belongs program = true := past ▸ belongs
  have found : workspace.callGraphs[0]? = some calls := rfl
  obtain ⟨i, w', joined, -, -, -, composed⟩ := Session.join_composed found made placed finished tidy
  exact ⟨⟨body_finished, found, made, rfl, rfl⟩, i, w', joined, composed⟩

end Descent

end Dataflow
