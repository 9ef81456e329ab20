import Dataflow.Proofs.Data.Lists
import Dataflow.Proofs.Icfg.Composition

/-!
The rules by which control flow graphs are drawn. Each node has the edges that its statement says, in order (`Leaves`),
and each edge is listed once where it enters (`Depicts`). A body has such a graph if its jumps lead to statements of its
own, and has none if a jump leads elsewhere or nowhere (`graph_follows_rules`).
-/

namespace Dataflow

def Stmt.plain : Stmt → Bool
  | .assign _ _ | .invoke _ _ | .nop _ => true
  | .branch _ _ _ _ | .goto _ | .switch _ _ _ | .ret _ => false

theorem Stmt.aimed_of_ways {s : Stmt} {next exit : Node}
    (told : ∀ way ∈ s.ways next exit, ∃ target, way.2.2 = some target) : s.aimed = true := by
  simp only [← Option.isSome_iff_exists] at told
  cases s with
  | branch op left right target => exact told _ List.mem_cons_self
  | goto target => exact told _ List.mem_cons_self
  | switch v cases otherwise =>
      rw [aimed, Bool.and_eq_true, List.all_eq_true]
      constructor
      · intro c member
        exact told (.switchCase, some c.1, c.2) (List.mem_append_left _ (List.mem_map.mpr ⟨c, member, rfl⟩))
      · exact told (.switchDefault, none, otherwise) (List.mem_append_right _ List.mem_cons_self)
  | _ => rfl

theorem Stmt.way_of_jump {s : Stmt} {next exit n : Node} (jump : n ∈ s.jumps) :
    ∃ kind value, (kind, value, some n) ∈ s.ways next exit := by
  cases s with
  | branch op left right target =>
      obtain rfl := Option.mem_toList.mp jump
      exact ⟨_, _, List.mem_cons_self⟩
  | goto target =>
      obtain rfl := Option.mem_toList.mp jump
      exact ⟨_, _, List.mem_cons_self⟩
  | switch v cases otherwise =>
      rcases List.mem_append.mp jump with listed | default
      · obtain ⟨c, member, leads⟩ := List.mem_filterMap.mp listed
        exact ⟨_, _, List.mem_append_left _ (List.mem_map.mpr ⟨c, member, by rw [leads]⟩)⟩
      · obtain rfl := Option.mem_toList.mp default
        exact ⟨_, _, List.mem_append_right _ List.mem_cons_self⟩
  | _ => cases jump

namespace Body

def behind (b : Body) (exit : Node) (pos : Nat) : Node :=
  if pos + 1 < b.stmts.length then .stmt (pos + 1) b.method else exit

def JumpsInside (b : Body) : Prop :=
  ∀ s ∈ b.stmts, s.aimed = true ∧ ∀ n ∈ s.jumps, ∃ pos < b.stmts.length, n = .stmt pos b.method

def JumpsAstray (b : Body) : Prop :=
  ∃ s ∈ b.stmts, s.aimed = false ∨ ∃ n ∈ s.jumps, ∀ pos < b.stmts.length, n ≠ .stmt pos b.method

instance (b : Body) : Decidable b.JumpsInside := inferInstanceAs (Decidable (∀ s ∈ b.stmts,
  s.aimed = true ∧ ∀ n ∈ s.jumps, ∃ pos < b.stmts.length, n = .stmt pos b.method))

theorem jumpsAstray_iff {b : Body} : b.JumpsAstray ↔ ¬ b.JumpsInside := by
  simp only [JumpsAstray, JumpsInside, not_forall, not_and_or, Bool.not_eq_true, not_exists, exists_prop, ne_eq]
  simp only [imp_iff_not_or]

theorem JumpsInside.exists_build {b : Body} (inside : b.JumpsInside) (id : Nat) : ∃ g, Cfg.build id b = .ok g :=
  Cfg.exists_build (fun s member => (inside s member).1) (fun s member => (inside s member).2) id

end Body

namespace Cfg

inductive Leaves (b : Body) (g : Cfg) : Node → List (EdgeKind × Node × Option Int) → Prop where
  | entry : b.stmts ≠ [] → Leaves b g g.entry [(.entry, .stmt 0 b.method, none)]
  | through : b.stmts = [] → Leaves b g g.entry [(.entry, g.exit, none)]
  | branch {pos : Nat} {op : BinOp} {left right : Exp} {target : Node} :
      b.stmts[pos]? = some (.branch op left right (some target)) →
      Leaves b g (.stmt pos b.method) [(.ifTrue, target, none), (.ifFalse, b.behind g.exit pos, none)]
  | goto {pos : Nat} {target : Node} : b.stmts[pos]? = some (.goto (some target)) →
      Leaves b g (.stmt pos b.method) [(.goto, target, none)]
  | switch {pos : Nat} {v : Var} {cases : List (Int × Node)} {otherwise : Node} :
      b.stmts[pos]? = some (.switch v (cases.map fun c => (c.1, some c.2)) (some otherwise)) →
      Leaves b g (.stmt pos b.method)
        (cases.map (fun c => (.switchCase, c.2, some c.1)) ++ [(.switchDefault, otherwise, none)])
  | ret {pos : Nat} {value : Option Var} : b.stmts[pos]? = some (.ret value) →
      Leaves b g (.stmt pos b.method) [(.ret, g.exit, none)]
  | onward {pos : Nat} {s : Stmt} : b.stmts[pos]? = some s → s.plain = true →
      Leaves b g (.stmt pos b.method) [(.fallThrough, b.behind g.exit pos, none)]
  | exit : Leaves b g g.exit []

structure Depicts (b : Body) (g : Cfg) : Prop where
  nodes : g.nodes = g.entry :: (List.range b.stmts.length).map (.stmt · b.method) ++ [g.exit]
  leaves : ∀ n ∈ g.nodes, Leaves b g n ((g.outEdges n).map fun e => (e.kind, e.target, e.caseValue))
  inside : ∀ e ∈ g.edges, e.source ∈ g.nodes ∧ e.target ∈ g.nodes
  enters : ∀ n, g.inEdges n = g.edges.filter (·.target = n)
  first : g.inEdges g.entry = []
  onward : ∀ n ∈ g.nodes, n ≠ g.exit → g.succs n ≠ []
  predsOnce : ∀ n, (g.preds n).Nodup
  succsOnce : ∀ n, (g.succs n).Nodup
  converse : ∀ n m, n ∈ g.preds m ↔ m ∈ g.succs n

/-! ## Out-edges -/

theorem exists_targets {cases : List (Int × Option Node)} (told : ∀ c ∈ cases, ∃ target, c.2 = some target) :
    ∃ targets : List (Int × Node), cases = targets.map fun c => (c.1, some c.2) := by
  induction cases with
  | nil => exact ⟨[], rfl⟩
  | cons head tail ih =>
      obtain ⟨⟨target, first⟩, others⟩ := List.forall_mem_cons.mp told
      obtain ⟨targets, rest⟩ := ih others
      exact ⟨(head.1, target) :: targets, by rw [List.map_cons, ← rest, ← first]⟩

def edgesAt (g : Cfg) (b : Body) (pos : Nat) : List Edge := (b.stmts[pos]?.map fun s => g.stmtEdges (s, pos)).getD []

theorem mem_edgesAt {g : Cfg} {b : Body} {pos : Nat} {e : Edge} :
    e ∈ g.edgesAt b pos ↔ ∃ s, b.stmts[pos]? = some s ∧ e ∈ g.stmtEdges (s, pos) := by
  cases here : b.stmts[pos]? <;> simp [edgesAt, here]

section Built
variable {id : Nat} {b : Body} {g : Cfg}

theorem outgoing_eq (built : build id b = .ok g) :
    g.outgoing = g.entryEdge :: (List.range b.stmts.length).flatMap (g.edgesAt b) := by
  obtain ⟨-, rfl⟩ := build_ok_iff.mp built
  exact congrArg _ (Lists.flatMap_zipIdx _ _)

theorem outEdges_node (built : build id b = .ok g) (pos : Nat) : g.outEdges (g.node pos) = g.edgesAt b pos := by
  have own (i : Nat) (e : Edge) (member : e ∈ g.edgesAt b i) : decide (e.source = g.node pos) = true ↔ i = pos := by
    obtain ⟨s, -, member⟩ := mem_edgesAt.mp member
    simp [source_of_mem_stmtEdges member, node]
  have apart : g.entryEdge.source ≠ g.node pos := by simp [entryEdge, entry, node]
  rw [outEdges, outgoing_eq built, List.filter_cons_of_neg (by simpa using apart),
    filter_flatMap_eq List.nodup_range own]
  split
  · rfl
  · next outside => simp [edgesAt, List.getElem?_eq_none (Nat.le_of_not_lt (mt List.mem_range.mpr outside))]

theorem outEdges_entry (built : build id b = .ok g) : g.outEdges g.entry = [g.entryEdge] := by
  have others (e : Edge) (member : e ∈ (List.range b.stmts.length).flatMap (g.edgesAt b)) : e.source ≠ g.entry := by
    obtain ⟨pos, -, member⟩ := List.mem_flatMap.mp member
    obtain ⟨s, -, member⟩ := mem_edgesAt.mp member
    simp [source_of_mem_stmtEdges member, node, entry]
  rw [outEdges, outgoing_eq built, List.filter_cons_of_pos (by simp [entryEdge]),
    List.filter_eq_nil_iff.mpr fun e member => by simpa using others e member]

theorem edges_eq (built : build id b = .ok g) : g.edges = g.outgoing := by
  rw [edges, nodes, List.flatMap_append, List.flatMap_cons, List.flatMap_map, outEdges_entry built,
    (Drawn.built built).shape.2, outgoing_eq built]
  simp [outEdges_node built, outEdges_exit built]

theorem nodeOrExit_succ (built : build id b = .ok g) (pos : Nat) : g.nodeOrExit (pos + 1) = b.behind g.exit pos := by
  obtain ⟨method, size⟩ := (Drawn.built built).shape
  rw [nodeOrExit, node, Body.behind, method, size]

theorem leaves_stmt (built : build id b = .ok g) {pos : Nat} {s : Stmt} (here : b.stmts[pos]? = some s) :
    Leaves b g (.stmt pos b.method) ((g.stmtEdges (s, pos)).map fun e => (e.kind, e.target, e.caseValue)) := by
  have resolved := (Drawn.built built).resolved (s, pos) (List.mem_zipIdx_iff_getElem?.mpr here)
  have told (way) (member : way ∈ s.ways (g.nodeOrExit (pos + 1)) g.exit) : ∃ target, way.2.2 = some target := by
    obtain ⟨target, leads, -⟩ := resolved way member
    exact ⟨target, leads⟩
  simp only [stmtEdges, waysAt, wayEdge, nodeOrExit_succ built, ← List.filterMap_eq_flatMap_toList,
    List.map_filterMap] at told ⊢
  cases s with
  | branch op left right target =>
      obtain ⟨target, rfl⟩ := told (.ifTrue, none, target) List.mem_cons_self
      exact .branch here
  | goto target =>
      obtain ⟨target, rfl⟩ := told (.goto, none, target) List.mem_cons_self
      exact .goto here
  | switch v cases otherwise =>
      obtain ⟨otherwise, rfl⟩ := told (.switchDefault, none, otherwise) (List.mem_append_right _ (by simp))
      obtain ⟨cases, rfl⟩ := exists_targets fun c member =>
        told (.switchCase, some c.1, c.2) (List.mem_append_left _ (List.mem_map.mpr ⟨c, member, rfl⟩))
      simpa [Stmt.ways] using Leaves.switch here
  | ret value => exact .ret here
  | assign => exact .onward here rfl
  | invoke => exact .onward here rfl
  | nop => exact .onward here rfl

theorem leaves_outEdges (built : build id b = .ok g) {n : Node} (inside : n ∈ g.nodes) :
    Leaves b g n ((g.outEdges n).map fun e => (e.kind, e.target, e.caseValue)) := by
  obtain ⟨method, size⟩ := (Drawn.built built).shape
  rw [nodes, List.mem_append, List.mem_cons, List.mem_map, List.mem_singleton, size] at inside
  rcases inside with (rfl | ⟨pos, bound, rfl⟩) | rfl
  · rw [outEdges_entry built]
    by_cases empty : b.stmts = []
    · simpa [entryEdge, nodeOrExit, size, empty] using Leaves.through empty
    · simpa [entryEdge, nodeOrExit, size, List.length_pos_iff, empty, node, method] using Leaves.entry empty
  · obtain ⟨s, here⟩ : ∃ s, b.stmts[pos]? = some s := ⟨_, List.getElem?_eq_getElem (List.mem_range.mp bound)⟩
    have own : g.outEdges (g.node pos) = g.stmtEdges (s, pos) := by
      rw [outEdges_node built, edgesAt, here]
      rfl
    rw [own, node, method]
    exact leaves_stmt built here
  · rw [outEdges_exit built]
    exact .exit

theorem Leaves.ne_nil {n : Node} {ways : List (EdgeKind × Node × Option Int)} (leaves : Leaves b g n ways)
    (other : n ≠ g.exit) : ways ≠ [] := by
  cases leaves with
  | exit => exact absurd rfl other
  | _ => simp

theorem depicts_of_build (built : build id b = .ok g) (inside : b.JumpsInside) : Depicts b g where
  nodes := by
    obtain ⟨method, size⟩ := (Drawn.built built).shape
    rw [Cfg.nodes, size, ← method]
    rfl
  leaves n := leaves_outEdges built
  inside e edge := by
    have mirrored := (Drawn.built built).mirrored
    rw [mem_nodes, mem_nodes]
    exact mirrored.inside e (mirrored.mem_edges_iff.mp edge)
  enters n := by rw [inEdges, (Drawn.built built).mirrored.alike, edges_eq built]
  first := by
    have rooted : g.Rooted := rooted_of_jumpWithin built fun s member n jump => by
      obtain ⟨pos, -, here⟩ := (inside s member).2 n jump
      exact ⟨pos, here⟩
    refine List.filter_eq_nil_iff.mpr fun e edge enters => ?_
    rw [(Drawn.built built).mirrored.alike] at edge
    exact rooted e edge (of_decide_eq_true enters)
  onward n member other := by
    have some := (leaves_outEdges built member).ne_nil other
    obtain ⟨e, edge⟩ := List.exists_mem_of_ne_nil _ (mt (congrArg _) some)
    have next : e.target ∈ g.succs n := OrderedSet.mem_distinct.mpr (List.mem_map_of_mem edge)
    exact List.ne_nil_of_mem next
  predsOnce n := OrderedSet.distinct_nodup _
  succsOnce n := OrderedSet.distinct_nodup _
  converse n m := (Drawn.built built).mirrored.mem_preds_iff

/-! ## Bodies without a graph -/

theorem jumpsInside_of_build (fresh : ∀ s ∈ b.stmts, .entry id ∉ s.jumps ∧ .exit id ∉ s.jumps)
    (built : build id b = .ok g) : b.JumpsInside := by
  obtain ⟨resolved, -⟩ := build_ok_iff.mp built
  intro s member
  obtain ⟨pos, here⟩ := List.mem_iff_getElem?.mp member
  have leads := resolved (s, pos) (List.mem_zipIdx_iff_getElem?.mpr here)
  constructor
  · have told (way) (member : way ∈ (bare id b.method b.stmts.length).waysAt (s, pos)) :
        ∃ target, way.2.2 = some target := by
      obtain ⟨target, told, -⟩ := leads way member
      exact ⟨target, told⟩
    exact Stmt.aimed_of_ways told
  · intro n jump
    obtain ⟨kind, value, way⟩ := Stmt.way_of_jump jump
    obtain ⟨target, same, inside⟩ := leads _ way
    obtain rfl := Option.some.inj same
    cases n with
    | entry number =>
        obtain rfl : number = id := of_decide_eq_true inside
        exact absurd jump (fresh s member).1
    | exit number =>
        obtain rfl : number = id := of_decide_eq_true inside
        exact absurd jump (fresh s member).2
    | stray stamp => cases inside
    | stmt pos method =>
        obtain ⟨same, bound⟩ := (Bool.and_eq_true _ _).mp inside
        exact ⟨pos, of_decide_eq_true bound, congrArg _ (of_decide_eq_true same)⟩

end Built

end Cfg

namespace Session
variable {w : Workspace} {m : MethodRef} {b : Body}

theorem on_buildGraph_error (body : w.program.body? m = some b) {fault : Cfg.Fault}
    (failed : Cfg.build w.graphs.length b = .error fault) :
    ∃ error, (buildGraph m).on w = (.error error, w) ∧ error.family = .ir := by
  have found : (bodyOf m).on w = (.ok b, w) := by simp [bodyOf, Steps.on_bind, Program.body, body]
  rw [buildGraph, Steps.on_bind, found]
  simp only [Steps.on_bind, Steps.on_get, failed]
  cases fault with
  | nowhere pos => exact ⟨_, rfl, rfl⟩
  | foreign n => exact ⟨_, rfl, rfl⟩

/-- A body whose jumps lead to its own statements gets a graph that is drawn by the rules. One with a jump that leads
elsewhere or nowhere gets an error, and nothing changes; here no jump can lead to the entry or the exit of the graph,
which are yet to be made. -/
theorem graph_follows_rules (body : w.program.body? m = some b) :
    (b.JumpsInside → ∃ g w', (buildGraph m).on w = (.ok g, w') ∧ w'.graphs = w.graphs ++ [g] ∧ g.Depicts b) ∧
    ((∀ s ∈ b.stmts, .entry w.graphs.length ∉ s.jumps ∧ .exit w.graphs.length ∉ s.jumps) →
      ((∃ error, (buildGraph m).on w = (.error error, w) ∧ error.family = .ir) ↔ b.JumpsAstray)) := by
  refine ⟨fun inside => ?_, fun fresh => ⟨?_, fun astray => ?_⟩⟩
  · obtain ⟨g, built⟩ := inside.exists_build w.graphs.length
    exact ⟨g, _, on_buildGraph body built, rfl, Cfg.depicts_of_build built inside⟩
  · rintro ⟨error, failed, -⟩
    refine Body.jumpsAstray_iff.mpr fun inside => ?_
    obtain ⟨g, built⟩ := inside.exists_build w.graphs.length
    cases failed.symm.trans (on_buildGraph body built)
  · cases built : Cfg.build w.graphs.length b with
    | error fault => exact on_buildGraph_error body built
    | ok g => exact absurd (Cfg.jumpsInside_of_build fresh built) (Body.jumpsAstray_iff.mp astray)

end Session

namespace Crossing

def method : MethodRef := ⟨⟨0, "Main"⟩, ⟨"cross", [.int], .int⟩⟩

def lost : MethodRef := ⟨⟨0, "Main"⟩, ⟨"lost", [], .int⟩⟩

def p : Var := ⟨"p", .int, some method, 0⟩

def body : Body where
  method := method
  this := none
  params := [p]
  stmts := [.branch .gt (.var p) (.lit 0) (some (.stmt 1 method)),
    .switch p [(1, some (.stmt 2 method)), (1, some (.stmt 2 method))] (some (.stmt 0 method)),
    .goto (some (.stmt 2 method)),
    .nop "nop"]
  vars := [p]

def lostBody : Body := ⟨lost, none, [], [.nop "nop", .goto (some (.stmt 0 method))], []⟩

def workspace : Workspace :=
  { Workspace.empty with
    program := ⟨[⟨⟨0, "Main"⟩, none, [], false, false,
      [⟨method.sig, true, false, none, some body⟩, ⟨lost.sig, true, false, none, some lostBody⟩]⟩]⟩ }

def graph : Cfg := (Cfg.bare 0 method 4).drawAll ((Cfg.bare 0 method 4).edgesOf body)

theorem crossing_follows_rules : (workspace.program.body? method = some body ∧ body.JumpsInside) ∧
    (workspace.program.body? lost = some lostBody ∧ lostBody.JumpsAstray ∧
      ∀ s ∈ lostBody.stmts, .entry workspace.graphs.length ∉ s.jumps ∧ .exit workspace.graphs.length ∉ s.jumps) ∧
    (∃ w, (Session.buildGraph method).on workspace = (.ok graph, w)) ∧ graph.Depicts body ∧
    (graph.inEdges (.stmt 2 method)).map (fun e => (e.kind, e.source)) =
      [(.switchCase, .stmt 1 method), (.switchCase, .stmt 1 method), (.goto, .stmt 2 method)] ∧
    ∃ error, (Session.buildGraph lost).on workspace = (.error error, workspace) ∧ error.family = .ir := by
  have here : workspace.program.body? method = some body := rfl
  have there : workspace.program.body? lost = some lostBody := rfl
  have inside : body.JumpsInside := by decide
  have astray : lostBody.JumpsAstray := Body.jumpsAstray_iff.mpr (by decide)
  have fresh : ∀ s ∈ lostBody.stmts,
      .entry workspace.graphs.length ∉ s.jumps ∧ .exit workspace.graphs.length ∉ s.jumps := by decide
  obtain ⟨g, w, ran, -, depicts⟩ := (Session.graph_follows_rules here).1 inside
  have drawn := ran.symm.trans (Session.on_buildGraph (c := graph) here rfl)
  obtain rfl : g = graph := Except.ok.inj (congrArg Prod.fst drawn)
  exact ⟨⟨here, inside⟩, ⟨there, astray, fresh⟩, ⟨w, ran⟩, depicts, by decide,
    ((Session.graph_follows_rules there).2 fresh).mpr astray⟩

end Crossing

end Dataflow
