import Dataflow.Proofs.Cfg.Edges
import Dataflow.Proofs.Data.Distance

/-!
Reachability in control flow graphs. From any node of a graph the search ends, also on cycles and parallel edges, and
lists what edges lead to, each node once and the nearer ones first (`reachableFrom_breadth_first`).
-/

namespace Dataflow

namespace Cfg

inductive Path (g : Cfg) (start : Node) : Nat → Node → Prop where
  | stay : Path g start 0 start
  | along {k : Nat} {e : Edge} : Path g start k e.source → e ∈ g.edges → Path g start (k + 1) e.target

noncomputable def distance (g : Cfg) (start n : Node) : Nat := sInf {k | g.Path start k n}

/-- The nodes that edges lead to from a start, in an order in which a search that goes outward can list them. -/
structure Outward (g : Cfg) (start : Node) (order : List Node) : Prop where
  first : order.head? = some start
  once : order.Nodup
  reached : ∀ n, n ∈ order ↔ ∃ k, g.Path start k n
  nearerFirst : order.Pairwise fun n m => g.distance start n ≤ g.distance start m

variable {b : Body} {g : Cfg} {start n : Node}

theorem Mirrored.path_iff_walk (mirrored : g.Mirrored) {k : Nat} :
    g.Path start k n ↔ Search.Walk g.succs start k n := by
  constructor
  · intro path
    induction path with
    | stay => exact .stay
    | along _ edge ih => exact .step ih (mem_succs.mpr ⟨_, mirrored.mem_edges_iff.mp edge, rfl, rfl⟩)
  · intro walk
    induction walk with
    | stay => exact .stay
    | step _ after ih =>
        obtain ⟨e, edge, rfl, rfl⟩ := mem_succs.mp after
        exact .along ih (mirrored.mem_edges_iff.mpr edge)

theorem Mirrored.distance_eq (mirrored : g.Mirrored) : g.distance start n = Search.distance g.succs start n := by
  simp only [distance, Search.distance, mirrored.path_iff_walk]

theorem Mirrored.outward (mirrored : g.Mirrored) {order : List Node} (visits : Search.Visits g.succs [start] [] order)
    (once : order.Nodup) (reached : ∀ n, n ∈ order ↔ Search.Reaches g.succs start n) : g.Outward start order where
  first := visits.head?_eq
  once := once
  reached n := by simp only [reached, Search.reaches_iff_walk, mirrored.path_iff_walk]
  nearerFirst := by simpa only [mirrored.distance_eq] using visits.pairwise_distance

theorem Mirrored.succs_closed (mirrored : g.Mirrored) (start : Node) (others : List Node) :
    ∀ n ∈ start :: g.nodes ++ others, ∀ m ∈ g.succs n, m ∈ start :: g.nodes ++ others := by
  intro n _ m after
  have belongs : m ∈ g.nodes := mem_nodes.mpr (mirrored.succs_inside after).2
  exact List.mem_append_left _ (List.mem_cons_of_mem _ belongs)

theorem Mirrored.contains_of_reaches (mirrored : g.Mirrored) (inside : start ∈ g.nodes)
    (reaches : Search.Reaches g.succs start n) : g.contains n = true := by
  cases reaches with
  | refl => exact mem_nodes.mp inside
  | tail _ after => exact (mirrored.succs_inside after).2

theorem Mirrored.reachableFrom_eq (mirrored : g.Mirrored) (inside : start ∈ g.nodes) :
    g.reachableFrom start =
      .ok (Search.reach g.succs (start :: g.nodes ++ g.outgoing.map Edge.target) [start]) := by
  unfold reachableFrom
  extract_lets order
  -- Edges join nodes of the graph, so that none of what is found is unknown.
  have known : order.find? (fun n => !g.contains n) = none := by
    apply List.find?_eq_none.mpr
    intro n member
    obtain ⟨s, begins, reaches⟩ := Search.reaches_of_mem_reach member
    rw [List.mem_singleton.mp begins] at reaches
    simp [mirrored.contains_of_reaches inside reaches]
  rw [known]

/-- From every node of a graph that was built, and to which edges may have been added between its nodes, the search
ends, and gives what edges lead to, the start first, each node once, and the nearer ones before those further away. -/
theorem reachableFrom_breadth_first (drawn : g.Drawn b) (inside : start ∈ g.nodes) :
    ∃ order, g.reachableFrom start = .ok order ∧ Search.Visits g.succs [start] [] order ∧ g.Outward start order := by
  have mirrored := drawn.mirrored
  have closed := mirrored.succs_closed start (g.outgoing.map Edge.target)
  have begins : ∀ n ∈ [start], n ∈ start :: g.nodes ++ g.outgoing.map Edge.target := by simp
  have visits := Search.visits_reach closed begins
  refine ⟨_, mirrored.reachableFrom_eq inside, visits, mirrored.outward visits (Search.reach_nodup _ _ _) ?_⟩
  intro n
  rw [Search.mem_reach_iff closed begins]
  simp

end Cfg

namespace Roundabout

def method : MethodRef := ⟨⟨0, "Main"⟩, ⟨"round", [.int], .int⟩⟩

def p : Var := ⟨"p", .int, some method, 0⟩

def body : Body where
  method := method
  this := none
  params := [p]
  stmts := [.branch .gt (.var p) (.lit 0) (some (.stmt 3 method)),
    .switch p [(1, some (.stmt 3 method)), (1, some (.stmt 3 method))] (some (.stmt 0 method)),
    .goto (some (.stmt 1 method)),
    .ret none]
  vars := [p]

def graph : Cfg := (Cfg.bare 0 method 4).drawAll ((Cfg.bare 0 method 4).edgesOf body)

def again : Edge := ⟨.exit 0, .entry 0, .exceptional, none⟩

theorem round_breadth_first : (graph.drawAll [again]).Drawn body ∧ .stmt 2 method ∈ (graph.drawAll [again]).nodes ∧
    (graph.drawAll [again]).reachableFrom (.stmt 2 method) =
      .ok [.stmt 2 method, .stmt 1 method, .stmt 3 method, .stmt 0 method, .exit 0, .entry 0] ∧
    (graph.drawAll [again]).Outward (.stmt 2 method)
      [.stmt 2 method, .stmt 1 method, .stmt 3 method, .stmt 0 method, .exit 0, .entry 0] := by
  have built : Cfg.build 0 body = .ok graph := rfl
  have added : graph.addEdge again = (.ok (), graph.drawAll [again]) := rfl
  have drawn : (graph.drawAll [again]).Drawn body := .extended (.built built) added
  have inside : .stmt 2 method ∈ (graph.drawAll [again]).nodes := by decide
  have listed : (graph.drawAll [again]).reachableFrom (.stmt 2 method) =
      .ok [.stmt 2 method, .stmt 1 method, .stmt 3 method, .stmt 0 method, .exit 0, .entry 0] := by decide
  obtain ⟨order, found, -, outward⟩ := Cfg.reachableFrom_breadth_first drawn inside
  rw [listed] at found
  obtain rfl := Except.ok.inj found
  exact ⟨drawn, inside, listed, outward⟩

end Roundabout

end Dataflow
