import Dataflow.Proofs.CallGraph.Building
import Dataflow.Proofs.Data.Components

/-!
The strongly connected components of a call graph, however it was made. What is called is the callee of an edge, so
the search for components goes no deeper than there are reachable methods and edges, and finds all of them in order
(`components_exact`).
-/

namespace Dataflow

namespace CallGraph
open Search (Reaches)
variable {Past : Program → Prop} {p : Program} {g : CallGraph} {m n : MethodRef}

theorem Made.edge_of_callee (made : g.Made Past) (called : n ∈ g.callees p m) : ∃ e ∈ g.edges, e.callee = n := by
  obtain ⟨s, -, called⟩ := List.mem_flatMap.mp (OrderedSet.mem_distinct.mp called)
  obtain ⟨e, listed, rfl⟩ := List.mem_map.mp called
  rw [made.indexed s] at listed
  exact ⟨e, (List.mem_filter.mp listed).1, rfl⟩

theorem Made.layered (made : g.Made Past) (p : Program) :
    (g.components p).flatten.Nodup ∧
      (∀ m, m ∈ (g.components p).flatten ↔ ∃ r ∈ g.reachable.toList, Reaches (g.callees p) r m) ∧
      Components.Layered (g.callees p) (g.components p) := by
  have covers : ∀ r ∈ g.reachable.toList, ∀ m, Reaches (g.callees p) r m →
      m ∈ g.reachable.toList ++ g.edges.toList.map CallEdge.callee := by
    intro r root m reaches
    rcases reaches.cases_tail with same | ⟨last, -, called⟩
    · exact List.mem_append_left _ (same ▸ root)
    · obtain ⟨e, edge, rfl⟩ := made.edge_of_callee called
      exact List.mem_append_right _ (List.mem_map_of_mem edge)
  refine Components.of_layered covers ?_
  rw [List.length_append, List.length_map]
  exact Nat.le_succ _

theorem reaches_reachable {h : Option Hierarchy} {entries : List MethodRef} (built : ofEntries p h entries = .ok g)
    (reachable : m ∈ g.reachable) (reaches : Reaches (g.callees p) m n) : n ∈ g.reachable := by
  rcases reaches.cases_tail with rfl | ⟨last, -, called⟩
  · exact reachable
  · obtain ⟨e, edge, rfl⟩ := (made_ofEntries built).edge_of_callee called
    exact (closed_of_ofEntries built).callees e edge

theorem Made.callee_first (made : g.Made Past) (member : m ∈ g.bottomUp p) (called : n ∈ g.callees p m)
    (apart : ¬ Reaches (g.callees p) n m) : [n, m].Sublist (g.bottomUp p) := by
  obtain ⟨once, -, layered⟩ := made.layered p
  obtain ⟨group, grouped, inside⟩ := List.mem_flatten.mp member
  obtain ⟨earlier, later, split⟩ := List.append_of_mem grouped
  have outside : n ∉ group := fun other => apart ((layered.mem_group_iff once grouped inside).mp other).2
  have before := ((layered earlier group later split).closed m inside n called).resolve_left outside
  rw [bottomUp, split, List.flatten_append, List.flatten_cons]
  exact (List.singleton_sublist.mpr before).append
    ((List.singleton_sublist.mpr inside).trans (List.sublist_append_left _ _))

/-- The components hold all that the reachable methods reach by calls, each method once, together with the methods that
it reaches and is reached from, and come after the components of what their methods call; so callees come before
callers in the bottom-up order, unless they reach back. -/
theorem components_exact (made : g.Made Past) (p : Program) :
    (g.components p).flatten.Nodup ∧
    (∀ m, m ∈ (g.components p).flatten ↔ ∃ r ∈ g.reachable, Reaches (g.callees p) r m) ∧
    (∀ h entries, ofEntries p h entries = .ok g → ∀ m, m ∈ (g.components p).flatten ↔ m ∈ g.reachable) ∧
    (∀ group ∈ g.components p, group ≠ [] ∧ ∀ m ∈ group, ∀ n,
      n ∈ group ↔ Reaches (g.callees p) m n ∧ Reaches (g.callees p) n m) ∧
    (∀ earlier group later, g.components p = earlier ++ group :: later → ∀ m ∈ group, ∀ n ∈ g.callees p m,
      n ∉ group → ∃ other ∈ earlier, n ∈ other) ∧
    (g.bottomUp p).Nodup ∧
    (∀ m, m ∈ g.bottomUp p ↔ ∃ r ∈ g.reachable, Reaches (g.callees p) r m) ∧
    (∀ m ∈ g.bottomUp p, ∀ n ∈ g.callees p m, ¬ Reaches (g.callees p) n m → [n, m].Sublist (g.bottomUp p)) := by
  obtain ⟨once, covers, layered⟩ := made.layered p
  refine ⟨once, covers, fun h entries built m => ?_, fun group grouped => ⟨?_, fun m member n => ?_⟩, ?_, once, covers,
    fun m member n called apart => made.callee_first member called apart⟩
  · rw [covers]
    constructor
    · rintro ⟨r, root, reaches⟩
      exact reaches_reachable built root reaches
    · exact fun reachable => ⟨m, reachable, .refl⟩
  · obtain ⟨earlier, later, split⟩ := List.append_of_mem grouped
    exact (layered earlier group later split).nonempty
  · exact layered.mem_group_iff once grouped member
  · intro earlier group later split m member n called outside
    have before := ((layered earlier group later split).closed m member n called).resolve_left outside
    exact List.mem_flatten.mp before

end CallGraph

theorem Shapes.components_calls : calls.Made (· = program) ∧
    calls.components program = [[⟨tile, area⟩], [⟨square, area⟩, grow]] ∧
    (∀ m, m ∈ (calls.components program).flatten ↔ m ∈ calls.reachable) ∧
    (∀ n, n ∈ [⟨square, area⟩, grow] ↔
      Search.Reaches (calls.callees program) grow n ∧ Search.Reaches (calls.callees program) n grow) ∧
    [⟨tile, area⟩, grow].Sublist (calls.bottomUp program) := by
  have made := CallGraph.made_ofEntries ofEntries_grow
  have groups : calls.components program = [[⟨tile, area⟩], [⟨square, area⟩, grow]] := rfl
  obtain ⟨-, -, reachable, grouped, -, -, -, order⟩ := CallGraph.components_exact made program
  rw [groups] at grouped
  have together := (grouped [⟨square, area⟩, grow] (by simp)).2 grow (by simp)
  have calls_tile : ⟨tile, area⟩ ∈ calls.callees program grow := by decide +kernel
  refine ⟨made, groups, reachable _ _ ofEntries_grow, together, ?_⟩
  refine order grow (by decide +kernel) _ calls_tile fun back => ?_
  have other : (⟨tile, area⟩ : MethodRef) ∉ [⟨square, area⟩, grow] := by decide
  exact other ((together _).mpr ⟨.single calls_tile, back⟩)

end Dataflow
