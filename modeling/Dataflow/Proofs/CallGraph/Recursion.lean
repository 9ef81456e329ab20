import Dataflow.Proofs.CallGraph.Components

/-!
Recursive methods, found in two ways. A search along calls tells whether a method comes back to itself
(`mem_transitiveCallees_iff`); the components tell it by their size, or for a component of one method by a call of
itself. Both agree on all that the reachable methods reach by calls, and two methods are in one group just if each is
found from the other (`recursion_found_alike`).
-/

namespace Dataflow

namespace CallGraph
open Search (Reaches Visits)
open Relation (ReflTransGen TransGen)
variable {Past : Program → Prop} {p : Program} {g : CallGraph} {m n : MethodRef} {group : List MethodRef}

def Calls (p : Program) (g : CallGraph) (m n : MethodRef) : Prop := ∃ e ∈ g.edges, e.site ∈ p.sites m ∧ e.callee = n

theorem Indexed.calls_eq (indexed : g.Indexed) (p : Program) : (fun m n => n ∈ g.callees p m) = g.Calls p := by
  funext m n
  simp only [Calls, callees, OrderedSet.mem_distinct, List.mem_flatMap, calleesOf, List.mem_map, indexed _,
    List.mem_filter, decide_eq_true_eq, OrderedSet.mem_iff]
  refine propext ⟨?_, ?_⟩
  · rintro ⟨s, site, e, ⟨edge, rfl⟩, rfl⟩
    exact ⟨e, edge, site, rfl⟩
  · rintro ⟨e, edge, site, rfl⟩
    exact ⟨e.site, site, e, ⟨edge, rfl⟩, rfl⟩

/-! ## The search -/

theorem Made.callee_listed (made : g.Made Past) (called : n ∈ g.callees p m) :
    n ∈ g.edges.toList.map CallEdge.callee := by
  obtain ⟨e, edge, rfl⟩ := made.edge_of_callee called
  exact List.mem_map_of_mem edge

theorem Made.visits_transitiveCallees (made : g.Made Past) (p : Program) (m : MethodRef) :
    Visits (g.callees p) (g.callees p m) [] (g.transitiveCallees p m) :=
  Search.visits_reach (fun _ _ _ called => made.callee_listed called) fun _ called => made.callee_listed called

theorem Made.mem_transitiveCallees_iff (made : g.Made Past) :
    n ∈ g.transitiveCallees p m ↔ TransGen (g.Calls p) m n := by
  rw [transitiveCallees, Search.mem_reach_iff (fun _ _ _ called => made.callee_listed called) fun _ called =>
    made.callee_listed called, ← made.indexed.calls_eq p, Relation.TransGen.head'_iff]

/-! ## The groups -/

theorem Made.mem_recursiveGroups_iff (made : g.Made Past) (grouped : group ∈ g.components p) (member : m ∈ group) :
    group ∈ g.recursiveGroups p ↔ TransGen (g.Calls p) m m := by
  obtain ⟨once, -, layered⟩ := made.layered p
  have together (n : MethodRef) : n ∈ group ↔ Reaches (g.callees p) m n ∧ Reaches (g.callees p) n m :=
    layered.mem_group_iff once grouped member
  rw [← made.indexed.calls_eq p, recursiveGroups, List.mem_filter, and_iff_right grouped]
  rcases group with _ | ⟨first, _ | ⟨second, others⟩⟩
  · cases member
  · obtain rfl := List.mem_singleton.mp member
    rw [decide_eq_true_iff]
    constructor
    · exact fun called => .single called
    · intro back
      -- the first method on the way back is in the group, so that it is the method itself
      obtain ⟨next, called, reaches⟩ := TransGen.head'_iff.mp back
      have same : next ∈ [m] := (together next).mpr ⟨.single called, reaches⟩
      rwa [List.mem_singleton.mp same] at called
  · refine ⟨fun _ => ?_, fun _ => rfl⟩
    have distinct : (first :: second :: others).Nodup := (List.nodup_flatten.mp once).1 _ grouped
    -- there is another method in the group, and the way there and back is one of at least two calls
    obtain ⟨other, inside, apart⟩ : ∃ other ∈ first :: second :: others, other ≠ m := by
      by_cases here : first = m
      · exact ⟨second, by simp, fun same => by simp [here, same] at distinct⟩
      · exact ⟨first, by simp, here⟩
    obtain ⟨forth, back⟩ := (together other).mp inside
    rcases Relation.reflTransGen_iff_eq_or_transGen.mp forth with same | forth
    · exact absurd same apart
    · exact forth.trans_left back

theorem Made.mem_group_of_recursive (made : g.Made Past) (found : ∃ r ∈ g.reachable, ReflTransGen (g.Calls p) r m)
    (recursive : TransGen (g.Calls p) m m) : ∃ group ∈ g.recursiveGroups p, m ∈ group := by
  obtain ⟨-, covers, -⟩ := made.layered p
  rw [← made.indexed.calls_eq p] at found
  obtain ⟨group, grouped, member⟩ := List.mem_flatten.mp ((covers m).mpr found)
  exact ⟨group, (made.mem_recursiveGroups_iff grouped member).mpr recursive, member⟩

theorem Made.mem_group_iff (made : g.Made Past) (grouped : group ∈ g.recursiveGroups p) (member : m ∈ group) :
    n ∈ group ↔ TransGen (g.Calls p) m n ∧ TransGen (g.Calls p) n m := by
  obtain ⟨once, -, layered⟩ := made.layered p
  have component : group ∈ g.components p := (List.mem_filter.mp grouped).1
  have recursive := (made.mem_recursiveGroups_iff component member).mp grouped
  rw [layered.mem_group_iff once component member, Reaches, made.indexed.calls_eq p]
  constructor
  · rintro ⟨forth, back⟩
    exact ⟨recursive.trans_left forth, .trans_right back recursive⟩
  · rintro ⟨forth, back⟩
    exact ⟨forth.to_reflTransGen, back.to_reflTransGen⟩

/-- The search along calls ends and finds each method that is reached by one or more calls once. It comes back to its
start just if the components have the start in a recursive group, whose methods are those that find each other. -/
theorem recursion_found_alike (made : g.Made Past) (p : Program) :
    (∀ m, Visits (g.callees p) (g.callees p m) [] (g.transitiveCallees p m) ∧ (g.transitiveCallees p m).Nodup ∧
      ∀ n, n ∈ g.transitiveCallees p m ↔ TransGen (g.Calls p) m n) ∧
    ∀ m, (∃ r ∈ g.reachable, ReflTransGen (g.Calls p) r m) →
      (g.isRecursive p m = true ↔ ∃ group ∈ g.recursiveGroups p, m ∈ group) ∧
      ∀ n, (∃ group ∈ g.recursiveGroups p, m ∈ group ∧ n ∈ group) ↔
        n ∈ g.transitiveCallees p m ∧ m ∈ g.transitiveCallees p n := by
  refine ⟨fun m => ⟨made.visits_transitiveCallees p m, Search.reach_nodup _ _ _, fun n =>
    made.mem_transitiveCallees_iff⟩, fun m found => ⟨?_, fun n => ?_⟩⟩
  · rw [isRecursive, decide_eq_true_iff, made.mem_transitiveCallees_iff]
    constructor
    · exact made.mem_group_of_recursive found
    · rintro ⟨group, grouped, member⟩
      exact ((made.mem_group_iff grouped member).mp member).1
  · rw [made.mem_transitiveCallees_iff, made.mem_transitiveCallees_iff]
    constructor
    · rintro ⟨group, grouped, member, other⟩
      exact (made.mem_group_iff grouped member).mp other
    · rintro ⟨forth, back⟩
      obtain ⟨group, grouped, member⟩ := made.mem_group_of_recursive found (forth.trans back)
      exact ⟨group, grouped, member, (made.mem_group_iff grouped member).mpr ⟨forth, back⟩⟩

end CallGraph

theorem Shapes.recursion_calls : (calls.Made (· = program) ∧
      ∀ m ∈ [grow, ⟨tile, area⟩], ∃ r ∈ calls.reachable, Relation.ReflTransGen (calls.Calls program) r m) ∧
    calls.recursiveGroups program = [[⟨square, area⟩, grow]] ∧
    calls.isRecursive program grow = true ∧ calls.isRecursive program ⟨tile, area⟩ = false ∧
    ⟨square, area⟩ ∈ calls.transitiveCallees program grow ∧ grow ∈ calls.transitiveCallees program ⟨square, area⟩ := by
  have made := CallGraph.made_ofEntries ofEntries_grow
  have groups : calls.recursiveGroups program = [[⟨square, area⟩, grow]] := rfl
  have reached : ∀ m ∈ [grow, ⟨tile, area⟩], ∃ r ∈ calls.reachable,
      Relation.ReflTransGen (calls.Calls program) r m := fun m member => ⟨m, by revert m; decide +kernel, .refl⟩
  obtain ⟨-, alike⟩ := CallGraph.recursion_found_alike made program
  obtain ⟨recursive, together⟩ := alike grow (reached grow (by simp))
  obtain ⟨idle, -⟩ := alike ⟨tile, area⟩ (reached _ (by simp))
  rw [groups] at recursive together idle
  have alone : calls.isRecursive program ⟨tile, area⟩ ≠ true := by
    rw [ne_eq, idle]
    decide +kernel
  exact ⟨⟨made, reached⟩, groups, recursive.mpr ⟨_, List.mem_singleton_self _, by simp⟩, by simpa using alone,
    (together ⟨square, area⟩).mp ⟨_, List.mem_singleton_self _, by simp, by simp⟩⟩

end Dataflow
