import Dataflow.Proofs.Solver.Fixpoint
import Mathlib.Algebra.Order.BigOperators.Group.List
import Mathlib.Algebra.Order.Ring.Nat

/-!
Live variables are exactly those that some path reads before it writes them. One half holds of every fact a
run computes, since each variable in it comes with a path; the other half holds of solutions, by induction on
the path. Solving ends because the facts only grow, and only by variables that the body reads.
-/

namespace Dataflow

def Body.readsAt (b : Body) (n : Node) : List Var := ((b.stmt? n).map Stmt.uses).getD []

def Body.writesAt? (b : Body) (n : Node) : Option Var := (b.stmt? n).bind Stmt.defVar?

/-- The path from `n` on through `rest` follows edges to a node that reads `v`, and writes `v` nowhere before. -/
def Body.ReadsAlong (b : Body) (g : Cfg) (v : Var) : Node → List Node → Prop
  | n, [] => v ∈ b.readsAt n
  | n, m :: rest => b.writesAt? n ≠ some v ∧ m ∈ g.succs n ∧ b.ReadsAlong g v m rest

namespace Liveness

theorem mem_transfer {b : Body} {n : Node} {f : SetFact Var} {v : Var} :
    v ∈ transfer (b.stmt? n) f ↔ v ∈ b.readsAt n ∨ v ∈ f ∧ b.writesAt? n ≠ some v := by
  unfold transfer Body.readsAt Body.writesAt?
  cases b.stmt? n with
  | none => simp
  | some s => cases written : s.defVar? <;> simp [written, or_comm, eq_comm]

theorem mem_merged {g : Cfg} {f : Facts Node (SetFact Var)} {n : Node} {v : Var} :
    v ∈ analysis.merged g f n ↔ ∃ m ∈ g.succs n, v ∈ f.behind.getD m OrderedSet.empty := by
  rw [lawful.merged_eq]
  exact SetFact.mem_meetAll.trans (by simp [analysis, Analysis.sources])

theorem mem_computed {g : Cfg} {b : Body} {f : Facts Node (SetFact Var)} {n : Node} {v : Var} :
    v ∈ transfer (b.stmt? n) (analysis.merged g f n) ↔ v ∈ b.readsAt n ∨
      (∃ m ∈ g.succs n, v ∈ f.behind.getD m OrderedSet.empty) ∧ b.writesAt? n ≠ some v := by
  rw [mem_transfer, mem_merged]

theorem mem_behind_update {g : Cfg} {b : Body} {f : Facts Node (SetFact Var)} {n m : Node} {v : Var} :
    v ∈ (analysis.update g b n f).1.behind.getD m OrderedSet.empty ↔
      if n = m then v ∈ transfer (b.stmt? n) (analysis.merged g f n)
      else v ∈ f.behind.getD m OrderedSet.empty := by
  by_cases here : n = m
  · subst here
    rw [OrderedMap.getD, Analysis.behind_update, if_pos rfl, if_pos rfl, lawful.replace_eq, Option.getD_some]
    split
    · next same => exact OrderedSet.same_iff.mp same v
    · rfl
  · rw [if_neg here]
    exact iff_of_eq (congrArg (v ∈ ·) (Analysis.behind_update_of_ne here))

/-! ## Every fact has a reason -/

def Justified (g : Cfg) (b : Body) (f : Facts Node (SetFact Var)) : Prop :=
  ∀ n v, v ∈ f.behind.getD n OrderedSet.empty → ∃ path, b.ReadsAlong g v n path

theorem Justified.update {g : Cfg} {b : Body} {f : Facts Node (SetFact Var)} (justified : Justified g b f)
    (n : Node) : Justified g b (analysis.update g b n f).1 := by
  intro m v member
  rw [mem_behind_update] at member
  by_cases here : n = m
  · subst here
    rw [if_pos rfl, mem_computed] at member
    rcases member with read | ⟨⟨k, next, live⟩, kept⟩
    · exact ⟨[], read⟩
    · obtain ⟨path, reads⟩ := justified k v live
      exact ⟨k :: path, kept, next, reads⟩
  · rw [if_neg here] at member
    exact justified m v member

theorem getD_initial (g : Cfg) (b : Body) (n : Node) :
    (analysis.initialFacts g b).behind.getD n OrderedSet.empty = OrderedSet.empty := by
  simp only [Analysis.initialFacts, OrderedMap.getD, OrderedMap.get?_insert, OrderedMap.get?_ofList_map]
  split
  · rfl
  · split <;> rfl

theorem justified_after {g : Cfg} {b : Body} {strategy : Strategy} {k : Nat} {agenda : Agenda Node}
    {f : Facts Node (SetFact Var)}
    (run : (analysis.system g b).After (analysis.agenda g strategy) (analysis.initialFacts g b) k agenda f) :
    Justified g b f := by
  induction run with
  | start =>
      intro n v member
      rw [getD_initial] at member
      exact absurd member (OrderedSet.not_mem_empty v)
  | next _ _ _ ih => exact ih.update _

/-! ## Solutions leave nothing out -/

theorem mem_behind_iff {g : Cfg} {b : Body} {f : Facts Node (SetFact Var)} {n : Node} {v : Var}
    (stable : analysis.StableAt g b f n) :
    v ∈ f.behind.getD n OrderedSet.empty ↔ v ∈ b.readsAt n ∨
      (∃ m ∈ g.succs n, v ∈ f.behind.getD m OrderedSet.empty) ∧ b.writesAt? n ≠ some v := by
  obtain ⟨before, behind, -, found, rfl, same⟩ := lawful.stableAt_iff.mp stable
  rw [← mem_computed, OrderedMap.getD, found, Option.getD_some]
  exact OrderedSet.same_iff.mp same v

theorem mem_of_readsAlong {id : Nat} {b : Body} {g : Cfg} (built : Cfg.build id b = .ok g)
    {f : Facts Node (SetFact Var)} (solves : analysis.Solves g b f) {v : Var} {n : Node} {path : List Node}
    (inside : n ∈ g.nodes) (reads : b.ReadsAlong g v n path) : v ∈ f.behind.getD n OrderedSet.empty := by
  have mirrored := (Cfg.Drawn.built built).mirrored
  induction path generalizing n with
  | nil =>
      -- nothing is read at the exit
      by_cases last : n = g.exit
      · subst last
        simp [Body.ReadsAlong, Body.readsAt, Body.stmt?, Cfg.exit] at reads
      · exact (mem_behind_iff (solves.inner n inside last)).mpr (.inl reads)
  | cons m path ih =>
      obtain ⟨kept, next, reads⟩ := reads
      by_cases last : n = g.exit
      · subst last
        simp [Cfg.succs_exit built] at next
      · have later := ih (Cfg.mem_nodes.mpr (mirrored.succs_inside next).2) reads
        exact (mem_behind_iff (solves.inner n inside last)).mpr (.inr ⟨⟨m, next, later⟩, kept⟩)

/-! ## Solving ends -/

def readAnywhere (b : Body) : List Var := b.stmts.flatMap Stmt.uses

theorem mem_readAnywhere {b : Body} {n : Node} {v : Var} (read : v ∈ b.readsAt n) : v ∈ readAnywhere b := by
  unfold Body.readsAt at read
  cases found : b.stmt? n with
  | none => simp [found] at read
  | some s =>
      rw [found] at read
      exact List.mem_flatMap.mpr ⟨s, Body.mem_of_stmt? found, read⟩

/-- Facts on their way to a solution: below what is computed from them, and made of what the body reads. -/
structure Growing (g : Cfg) (b : Body) (f : Facts Node (SetFact Var)) : Prop where
  below : ∀ n ∈ analysis.unknowns g, ∀ v ∈ f.behind.getD n OrderedSet.empty,
    v ∈ transfer (b.stmt? n) (analysis.merged g f n)
  bounded : ∀ n, ∀ v ∈ f.behind.getD n OrderedSet.empty, v ∈ readAnywhere b

theorem Growing.update {g : Cfg} {b : Body} {f : Facts Node (SetFact Var)} (growing : Growing g b f) {n : Node}
    (unknown : n ∈ analysis.unknowns g) : Growing g b (analysis.update g b n f).1 := by
  have grows (m : Node) (v : Var) (member : v ∈ f.behind.getD m OrderedSet.empty) :
      v ∈ (analysis.update g b n f).1.behind.getD m OrderedSet.empty := by
    rw [mem_behind_update]
    split
    · next here => exact growing.below n unknown v (here ▸ member)
    · exact member
  constructor
  · intro m inner v member
    rw [mem_behind_update] at member
    have computed : v ∈ transfer (b.stmt? m) (analysis.merged g f m) := by
      split at member
      · next here => exact here ▸ member
      · exact growing.below m inner v member
    rw [mem_computed] at computed ⊢
    rcases computed with read | ⟨⟨k, next, live⟩, kept⟩
    · exact .inl read
    · exact .inr ⟨⟨k, next, grows k v live⟩, kept⟩
  · intro m v member
    rw [mem_behind_update] at member
    split at member
    · rcases mem_computed.mp member with read | ⟨⟨k, -, live⟩, -⟩
      · exact mem_readAnywhere read
      · exact growing.bounded k v live
    · exact growing.bounded m v member

def room (g : Cfg) (b : Body) (f : Facts Node (SetFact Var)) : Nat :=
  ((analysis.unknowns g).map fun n =>
    (readAnywhere b).length - (f.behind.getD n OrderedSet.empty).size).sum

theorem size_lt_of_grown {s t : SetFact Var} (sub : ∀ v ∈ s, v ∈ t) (differ : s.same t = false) :
    s.size < t.size := by
  have le : s.size ≤ t.size := s.nodup.length_le_of_subset sub
  have within : s.subset t = true := OrderedSet.subset_iff.mpr sub
  simp only [OrderedSet.same, within, Bool.and_true, beq_eq_false_iff_ne] at differ
  omega

theorem room_update {g : Cfg} {b : Body} {f : Facts Node (SetFact Var)} (growing : Growing g b f) {n : Node}
    (unknown : n ∈ analysis.unknowns g) :
    if (analysis.update g b n f).2 then room g b (analysis.update g b n f).1 < room g b f
    else room g b (analysis.update g b n f).1 ≤ room g b f := by
  have elsewhere (m : Node) (ne : n ≠ m) : (analysis.update g b n f).1.behind.getD m OrderedSet.empty =
      f.behind.getD m OrderedSet.empty := Analysis.behind_update_of_ne ne
  cases changed : (analysis.update g b n f).2 with
  | false =>
      have kept (m : Node) : (analysis.update g b n f).1.behind.getD m OrderedSet.empty =
          f.behind.getD m OrderedSet.empty := Analysis.behind_update_of_unchanged lawful changed
      simp [room, kept]
  | true =>
      have grown := (growing.update unknown).bounded n
      rw [Analysis.changed_update, lawful.replace_eq] at changed
      split at changed
      · cases changed
      · next differ =>
          -- only this fact changed, and it took in a variable for which there was room
          have new : (analysis.update g b n f).1.behind.getD n OrderedSet.empty =
              transfer (b.stmt? n) (analysis.merged g f n) := by
            rw [OrderedMap.getD, Analysis.behind_update, if_pos rfl, lawful.replace_eq, if_neg differ]
            rfl
          have larger : (f.behind.getD n OrderedSet.empty).size <
              ((analysis.update g b n f).1.behind.getD n OrderedSet.empty).size := by
            rw [new]
            exact size_lt_of_grown (growing.below n unknown) (Bool.eq_false_iff.mpr differ)
          have fits : ((analysis.update g b n f).1.behind.getD n OrderedSet.empty).size ≤
              (readAnywhere b).length := (OrderedSet.nodup _).length_le_of_subset grown
          rw [if_pos rfl]
          refine List.sum_lt_sum _ _ (fun m _ => ?_) ⟨n, unknown, by omega⟩
          by_cases here : n = m
          · subst here
            omega
          · rw [elsewhere m here]

theorem exists_settled {b : Body} {g : Cfg} (drawn : g.Drawn b) (strategy : Strategy) :
    ∃ s t, analysis.solve g b strategy none = .settled s t := by
  have initial : Growing g b (analysis.initialFacts g b) := by
    constructor <;> intros <;> simp_all [getD_initial]
  obtain ⟨t, final, ends⟩ := System.exists_end (analysis.system g b)
    (fun agenda f => agenda.Over (analysis.unknowns g) ∧ Growing g b f) (room g b)
    (by
      rintro agenda f n rest ⟨ranges, growing⟩ front
      obtain ⟨unknown, ranges⟩ := ranges.next? front
      exact ⟨Analysis.ready_of_mem drawn.mirrored (Analysis.mem_unknowns.mp unknown).1,
        ⟨System.over_advance (fun _ _ => Analysis.dependents_unknown drawn.mirrored) ranges,
          growing.update unknown⟩, room_update growing unknown⟩)
    (analysis.agenda g strategy) (analysis.initialFacts g b)
    ⟨analysis.agenda_over g strategy, initial⟩
  exact ⟨_, t, Analysis.solve_settled_iff.mpr ⟨final, rfl, ends, by simp⟩⟩

/-! ## The solution -/

structure Exact (g : Cfg) (b : Body) (s : Solution Node (SetFact Var)) : Prop where
  input : ∀ n ∈ g.nodes, ∃ f, s.input.get? n = some f ∧ ∀ v, v ∈ f ↔ ∃ path, b.ReadsAlong g v n path
  output : ∀ n ∈ g.nodes, ∃ f, s.output.get? n = some f ∧
    ∀ v, v ∈ f ↔ ∃ m ∈ g.succs n, ∃ next, s.input.get? m = some next ∧ v ∈ next

theorem behind_some {g : Cfg} {b : Body} {f : Facts Node (SetFact Var)} (solves : analysis.Solves g b f)
    {n : Node} (inside : n ∈ g.nodes) : f.behind.get? n = some (f.behind.getD n OrderedSet.empty) := by
  by_cases last : n = g.exit
  · have found := solves.start.2
    rw [← show n = analysis.start g from last] at found
    rw [OrderedMap.getD, found, Option.getD_some]
  · obtain ⟨before, behind, -, found, -⟩ := solves.inner n inside last
    rw [OrderedMap.getD, found, Option.getD_some]

theorem before_some {id : Nat} {b : Body} {g : Cfg} (built : Cfg.build id b = .ok g)
    {f : Facts Node (SetFact Var)} (solves : analysis.Solves g b f) {n : Node} (inside : n ∈ g.nodes) :
    ∃ before, f.before.get? n = some before ∧
      ∀ v, v ∈ before ↔ ∃ m ∈ g.succs n, v ∈ f.behind.getD m OrderedSet.empty := by
  by_cases last : n = g.exit
  · subst last
    exact ⟨OrderedSet.empty, solves.start.1, by simp [Cfg.succs_exit built]⟩
  · obtain ⟨before, behind, found, -, rfl, -⟩ := lawful.stableAt_iff.mp (solves.inner n inside last)
    exact ⟨_, found, fun v => mem_merged⟩

theorem exact_of_settled {id : Nat} {b : Body} {g : Cfg} (built : Cfg.build id b = .ok g) {strategy : Strategy}
    {limit : Option Int} {s : Solution Node (SetFact Var)} {t : Nat}
    (settled : analysis.solve g b strategy limit = .settled s t) : Exact g b s := by
  have mirrored := (Cfg.Drawn.built built).mirrored
  have solves := Analysis.solves_of_settled lawful mirrored settled
  obtain ⟨facts, rfl, ⟨agenda, run, -⟩, -⟩ := Analysis.solve_settled_iff.mp settled
  constructor
  · intro n inside
    exact ⟨_, behind_some solves inside, fun v =>
      ⟨justified_after run n v, fun ⟨path, reads⟩ => mem_of_readsAlong built solves inside reads⟩⟩
  · intro n inside
    obtain ⟨before, found, meet⟩ := before_some built solves inside
    refine ⟨before, found, fun v => (meet v).trans (exists_congr fun m => and_congr_right fun next => ?_)⟩
    have there := behind_some solves (Cfg.mem_nodes.mpr (mirrored.succs_inside next).2)
    simp [Solution.input, analysis, there]

theorem Exact.sameAt {g : Cfg} {b : Body} {s u : Solution Node (SetFact Var)} (mirrored : g.Mirrored)
    (exact : Exact g b s) (exact' : Exact g b u) {n : Node} (inside : n ∈ g.nodes) :
    s.SameAt OrderedSet.same u n := by
  have same_input {m : Node} (inside : m ∈ g.nodes) :
      ∃ x y, s.input.get? m = some x ∧ u.input.get? m = some y ∧ ∀ v, v ∈ x ↔ v ∈ y := by
    obtain ⟨x, found, reads⟩ := exact.input m inside
    obtain ⟨y, found', reads'⟩ := exact'.input m inside
    exact ⟨x, y, found, found', fun v => (reads v).trans (reads' v).symm⟩
  constructor
  · obtain ⟨x, y, found, found', agree⟩ := same_input inside
    exact ⟨x, y, found, found', OrderedSet.same_iff.mpr agree⟩
  · obtain ⟨x, found, next⟩ := exact.output n inside
    obtain ⟨y, found', next'⟩ := exact'.output n inside
    refine ⟨x, y, found, found', OrderedSet.same_iff.mpr fun v => ?_⟩
    rw [next, next']
    refine exists_congr fun m => and_congr_right fun succ => ?_
    obtain ⟨x, y, found, found', agree⟩ := same_input (Cfg.mem_nodes.mpr (mirrored.succs_inside succ).2)
    simp [found, found', agree]

/-- Both strategies end without a limit and give the same facts: a variable is live in front of a node exactly
when some path from there reads it before any node on the way writes it. -/
theorem solved_exactly {id : Nat} {b : Body} {g : Cfg} (built : Cfg.build id b = .ok g) :
    ∃ w tw i ti, analysis.solve g b .worklist none = .settled w tw ∧
      analysis.solve g b .iterative none = .settled i ti ∧
      (∀ n ∈ g.nodes, w.SameAt OrderedSet.same i n) ∧ Exact g b w ∧ Exact g b i := by
  have drawn := Cfg.Drawn.built built
  obtain ⟨w, tw, worklist⟩ := exists_settled drawn .worklist
  obtain ⟨i, ti, iterative⟩ := exists_settled drawn .iterative
  have exactW := exact_of_settled built worklist
  have exactI := exact_of_settled built iterative
  exact ⟨w, tw, i, ti, worklist, iterative,
    fun n inside => exactW.sameAt drawn.mirrored exactI inside, exactW, exactI⟩

theorem loop_solved_exactly : Cfg.build 0 Loop.body = .ok Loop.graph ∧
    ∃ w tw i ti, analysis.solve Loop.graph Loop.body .worklist none = .settled w tw ∧
      analysis.solve Loop.graph Loop.body .iterative none = .settled i ti ∧
      (∀ n ∈ Loop.graph.nodes, w.SameAt OrderedSet.same i n) ∧
      Exact Loop.graph Loop.body w ∧ Exact Loop.graph Loop.body i :=
  ⟨Loop.graph_built, solved_exactly Loop.graph_built⟩

end Liveness

end Dataflow
