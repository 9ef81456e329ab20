import Dataflow.Proofs.Analysis.DeadCode
import Dataflow.Proofs.Workspace.Results

/-!
What the search for dead code finds, whatever solutions it goes by. The nodes that are reached are the least set with
the entry in it that goes on from assignments which are skipped to all successors, and from other nodes to those that
the constants leave open (`Reached`). The search keeps the two kinds of nodes apart and may come to a node often; it
ends all the same, with exactly these nodes (`sweeps_reached`). What it gives are all other nodes but the exit, together
with what is skipped, in the order in which they stand in the body (`dead_code_exact`).
-/

namespace Dataflow

namespace DeadCode

/-! ## What is reached -/

section Reached
variable (g : Cfg) (b : Body) (known : Node → Constants Var) (live : Node → SetFact Var)

def Skips (n : Node) : Prop :=
  ∃ v rhs, b.stmt? n = some (.assign (.var v) rhs) ∧ v ∉ live n ∧ rhs.isPure = true

def Decides (n : Node) (c : Int) : Prop :=
  ∃ op left right target, b.stmt? n = some (.branch op left right target) ∧
    (Exp.bin op left right).evaluate (known n) = .const c

def Selects (n : Node) (cases : List (Int × Option Node)) (otherwise : Option Node) (c : Int) : Prop :=
  ∃ v, b.stmt? n = some (.switch v cases otherwise) ∧ (known n).value v = .const c

inductive Feasible (n m : Node) : Prop where
  | ifTrue : Decides b known n 1 → (∃ e ∈ g.outEdges n, e.kind = .ifTrue ∧ e.target = m) → Feasible n m
  | ifFalse : Decides b known n 0 → (∃ e ∈ g.outEdges n, e.kind = .ifFalse ∧ e.target = m) → Feasible n m
  | case {cases : List (Int × Option Node)} {otherwise : Option Node} {c : Int} :
      Selects b known n cases otherwise c → (c, some m) ∈ cases → Feasible n m
  | default {cases : List (Int × Option Node)} {c : Int} :
      Selects b known n cases (some m) c → (∀ leads, (c, leads) ∉ cases) → Feasible n m
  | open_ : ¬ Decides b known n 1 → ¬ Decides b known n 0 →
      (∀ cases otherwise c, ¬ Selects b known n cases otherwise c) → m ∈ g.succs n → Feasible n m

inductive Reached : Node → Prop where
  | entry : Reached g.entry
  | past {n m : Node} : Reached n → Skips b live n → m ∈ g.succs n → Reached m
  | next {n m : Node} : Reached n → ¬ Skips b live n → Feasible g b known n m → Reached m

end Reached

structure Judges (d : DeadCode) (known : Node → Constants Var) (live : Node → SetFact Var) : Prop where
  drawn : d.graph.Drawn d.body
  known : ∀ n ∈ d.graph.nodes, d.constants.get? n = some (known n)
  live : ∀ n ∈ d.graph.nodes, d.live.get? n = some (live n)

section Judges
variable {d : DeadCode} {known : Node → Constants Var} {live : Node → SetFact Var} {n m : Node}

theorem Judges.skips_iff (judges : d.Judges known live) (inside : n ∈ d.graph.nodes) :
    d.skippable n = true ↔ Skips d.body live n := by
  rw [skippable_iff, OrderedMap.getD, judges.live n inside, Option.getD_some, Skips]

theorem mem_targets_iff {kind : EdgeKind} :
    m ∈ d.targets n kind ↔ ∃ e ∈ d.graph.outEdges n, e.kind = kind ∧ e.target = m := by
  simp [targets, and_assoc]

theorem feasible_of_branch {op : BinOp} {left right : Exp} {target : Option Node}
    (here : d.body.stmt? n = some (.branch op left right target)) (found : d.constants.get? n = some (known n)) :
    m ∈ d.feasible n ↔ Feasible d.graph d.body known n m := by
  have decides (c : Int) : Decides d.body known n c ↔ (Exp.bin op left right).evaluate (known n) = .const c := by
    simp [Decides, here]
  have selects (cases : List (Int × Option Node)) (otherwise : Option Node) (c : Int) :
      ¬ Selects d.body known n cases otherwise c := by
    simp [Selects, here]
  have cases_iff : Feasible d.graph d.body known n m ↔
      (Decides d.body known n 1 ∧ m ∈ d.targets n .ifTrue) ∨ (Decides d.body known n 0 ∧ m ∈ d.targets n .ifFalse) ∨
        (¬ Decides d.body known n 1 ∧ ¬ Decides d.body known n 0 ∧ m ∈ d.graph.succs n) := by
    simp only [mem_targets_iff]
    constructor
    · rintro (⟨decided, edge⟩ | ⟨decided, edge⟩ | ⟨selected, -⟩ | ⟨selected, -⟩ | ⟨one, zero, -, next⟩)
      · exact .inl ⟨decided, edge⟩
      · exact .inr (.inl ⟨decided, edge⟩)
      · exact absurd selected (selects _ _ _)
      · exact absurd selected (selects _ _ _)
      · exact .inr (.inr ⟨one, zero, next⟩)
    · rintro (⟨decided, edge⟩ | ⟨decided, edge⟩ | ⟨one, zero, next⟩)
      · exact .ifTrue decided edge
      · exact .ifFalse decided edge
      · exact .open_ one zero selects next
  rw [cases_iff, decides, decides, feasible, OrderedMap.getD, found, Option.getD_some, here]
  simp only
  split <;> simp_all

theorem mem_chosen_iff {cases : List (Int × Option Node)} {otherwise : Option Node} {c : Int} :
    (m ∈ if (cases.filter (·.1 = c)).isEmpty then otherwise.toList else (cases.filter (·.1 = c)).filterMap Prod.snd) ↔
      (c, some m) ∈ cases ∨ otherwise = some m ∧ ∀ leads, (c, leads) ∉ cases := by
  by_cases none : cases.filter (·.1 = c) = []
  · have absent (leads : Option Node) : (c, leads) ∉ cases := by
      intro member
      exact List.filter_eq_nil_iff.mp none _ member (by simp)
    simp [none, absent]
  · obtain ⟨hit, member⟩ := List.exists_mem_of_ne_nil _ none
    obtain ⟨listed, equal⟩ := List.mem_filter.mp member
    have present : ¬ ∀ leads, (c, leads) ∉ cases := by
      intro absent
      obtain rfl : hit.1 = c := by simpa using equal
      exact absent hit.2 listed
    simp [none, present]

theorem feasible_of_switch {v : Var} {cases : List (Int × Option Node)} {otherwise : Option Node}
    (here : d.body.stmt? n = some (.switch v cases otherwise)) (found : d.constants.get? n = some (known n)) :
    m ∈ d.feasible n ↔ Feasible d.graph d.body known n m := by
  have decides (c : Int) : ¬ Decides d.body known n c := by simp [Decides, here]
  have selects (cases' : List (Int × Option Node)) (otherwise' : Option Node) (c : Int) :
      Selects d.body known n cases' otherwise' c ↔
        cases' = cases ∧ otherwise' = otherwise ∧ (known n).value v = .const c := by
    simp only [Selects, here, Option.some.injEq, Stmt.switch.injEq]
    grind
  have cases_iff : Feasible d.graph d.body known n m ↔
      (∃ c, (known n).value v = .const c ∧ ((c, some m) ∈ cases ∨ otherwise = some m ∧ ∀ leads, (c, leads) ∉ cases)) ∨
        ((∀ c, (known n).value v ≠ .const c) ∧ m ∈ d.graph.succs n) := by
    constructor
    · rintro (⟨decided, -⟩ | ⟨decided, -⟩ | ⟨selected, listed⟩ | ⟨selected, absent⟩ | ⟨-, -, unknown, next⟩)
      · exact absurd decided (decides 1)
      · exact absurd decided (decides 0)
      · obtain ⟨rfl, -, value⟩ := (selects _ _ _).mp selected
        exact .inl ⟨_, value, .inl listed⟩
      · obtain ⟨rfl, leads, value⟩ := (selects _ _ _).mp selected
        exact .inl ⟨_, value, .inr ⟨leads.symm, absent⟩⟩
      · exact .inr ⟨fun c value => unknown _ _ c ((selects _ _ _).mpr ⟨rfl, rfl, value⟩), next⟩
    · rintro (⟨c, value, listed | ⟨leads, absent⟩⟩ | ⟨unknown, next⟩)
      · exact .case ((selects _ _ _).mpr ⟨rfl, rfl, value⟩) listed
      · exact .default ((selects _ _ _).mpr ⟨rfl, leads.symm, value⟩) absent
      · exact .open_ (decides 1) (decides 0) (fun _ _ c selected => unknown c ((selects _ _ _).mp selected).2.2) next
  rw [cases_iff, feasible, OrderedMap.getD, found, Option.getD_some, here]
  simp only
  split
  · next c value => simp [value, mem_chosen_iff]
  · next unknown =>
      have unknown (c : Int) : (known n).value v ≠ .const c := unknown c
      simp [unknown]

theorem feasible_of_other (branches : ∀ op left right target, d.body.stmt? n ≠ some (.branch op left right target))
    (switches : ∀ v cases otherwise, d.body.stmt? n ≠ some (.switch v cases otherwise)) :
    m ∈ d.feasible n ↔ Feasible d.graph d.body known n m := by
  have decides (c : Int) : ¬ Decides d.body known n c := by
    rintro ⟨op, left, right, target, here, -⟩
    exact branches op left right target here
  have selects (cases : List (Int × Option Node)) (otherwise : Option Node) (c : Int) :
      ¬ Selects d.body known n cases otherwise c := by
    rintro ⟨v, here, -⟩
    exact switches v cases otherwise here
  have plain : d.feasible n = d.graph.succs n := by
    unfold feasible
    split
    · next here => exact absurd here (branches _ _ _ _)
    · next here => exact absurd here (switches _ _ _)
    · rfl
  rw [plain]
  constructor
  · exact .open_ (decides 1) (decides 0) selects
  · rintro (⟨decided, -⟩ | ⟨decided, -⟩ | ⟨selected, -⟩ | ⟨selected, -⟩ | ⟨-, -, -, next⟩)
    · exact absurd decided (decides 1)
    · exact absurd decided (decides 0)
    · exact absurd selected (selects _ _ _)
    · exact absurd selected (selects _ _ _)
    · exact next

theorem Judges.feasible_iff (judges : d.Judges known live) (inside : n ∈ d.graph.nodes) :
    m ∈ d.feasible n ↔ Feasible d.graph d.body known n m := by
  have found := judges.known n inside
  cases here : d.body.stmt? n with
  | none => exact feasible_of_other (by simp [here]) (by simp [here])
  | some s =>
      cases s with
      | branch op left right target => exact feasible_of_branch here found
      | switch v cases otherwise => exact feasible_of_switch here found
      | _ => exact feasible_of_other (by simp [here]) (by simp [here])

theorem contains_of_switch {g : Cfg} {b : Body} (drawn : g.Drawn b) {v : Var} {cases : List (Int × Option Node)}
    {otherwise : Option Node} (here : b.stmt? n = some (.switch v cases otherwise))
    (leads : (∃ c, (c, some m) ∈ cases) ∨ otherwise = some m) : g.contains m = true := by
  cases n with
  | stmt pos method =>
      simp only [Body.stmt?] at here
      split at here
      · have resolved := drawn.resolved (.switch v cases otherwise, pos) (List.mem_zipIdx_iff_getElem?.mpr here)
        obtain ⟨c, listed⟩ | rfl := leads
        · obtain ⟨target, same, inside⟩ := resolved (.switchCase, some c, some m) (List.mem_append_left _
            (List.mem_map.mpr ⟨_, listed, rfl⟩))
          exact Option.some.inj same ▸ inside
        · obtain ⟨target, same, inside⟩ := resolved (.switchDefault, none, some m) (List.mem_append_right _
            List.mem_cons_self)
          exact Option.some.inj same ▸ inside
      · cases here
  | _ => cases here

theorem Judges.next_inside (judges : d.Judges known live) (inside : n ∈ d.graph.nodes) (next : m ∈ d.next n) :
    m ∈ d.graph.nodes := by
  have mirrored := judges.drawn.mirrored
  rw [Cfg.mem_nodes]
  unfold DeadCode.next at next
  split at next
  · exact (mirrored.succs_inside next).2
  · cases (judges.feasible_iff inside).mp next with
    | ifTrue _ edge | ifFalse _ edge =>
        obtain ⟨e, leaves, -, rfl⟩ := edge
        exact (mirrored.inside e (List.mem_filter.mp leaves).1).2
    | case selected listed =>
        obtain ⟨v, here, -⟩ := selected
        exact contains_of_switch judges.drawn here (.inl ⟨_, listed⟩)
    | default selected _ =>
        obtain ⟨v, here, -⟩ := selected
        exact contains_of_switch judges.drawn here (.inr rfl)
    | open_ _ _ _ next => exact (mirrored.succs_inside next).2

theorem Judges.domain_inside (judges : d.Judges known live) (member : n ∈ d.domain) : n ∈ d.graph.nodes := by
  rcases List.mem_append.mp member with inside | after
  · exact inside
  · obtain ⟨source, inside, next⟩ := List.mem_flatMap.mp after
    exact judges.next_inside inside next

theorem Judges.domain_closed (judges : d.Judges known live) : ∀ n ∈ d.domain, ∀ m ∈ d.next n, m ∈ d.domain :=
  fun _ member _ next => List.mem_append_left _ (judges.next_inside (judges.domain_inside member) next)

theorem entry_inside (d : DeadCode) : ∀ n ∈ [d.graph.entry], n ∈ d.domain := by
  simp [domain, Cfg.nodes]

theorem Judges.reached_iff (judges : d.Judges known live) :
    n ∈ d.reached ↔ Reached d.graph d.body known live n := by
  have inside {n : Node} (found : n ∈ d.reached) : n ∈ d.graph.nodes :=
    judges.domain_inside (Search.mem_domain_of_mem_reach found)
  constructor
  · intro found
    obtain ⟨start, first, reaches⟩ := Search.reaches_of_mem_reach found
    obtain rfl := List.mem_singleton.mp first
    clear found
    induction reaches with
    | refl => exact .entry
    | @tail n m before next ih =>
        have here : n ∈ d.reached := (Search.mem_reach_iff judges.domain_closed d.entry_inside).mpr ⟨_, first, before⟩
        unfold DeadCode.next at next
        split at next
        · next skipped => exact .past ih ((judges.skips_iff (inside here)).mp skipped) next
        · next kept =>
            exact .next ih (fun skips => kept ((judges.skips_iff (inside here)).mpr skips))
              ((judges.feasible_iff (inside here)).mp next)
  · intro reached
    induction reached with
    | entry => exact d.entry_reached
    | @past n m _ skips next ih =>
        refine reached_next (inside ih) ih ?_
        rwa [DeadCode.next, if_pos ((judges.skips_iff (inside ih)).mpr skips)]
    | @next n m _ kept feasible ih =>
        refine reached_next (inside ih) ih ?_
        rw [DeadCode.next, if_neg fun skips => kept ((judges.skips_iff (inside ih)).mp skips)]
        exact (judges.feasible_iff (inside ih)).mpr feasible

end Judges

/-! ## The search ends -/

/-- The search with its two sets of nodes, those that are live and those that are skipped: what they are in the end, if
it goes on with a queue and the sets so far. A node that is in its set is passed over. -/
inductive Sweeps (d : DeadCode) : List Node → List Node → List Node → List Node → List Node → Prop where
  | done {kept skipped : List Node} : Sweeps d [] kept skipped kept skipped
  | skip {n : Node} {queue kept skipped kept' skipped' : List Node} : d.skippable n = true → n ∉ skipped →
      Sweeps d (queue ++ d.graph.succs n) kept (skipped ++ [n]) kept' skipped' →
      Sweeps d (n :: queue) kept skipped kept' skipped'
  | keep {n : Node} {queue kept skipped kept' skipped' : List Node} : d.skippable n = false → n ∉ kept →
      Sweeps d (queue ++ d.feasible n) (kept ++ [n]) skipped kept' skipped' →
      Sweeps d (n :: queue) kept skipped kept' skipped'
  | again {n : Node} {queue kept skipped kept' skipped' : List Node} :
      n ∈ (if d.skippable n then skipped else kept) → Sweeps d queue kept skipped kept' skipped' →
      Sweeps d (n :: queue) kept skipped kept' skipped'

theorem sweeps_of_visits {d : DeadCode} {queue visited later : List Node}
    (visits : Search.Visits d.next queue visited later) :
    d.Sweeps queue (visited.filter (!d.skippable ·)) (visited.filter d.skippable)
      ((visited ++ later).filter (!d.skippable ·)) ((visited ++ later).filter d.skippable) := by
  induction visits with
  | done => simpa using Sweeps.done
  | @again n queue visited later known _ ih =>
      refine .again ?_ ih
      split <;> simp_all
  | @visit n queue visited later new _ ih =>
      cases skips : d.skippable n with
      | true =>
          refine .skip skips (by simp [new]) ?_
          simpa [DeadCode.next, skips] using ih
      | false =>
          refine .keep skips (by simp [new]) ?_
          simpa [DeadCode.next, skips] using ih

theorem sweeps_reached {d : DeadCode} {known : Node → Constants Var} {live : Node → SetFact Var}
    (judges : d.Judges known live) : ∃ kept skipped, d.Sweeps [d.graph.entry] [] [] kept skipped ∧
      (∀ n, n ∈ kept ↔ Reached d.graph d.body known live n ∧ ¬ Skips d.body live n) ∧
      ∀ n, n ∈ skipped ↔ Reached d.graph d.body known live n ∧ Skips d.body live n := by
  have visits : Search.Visits d.next [d.graph.entry] [] d.reached :=
    Search.visits_reach judges.domain_closed d.entry_inside
  have skips (n : Node) (found : n ∈ d.reached) : d.skippable n = true ↔ Skips d.body live n :=
    judges.skips_iff (judges.domain_inside (Search.mem_domain_of_mem_reach found))
  refine ⟨_, _, by simpa using sweeps_of_visits visits, fun n => ?_, fun n => ?_⟩
  · rw [List.mem_filter, ← judges.reached_iff]
    refine and_congr_right fun found => ?_
    rw [← skips n found, Bool.not_eq_true', Bool.not_eq_true]
  · rw [List.mem_filter, ← judges.reached_iff]
    exact and_congr_right (skips n)

theorem Judges.dead_eq {d : DeadCode} {known : Node → Constants Var} {live : Node → SetFact Var}
    (judges : d.Judges known live) {judged : Node → Bool} (all : ∀ n ∈ d.graph.nodes, judged n = true) :
    d.dead judged = .ok (d.graph.nodes.filter fun n => n ≠ d.graph.exit && (n ∉ d.reached || d.skippable n)) := by
  have none : d.reached.find? (fun n => !judged n) = none := by
    simp only [List.find?_eq_none, Bool.not_eq_true', Bool.not_eq_false]
    exact fun n found => all n (judges.domain_inside (Search.mem_domain_of_mem_reach found))
  rw [DeadCode.dead, none]

theorem Judges.mem_dead_iff {d : DeadCode} {known : Node → Constants Var} {live : Node → SetFact Var}
    (judges : d.Judges known live) {judged : Node → Bool} {dead : List Node} (found : d.dead judged = .ok dead)
    (n : Node) : n ∈ dead ↔ n ∈ d.graph.nodes ∧ n ≠ d.graph.exit ∧
      ¬ (Reached d.graph d.body known live n ∧ ¬ Skips d.body live n) := by
  rw [mem_dead found]
  refine and_congr_right fun inside => and_congr_right fun _ => ?_
  rw [judges.reached_iff, judges.skips_iff inside, Classical.not_and_iff_not_or_not, Classical.not_not]

theorem ordered_of_dead {d : DeadCode} {judged : Node → Bool} {dead : List Node} (found : d.dead judged = .ok dead)
    {w : Workspace} (has : w.program.hasBody d.graph.method = true) :
    dead.Pairwise fun n m => w.index n < w.index m := by
  have rising : (d.graph.entry :: (List.range d.graph.size).map d.graph.node).Pairwise
      fun n m => w.index n < w.index m := by
    refine List.pairwise_cons.mpr ⟨fun n member => ?_, List.pairwise_map.mpr ?_⟩
    · obtain ⟨pos, -, rfl⟩ := List.mem_map.mp member
      simp only [Workspace.index, Cfg.entry, Cfg.node, has, if_true]
      omega
    · refine List.pairwise_lt_range.imp fun less => ?_
      simp only [Workspace.index, Cfg.node, has, if_true]
      omega
  simp only [DeadCode.dead] at found
  split at found
  · cases found
  · obtain rfl := Except.ok.inj found
    have exit : [d.graph.exit].filter (fun n => n ≠ d.graph.exit && (n ∉ d.reached || d.skippable n)) = [] := by simp
    rw [Cfg.nodes, List.filter_append, exit, List.append_nil]
    exact rising.filter _

end DeadCode

namespace Session
open Steps (on_bind)
open DeadCode (Reached Skips Judges Sweeps)

theorem on_deadCode {w : Workspace} {m : MethodRef} {b : Body} {g : Cfg} {k k' : Nat}
    {c : Solution Node (Constants Var)} {l : Solution Node (SetFact Var)} (body : w.program.body? m = some b)
    (kept : w.kept? m = some g) (stored : w.result? m "constprop" = some (.solved k))
    (constants : w.solutions[k]? = some (.constants c)) (stored' : w.result? m "livevar" = some (.solved k'))
    (liveness : w.solutions[k']? = some (.liveness l)) {dead : List Node}
    (found : DeadCode.dead ⟨b, g, c.input, l.output⟩ g.contains = .ok dead) :
    ∃ w', (deadCode m).on w = (.ok dead, w') := by
  have asked : (graphOf m).on w = (.ok g, w) := by
    rw [graphOf, on_bind, on_keptGraph_of_kept kept]
    rfl
  have read : (bodyOf m).on w = (.ok b, w) := by simp [bodyOf, on_bind, Program.body, body]
  have known : (solutionOf .constants m).on w = (.ok (some (.constants c)), w) :=
    on_solutionOf_of_kept stored constants rfl
  have live : (solutionOf .liveness m).on w = (.ok (some (.liveness l)), w) :=
    on_solutionOf_of_kept stored' liveness rfl
  simp only [deadCode, on_bind, asked, read, known, live]
  simp only [Option.bind_some, Solved.constants?, Solved.liveness?, Option.map_some, Option.getD_some,
    Option.isSome_some, Bool.true_or, Bool.and_true, found]
  exact ⟨_, rfl⟩

/-- Given a graph of the body of a method and solutions of both problems with facts at all its nodes, whatever these
are, the search for dead code ends and returns. The list has exactly the nodes other than the exit that are not both
reached and kept, by strictly rising index. -/
theorem dead_code_exact {w : Workspace} {m : MethodRef} {b : Body} {g : Cfg} {k k' : Nat}
    {c : Solution Node (Constants Var)} {l : Solution Node (SetFact Var)} {known : Node → Constants Var}
    {live : Node → SetFact Var} (body : w.program.body? m = some b) (own : b.method = m)
    (kept : w.kept? m = some g) (drawn : g.Drawn b) (stored : w.result? m "constprop" = some (.solved k))
    (constants : w.solutions[k]? = some (.constants c)) (stored' : w.result? m "livevar" = some (.solved k'))
    (liveness : w.solutions[k']? = some (.liveness l)) (knows : ∀ n ∈ g.nodes, c.input.get? n = some (known n))
    (lives : ∀ n ∈ g.nodes, l.output.get? n = some (live n)) :
    (∃ kept skipped, Sweeps ⟨b, g, c.input, l.output⟩ [g.entry] [] [] kept skipped ∧
      (∀ n, n ∈ kept ↔ Reached g b known live n ∧ ¬ Skips b live n) ∧
      ∀ n, n ∈ skipped ↔ Reached g b known live n ∧ Skips b live n) ∧
    ∃ dead w', (deadCode m).on w = (.ok dead, w') ∧
      (∀ n, n ∈ dead ↔ n ∈ g.nodes ∧ n ≠ g.exit ∧ ¬ (Reached g b known live n ∧ ¬ Skips b live n)) ∧
      dead.Pairwise fun n n' => w.index n < w.index n' := by
  have judges : Judges ⟨b, g, c.input, l.output⟩ known live := ⟨drawn, knows, lives⟩
  have judged (n : Node) (inside : n ∈ g.nodes) : g.contains n = true := Cfg.mem_nodes.mp inside
  have found := judges.dead_eq judged
  obtain ⟨w', ran⟩ := on_deadCode body kept stored constants stored' liveness found
  have has : w.program.hasBody g.method = true := by
    rw [drawn.shape.1, own]
    exact Program.hasBody_of_body? body
  exact ⟨DeadCode.sweeps_reached judges, _, w', ran, judges.mem_dead_iff found, DeadCode.ordered_of_dead found has⟩

end Session

namespace Countdown
open Loop (method)

def workspace (c : Solution Node (Constants Var)) (l : Solution Node (SetFact Var)) : Workspace :=
  { Workspace.empty with
    program := ⟨[⟨⟨0, "Main"⟩, none, [], false, false, [⟨method.sig, true, false, none, some body⟩]⟩]⟩
    graphs := [graph]
    solutions := [.constants c, .liveness l]
    stores := OrderedMap.ofList [(method,
      OrderedMap.ofList [("cfg", .graph 0), ("constprop", .solved 0), ("livevar", .solved 1)])] }

theorem countdown_swept : ∃ c t l t', Propagation.analysis.solve graph body .worklist (some 60) = .settled c t ∧
    Liveness.analysis.solve graph body .iterative (some 60) = .settled l t' ∧
    ∃ known live, ((∀ n ∈ graph.nodes, c.input.get? n = some (known n)) ∧
      ∀ n ∈ graph.nodes, l.output.get? n = some (live n)) ∧
      (∃ kept skipped, DeadCode.Sweeps ⟨body, graph, c.input, l.output⟩ [graph.entry] [] [] kept skipped ∧
        (∀ n, n ∈ kept ↔ DeadCode.Reached graph body known live n ∧ ¬ DeadCode.Skips body live n) ∧
        ∀ n, n ∈ skipped ↔ DeadCode.Reached graph body known live n ∧ DeadCode.Skips body live n) ∧
      ∃ dead w', (Session.deadCode method).on (workspace c l) = (.ok dead, w') ∧
        (∀ n, n ∈ dead ↔ n ∈ graph.nodes ∧ n ≠ graph.exit ∧
          ¬ (DeadCode.Reached graph body known live n ∧ ¬ DeadCode.Skips body live n)) ∧
        dead.Pairwise fun n n' => (workspace c l).index n < (workspace c l).index n' := by
  have computed : ((Propagation.analysis.solve graph body .worklist (some 60)).state?.bind fun c =>
      (Liveness.analysis.solve graph body .iterative (some 60)).state?.map fun l =>
        decide (∀ n ∈ graph.nodes, (c.input.get? n).isSome = true ∧ (l.output.get? n).isSome = true)) = some true := by
    decide +kernel
  simp only [Option.bind_eq_some_iff, Option.map_eq_some_iff, decide_eq_true_eq] at computed
  obtain ⟨c, constants, l, liveness, facts⟩ := computed
  obtain ⟨t, propagated⟩ := Outcome.settled_of_state? constants
  obtain ⟨t', solved⟩ := Outcome.settled_of_state? liveness
  have given {α : Type} {o : Option α} (some_ : o.isSome = true) (d : α) : o = some (o.getD d) := by
    obtain ⟨a, rfl⟩ := Option.isSome_iff_exists.mp some_
    rfl
  have knows (n : Node) (inside : n ∈ graph.nodes) : c.input.get? n = some ((c.input.get? n).getD OrderedMap.empty) :=
    given (facts n inside).1 _
  have lives (n : Node) (inside : n ∈ graph.nodes) : l.output.get? n = some ((l.output.get? n).getD OrderedSet.empty) :=
    given (facts n inside).2 _
  exact ⟨c, t, l, t', propagated, solved, _, _, ⟨knows, lives⟩, Session.dead_code_exact (w := workspace c l) (m := method)
    rfl rfl rfl (.built graph_built) rfl rfl rfl rfl knows lives⟩

end Countdown

end Dataflow
