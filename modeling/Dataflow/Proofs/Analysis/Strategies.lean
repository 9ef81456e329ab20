import Dataflow.Proofs.Analysis.Monotone
import Dataflow.Proofs.Solver.Ascent

/-!
The two strategies on constant propagation. On a steady body the facts of a run only rise, in whatever order the
nodes are updated. So both strategies come to an end there (`settles_on_steady`) with the same facts
(`strategies_agree_on_steady`), and these are the least that solve the equations of the problem; bodies that do not
divide are of this kind (`least_on_divisionFree`). Other bodies can do neither. In `Pulse` a value that drops goes
round a loop and never comes to rest, and in `Race` it depends on the order of updates whether it does so as a
constant or as none.
-/

namespace Dataflow

namespace Propagation

def next (g : Cfg) (b : Body) (n : Node) (x : Node → Constants Var) : Constants Var :=
  transfer (b.stmt? n) (Constants.gather OrderedMap.empty (g.preds n) x)

def Neat (f : Facts Node (Constants Var)) : Prop := ∀ n, (sent f n).Normal

theorem normal_transfer {f : Constants Var} (normal : f.Normal) (s : Option Stmt) : (transfer s f).Normal := by
  cases s with
  | none => exact normal
  | some s =>
      rcases transfer_cases s with same | ⟨v, e, -, -, -, writes⟩
      · rwa [same]
      · rw [writes]
        exact normal.set _ _

theorem normal_next (g : Cfg) (b : Body) (n : Node) (x : Node → Constants Var) : (next g b n x).Normal :=
  normal_transfer (Constants.Normal.gather .empty) _

/-! ## Updates -/

structure Computes (s : System Node (Facts Node (Constants Var)))
    (next : Node → (Node → Constants Var) → Constants Var) : Prop where
  here : ∀ n f, sent (s.update n f).1 n = if (sent f n).same (next n (sent f)) then sent f n else next n (sent f)
  elsewhere : ∀ n m f, n ≠ m → sent (s.update n f).1 m = sent f m
  changed : ∀ n f, (s.update n f).2 = !(sent f n).same (next n (sent f))
  normal : ∀ n x, (next n x).Normal

theorem computes_of_scheme {s : System Node (Facts Node (Constants Var))} {c : Scheme Node (Constants Var)}
    {next : Node → (Node → Constants Var) → Constants Var} (updates : s.update = c.update)
    (initial : c.initial = OrderedMap.empty) (replaces : c.replace = Constants.replace)
    (computes : ∀ f n, c.computes n (c.meets f n) = next n (sent f)) (normal : ∀ n x, (next n x).Normal) :
    Computes s next where
  here n f := by
    rw [sent, OrderedMap.getD, updates, Scheme.behind_update, if_pos rfl, Option.getD_some, initial, replaces,
      computes, Constants.replace]
    exact apply_ite Prod.fst _ _ _
  elsewhere n m f ne := by rw [updates, sent, sent, ← initial, c.behind_update_of_ne ne]
  changed n f := by
    rw [updates, Scheme.changed_update, initial, replaces, computes, Constants.replace]
    show (ite ((sent f n).same (next n (sent f)) = true) _ _ : Constants Var × Bool).2 = _
    split <;> simp_all
  normal := normal

namespace Computes
variable {s r : System Node (Facts Node (Constants Var))} {next next' : Node → (Node → Constants Var) → Constants Var}
  {f f' : Facts Node (Constants Var)} {n : Node}

theorem neat (computes : Computes s next) (n : Node) (neat : Neat f) : Neat (s.update n f).1 := by
  intro m
  by_cases here : n = m
  · subst here
    rw [computes.here]
    split
    · exact neat n
    · exact computes.normal n _
  · rw [computes.elsewhere n m f here]
    exact neat m

theorem value_here (computes : Computes s next) (n : Node) (f : Facts Node (Constants Var)) :
    (sent (s.update n f).1 n).value = (next n (sent f)).value := by
  rw [computes.here]
  split
  · next same => exact Constants.value_eq_of_same same  -- the old fact stays
  · rfl

theorem ascending (computes : Computes s next) {us : List Node} (mono : ∀ n ∈ us, Monotone (next n))
    (ready : ∀ n ∈ us, s.ready n = true) (dependents : ∀ n, ∀ m ∈ s.dependents n, m ∈ us) :
    s.Ascending us Neat sent next where
  mono := mono
  ready := ready
  dependents := dependents
  fits n _ f neat := computes.neat n neat
  here n _ f _ := by
    have values := computes.value_here n f
    exact ⟨fun v => (congrFun values v).le, fun v => (congrFun values v).ge⟩
  elsewhere := computes.elsewhere
  changed n _ f neat told equivalent := by
    rw [computes.changed, (Constants.same_iff_equiv (neat n) (computes.normal n _)).mpr equivalent] at told
    cases told

end Computes

theorem computes (g : Cfg) (b : Body) : Computes (analysis.system g b) (next g b) :=
  computes_of_scheme (c := analysis.scheme g b) rfl rfl rfl (fun _ _ => rfl) (normal_next g b)

theorem Steady.ascending {g : Cfg} {b : Body} (steady : Steady b) (mirrored : g.Mirrored) :
    (analysis.system g b).Ascending (analysis.unknowns g) Neat sent (next g b) := by
  refine (computes g b).ascending ?_ ?_ ?_
  · intro n _ x y below
    exact steady.monotone n (Constants.gather_mono le_rfl fun m _ => below m)
  · exact fun n unknown => Analysis.ready_of_mem mirrored (Analysis.mem_unknowns.mp unknown).1
  · exact fun n m depends => Analysis.dependents_unknown mirrored depends

/-! ## Whole runs -/

theorem sent_initialFacts (g : Cfg) (b : Body) (n : Node) :
    sent (analysis.initialFacts g b) n = if n = g.entry then boundary b else OrderedMap.empty :=
  Analysis.behind_initialFacts analysis g b n

theorem normal_boundary (b : Body) : (boundary b).Normal := Constants.Normal.empty.foldl_set _ _

theorem rising_initialFacts (g : Cfg) (b : Body) :
    System.Rising (analysis.unknowns g) Neat sent (next g b) (analysis.initialFacts g b) where
  fits n := by
    rw [sent_initialFacts]
    split
    · exact normal_boundary b
    · exact .empty
  below n unknown := by
    have inner : n ≠ g.entry := (Analysis.mem_unknowns.mp unknown).2
    rw [sent_initialFacts, if_neg inner]
    exact Constants.empty_le _

theorem initialFacts_le {g : Cfg} {b : Body} {x : Node → Constants Var} (first : boundary b ≤ x g.entry) :
    sent (analysis.initialFacts g b) ≤ x := by
  intro n
  rw [sent_initialFacts]
  split
  · next here => exact here ▸ first
  · exact Constants.empty_le _

def scope (b : Body) : List Var := b.params ++ b.stmts.filterMap Stmt.defVar?

/-- The highest fact that a run can come to: nothing in scope is a constant. -/
def ceiling (b : Body) : Constants Var := (scope b).foldl (fun f v => f.set v .nac) OrderedMap.empty

theorem value_ceiling (b : Body) (v : Var) :
    (ceiling b).value v = if v ∈ scope b then .nac else .undefined := Constants.value_foldl_set _ _ _ _

theorem boundary_le_ceiling (b : Body) : boundary b ≤ ceiling b := by
  intro v
  rw [value_boundary, value_ceiling]
  split
  · next param =>
      have inside : v ∈ scope b := List.mem_append_left _ param.1
      rw [if_pos inside]
  · exact bot_le

theorem transfer_le_ceiling {b : Body} {f : Constants Var} (below : f ≤ ceiling b) (n : Node) :
    transfer (b.stmt? n) f ≤ ceiling b := by
  cases stands : b.stmt? n with
  | none => exact below
  | some s =>
      rcases transfer_cases s with same | ⟨v, e, written, -, -, writes⟩
      · rwa [same]
      · have inside : v ∈ scope b :=
          List.mem_append_right _ (List.mem_filterMap.mpr ⟨s, Body.mem_of_stmt? stands, written⟩)
        intro u
        rw [writes, Constants.value_set]
        split
        · next here => exact Value.le_iff.mpr (.inr (.inl (by rw [value_ceiling, ← here, if_pos inside])))
        · exact below u

theorem Steady.exists_end {g : Cfg} {b : Body} (steady : Steady b) (mirrored : g.Mirrored) (strategy : Strategy) :
    ∃ k final, (analysis.system g b).Ends (analysis.agenda g strategy) (analysis.initialFacts g b) k final := by
  -- no update raises the ceiling, and below it facts speak only of variables in scope
  have closed : System.Closed (analysis.unknowns g) (next g b) fun _ => ceiling b := fun n _ =>
    transfer_le_ceiling (Constants.gather_le (Constants.empty_le _) fun _ _ => le_rfl) n
  refine (steady.ascending mirrored).exists_end (analysis.agenda_over g strategy)
    (rising_initialFacts g b) closed (initialFacts_le (boundary_le_ceiling b)) (Constants.height_mono (scope b)) ?_
  intro _ _ f f' less bounded
  refine Constants.height_lt less fun v known => ?_
  by_contra outside
  have unknown := bounded v
  rw [value_ceiling, if_neg outside] at unknown
  exact known (le_bot_iff.mp unknown)

/-! ## Solutions -/

section Solutions
variable {g : Cfg} {b : Body} {f f' : Facts Node (Constants Var)} {n : Node}

theorem sent_entry (solves : analysis.Solves g b f) : sent f g.entry = boundary b := by
  have found : f.behind.get? g.entry = some (boundary b) := solves.start.2
  exact sent_of_get? found

theorem get?_behind (solves : analysis.Solves g b f) (inside : n ∈ g.nodes) : f.behind.get? n = some (sent f n) := by
  by_cases first : n = g.entry
  · subst first
    rw [sent_entry solves]
    exact solves.start.2
  · exact (facts_of_solves solves inside first).2.1

theorem closed_of_solves (solves : analysis.Solves g b f) :
    System.Closed (analysis.unknowns g) (next g b) (sent f) := by
  intro n unknown v
  obtain ⟨inside, inner⟩ := Analysis.mem_unknowns.mp unknown
  obtain ⟨-, -, same⟩ := facts_of_solves solves inside inner
  exact (congrFun (Constants.value_eq_of_same same) v).ge

theorem sameAt_of_equiv (solves : analysis.Solves g b f) (solves' : analysis.Solves g b f') (neat : Neat f)
    (neat' : Neat f') (le : sent f ≤ sent f') (ge : sent f' ≤ sent f) (inside : n ∈ g.nodes) {t t' : Nat}
    {strategy strategy' : Strategy} :
    Solution.SameAt OrderedMap.same ⟨.forward, f, t, strategy⟩ ⟨.forward, f', t', strategy'⟩ n := by
  have outputs : (sent f n).same (sent f' n) = true :=
    (Constants.same_iff_equiv (neat n) (neat' n)).mpr ⟨le n, ge n⟩
  by_cases first : n = g.entry
  · subst first
    have sends : f.behind.get? g.entry = some (boundary b) := solves.start.2
    have sends' : f'.behind.get? g.entry = some (boundary b) := solves'.start.2
    have refl (x : Constants Var) : x.same x = true := lawful.refl x
    exact ⟨⟨_, _, solves.start.1, solves'.start.1, refl _⟩, _, _, sends, sends', refl _⟩
  · obtain ⟨before, behind, -⟩ := facts_of_solves solves inside first
    obtain ⟨before', behind', -⟩ := facts_of_solves solves' inside first
    have inputs : (Constants.gather OrderedMap.empty (g.preds n) (sent f)).same
        (Constants.gather OrderedMap.empty (g.preds n) (sent f')) = true :=
      (Constants.same_iff_equiv (.gather .empty) (.gather .empty)).mpr
        ⟨Constants.gather_mono le_rfl fun m _ => le m, Constants.gather_mono le_rfl fun m _ => ge m⟩
    exact ⟨⟨_, _, before, before', inputs⟩, _, _, behind, behind', outputs⟩

end Solutions

theorem Steady.least {g : Cfg} {b : Body} (steady : Steady b) (mirrored : g.Mirrored) {strategy : Strategy} {t : Nat}
    {f : Facts Node (Constants Var)}
    (ends : (analysis.system g b).Ends (analysis.agenda g strategy) (analysis.initialFacts g b) t f) :
    Neat f ∧ ∀ x, boundary b ≤ x g.entry → System.Closed (analysis.unknowns g) (next g b) x → sent f ≤ x := by
  obtain ⟨a, run, -⟩ := ends
  obtain ⟨-, rising, least⟩ := (steady.ascending mirrored).after
    (analysis.agenda_over g strategy) (rising_initialFacts g b) run
  exact ⟨rising.fits, fun x first closed => least x closed (initialFacts_le first)⟩

theorem Steady.sameAt {g : Cfg} {b : Body} (steady : Steady b) (mirrored : g.Mirrored)
    {strategy strategy' : Strategy} {t t' : Nat} {f f' : Facts Node (Constants Var)}
    (ends : (analysis.system g b).Ends (analysis.agenda g strategy) (analysis.initialFacts g b) t f)
    (ends' : (analysis.system g b).Ends (analysis.agenda g strategy') (analysis.initialFacts g b) t' f')
    (solves : analysis.Solves g b f) (solves' : analysis.Solves g b f') {n : Node} (inside : n ∈ g.nodes) :
    Solution.SameAt OrderedMap.same ⟨.forward, f, t, strategy⟩ ⟨.forward, f', t', strategy'⟩ n := by
  obtain ⟨neat, least⟩ := steady.least mirrored ends
  obtain ⟨neat', least'⟩ := steady.least mirrored ends'
  -- each solves the equations, so that the other is below it
  have le : sent f ≤ sent f' := least _ (sent_entry solves').ge (closed_of_solves solves')
  have ge : sent f' ≤ sent f := least' _ (sent_entry solves).ge (closed_of_solves solves)
  exact sameAt_of_equiv solves solves' neat neat' le ge inside

/-- Without a limit, either strategy comes to an end on a steady body. -/
theorem settles_on_steady {b : Body} {g : Cfg} (drawn : g.Drawn b) (steady : Steady b) (strategy : Strategy) :
    ∃ s t, analysis.solve g b strategy none = .settled s t := by
  obtain ⟨t, final, ends⟩ := steady.exists_end drawn.mirrored strategy
  exact ⟨_, t, Analysis.solve_settled_iff.mpr ⟨final, rfl, ends, by simp⟩⟩

theorem loop_settles : Loop.graph.Drawn Loop.body ∧ Steady Loop.body ∧
    ∃ s t, analysis.solve Loop.graph Loop.body .iterative none = .settled s t :=
  ⟨.built Loop.graph_built, Loop.divisionFree.steady,
    settles_on_steady (.built Loop.graph_built) Loop.divisionFree.steady .iterative⟩

end Propagation

namespace Pulse
open Loop (method p x)
open Propagation (analysis)

/-- A loop that divides a parameter by `x`, and sets `x` to zero on one of two ways back. -/
def instrs : List Instr := [
  .label "head",
  .compute "x" .div (.ident "p") (.ident "x"),
  .branch .gt (.ident "p") (.int 0) "skip",
  .assign (.ident "x") (.int 0),
  .label "again",
  .goto "head",
  .label "skip",
  .branch .lt (.ident "p") (.int 0) "again"]

def body : Body where
  method := method
  this := none
  params := [p]
  stmts := [
    .assign (.var x) (.bin .div (.var p) (.var x)),
    .branch .gt (.var p) (.lit 0) (some (.stmt 4 method)),
    .assign (.var x) (.lit 0),
    .goto (some (.stmt 0 method)),
    .branch .lt (.var p) (.lit 0) (some (.stmt 3 method))]
  vars := [p, x]

def graph : Cfg := (Cfg.bare 0 method 5).drawAll ((Cfg.bare 0 method 5).edgesOf body)

set_option maxRecDepth 10000 in
theorem body_finished : body.Finished := by
  have done : (Drafting.finish.on (.ofInstrs method true ["p"] instrs)).1 = .ok body := rfl
  exact Body.finished_of_instrs done

/-- Neither strategy comes to an end: after eight updates, twelve more lead back to the same facts. -/
theorem pulse_endless : body.Finished ∧ Cfg.build 0 body = .ok graph ∧
    ∀ strategy, analysis.solve graph body strategy none = .endless := by
  refine ⟨body_finished, rfl, fun strategy => Analysis.solve_eq_endless ?_⟩
  have going : ((analysis.system graph body).walk 8
      (analysis.agenda graph strategy, analysis.initialFacts graph body)).isSome = true := by
    cases strategy <;> decide +kernel
  have recurs : (analysis.system graph body).walk (8 + (11 + 1))
      (analysis.agenda graph strategy, analysis.initialFacts graph body) =
        (analysis.system graph body).walk 8 (analysis.agenda graph strategy, analysis.initialFacts graph body) := by
    cases strategy <;> decide +kernel
  exact System.endless_of_recurs going recurs

end Pulse

namespace Propagation

/-- Wherever both strategies come to an end on a steady body, they have found the same facts. -/
theorem strategies_agree_on_steady {b : Body} {g : Cfg} (drawn : g.Drawn b) (steady : Steady b)
    {limit limit' : Option Int} {w i : Solution Node (Constants Var)} {t t' : Nat}
    (worklist : analysis.solve g b .worklist limit = .settled w t)
    (iterative : analysis.solve g b .iterative limit' = .settled i t') :
    ∀ n ∈ g.nodes, w.SameAt OrderedMap.same i n := by
  have solves := Analysis.solves_of_settled lawful drawn.mirrored worklist
  have solves' := Analysis.solves_of_settled lawful drawn.mirrored iterative
  obtain ⟨f, rfl, ends, -⟩ := Analysis.solve_settled_iff.mp worklist
  obtain ⟨f', rfl, ends', -⟩ := Analysis.solve_settled_iff.mp iterative
  exact fun n inside => steady.sameAt drawn.mirrored ends ends' solves solves' inside

theorem loop_strategies_agree : Loop.graph.Drawn Loop.body ∧ Steady Loop.body ∧
    ∃ w t i t', analysis.solve Loop.graph Loop.body .worklist (some 40) = .settled w t ∧
      analysis.solve Loop.graph Loop.body .iterative (some 40) = .settled i t' ∧
      ∀ n ∈ Loop.graph.nodes, w.SameAt OrderedMap.same i n := by
  obtain ⟨w, t, worklist⟩ : ∃ w t, analysis.solve Loop.graph Loop.body .worklist (some 40) = .settled w t :=
    Outcome.exists_of_state? (by decide +kernel)
  obtain ⟨i, t', iterative⟩ : ∃ i t, analysis.solve Loop.graph Loop.body .iterative (some 40) = .settled i t :=
    Outcome.exists_of_state? (by decide +kernel)
  exact ⟨.built Loop.graph_built, Loop.divisionFree.steady, w, t, i, t', worklist, iterative,
    strategies_agree_on_steady (.built Loop.graph_built) Loop.divisionFree.steady worklist iterative⟩

end Propagation

namespace Race
open Loop (method p x)
open Propagation (analysis)

def instrs : List Instr := [
  .goto "test",
  .label "again",
  .goto "top",
  .label "top",
  .compute "x" .div (.ident "p") (.ident "x"),
  .label "test",
  .branch .gt (.ident "p") (.int 0) "top",
  .assign (.ident "x") (.int 0),
  .branch .lt (.ident "p") (.int 0) "again"]

def body : Body where
  method := method
  this := none
  params := [p]
  stmts := [
    .goto (some (.stmt 3 method)),
    .goto (some (.stmt 2 method)),
    .assign (.var x) (.bin .div (.var p) (.var x)),
    .branch .gt (.var p) (.lit 0) (some (.stmt 2 method)),
    .assign (.var x) (.lit 0),
    .branch .lt (.var p) (.lit 0) (some (.stmt 1 method))]
  vars := [p, x]

def graph : Cfg := (Cfg.bare 0 method 6).drawAll ((Cfg.bare 0 method 6).edgesOf body)

set_option maxRecDepth 10000 in
theorem body_finished : body.Finished := by
  have done : (Drafting.finish.on (.ofInstrs method true ["p"] instrs)).1 = .ok body := rfl
  exact Body.finished_of_instrs done

/-- Both strategies come to an end, but only for one of them `x` is zero before the division. -/
theorem race_differs : body.Finished ∧ Cfg.build 0 body = .ok graph ∧
    ∃ w t i t', analysis.solve graph body .worklist none = .settled w t ∧
      analysis.solve graph body .iterative none = .settled i t' ∧
      ¬ w.SameAt OrderedMap.same i (graph.node 2) := by
  have computed : ((analysis.solve graph body .worklist (some 40)).state?.bind fun w =>
      (analysis.solve graph body .iterative (some 40)).state?.map fun i =>
        ((w.input.get? (graph.node 2)).map (Constants.value · x),
          (i.input.get? (graph.node 2)).map (Constants.value · x))) =
      some (some .nac, some (.const 0)) := by decide +kernel
  simp only [Option.bind_eq_some_iff, Option.map_eq_some_iff, Prod.mk.injEq] at computed
  obtain ⟨w, foundW, i, foundI, ⟨fw, atW, valueW⟩, fi, atI, valueI⟩ := computed
  obtain ⟨t, worklist⟩ := Outcome.settled_of_state? foundW
  obtain ⟨t', iterative⟩ := Outcome.settled_of_state? foundI
  refine ⟨body_finished, rfl, w, t, i, t', Analysis.solve_none_of_settled worklist,
    Analysis.solve_none_of_settled iterative, ?_⟩
  rintro ⟨⟨y, z, here, there, same⟩, -⟩
  obtain rfl := Option.some.inj (atW.symm.trans here)
  obtain rfl := Option.some.inj (atI.symm.trans there)
  rw [Constants.value_eq_of_same same, valueI] at valueW
  cases valueW

end Race

namespace Propagation

structure Balanced (g : Cfg) (b : Body) (before behind : Node → Constants Var) : Prop where
  entry : (behind g.entry).same (boundary b) = true
  meets : ∀ n ∈ g.nodes, n ≠ g.entry →
    (before n).same (Constants.lattice.meetAll ((g.preds n).map behind)) = true
  transfers : ∀ n ∈ g.nodes, n ≠ g.entry → (behind n).same (transfer (b.stmt? n) (before n)) = true

structure LeastSolution (g : Cfg) (b : Body) (s : Solution Node (Constants Var)) : Prop where
  balanced : Balanced g b (s.input.getD · OrderedMap.empty) (s.output.getD · OrderedMap.empty)
  least : ∀ before behind, Balanced g b before behind → ∀ n ∈ g.nodes, n ≠ g.entry →
    Constants.le (s.input.getD n OrderedMap.empty) (before n) = true ∧
      Constants.le (s.output.getD n OrderedMap.empty) (behind n) = true

section Least
variable {g : Cfg} {b : Body} {before behind : Node → Constants Var}

theorem Balanced.gather_equiv (balanced : Balanced g b before behind) {n : Node} (inside : n ∈ g.nodes)
    (inner : n ≠ g.entry) :
    AntisymmRel (· ≤ ·) (Constants.gather OrderedMap.empty (g.preds n) behind) (before n) := by
  have values := Constants.value_eq_of_same (balanced.meets n inside inner)
  rw [← Constants.gather_eq_meetAll] at values
  exact ⟨fun v => (congrFun values v).ge, fun v => (congrFun values v).le⟩

theorem Balanced.closed (balanced : Balanced g b before behind) (steady : Steady b) :
    System.Closed (analysis.unknowns g) (next g b) behind := by
  intro n unknown
  obtain ⟨inside, inner⟩ := Analysis.mem_unknowns.mp unknown
  calc next g b n behind
    _ ≤ transfer (b.stmt? n) (before n) := steady.monotone n (balanced.gather_equiv inside inner).1
    _ ≤ behind n := fun v => (congrFun (Constants.value_eq_of_same (balanced.transfers n inside inner)) v).ge

theorem balanced_of_solves {f : Facts Node (Constants Var)} (solves : analysis.Solves g b f) :
    Balanced g b (f.before.getD · OrderedMap.empty) (f.behind.getD · OrderedMap.empty) where
  entry := by
    rw [show f.behind.getD g.entry OrderedMap.empty = boundary b from sent_entry solves]
    exact lawful.refl (boundary b)
  meets n inside inner := by
    obtain ⟨here, -⟩ := facts_of_solves solves inside inner
    rw [OrderedMap.getD, here, Option.getD_some, Constants.gather_eq_meetAll]
    exact lawful.refl _
  transfers n inside inner := by
    obtain ⟨here, -, same⟩ := facts_of_solves solves inside inner
    have met : f.before.getD n OrderedMap.empty = Constants.gather OrderedMap.empty (g.preds n) (sent f) := by
      rw [OrderedMap.getD, here, Option.getD_some]
    rw [met]
    exact same

theorem Steady.leastSolution (steady : Steady b) (mirrored : g.Mirrored) {strategy : Strategy} {t : Nat}
    {f : Facts Node (Constants Var)}
    (ends : (analysis.system g b).Ends (analysis.agenda g strategy) (analysis.initialFacts g b) t f)
    (solves : analysis.Solves g b f) : LeastSolution g b ⟨.forward, f, t, strategy⟩ := by
  refine ⟨balanced_of_solves solves, fun before behind balanced n inside inner => ?_⟩
  have first : boundary b ≤ behind g.entry := fun v =>
    (congrFun (Constants.value_eq_of_same balanced.entry) v).ge
  have below : sent f ≤ behind := (steady.least mirrored ends).2 behind first (balanced.closed steady)
  obtain ⟨here, -⟩ := facts_of_solves solves inside inner
  refine ⟨Constants.le_iff.mpr ?_, Constants.le_iff.mpr (below n)⟩
  rw [Solution.input, OrderedMap.getD, here, Option.getD_some]
  exact (Constants.gather_mono le_rfl fun m _ => below m).trans (balanced.gather_equiv inside inner).1

end Least

/-- On a body that does not divide, both strategies come to an end without a limit, with the same facts, and these
are the least solution of the equations. -/
theorem least_on_divisionFree {b : Body} {g : Cfg} (drawn : g.Drawn b) (free : DivisionFree b) :
    ∃ w t i t', analysis.solve g b .worklist none = .settled w t ∧
      analysis.solve g b .iterative none = .settled i t' ∧
      (∀ n ∈ g.nodes, w.SameAt OrderedMap.same i n) ∧ LeastSolution g b w ∧ LeastSolution g b i := by
  have steady := free.steady
  obtain ⟨t, f, ends⟩ := steady.exists_end drawn.mirrored .worklist
  obtain ⟨t', f', ends'⟩ := steady.exists_end drawn.mirrored .iterative
  have worklist : analysis.solve g b .worklist none = .settled ⟨.forward, f, t, .worklist⟩ t :=
    Analysis.solve_settled_iff.mpr ⟨f, rfl, ends, by simp⟩
  have iterative : analysis.solve g b .iterative none = .settled ⟨.forward, f', t', .iterative⟩ t' :=
    Analysis.solve_settled_iff.mpr ⟨f', rfl, ends', by simp⟩
  have solves := Analysis.solves_of_settled lawful drawn.mirrored worklist
  have solves' := Analysis.solves_of_settled lawful drawn.mirrored iterative
  exact ⟨_, t, _, t', worklist, iterative,
    fun n inside => steady.sameAt drawn.mirrored ends ends' solves solves' inside,
    steady.leastSolution drawn.mirrored ends solves, steady.leastSolution drawn.mirrored ends' solves'⟩

theorem loop_least : Loop.graph.Drawn Loop.body ∧ DivisionFree Loop.body ∧
    ∃ w t i t', analysis.solve Loop.graph Loop.body .worklist none = .settled w t ∧
      analysis.solve Loop.graph Loop.body .iterative none = .settled i t' ∧
      (∀ n ∈ Loop.graph.nodes, w.SameAt OrderedMap.same i n) ∧
      LeastSolution Loop.graph Loop.body w ∧ LeastSolution Loop.graph Loop.body i :=
  ⟨.built Loop.graph_built, Loop.divisionFree,
    least_on_divisionFree (.built Loop.graph_built) Loop.divisionFree⟩

end Propagation

end Dataflow
