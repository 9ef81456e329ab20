import Dataflow.Proofs.Analysis.Equations
import Dataflow.Proofs.Workspace.Results
import Dataflow.Workspace.Calls

/-!
Limits on the number of transfers. A run makes the same updates in the same order under every limit, so a limit that
leaves room for all of them makes no difference, and under any other the run is given up with an error that tells the
limit (`limit_only_cuts_short`). It cannot fail otherwise, since all that comes to be on the agenda is in the graph.
-/

namespace Dataflow

structure System.EndsIn {φ : Type} (s : System Node (Facts Node φ)) (agenda : Agenda Node) (first : Facts Node φ)
    (direction : Direction) (strategy : Strategy) (found : Solution Node φ) : Prop where
  direction : found.direction = direction
  used : found.strategy = strategy
  ends : s.Ends agenda first found.transfers found.facts

def Analysis.EndsIn {φ : Type} (a : Analysis φ) (g : Cfg) (b : Body) (strategy : Strategy) :
    Solution Node φ → Prop :=
  (a.system g b).EndsIn (a.agenda g strategy) (a.initialFacts g b) a.direction strategy

def Problem.EndsIn (q : Problem) (g : Cfg) (b : Body) (strategy : Strategy) : Solved → Prop
  | .constants s => q = .constants ∧ Propagation.analysis.EndsIn g b strategy s
  | .liveness s => q = .liveness ∧ Liveness.analysis.EndsIn g b strategy s

def Interprocedural.EndsIn (p : Program) (i : Icfg) (g : CallGraph) : Solution Node (Constants Var) → Prop :=
  (system p i g).EndsIn (.worklist i.nodes) (initialFacts p i g) .forward .worklist

/-! ## Outcomes -/

structure Limited {α : Type} (outcome : Option Int → Outcome Node α) (transfers : α → Nat) (Ends : α → Prop) :
    Prop where
  settled_iff : ∀ limit s, (∃ t, outcome limit = .settled s t) ↔
    Ends s ∧ ∀ k, limit = some k → transfers s ≤ k.toNat
  moves : ∀ limit n, outcome limit ≠ .stuck n

theorem Limited.map {α β : Type} {outcome : Option Int → Outcome Node α} {transfers : α → Nat} {Ends : α → Prop}
    (limited : Limited outcome transfers Ends) (f : α → β) {transfers' : β → Nat} {Ends' : β → Prop}
    (counts : ∀ s, transfers' (f s) = transfers s) (ends : ∀ s', Ends' s' ↔ ∃ s, f s = s' ∧ Ends s) :
    Limited (fun limit => (outcome limit).map f) transfers' Ends' where
  settled_iff limit s' := by
    simp only [Outcome.map_settled_iff, ends]
    constructor
    · rintro ⟨t, s, settled, rfl⟩
      obtain ⟨ended, bound⟩ := (limited.settled_iff limit s).mp ⟨t, settled⟩
      exact ⟨⟨s, rfl, ended⟩, by rwa [counts]⟩
    · rintro ⟨⟨s, rfl, ended⟩, bound⟩
      rw [counts] at bound
      obtain ⟨t, settled⟩ := (limited.settled_iff limit s).mpr ⟨ended, bound⟩
      exact ⟨t, s, settled, rfl⟩
  moves limit n := by
    have moves := limited.moves limit
    cases ran : outcome limit with
    | stuck m => exact absurd ran (moves m)
    | _ => simp [Outcome.map]

theorem Limited.of_system {φ : Type} {s : System Node (Facts Node φ)} {agenda : Agenda Node} {first : Facts Node φ}
    {direction : Direction} {strategy : Strategy} {us : List Node}
    {outcome : Option Int → Outcome Node (Solution Node φ)} (inside : ∀ n, ∀ m ∈ s.dependents n, m ∈ us)
    (ready : ∀ n ∈ us, s.ready n = true) (ranges : agenda.Over us)
    (settles : ∀ limit found t, outcome limit = .settled found t ↔
      ∃ facts, found = ⟨direction, facts, t, strategy⟩ ∧ s.Ends agenda first t facts ∧
        ∀ k, limit = some k → t ≤ k.toNat)
    (stuck : ∀ limit n, outcome limit = .stuck n → s.solve agenda first limit = .stuck n) :
    Limited outcome Solution.transfers (s.EndsIn agenda first direction strategy) where
  settled_iff limit found := by
    simp only [settles]
    constructor
    · rintro ⟨t, facts, rfl, ends, bound⟩
      exact ⟨⟨rfl, rfl, ends⟩, bound⟩
    · rintro ⟨⟨rfl, rfl, ends⟩, bound⟩
      exact ⟨found.transfers, found.facts, rfl, ends, bound⟩
  moves limit n stops := System.solve_ne_stuck inside ready ranges first limit n (stuck limit n stops)

theorem Analysis.limited {φ : Type} (a : Analysis φ) {g : Cfg} (mirrored : g.Mirrored) (b : Body)
    (strategy : Strategy) : Limited (a.solve g b strategy) Solution.transfers (a.EndsIn g b strategy) := by
  refine .of_system (fun _ _ => dependents_unknown mirrored) (fun n unknown => ?_) (a.agenda_over g strategy)
    (fun _ _ _ => solve_settled_iff) fun limit n stops => ?_
  · exact ready_of_mem mirrored (mem_unknowns.mp unknown).1
  · rw [solve] at stops
    cases ran : (a.system g b).solve (a.agenda g strategy) (a.initialFacts g b) limit <;> simp_all

theorem Problem.limited (q : Problem) {g : Cfg} {b : Body} (drawn : g.Drawn b) (strategy : Strategy) :
    Limited (q.solve g b strategy) Solved.transfers (q.EndsIn g b strategy) := by
  cases q with
  | constants =>
      refine (Propagation.analysis.limited drawn.mirrored b strategy).map Solved.constants (fun _ => rfl) fun s' => ?_
      cases s' <;> simp [Problem.EndsIn]
  | liveness =>
      refine (Liveness.analysis.limited drawn.mirrored b strategy).map Solved.liveness (fun _ => rfl) fun s' => ?_
      cases s' <;> simp [Problem.EndsIn]

theorem Interprocedural.limited (p : Program) {i : Icfg} (inside : ∀ e ∈ i.outgoing, e.target ∈ i.nodes)
    (g : CallGraph) : Limited (solve p i g) Solution.transfers (EndsIn p i g) := by
  have ranges : (Agenda.worklist i.nodes).Over i.nodes := fun _ member => member
  refine .of_system (fun n m depends => ?_) (fun n member => ?_) ranges (fun _ _ _ => solve_settled_iff)
    fun limit n stops => ?_
  · obtain ⟨e, edge, -, rfl⟩ := Icfg.mem_succs.mp depends
    exact inside e edge
  · simpa [system, Icfg.contains] using member
  · rw [solve] at stops
    cases ran : (system p i g).solve (.worklist i.nodes) (initialFacts p i g) limit <;> simp_all

/-! ## Sessions -/

namespace Session
open Steps (on_bind on_bind_ok)

/-- Limits only cut runs short. Without limit, solving returns the solution that the run ends in. With a limit it
returns the same, and leaves the same workspace, if the solution took no more transfers than that; else it fails with
an error that tells the limit. -/
structure CutsShort {α : Type} (id : String) (transfers : α → Nat) (Ends : α → Prop)
    (solving : Option Int → Session α) (w : Workspace) : Prop where
  unlimited : ∀ s, (∃ w', (solving none).on w = (.ok s, w')) ↔ Ends s
  returns : ∀ (k : Nat) s w', (solving (some k)).on w = (.ok s, w') ↔
    (solving none).on w = (.ok s, w') ∧ transfers s ≤ k
  refuses : ∀ k : Nat, (∀ s, Ends s → k < transfers s) →
    (solving (some k)).on w = (.error (.noConvergence id k), w)

theorem cutsShort_of_limited {α : Type} {outcome : Option Int → Outcome Node α} {transfers : α → Nat}
    {Ends : α → Prop} (limited : Limited outcome transfers Ends) {id : String} {solving : Option Int → Session α}
    {w : Workspace} (stuck : Node → Session Error) (source : String) (text : α → String)
    (steps : ∀ limit, (solving limit).on w = (do
      let s ← settled id limit stuck (outcome limit)
      note .debug source (text s)
      return s : Session α).on w) : CutsShort id transfers Ends solving w := by
  have returned (limit : Option Int) (s : α) (w' : Workspace) : (solving limit).on w = (.ok s, w') ↔
      (Ends s ∧ ∀ k, limit = some k → transfers s ≤ k.toNat) ∧
        w' = { w with log := w.log ++ [⟨.debug, source, text s⟩] } := by
    rw [steps, ← limited.settled_iff]
    constructor
    · intro ran
      obtain ⟨s', between, settling, noted⟩ := on_bind_ok.mp ran
      obtain ⟨rfl, t, settled⟩ := settled_ok settling
      cases noted
      exact ⟨⟨t, settled⟩, rfl⟩
    · rintro ⟨⟨t, settled⟩, rfl⟩
      rw [settled]
      rfl
  refine ⟨fun s => ?_, fun k s w' => ?_, fun k late => ?_⟩
  · simp [returned]
  · simp only [returned]
    simp [and_right_comm]
  · rw [steps, on_bind]
    cases ran : outcome (some k) with
    | settled s t =>
        obtain ⟨ended, bound⟩ := (limited.settled_iff (some k) s).mp ⟨t, ran⟩
        exact absurd (bound k rfl) (Nat.not_le.mpr (late s ended))
    | stuck n => exact absurd ran (limited.moves _ n)
    | exhausted | endless => rfl

/-- A limit makes no difference to whatever ends within it, and whatever does not is refused: for both problems and
both strategies on every graph of a body, as built or with more edges, and for every joined graph. -/
theorem limit_only_cuts_short (w : Workspace) :
    (∀ g b, w.program.body? g.method = some b → g.Drawn b → ∀ (q : Problem) (strategy : Strategy),
      CutsShort q.id Solved.transfers (q.EndsIn g b strategy) (solve q g strategy) w) ∧
    ∀ (j : Joined) p g graphs, Icfg.build p g graphs = .ok j.icfg → ∀ id : String,
      CutsShort id Solution.transfers
        (Interprocedural.EndsIn w.program j.icfg ((w.callGraphs[j.callGraph]?).getD .empty))
        (solveJoined j id .forward) w := by
  constructor
  · intro g b body drawn q strategy
    refine cutsShort_of_limited (q.limited drawn strategy) (stuckIn g) "dataflow_engine"
      (fun s => q.id ++ " on " ++ g.method.text ++ ": " ++ strategy.text ++ " fixpoint after " ++
        toString s.transfers ++ " transfers") fun limit => ?_
    have asked : (bodyOf g.method).on w = (.ok b, w) := by simp [bodyOf, on_bind, Program.body, body]
    rw [solve, on_bind, asked]
  · intro j p g graphs built id
    refine cutsShort_of_limited (Interprocedural.limited w.program (Icfg.build_ok_iff.mp built).2 _)
      (fun n => return .notInIcfg ((← get).shown n)) "interproc_analysis"
      (fun s => id ++ ": interprocedural fixpoint after " ++ toString s.transfers ++ " transfers over " ++
        toString j.icfg.nodes.length ++ " nodes") fun limit => ?_
    rw [solveJoined, if_neg (by decide)]
    simp only [callGraph, on_bind, Steps.on_get, Steps.on_pure]

end Session

namespace Echo
open Loop (method)

def workspace : Workspace := { Workspace.empty with program := program, callGraphs := [calls] }

theorem echo_cut_short : workspace.program.body? (flow method).method = some body ∧ (flow method).Drawn body ∧
    Icfg.build program calls (calls.graphs program flow) = .ok joined ∧
    (Session.CutsShort "constprop" Solved.transfers (Problem.constants.EndsIn (flow method) body .iterative)
      (Session.solve .constants (flow method) .iterative) workspace ∧
      Session.CutsShort "inter-constprop" Solution.transfers (Interprocedural.EndsIn program joined calls)
        (Session.solveJoined ⟨joined, 0⟩ "inter-constprop" .forward) workspace) := by
  have drawn : (flow method).Drawn body := .built (show Cfg.build 0 body = .ok (flow method) from rfl)
  have built : Icfg.build program calls (calls.graphs program flow) = .ok joined := rfl
  obtain ⟨single, whole⟩ := Session.limit_only_cuts_short workspace
  exact ⟨rfl, drawn, built, single _ _ rfl drawn .constants .iterative, whole ⟨joined, 0⟩ _ _ _ built _⟩

end Echo

end Dataflow
