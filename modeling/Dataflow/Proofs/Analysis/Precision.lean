import Dataflow.Proofs.Analysis.Equations
import Dataflow.Proofs.Analysis.Strategies

/-!
Propagation through calls knows at least as much as propagation within each method. Where nothing divides, what the
edges and nodes of a joined graph make of facts is monotone, so that facts only rise. Solutions for the single methods,
taken together, are facts that no update raises (`closed_of_within`): they assume nothing of parameters and of results of
calls, which is all that edges between methods can carry. Hence a run through calls ends, and it ends below them
(`through_calls_le_within`).
-/

namespace Dataflow

namespace Interprocedural
open Propagation (sent Neat boundary)

def passed (p : Program) (x : Node → Constants Var) (e : IcfgEdge) : Constants Var :=
  transferEdge p e.passage (x e.source)

def incoming (p : Program) (i : Icfg) (g : CallGraph) (n : Node) (x : Node → Constants Var) : Constants Var :=
  Constants.gather (((boundaries p i g).get? n).getD OrderedMap.empty) (i.inEdges n) (passed p x)

def next (p : Program) (i : Icfg) (g : CallGraph) (n : Node) (x : Node → Constants Var) : Constants Var :=
  transferNode (stmtAt p n) (incoming p i g n x)

structure Regular (p : Program) (g : CallGraph) : Prop where
  free : ∀ m ∈ g.reachable, ∀ b, p.body? m = some b → Propagation.DivisionFree b
  params : ∀ m ∈ g.reachable, ∀ b, p.body? m = some b → ∀ v ∈ b.params, v.holdsInt = true
  results : ∀ m ∈ g.reachable, ∀ b, p.body? m = some b → ∀ call v, Stmt.invoke call (some v) ∈ b.stmts →
    v.holdsInt = true

/-! ## Edges and nodes -/

section Transfers
variable {p : Program} {f x : Constants Var}

theorem transferEdge_mono (p : Program) (passage : Passage) : Monotone (transferEdge p passage) := by
  intro f f' below
  cases passage with
  | normal kind => exact below
  | callToReturn kind site =>
      simp only [transferEdge]
      cases site.result with
      | none => exact below
      | some v => exact Constants.erase_mono below v
  | call site callee =>
      refine List.foldl_rel le_rfl fun pair _ acc acc' start => ?_
      exact Constants.set_mono start pair.1 (below pair.2)
  | ret site callee returned =>
      simp only [transferEdge]
      cases site.result with
      | none => exact le_rfl
      | some v =>
          refine List.foldl_rel le_rfl fun r _ acc acc' start => ?_
          exact Constants.set_mono start v (sup_le_sup (start v) (below r))

theorem transferEdge_lift_le (b : Body) (way : Edge) (f : Constants Var) :
    transferEdge p (Icfg.lift b way).passage f ≤ f := by
  unfold Icfg.lift
  split
  · next result _ _ =>
      simp only [transferEdge]
      cases result with
      | none => exact le_rfl
      | some v => exact Constants.erase_le f v
  · exact le_rfl

theorem transferEdge_call_le {site : CallSite} {callee : MethodRef} {d : Body} (runs : p.body? callee = some d)
    (ints : ∀ v ∈ d.params, v.holdsInt = true) (f : Constants Var) :
    transferEdge p (.call site callee) f ≤ boundary d := by
  simp only [transferEdge, runs, Option.map_some, Option.getD_some]
  refine List.foldlRecOn (motive := (· ≤ boundary d)) _ _ (Constants.empty_le _) fun acc start pair member => ?_
  have param : pair.1 ∈ d.params := (List.of_mem_zip member).1
  refine Constants.set_le start ?_
  rw [Propagation.value_boundary, if_pos ⟨param, ints _ param⟩]
  exact Value.le_iff.mpr (.inr (.inl rfl))

theorem transferEdge_ret_le {site : CallSite} {callee : MethodRef} {returned : List Var}
    (open_ : ∀ v, site.result = some v → x.value v = .nac) (f : Constants Var) :
    transferEdge p (.ret site callee returned) f ≤ x := by
  simp only [transferEdge]
  cases result : site.result with
  | none => exact Constants.empty_le x
  | some v =>
      refine List.foldlRecOn (motive := (· ≤ x)) _ _ (Constants.empty_le x) fun acc start r _ => ?_
      refine Constants.set_le start ?_
      rw [open_ v result]
      exact Value.le_iff.mpr (.inr (.inl rfl))

theorem transfer_invoke (call : Call) (result : Option Var) (f : Constants Var) :
    Propagation.transfer (some (.invoke call result)) f =
      match result with
      | none => f
      | some v => if v.holdsInt then f.set v .nac else f := by
  cases result <;> rfl

theorem transferNode_le (s : Option Stmt) (f : Constants Var) : transferNode s f ≤ Propagation.transfer s f := by
  unfold transferNode
  split
  · rw [transfer_invoke]
    split
    · exact le_rfl
    · next v =>
        split
        · intro u
          rw [Constants.value_set]
          split
          · exact Value.le_iff.mpr (.inr (.inl rfl))
          · exact le_rfl
        · exact le_rfl
  · exact le_rfl

theorem transferNode_mono {b : Body} (steady : Propagation.Steady b) (n : Node) :
    Monotone (transferNode (b.stmt? n)) := by
  unfold transferNode
  split
  · exact monotone_id
  · exact steady.monotone n

theorem normal_transferNode (normal : f.Normal) (s : Option Stmt) : (transferNode s f).Normal := by
  unfold transferNode
  split
  · exact normal
  · exact Propagation.normal_transfer normal _

end Transfers

/-! ## Facts rise -/

section Rising
variable {p : Program} {g : CallGraph} {flow : MethodRef → Cfg} {i : Icfg} {m : MethodRef} {b : Body} {n : Node}

theorem computes (flows : g.Flows p flow) (built : Icfg.build p g (g.graphs p flow) = .ok i) :
    Propagation.Computes (system p i g) (next p i g) := by
  refine Propagation.computes_of_scheme (c := scheme p i g) rfl rfl rfl (fun _ _ => rfl) fun n x => ?_
  exact normal_transferNode (normal_boundaries flows built n).gather _

theorem ascending (flows : g.Flows p flow) (built : Icfg.build p g (g.graphs p flow) = .ok i)
    (regular : Regular p g) : (system p i g).Ascending i.nodes Neat sent (next p i g) := by
  refine (computes flows built).ascending ?_ ?_ ?_
  · intro n member x y below
    obtain ⟨m, b, reachable, body, inside⟩ := Icfg.of_mem_nodes built member
    unfold next
    rw [stmtAt_eq flows reachable body (Cfg.mem_nodes.mp inside)]
    apply transferNode_mono (regular.free m reachable b body).steady
    exact Constants.gather_mono le_rfl fun e _ => transferEdge_mono p e.passage (below e.source)
  · exact fun n member => decide_eq_true member
  · intro n m depends
    obtain ⟨e, edge, -, rfl⟩ := Icfg.mem_succs.mp depends
    exact (Icfg.build_ok_iff.mp built).2 e edge

theorem sent_initialFacts (p : Program) (i : Icfg) (g : CallGraph) (n : Node) :
    sent (initialFacts p i g) n = ((boundaries p i g).get? n).getD OrderedMap.empty := by
  rw [sent, OrderedMap.getD, get?_initialFacts]
  cases (boundaries p i g).get? n with
  | some fact => rfl
  | none => split <;> rfl

theorem rising_initialFacts (flows : g.Flows p flow) (built : Icfg.build p g (g.graphs p flow) = .ok i) :
    System.Rising i.nodes Neat sent (next p i g) (initialFacts p i g) where
  fits n := by
    rw [sent_initialFacts]
    exact normal_boundaries flows built n
  below n _ := by
    rw [sent_initialFacts]
    cases found : (boundaries p i g).get? n with
    | none => exact Constants.empty_le _
    | some fact =>
        -- an entry has no statement and passes on what comes from outside
        obtain ⟨m, b, -, -, -, rfl, rfl⟩ := (get?_boundaries_iff flows built).mp found
        have through : next p i g (flow m).entry (sent (initialFacts p i g)) =
            incoming p i g (flow m).entry (sent (initialFacts p i g)) := rfl
        rw [through, incoming, found]
        exact Constants.start_le_gather

end Rising

/-! ## Solutions for single methods -/

def Within (p : Program) (g : CallGraph) (flow : MethodRef → Cfg) (x : Node → Constants Var) : Prop :=
  ∀ m ∈ g.reachable, ∀ b, p.body? m = some b →
    ∃ f, Propagation.analysis.Solves (flow m) b f ∧ ∀ n ∈ (flow m).nodes, x n = sent f n

section Within
variable {p : Program} {g : CallGraph} {flow : MethodRef → Cfg} {i : Icfg} {m : MethodRef} {b : Body} {n : Node}
  {x : Node → Constants Var} {f : Facts Node (Constants Var)}

theorem mem_nodes_entry (c : Cfg) : c.entry ∈ c.nodes := Cfg.mem_nodes.mpr (by simp [Cfg.contains, Cfg.entry])

theorem exists_within (flows : g.Flows p flow) {facts : MethodRef → Facts Node (Constants Var)}
    (solves : ∀ m ∈ g.reachable, ∀ b, p.body? m = some b → Propagation.analysis.Solves (flow m) b (facts m)) :
    ∃ x, Within p g flow x ∧ ∀ m ∈ g.reachable, ∀ b, p.body? m = some b → ∀ n ∈ (flow m).nodes,
      x n = sent (facts m) n := by
  classical
  have agree (m : MethodRef) (reachable : m ∈ g.reachable) (b : Body) (body : p.body? m = some b) (n : Node)
      (inside : n ∈ (flow m).nodes) :
      (if there : ∃ m b, m ∈ g.reachable ∧ p.body? m = some b ∧ n ∈ (flow m).nodes then
        sent (facts there.choose) n else OrderedMap.empty) = sent (facts m) n := by
    have there : ∃ m b, m ∈ g.reachable ∧ p.body? m = some b ∧ n ∈ (flow m).nodes := ⟨m, b, reachable, body, inside⟩
    obtain ⟨b', reachable', body', inside'⟩ := there.choose_spec
    rw [dif_pos there, flows.eq_of_mem_nodes reachable' body' reachable body inside' inside]
  exact ⟨_, fun m reachable b body => ⟨facts m, solves m reachable b body, agree m reachable b body⟩, agree⟩

theorem given_le (flows : g.Flows p flow) (built : Icfg.build p g (g.graphs p flow) = .ok i)
    (reachable : m ∈ g.reachable) (body : p.body? m = some b) (inside : n ∈ (flow m).nodes) {y : Constants Var}
    (first : n = (flow m).entry → boundary b ≤ y) : ((boundaries p i g).get? n).getD OrderedMap.empty ≤ y := by
  cases found : (boundaries p i g).get? n with
  | none => exact Constants.empty_le y
  | some fact =>
      obtain ⟨m', b', -, reachable', body', rfl, rfl⟩ := (get?_boundaries_iff flows built).mp found
      obtain rfl := flows.eq_of_mem_nodes reachable' body' reachable body (mem_nodes_entry _) inside
      obtain rfl : b' = b := Option.some.inj (body'.symm.trans body)
      exact first rfl

theorem value_sent_result (solves : Propagation.analysis.Solves (flow m) b f) (inside : n ∈ (flow m).nodes)
    {call : Call} {v : Var} (here : b.stmt? n = some (.invoke call (some v))) (int : v.holdsInt = true) :
    (sent f n).value v = .nac := by
  have inner : n ≠ (flow m).entry := by
    rintro rfl
    cases here
  obtain ⟨-, -, same⟩ := Propagation.facts_of_solves solves inside inner
  rw [Constants.value_eq_of_same same, here, transfer_invoke]
  simp [int]

theorem incoming_le_boundary (flows : g.Flows p flow) (built : Icfg.build p g (g.graphs p flow) = .ok i)
    (reachable : m ∈ g.reachable) (body : p.body? m = some b) (rooted : (flow m).Rooted)
    (ints : ∀ v ∈ b.params, v.holdsInt = true) : incoming p i g (flow m).entry x ≤ boundary b := by
  have inside := mem_nodes_entry (flow m)
  refine Constants.gather_le (given_le flows built reachable body inside fun _ => le_rfl) fun e enters => ?_
  rcases Icfg.mem_inEdges_cases flows built reachable body inside enters with
    ⟨way, drawn, target, rfl⟩ | ⟨-, source, site, rfl⟩ | ⟨call, d, connects, after, rfl⟩
  · exact absurd target (rooted way drawn)
  · exact transferEdge_call_le body ints _
  · obtain ⟨way, drawn, -, target⟩ := Cfg.mem_succs.mp after
    exact absurd target (rooted way drawn)

/-- What comes in at another node is below what comes in within the method: along its own edges nothing is learned, and
what calls bring back is the result, of which nothing is known within the method. -/
theorem incoming_le_merged (flows : g.Flows p flow) (built : Icfg.build p g (g.graphs p flow) = .ok i)
    (belongs : ∀ e ∈ g.edges, e.site.belongs p = true) (reachable : m ∈ g.reachable) (body : p.body? m = some b)
    (ints : ∀ call v, Stmt.invoke call (some v) ∈ b.stmts → v.holdsInt = true)
    (solves : Propagation.analysis.Solves (flow m) b f) (same : ∀ n ∈ (flow m).nodes, x n = sent f n)
    (inside : n ∈ (flow m).nodes) (inner : n ≠ (flow m).entry) :
    incoming p i g n x ≤ Constants.gather OrderedMap.empty ((flow m).preds n) (sent f) := by
  have mirrored := (flows.drawn m reachable b body).mirrored
  refine Constants.gather_le (given_le flows built reachable body inside fun here => absurd here inner) ?_
  intro e enters
  rcases Icfg.mem_inEdges_cases flows built reachable body inside enters with
    ⟨way, drawn, target, rfl⟩ | ⟨here, -⟩ | ⟨call, d, connects, after, rfl⟩
  · have source := Cfg.mem_nodes.mpr (mirrored.inside way drawn).1
    have before : way.source ∈ (flow m).preds n :=
      mirrored.mem_preds_iff.mpr (Cfg.mem_succs.mpr ⟨way, drawn, rfl, target⟩)
    calc passed p x (Icfg.lift b way)
      _ ≤ x (Icfg.lift b way).source := transferEdge_lift_le b way _
      _ = sent f way.source := by rw [Icfg.lift_source, same _ source]
      _ ≤ _ := Constants.le_gather before
  · exact absurd here inner
  · have source := Cfg.mem_nodes.mpr (mirrored.succs_inside after).1
    obtain ⟨b', body', placed⟩ := (CallSite.belongs_iff connects.home).mp (belongs call connects.edge)
    obtain rfl : b = b' := Option.some.inj (body.symm.trans body')
    have result_open (v : Var) (result : call.site.result = some v) :
        (sent f (.stmt call.site.pos m)).value v = .nac := by
      rw [CallSite.stmt, result] at placed
      have here : b.stmt? (.stmt call.site.pos m) = some (.invoke call.site.call (some v)) := by
        rw [Body.stmt?, if_pos (flows.own m reachable b body).symm, placed]
      exact value_sent_result solves source here (ints _ v (List.mem_of_getElem? placed))
    calc passed p x ⟨(flow call.callee).exit, n, .ret call.site call.callee d.returnVars⟩
      _ ≤ sent f (.stmt call.site.pos m) := transferEdge_ret_le result_open _
      _ ≤ _ := Constants.le_gather (mirrored.mem_preds_iff.mpr after)

theorem initialFacts_le (flows : g.Flows p flow) (built : Icfg.build p g (g.graphs p flow) = .ok i)
    (within : Within p g flow x) : sent (initialFacts p i g) ≤ x := by
  intro n
  rw [sent_initialFacts]
  cases found : (boundaries p i g).get? n with
  | none => exact Constants.empty_le _
  | some fact =>
      obtain ⟨m, b, -, reachable, body, rfl, rfl⟩ := (get?_boundaries_iff flows built).mp found
      obtain ⟨f, solves, same⟩ := within m reachable b body
      rw [same _ (mem_nodes_entry _), Propagation.sent_entry solves]
      exact le_rfl

end Within

/-! ## Runs through calls -/

structure Grounds (p : Program) (g : CallGraph) (flow : MethodRef → Cfg) (i : Icfg) : Prop where
  flows : g.Flows p flow
  built : Icfg.build p g (g.graphs p flow) = .ok i
  belongs : ∀ e ∈ g.edges, e.site.belongs p = true
  rooted : ∀ m ∈ g.reachable, ∀ b, p.body? m = some b → (flow m).Rooted
  regular : Regular p g

namespace Grounds
variable {p : Program} {g : CallGraph} {flow : MethodRef → Cfg} {i : Icfg} {m : MethodRef} {b : Body} {n : Node}
  {x : Node → Constants Var} {f facts : Facts Node (Constants Var)} {t : Nat}

theorem closed_of_within (grounds : Grounds p g flow i) (within : Within p g flow x) :
    System.Closed i.nodes (next p i g) x := by
  obtain ⟨flows, built, belongs, rooted, regular⟩ := grounds
  intro n member
  obtain ⟨m, b, reachable, body, inside⟩ := Icfg.of_mem_nodes built member
  obtain ⟨f, solves, same⟩ := within m reachable b body
  rw [next, stmtAt_eq flows reachable body (Cfg.mem_nodes.mp inside), same n inside]
  by_cases first : n = (flow m).entry
  · subst first
    rw [Propagation.sent_entry solves]
    exact incoming_le_boundary flows built reachable body (rooted m reachable b body)
      (regular.params m reachable b body)
  · have entering := incoming_le_merged flows built belongs reachable body (regular.results m reachable b body)
      solves same inside first
    calc transferNode (b.stmt? n) (incoming p i g n x)
      _ ≤ transferNode (b.stmt? n) _ := transferNode_mono (regular.free m reachable b body).steady n entering
      _ ≤ Propagation.transfer (b.stmt? n) _ := transferNode_le _ _
      _ ≤ sent f n := Propagation.closed_of_solves solves n (Analysis.mem_unknowns.mpr ⟨inside, first⟩)

/-- A run ends, since its facts speak only of variables of which solutions for the single methods know something. -/
theorem exists_end (grounds : Grounds p g flow i) (within : Within p g flow x) :
    ∃ t facts, (system p i g).Ends (.worklist i.nodes) (initialFacts p i g) t facts := by
  have ranges : (Agenda.worklist i.nodes).Over i.nodes := fun n member => member
  refine (ascending grounds.flows grounds.built grounds.regular).exists_end ranges
    (rising_initialFacts grounds.flows grounds.built) (grounds.closed_of_within within)
    (initialFacts_le grounds.flows grounds.built within)
    (Constants.height_mono (i.nodes.flatMap fun n => (x n).keys)) ?_
  intro n member y y' less bounded
  refine Constants.height_lt less fun v known => List.mem_flatMap.mpr ⟨n, member, ?_⟩
  by_contra absent
  have unknown := bounded v
  rw [Constants.value_of_not_mem_keys absent] at unknown
  exact known (le_bot_iff.mp unknown)

theorem sent_le (grounds : Grounds p g flow i) (within : Within p g flow x)
    (ends : (system p i g).Ends (.worklist i.nodes) (initialFacts p i g) t facts) : sent facts ≤ x := by
  obtain ⟨a, run, -⟩ := ends
  have ranges : (Agenda.worklist i.nodes).Over i.nodes := fun n member => member
  have along := (ascending grounds.flows grounds.built grounds.regular).after ranges
    (rising_initialFacts grounds.flows grounds.built) run
  exact along.2.2 x (grounds.closed_of_within within) (initialFacts_le grounds.flows grounds.built within)

theorem settles_within (grounds : Grounds p g flow i) (reachable : m ∈ g.reachable) (body : p.body? m = some b)
    (strategy : Strategy) : ∃ u k, Propagation.analysis.solve (flow m) b strategy none = .settled u k ∧
      Propagation.analysis.Solves (flow m) b u.facts := by
  have drawn := grounds.flows.drawn m reachable b body
  have steady := (grounds.regular.free m reachable b body).steady
  obtain ⟨k, final, ends⟩ := steady.exists_end drawn.mirrored strategy
  have settled : Propagation.analysis.solve (flow m) b strategy none = .settled ⟨_, final, k, strategy⟩ k :=
    Analysis.solve_settled_iff.mpr ⟨final, rfl, ends, by simp⟩
  exact ⟨_, k, settled, Analysis.solves_of_settled Propagation.lawful drawn.mirrored settled⟩

theorem exists_alone (grounds : Grounds p g flow i) : ∃ alone : MethodRef → Facts Node (Constants Var),
    ∀ m ∈ g.reachable, ∀ b, p.body? m = some b → Propagation.analysis.Solves (flow m) b (alone m) := by
  have each (m : MethodRef) : ∃ f, m ∈ g.reachable → ∀ b, p.body? m = some b →
      Propagation.analysis.Solves (flow m) b f := by
    by_cases bodied : ∃ b, m ∈ g.reachable ∧ p.body? m = some b
    · obtain ⟨b, reachable, body⟩ := bodied
      obtain ⟨u, -, -, solves⟩ := grounds.settles_within reachable body .worklist
      exact ⟨u.facts, fun _ b' body' => Option.some.inj (body.symm.trans body') ▸ solves⟩
    · exact ⟨⟨OrderedMap.empty, OrderedMap.empty⟩, fun reachable b body => absurd ⟨b, reachable, body⟩ bodied⟩
  choose alone solves using each
  exact ⟨alone, solves⟩

theorem sent_le_alone (grounds : Grounds p g flow i)
    (ends : (system p i g).Ends (.worklist i.nodes) (initialFacts p i g) t facts) (reachable : m ∈ g.reachable)
    (body : p.body? m = some b) (solves : Propagation.analysis.Solves (flow m) b f) (inside : n ∈ (flow m).nodes) :
    sent facts n ≤ sent f n := by
  obtain ⟨alone, others⟩ := grounds.exists_alone
  have all (m' : MethodRef) (reachable' : m' ∈ g.reachable) (b' : Body) (body' : p.body? m' = some b') :
      Propagation.analysis.Solves (flow m') b' (Function.update alone m f m') := by
    by_cases here : m' = m
    · subst here
      rw [Function.update_self, ← Option.some.inj (body.symm.trans body')]
      exact solves
    · rw [Function.update_of_ne here]
      exact others m' reachable' b' body'
  obtain ⟨x, within, same⟩ := exists_within grounds.flows all
  have below := grounds.sent_le within ends n
  rwa [same m reachable b body n inside, Function.update_self] at below

end Grounds

/-- Without a limit, propagation through calls comes to an end where nothing divides and parameters and results of calls
hold integers, and at every node of a reachable method every variable has a value at most that which propagation within
the method gives. No edge may lead to an entry; in the graph of a body whose jumps lead to statements none does. -/
theorem through_calls_le_within {p : Program} {g : CallGraph} {flow : MethodRef → Cfg} {h : Option Hierarchy}
    {entries : List MethodRef} (resolved : CallGraph.ofEntries p h entries = .ok g) (flows : g.Flows p flow)
    (rooted : ∀ m ∈ g.reachable, ∀ b, p.body? m = some b → (flow m).Rooted) (regular : Regular p g) :
    ∃ i s t, Icfg.build p g (g.graphs p flow) = .ok i ∧ solve p i g none = .settled s t ∧
      ∀ m ∈ g.reachable, ∀ b, p.body? m = some b → ∀ strategy,
        ∃ u k, Propagation.analysis.solve (flow m) b strategy none = .settled u k ∧
          ∀ n ∈ (flow m).nodes, ∃ x y, s.output.get? n = some x ∧ u.output.get? n = some y ∧
            ∀ v, (x.value v).le (y.value v) = true := by
  have built := Icfg.build_ok flows
  have belongs := (CallGraph.made_ofEntries resolved).belongs fun q past s belongs => past ▸ belongs
  have grounds : Grounds p g flow _ := ⟨flows, built, belongs, rooted, regular⟩
  obtain ⟨alone, solves⟩ := grounds.exists_alone
  obtain ⟨x, within, -⟩ := exists_within flows solves
  obtain ⟨t, facts, ends⟩ := grounds.exists_end within
  have settled : solve p _ g none = .settled ⟨.forward, facts, t, .worklist⟩ t :=
    solve_settled_iff.mpr ⟨facts, rfl, ends, by simp⟩
  refine ⟨_, _, t, built, settled, fun m reachable b body strategy => ?_⟩
  obtain ⟨u, k, settled', solves'⟩ := grounds.settles_within reachable body strategy
  refine ⟨u, k, settled', fun n inside => ⟨sent facts n, sent u.facts n, ?_, ?_, ?_⟩⟩
  · obtain ⟨-, behind, -, found, -⟩ := stable_of_settled (Icfg.mirrored_of_build built) settled n
      (Icfg.mem_nodes_of_flow built reachable body inside)
    have here : sent facts n = behind := Propagation.sent_of_get? found
    rw [here]
    exact found
  · obtain ⟨final, rfl, -⟩ := Analysis.solve_settled_iff.mp settled'
    exact Propagation.get?_behind solves' inside
  · exact fun v => grounds.sent_le_alone ends reachable body solves' inside v

end Interprocedural

namespace Relay
open Loop (method p)

theorem regular : Interprocedural.Regular program calls where
  free m reachable b body v e member _ := by
    rcases body_cases reachable body with ⟨-, rfl⟩ | ⟨-, rfl⟩
    · obtain ⟨-, rfl⟩ : v = k ∧ e = .lit 7 := by simpa [outer] using member
      rfl
    · obtain ⟨-, rfl⟩ : v = y ∧ e = .bin .add (.var a) (.lit 1) := by simpa [inner] using member
      rfl
  params m reachable b body v param := by
    rcases body_cases reachable body with ⟨-, rfl⟩ | ⟨-, rfl⟩ <;> rw [List.mem_singleton.mp param] <;> rfl
  results m reachable b body call v member := by
    rcases body_cases reachable body with ⟨-, rfl⟩ | ⟨-, rfl⟩
    · obtain ⟨-, rfl⟩ : call = ⟨.static, callee, [k], none⟩ ∧ v = x := by simpa [outer] using member
      rfl
    · simp [inner] at member

theorem rooted {m : MethodRef} {b : Body} (reachable : m ∈ calls.reachable) (body : program.body? m = some b) :
    (flow m).Rooted := by
  rcases body_cases reachable body with ⟨rfl, -⟩ | ⟨rfl, -⟩ <;> decide +kernel

theorem relay_le_within : (CallGraph.ofEntries program none [method] = .ok calls ∧ calls.Flows program flow ∧
      Interprocedural.Regular program calls ∧ (flow method).Rooted ∧ (flow callee).Rooted) ∧
    ∃ i s t, Icfg.build program calls (calls.graphs program flow) = .ok i ∧
      Interprocedural.solve program i calls none = .settled s t ∧
      ∃ u k, Propagation.analysis.solve (flow callee) inner .iterative none = .settled u k ∧
        ∀ n ∈ (flow callee).nodes, ∃ x y, s.output.get? n = some x ∧ u.output.get? n = some y ∧
          ∀ v, (x.value v).le (y.value v) = true := by
  have resolved : CallGraph.ofEntries program none [method] = .ok calls := rfl
  have reached : callee ∈ calls.reachable := by decide +kernel
  obtain ⟨i, s, t, built, settled, all⟩ := Interprocedural.through_calls_le_within resolved flows
    (fun m reachable b body => rooted reachable body) regular
  exact ⟨⟨resolved, flows, regular, by decide +kernel, by decide +kernel⟩, i, s, t, built, settled,
    all callee reached inner rfl .iterative⟩

end Relay

end Dataflow
