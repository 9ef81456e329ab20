import Dataflow.Analysis.Interprocedural
import Dataflow.Proofs.Analysis.Constants
import Dataflow.Proofs.CallGraph.Closure
import Dataflow.Proofs.Icfg.Edges
import Dataflow.Proofs.Semantics.Calls

/-!
Constant propagation through calls is sound. Solving gives facts that are stable at every node of the joined graph
(`stable_of_settled`). Along a run through calls, the fact in front of the node on top of the stack describes what
the variables hold there. The invariant also speaks of every call that waits below: what is known behind it, but for
its result, describes what the variables of its caller hold meanwhile (`Awaited`). It is kept because each kind of
edge makes of a fact what the step along it makes of a store.
-/

namespace Dataflow

namespace Interprocedural
open Propagation (sent)

/-! ## Solutions -/

def scheme (p : Program) (i : Icfg) (g : CallGraph) : Scheme Node (Constants Var) where
  initial := OrderedMap.empty
  meets f n := merged p i ((boundaries p i g).get? n) f n
  computes n := transferNode (stmtAt p n)
  replace := Constants.replace

theorem lawful (p : Program) (i : Icfg) (g : CallGraph) : (scheme p i g).Lawful OrderedMap.same where
  refl _ := OrderedMap.same_iff.mpr fun _ => rfl
  replace_eq _ _ := rfl

def inflow (p : Program) (f : Facts Node (Constants Var)) (e : IcfgEdge) : Constants Var :=
  transferEdge p e.passage (sent f e.source)

theorem meets_eq (p : Program) (i : Icfg) (g : CallGraph) (f : Facts Node (Constants Var)) (n : Node) :
    (scheme p i g).meets f n =
      Constants.gather (((boundaries p i g).get? n).getD OrderedMap.empty) (i.inEdges n) (inflow p f) := rfl

theorem solve_settled_iff {p : Program} {i : Icfg} {g : CallGraph} {limit : Option Int}
    {s : Solution Node (Constants Var)} {t : Nat} :
    solve p i g limit = .settled s t ↔ ∃ facts, s = ⟨.forward, facts, t, .worklist⟩ ∧
      (system p i g).Ends (.worklist i.nodes) (initialFacts p i g) t facts ∧
      ∀ k, limit = some k → t ≤ k.toNat := by
  unfold solve
  simp only [← System.solve_settled_iff]
  cases (system p i g).solve (.worklist i.nodes) (initialFacts p i g) limit with
  | settled facts transfers => simp only [Outcome.settled.injEq]; grind
  | _ => simp

theorem stable_of_settled {p : Program} {i : Icfg} {g : CallGraph} (mirrored : i.Mirrored)
    {limit : Option Int} {s : Solution Node (Constants Var)} {t : Nat} (settled : solve p i g limit = .settled s t) :
    ∀ n ∈ i.nodes, (scheme p i g).StableAt OrderedMap.same s.facts n := by
  obtain ⟨facts, rfl, ends, -⟩ := solve_settled_iff.mp settled
  have settling : (system p i g).Settling i.nodes ((scheme p i g).StableAt OrderedMap.same) := by
    refine Scheme.settling (fun n => (i.inEdges n).map IcfgEdge.source) (lawful p i g) rfl ?_ ?_ ?_
    · intro n m depends
      obtain ⟨e, edge, -, rfl⟩ := Icfg.mem_succs.mp depends
      exact mirrored.inside e edge
    · intro f f' m agree
      refine List.foldl_ext _ _ _ fun acc e edge => ?_
      have same : f'.behind.getD e.source OrderedMap.empty = f.behind.getD e.source OrderedMap.empty :=
        agree _ (List.mem_map_of_mem edge)
      rw [same]
    · intro n m _ source
      obtain ⟨e, edge, from_⟩ := List.mem_map.mp source
      obtain ⟨edge, target⟩ := mirrored.mem_inEdges.mp edge
      exact Icfg.mem_succs.mpr ⟨e, edge, from_, target⟩
  have ranges : (Agenda.worklist i.nodes).Over i.nodes := fun n member => member
  have all : ∀ n ∈ i.nodes, (Agenda.worklist i.nodes).Awaits n := fun n member => member
  exact settling.stable_of_ends ranges all ends

/-! ## What the edges make of facts -/

section Edges
variable {p : Program} {f : Constants Var} {σ : Store}

theorem describes_put (describes : f.Describes σ) {v : Var} {x : Value} {w : Option Word}
    (covers : ∀ c, v.holdsInt = true → w = some c → x.Covers c) : (f.set v x).Describes (σ.put v w) := by
  intro u c int holds
  by_cases here : v = u
  · subst here
    rw [Constants.value_set, if_pos rfl]
    exact covers c int (by simpa [Store.put] using holds)
  · rw [Constants.value_set, if_neg here]
    exact describes u c int (by simpa [Store.put, here] using holds)

theorem describes_call (describes : f.Describes σ) {site : CallSite} (ints : ∀ a ∈ site.call.args, a.holdsInt = true)
    {callee : MethodRef} {d : Body} (target : p.body? callee = some d) :
    (transferEdge p (.call site callee) f).Describes (σ.ofArgs d.params site.call.args) := by
  have from_any (pairs : List (Var × Var)) (known : ∀ b ∈ pairs, b.2 ∈ site.call.args) (acc : Constants Var)
      (τ : Store) (start : acc.Describes τ) :
      (pairs.foldl (fun acc b => acc.set b.1 (f.value b.2)) acc).Describes
        (pairs.foldl (fun τ b => τ.put b.1 (σ b.2)) τ) := by
    induction pairs generalizing acc τ with
    | nil => exact start
    | cons head tail ih =>
        refine ih (fun b member => known b (List.mem_cons_of_mem _ member)) _ _ (describes_put start ?_)
        exact fun c _ holds => describes _ c (ints _ (known head List.mem_cons_self)) holds
  have bound (b : Var × Var) (member : b ∈ d.params.zip site.call.args) : b.2 ∈ site.call.args :=
    (List.of_mem_zip member).2
  have all := from_any _ bound OrderedMap.empty (fun _ => none) fun v w _ holds => by cases holds
  simpa [transferEdge, target, Store.ofArgs] using all

theorem describes_passing (describes : f.Describes σ) (kind : EdgeKind) (site : CallSite) :
    (transferEdge p (.callToReturn kind site) f).Describes (σ.receive site.result none) := by
  cases result : site.result with
  | none => simpa [transferEdge, result, Store.receive] using describes
  | some v =>
      have passes : transferEdge p (.callToReturn kind site) f = f.erase v := by simp [transferEdge, result]
      rw [passes]
      intro u w int holds
      by_cases here : v = u
      · simp [Store.receive, Store.put, here] at holds
      · have kept : Constants.value (f.erase v) u = f.value u := by
          simp [Constants.value, OrderedMap.getD, here]
        rw [kept]
        exact describes u w int (by simpa [Store.receive, Store.put, here] using holds)

theorem covers_result (describes : f.Describes σ) {site : CallSite} {callee : MethodRef} {returned : List Var}
    {u v : Var} {w : Word} (result : site.result = some v) (member : u ∈ returned) (int : u.holdsInt = true)
    (holds : σ u = some w) : ((transferEdge p (.ret site callee returned) f).value v).Covers w := by
  have from_any (rs : List Var) (acc : Constants Var) (known : (acc.value v).Covers w ∨ u ∈ rs) :
      (Constants.value (rs.foldl (fun acc r => acc.set v ((acc.value v).meet (f.value r))) acc) v).Covers w := by
    induction rs generalizing acc with
    | nil => simpa using known
    | cons head tail ih =>
        refine ih _ ?_
        rw [Constants.value_set, if_pos rfl]
        rcases known with before | here
        · exact .inl (before.mono le_sup_left)
        · rcases List.mem_cons.mp here with rfl | later
          · exact .inl ((describes u w int holds).mono le_sup_right)
          · exact .inr later
  simpa [transferEdge, result] using from_any returned OrderedMap.empty (.inr member)

end Edges

/-! ## Runs -/

structure Typed (p : Program) (g : CallGraph) : Prop where
  body : ∀ m ∈ g.reachable, ∀ b, p.body? m = some b → Propagation.Typed b
  args : ∀ m ∈ g.reachable, ∀ b, p.body? m = some b → ∀ call result, Stmt.invoke call result ∈ b.stmts →
    ∀ a ∈ call.args, a.holdsInt = true
  returned : ∀ m ∈ g.reachable, ∀ b, p.body? m = some b → ∀ v ∈ b.returnVars, v.holdsInt = true

/-- The calls below a method that runs: each may run the method above it, and what is known behind the call says
nothing false of what the variables of the caller hold meanwhile. -/
inductive Awaited (p : Program) (g : CallGraph) (f : Facts Node (Constants Var)) :
    MethodRef → List Suspended → Prop where
  | nil {m : MethodRef} : Awaited p g f m []
  | cons {m callee : MethodRef} {b : Body} {pos : Nat} {call : Call} {result : Option Var} {τ : Store}
      {below : List Suspended} (reachable : m ∈ g.reachable) (body : p.body? m = some b)
      (here : b.stmt? (.stmt pos m) = some (.invoke call result))
      (runs : callee ∈ g.calleesOf ⟨some m, pos, call, result⟩)
      (describes : ∀ kind, (transferEdge p (.callToReturn kind ⟨some m, pos, call, result⟩)
        (sent f (.stmt pos m))).Describes τ) :
      Awaited p g f m below → Awaited p g f callee (⟨⟨some m, pos, call, result⟩, τ⟩ :: below)

/-- The frame on top is described by what is known in front of its node, and what it returns is held by one of the
variables that its body returns. -/
structure Known (p : Program) (flow : MethodRef → Cfg) (g : CallGraph) (i : Icfg) (f : Facts Node (Constants Var))
    (s : Stack) : Prop where
  reachable : s.top.method ∈ g.reachable
  runs : ∃ b, p.body? s.top.method = some b ∧
    ∀ w, s.top.returned = some w → ∃ v ∈ b.returnVars, s.top.now.store v = some w
  inside : (flow s.top.method).contains s.top.now.node = true
  describes : ((scheme p i g).meets f s.top.now.node).Describes s.top.now.store
  below : Awaited p g f s.top.method s.below

section Runs
variable {p : Program} {flow : MethodRef → Cfg} {g : CallGraph} {i : Icfg} {f : Facts Node (Constants Var)}
  {m : MethodRef} {b : Body} {n : Node} {σ : Store}

theorem stmtAt_eq (flows : g.Flows p flow) (reachable : m ∈ g.reachable) (body : p.body? m = some b)
    (inside : (flow m).contains n = true) : stmtAt p n = b.stmt? n := by
  cases n with
  | stmt pos method =>
      have own : method = m := by
        simp only [Cfg.contains, Bool.and_eq_true, decide_eq_true_eq] at inside
        exact inside.1.trans (flows.method_eq reachable body)
      simp [stmtAt, own, body]
  | _ => rfl

theorem transferNode_of_not_call {s : Stmt} (plain : s.isCall = false) :
    transferNode (some s) = Propagation.transfer (some s) := by
  cases s <;> first | rfl | cases plain

theorem describes_sent (stable : (scheme p i g).StableAt OrderedMap.same f n)
    (describes : (transferNode (stmtAt p n) ((scheme p i g).meets f n)).Describes σ) : (sent f n).Describes σ := by
  obtain ⟨before, behind, -, found, rfl, same⟩ := stable
  have values : Constants.value behind = Constants.value (transferNode (stmtAt p n) ((scheme p i g).meets f n)) :=
    Constants.value_eq_of_same same
  rw [Propagation.sent_of_get? found]
  exact describes.mono fun v => (congrFun values v).ge

theorem held_of_returnedAt {c : Cfg} {given : Exp → Word → Prop} {may : Stmt → Store → Edge → Prop}
    {now later : State} (moves : c.Moves b given may now later) {w : Word} (returned : b.returnedAt now = some w) :
    ∃ v ∈ b.returnVars, later.store v = some w := by
  unfold Body.returnedAt at returned
  cases moves with
  | silent _ nothing => simp [nothing] at returned
  | @stmt e s σ σ' _ here _ effect =>
      simp only [here] at returned
      split at returned
      · next v same =>
          obtain rfl := Option.some.inj same
          cases effect
          refine ⟨v, OrderedSet.mem_distinct.mpr (List.mem_filterMap.mpr ⟨_, Body.mem_of_stmt? here, rfl⟩), returned⟩
      · cases returned

theorem get?_boundaries (flows : g.Flows p flow) (built : Icfg.build p g (g.graphs p flow) = .ok i)
    (reachable : m ∈ g.reachable) (entry : m ∈ g.entries) (body : p.body? m = some b) :
    (boundaries p i g).get? (flow m).entry = some (Propagation.boundary b) := by
  obtain ⟨rfl, -⟩ := Icfg.build_ok_iff.mp built
  have number (m : MethodRef) : (Icfg.join p g (g.graphs p flow)).graphs.get? m =
      if m ∈ g.reachable ∧ p.hasBody m = true then some (flow m).id else none := by
    rw [Icfg.graphs_join, OrderedMap.get?_mapValues, CallGraph.get?_graphs]
    split <;> rfl
  have own := number m
  rw [if_pos ⟨reachable, Program.hasBody_of_body? body⟩] at own
  refine OrderedMap.get?_foldl_insert (fun fact member => ?_) (.inl ?_)
  · -- another fact for this node would come of a method whose graph has the same number
    obtain ⟨m', -, given⟩ := List.mem_filterMap.mp member
    split at given
    · next id b' joined body' =>
        rw [number] at joined
        split at joined
        · next there =>
            obtain rfl := Option.some.inj joined
            obtain ⟨same, rfl⟩ := Prod.mk.inj (Option.some.inj given)
            obtain rfl := flows.apart m' there.1 m reachable there.2 (Program.hasBody_of_body? body)
              (Node.entry.inj same)
            rw [Option.some.inj (body'.symm.trans body)]
        · cases joined
    · cases given
  · refine List.mem_filterMap.mpr ⟨m, List.mem_filter.mpr ⟨entry, ?_⟩, ?_⟩
    · rw [OrderedMap.contains, own, Option.isSome_some]
    · simp only [own, body]
      rfl

/-- What the invariant rests on: graphs of the bodies, joined along a closed call graph, and stable facts. -/
structure Basis (p : Program) (flow : MethodRef → Cfg) (g : CallGraph) (i : Icfg) (f : Facts Node (Constants Var)) :
    Prop where
  flows : g.Flows p flow
  closed : g.Closed
  built : Icfg.build p g (g.graphs p flow) = .ok i
  typed : Typed p g
  stable : ∀ n ∈ i.nodes, (scheme p i g).StableAt OrderedMap.same f n

namespace Basis

theorem describes_sent (basis : Basis p flow g i f) (reachable : m ∈ g.reachable) (body : p.body? m = some b)
    (inside : (flow m).contains n = true)
    (describes : (transferNode (b.stmt? n) ((scheme p i g).meets f n)).Describes σ) : (sent f n).Describes σ := by
  have member : n ∈ i.nodes := Icfg.mem_nodes_of_flow basis.built reachable body (Cfg.mem_nodes.mpr inside)
  rw [← stmtAt_eq basis.flows reachable body inside] at describes
  exact Interprocedural.describes_sent (basis.stable n member) describes

theorem inflow_le (basis : Basis p flow g i f) {e : IcfgEdge} (edge : e ∈ i.outgoing) :
    inflow p f e ≤ (scheme p i g).meets f e.target := by
  rw [meets_eq]
  exact Constants.le_gather ((Icfg.mirrored_of_build basis.built).mem_inEdges.mpr ⟨edge, rfl⟩)

theorem move (basis : Basis p flow g i f) {now later : State} {returned : Option Word} {below : List Suspended}
    (known : Known p flow g i f ⟨⟨m, now, returned⟩, below⟩) (body : p.body? m = some b)
    (moves : (flow m).Moves b (fun _ _ => True) (fun s _ _ => s.isCall = false) now later) :
    Known p flow g i f ⟨⟨m, later, b.returnedAt now⟩, below⟩ := by
  have reachable : m ∈ g.reachable := known.reachable
  have sends : (sent f now.node).Describes later.store := by
    refine basis.describes_sent reachable body known.inside ?_
    cases moves with
    | silent _ nothing =>
        rw [nothing]
        exact known.describes
    | stmt _ here plain effect =>
        rw [here, transferNode_of_not_call plain]
        exact Propagation.describes_transfer (basis.typed.body m reachable b body) (Body.mem_of_stmt? here)
          known.describes effect
  -- the edge that is taken leaves no call, so that what its source sends comes in unchanged
  obtain ⟨e, edge, source, target, plain⟩ : ∃ e ∈ (flow m).outgoing, e.source = now.node ∧
      e.target = later.node ∧ ∀ call result, b.stmt? e.source ≠ some (.invoke call result) := by
    cases moves with
    | @silent e _ edge nothing => exact ⟨e, edge, rfl, rfl, by simp [nothing]⟩
    | @stmt e s _ _ edge here plain _ =>
        refine ⟨e, edge, rfl, rfl, fun call result same => ?_⟩
        rw [here] at same
        rw [Option.some.inj same] at plain
        cases plain
  have below : inflow p f (Icfg.lift b e) ≤ (scheme p i g).meets f (Icfg.lift b e).target :=
    basis.inflow_le (Icfg.lift_mem_outgoing basis.flows basis.built reachable body edge)
  rw [inflow, Icfg.passage_lift_of_not_invoke plain, Icfg.lift_source, Icfg.lift_target, source, target] at below
  refine ⟨reachable, ⟨b, body, fun w => held_of_returnedAt moves⟩, ?_, sends.mono below, known.below⟩
  rw [← target]
  exact ((basis.flows.drawn m reachable b body).mirrored.inside e edge).2

theorem outer_subset (basis : Basis p flow g i f) {callee : MethodRef} {d : Body} {pos : Nat} {call : Call}
    {result : Option Var} (reachable : m ∈ g.reachable) (body : p.body? m = some b)
    (runs : callee ∈ g.calleesOf ⟨some m, pos, call, result⟩) (target : p.body? callee = some d) :
    callee ∈ g.reachable ∧ ∀ passing ∈ (⟨.stmt pos m, (flow callee).entry,
        .call ⟨some m, pos, call, result⟩ callee⟩ : IcfgEdge) ::
      ((flow m).succs (.stmt pos m)).map (fun n =>
        ⟨(flow callee).exit, n, .ret ⟨some m, pos, call, result⟩ callee d.returnVars⟩), passing ∈ i.outgoing := by
  obtain ⟨⟨kind, site, callee⟩, edge, rfl, rfl⟩ := (CallGraph.mem_calleesOf basis.closed).mp runs
  have reached := basis.closed.callees _ edge
  refine ⟨reached, ?_⟩
  have joined := Icfg.outer_subset_outgoing basis.built edge
  rwa [Icfg.outer_eq rfl reachable body reached target] at joined

theorem call (basis : Basis p flow g i f) {callee : MethodRef} {d : Body} {pos : Nat} {call : Call}
    {result : Option Var} {returned : Option Word} {below : List Suspended}
    (known : Known p flow g i f ⟨⟨m, ⟨.stmt pos m, σ⟩, returned⟩, below⟩) (body : p.body? m = some b)
    (here : b.stmt? (.stmt pos m) = some (.invoke call result))
    (runs : callee ∈ g.calleesOf ⟨some m, pos, call, result⟩) (target : p.body? callee = some d) :
    Known p flow g i f ⟨⟨callee, ⟨(flow callee).entry, σ.ofArgs d.params call.args⟩, none⟩,
      ⟨⟨some m, pos, call, result⟩, σ.receive result none⟩ :: below⟩ := by
  have reachable : m ∈ g.reachable := known.reachable
  obtain ⟨reached, joined⟩ := basis.outer_subset reachable body runs target
  have sends : (sent f (.stmt pos m)).Describes σ := by
    refine basis.describes_sent reachable body known.inside ?_
    rw [here]
    exact known.describes
  have ints := basis.typed.args m reachable b body call result (Body.mem_of_stmt? here)
  have passed : (transferEdge p (.call ⟨some m, pos, call, result⟩ callee) (sent f (.stmt pos m))).Describes
      (σ.ofArgs d.params call.args) := describes_call sends ints target
  have below : inflow p f ⟨.stmt pos m, (flow callee).entry, .call ⟨some m, pos, call, result⟩ callee⟩ ≤
      (scheme p i g).meets f (flow callee).entry := basis.inflow_le (joined _ List.mem_cons_self)
  refine ⟨reached, ⟨d, target, fun _ given => nomatch given⟩, by simp [Cfg.contains, Cfg.entry], passed.mono below, ?_⟩
  exact .cons reachable body here runs (fun kind => describes_passing sends kind _) known.below

theorem ret (basis : Basis p flow g i f) {callee : MethodRef} {site : CallSite} {τ : Store} {returned : Option Word}
    {below : List Suspended}
    (known : Known p flow g i f ⟨⟨callee, ⟨(flow callee).exit, σ⟩, returned⟩, ⟨site, τ⟩ :: below⟩)
    (home : site.home = some m) (next : n ∈ (flow m).succs (.stmt site.pos m)) :
    Known p flow g i f ⟨⟨m, ⟨n, τ.receive site.result returned⟩, none⟩, below⟩ := by
  obtain ⟨d, target, held⟩ := known.runs
  cases known.below with
  | @cons caller _ b pos call result _ _ reachable body here runs describes rest =>
      obtain rfl : caller = m := Option.some.inj home
      obtain ⟨reached, joined⟩ := basis.outer_subset reachable body runs target
      -- two edges lead to where the caller goes on: the one that passes the call by describes all but the result
      obtain ⟨e, edge, source, rfl⟩ := Cfg.mem_succs.mp next
      have inside := (basis.flows.drawn _ reachable b body).mirrored.inside e edge
      have passes : inflow p f (Icfg.lift b e) ≤ (scheme p i g).meets f (Icfg.lift b e).target :=
        basis.inflow_le (Icfg.lift_mem_outgoing basis.flows basis.built reachable body edge)
      rw [inflow, Icfg.passage_lift_of_invoke source (source ▸ here), Icfg.lift_source, Icfg.lift_target,
        source] at passes
      have kept := (describes e.kind).mono passes
      -- and the one from the exit of the callee describes the result
      have comes : inflow p f
          ⟨(flow callee).exit, e.target, .ret ⟨some caller, pos, call, result⟩ callee d.returnVars⟩ ≤
          (scheme p i g).meets f e.target := basis.inflow_le (joined _ (List.mem_cons_of_mem _ (List.mem_map_of_mem next)))
      have sends : (sent f (flow callee).exit).Describes σ :=
        basis.describes_sent reached target known.inside known.describes
      refine ⟨reachable, ⟨b, body, fun _ given => nomatch given⟩, inside.2, ?_, rest⟩
      cases result with
      | none => exact kept
      | some v =>
          intro u w int holds
          by_cases own : v = u
          · subst own
            obtain ⟨r, member, holds⟩ := held w (by simpa [Store.receive, Store.put] using holds)
            have int := basis.typed.returned callee reached d target r member
            exact (covers_result sends rfl member int holds).mono (comes v)
          · exact kept u w int (by simpa [Store.receive, Store.put, own] using holds)

theorem steps (basis : Basis p flow g i f) {now later : Stack} (known : Known p flow g i f now)
    (steps : g.Steps p flow now later) : Known p flow g i f later := by
  cases steps with
  | move body moves => exact basis.move known body moves
  | call body here runs target => exact basis.call known body here runs target
  | ret home next => exact basis.ret known home next

end Basis

theorem known_start (basis : Basis p flow g i f) (entry : m ∈ g.entries) (body : p.body? m = some b) {first : Store}
    (opens : b.Opens first) : Known p flow g i f (.start flow m first) := by
  have reachable := basis.closed.entries m entry
  have bound : (boundaries p i g).get? (flow m).entry = some (Propagation.boundary b) :=
    get?_boundaries basis.flows basis.built reachable entry body
  have below : Propagation.boundary b ≤ (scheme p i g).meets f (flow m).entry := by
    rw [meets_eq, bound]
    exact Constants.start_le_gather
  exact ⟨reachable, ⟨b, body, fun _ given => nomatch given⟩, by simp [Stack.start, Cfg.contains, Cfg.entry],
    (Propagation.describes_boundary opens).mono below, .nil⟩

end Runs

/-- Wherever a run comes that starts in an entry method, through any number of calls, what the solution knows in
front of the node on top of the stack of a variable that holds an integer is the word that it holds, or that it is
no constant. -/
theorem sound_through_calls {p : Program} {h : Option Hierarchy} {entries : List MethodRef} {g : CallGraph}
    (resolved : CallGraph.ofEntries p h entries = .ok g) {flow : MethodRef → Cfg} (flows : g.Flows p flow) {i : Icfg}
    (built : Icfg.build p g (g.graphs p flow) = .ok i) (typed : Typed p g) {limit : Option Int}
    {c : Solution Node (Constants Var)} {t : Nat} (settled : solve p i g limit = .settled c t) {m : MethodRef}
    {b : Body} (entry : m ∈ g.entries) (body : p.body? m = some b) {first : Store} (opens : b.Opens first)
    {now : Stack} (run : Relation.ReflTransGen (g.Steps p flow) (.start flow m first) now) :
    ∃ fact, c.input.get? now.top.now.node = some fact ∧ ∀ v w, v.holdsInt = true → now.top.now.store v = some w →
      fact.value v = .const w.toInt ∨ fact.value v = .nac := by
  have stable := stable_of_settled (Icfg.mirrored_of_build built) settled
  have basis : Basis p flow g i c.facts := ⟨flows, CallGraph.closed_of_ofEntries resolved, built, typed, stable⟩
  have known : Known p flow g i c.facts now := by
    induction run with
    | refl => exact known_start basis entry body opens
    | tail _ steps ih => exact basis.steps ih steps
  obtain ⟨facts, rfl, -⟩ := solve_settled_iff.mp settled
  obtain ⟨d, runs, -⟩ := known.runs
  obtain ⟨before, -, found, -, rfl, -⟩ :=
    stable _ (Icfg.mem_nodes_of_flow built known.reachable runs (Cfg.mem_nodes.mpr known.inside))
  exact ⟨_, found, known.describes⟩

end Interprocedural

namespace Relay
open Loop (method p)

def callee : MethodRef := ⟨⟨0, "Main"⟩, ⟨"next", [.int], .int⟩⟩

def k : Var := ⟨"k", .int, some method, 1⟩

def x : Var := ⟨"x", .int, some method, 2⟩

def a : Var := ⟨"a", .int, some callee, 0⟩

def y : Var := ⟨"y", .int, some callee, 1⟩

def outer : Body where
  method := method
  this := none
  params := [p]
  stmts := [.assign (.var k) (.lit 7), .invoke ⟨.static, callee, [k], none⟩ (some x), .ret (some x)]
  vars := [p, k, x]

def inner : Body where
  method := callee
  this := none
  params := [a]
  stmts := [.assign (.var y) (.bin .add (.var a) (.lit 1)), .ret (some y)]
  vars := [a, y]

def program : Program := ⟨[⟨⟨0, "Main"⟩, none, [], false, false,
  [⟨method.sig, true, false, none, some outer⟩, ⟨callee.sig, true, false, none, some inner⟩]⟩]⟩

def flow (m : MethodRef) : Cfg :=
  if m = method then (Cfg.bare 0 method 3).drawAll ((Cfg.bare 0 method 3).edgesOf outer)
  else (Cfg.bare 1 callee 2).drawAll ((Cfg.bare 1 callee 2).edgesOf inner)

def calls : CallGraph := (CallGraph.ofEntries program none [method]).toOption.getD .empty

def joined : Icfg := Icfg.join program calls (calls.graphs program flow)

theorem body_cases {m : MethodRef} {b : Body} (reachable : m ∈ calls.reachable) (body : program.body? m = some b) :
    m = method ∧ b = outer ∨ m = callee ∧ b = inner := by
  have listed : calls.reachable.toList = [method, callee] := rfl
  rw [OrderedSet.mem_iff, listed, List.mem_cons, List.mem_singleton] at reachable
  rcases reachable with rfl | rfl
  · exact .inl ⟨rfl, (Option.some.inj body).symm⟩
  · exact .inr ⟨rfl, (Option.some.inj body).symm⟩

theorem flows : calls.Flows program flow where
  own m reachable b body := by rcases body_cases reachable body with ⟨rfl, rfl⟩ | ⟨rfl, rfl⟩ <;> rfl
  drawn m reachable b body := by
    rcases body_cases reachable body with ⟨rfl, rfl⟩ | ⟨rfl, rfl⟩
    · have built : Cfg.build 0 outer = .ok (flow method) := rfl
      exact .built built
    · have built : Cfg.build 1 inner = .ok (flow callee) := rfl
      exact .built built
  apart m reachable m' reachable' has has' same := by
    obtain ⟨b, body⟩ := Option.isSome_iff_exists.mp has
    obtain ⟨b', body'⟩ := Option.isSome_iff_exists.mp has'
    rcases body_cases reachable body with ⟨rfl, -⟩ | ⟨rfl, -⟩ <;>
      rcases body_cases reachable' body' with ⟨rfl, -⟩ | ⟨rfl, -⟩ <;> first | rfl | cases same

theorem typed : Interprocedural.Typed program calls where
  body m reachable b body v e member _ u operand := by
    rcases body_cases reachable body with ⟨-, rfl⟩ | ⟨-, rfl⟩
    · obtain ⟨-, rfl⟩ : v = k ∧ e = .lit 7 := by simpa [outer] using member
      cases operand
    · obtain ⟨-, rfl⟩ : v = y ∧ e = .bin .add (.var a) (.lit 1) := by simpa [inner] using member
      obtain rfl : u = a := by simpa [Exp.operands] using operand
      rfl
  args m reachable b body call result member v arg := by
    rcases body_cases reachable body with ⟨-, rfl⟩ | ⟨-, rfl⟩
    · obtain ⟨rfl, -⟩ : call = ⟨.static, callee, [k], none⟩ ∧ result = some x := by simpa [outer] using member
      rw [List.mem_singleton.mp arg]
      rfl
    · simp [inner] at member
  returned m reachable b body v member := by
    rcases body_cases reachable body with ⟨-, rfl⟩ | ⟨-, rfl⟩
    · obtain rfl : v = x := by simpa [outer, Body.returnVars] using member
      rfl
    · obtain rfl : v = y := by simpa [inner, Body.returnVars] using member
      rfl

def site : CallSite := ⟨some method, 1, ⟨.static, callee, [k], none⟩, some x⟩

def first : Store := fun v => if v = p then some 3 else none

def waiting : Store := (first.set k 7).receive (some x) none

def passed : Store := (first.set k 7).ofArgs [a] [k]

theorem runs : Relation.ReflTransGen (calls.Steps program flow) (.start flow method first)
    ⟨⟨method, ⟨.stmt 2 method, waiting.receive (some x) (some 8)⟩, none⟩, []⟩ := by
  let Moves (m : MethodRef) (b : Body) := (flow m).Moves b (fun _ _ => True) fun s _ _ => s.isCall = false
  have enters : Moves method outer ⟨.entry 0, first⟩ ⟨.stmt 0 method, first⟩ :=
    .silent (e := (flow method).entryEdge) (by decide +kernel) rfl
  have sets : Moves method outer ⟨.stmt 0 method, first⟩ ⟨.stmt 1 method, first.set k 7⟩ :=
    .stmt (e := ⟨.stmt 0 method, .stmt 1 method, .fallThrough, none⟩) (by decide +kernel) rfl rfl (.assign (.lit 7))
  have may : callee ∈ calls.calleesOf site := by decide +kernel
  have target : program.body? callee = some inner := rfl
  have enters' : Moves callee inner ⟨.entry 1, passed⟩ ⟨.stmt 0 callee, passed⟩ :=
    .silent (e := (flow callee).entryEdge) (by decide +kernel) rfl
  have sum : (Exp.bin .add (.var a) (.lit 1)).Yields (fun _ _ => True) passed
      (BinOp.add.onWords 7 (BitVec.ofInt 32 1)) := .bin (.var rfl) (.lit 1) (by decide)
  have counts : Moves callee inner ⟨.stmt 0 callee, passed⟩ ⟨.stmt 1 callee, passed.set y 8⟩ :=
    .stmt (e := ⟨.stmt 0 callee, .stmt 1 callee, .fallThrough, none⟩) (by decide +kernel) rfl rfl
      (.assign sum)
  have leaves : Moves callee inner ⟨.stmt 1 callee, passed.set y 8⟩ ⟨.exit 1, passed.set y 8⟩ :=
    .stmt (e := ⟨.stmt 1 callee, .exit 1, .ret, none⟩) (by decide +kernel) rfl rfl .ret
  have back : calls.Steps program flow ⟨⟨callee, ⟨.exit 1, passed.set y 8⟩, some 8⟩, [⟨site, waiting⟩]⟩
      ⟨⟨method, ⟨.stmt 2 method, waiting.receive (some x) (some 8)⟩, none⟩, []⟩ := .ret rfl (by decide +kernel)
  exact .head (.move rfl enters) <| .head (.move rfl sets) <| .head (.call rfl rfl may target) <|
    .head (.move target enters') <| .head (.move target counts) <| .head (.move target leaves) <| .single back

theorem relay_sound : CallGraph.ofEntries program none [method] = .ok calls ∧
    Icfg.build program calls (calls.graphs program flow) = .ok joined ∧
    ∃ c t, Interprocedural.solve program joined calls (some 60) = .settled c t ∧
      ∃ now : Stack, Relation.ReflTransGen (calls.Steps program flow) (.start flow method first) now ∧
        now.top.now.node = .stmt 2 method ∧ now.top.now.store x = some 8 ∧
        ∃ fact, c.input.get? now.top.now.node = some fact ∧ ∀ v w, v.holdsInt = true →
          now.top.now.store v = some w → fact.value v = .const w.toInt ∨ fact.value v = .nac := by
  obtain ⟨c, t, settled⟩ : ∃ c t, Interprocedural.solve program joined calls (some 60) = .settled c t :=
    Outcome.exists_of_state? (by decide +kernel)
  have resolved : CallGraph.ofEntries program none [method] = .ok calls := rfl
  have built : Icfg.build program calls (calls.graphs program flow) = .ok joined := rfl
  have entry : method ∈ calls.entries := by decide +kernel
  have body : program.body? method = some outer := rfl
  have opens : outer.Opens first := Body.opens_of_param (List.mem_singleton_self p) 3
  exact ⟨resolved, built, c, t, settled, _, runs, rfl, rfl, Interprocedural.sound_through_calls resolved flows built
    typed settled entry body opens runs⟩

end Relay

end Dataflow
