import Dataflow.Proofs.Analysis.Equations
import Dataflow.Proofs.Analysis.Tracking

/-!
What the facts of propagation through calls bind, at every step. An entry of a fact comes from outside, along an edge
or from a statement, so what is to hold of every entry has to be kept by each of these (`Keeps.after`). Variables that
hold no integer can be bound, since calls hand on values whatever the types of parameters and results are; those that
are bound have been handed a value in this way (`binds_only_handed`). Nothing leaks from one method to another: the
facts at the nodes of a method bind its own variables, to constants that are signed words or to no constant, however
often calls come back to it (`facts_belong`).
-/

namespace Dataflow

namespace Interprocedural
open Propagation (boundary all_boundary all_sent)

/-! ## Entries -/

section Entries
variable {p : Program} {P : Var → Value → Prop} {f : Constants Var}

theorem all_lift (all : f.All P) (b : Body) (way : Edge) : (transferEdge p (Icfg.lift b way).passage f).All P := by
  unfold Icfg.lift
  split
  · next result _ _ =>
      simp only [transferEdge]
      cases result with
      | none => exact all
      | some v => exact all.erase v
  · exact all

theorem all_call {site : CallSite} {callee : MethodRef} {d : Body} (runs : p.body? callee = some d)
    (passed : ∀ pair ∈ d.params.zip site.call.args, f.value pair.2 ≠ .undefined → P pair.1 (f.value pair.2)) :
    (transferEdge p (.call site callee) f).All P := by
  simp only [transferEdge, runs, Option.map_some, Option.getD_some]
  exact Constants.All.empty.foldl_set fun _ _ pair member => passed pair member

theorem all_ret {site : CallSite} {callee : MethodRef} {returned : List Var}
    (meets : ∀ v x y, P v x → P v y → P v (x.meet y))
    (comes : ∀ v, site.result = some v → ∀ r ∈ returned, f.value r ≠ .undefined → P v (f.value r)) :
    (transferEdge p (.ret site callee returned) f).All P := by
  simp only [transferEdge]
  cases result : site.result with
  | none => exact Constants.All.empty
  | some v =>
      refine Constants.All.empty.foldl_set fun acc known r member => ?_
      rw [Value.meet_comm]
      exact known.met meets (comes v result r member)

theorem all_transferNode {s : Option Stmt} (all : f.All P)
    (writes : ∀ stmt v, ∀ e : Exp, s = some stmt → stmt.defVar? = some v → v.holdsInt = true →
      e.evaluate f ≠ .undefined → P v (e.evaluate f)) : (transferNode s f).All P := by
  unfold transferNode
  split
  · exact all
  · exact Propagation.all_transfer all writes

end Entries

/-- What holds of every entry of the facts at each node is kept by meets, and it holds of what comes from outside,
along the edges and from the statements. -/
structure Keeps (p : Program) (i : Icfg) (g : CallGraph) (P : Node → Var → Value → Prop) : Prop where
  meets : ∀ n v x y, P n v x → P n v y → P n v (x.meet y)
  outside : ∀ n fact, (boundaries p i g).get? n = some fact → fact.All (P n)
  edges : ∀ n, ∀ e ∈ i.inEdges n, ∀ f, Constants.All (P e.source) f → (transferEdge p e.passage f).All (P n)
  writes : ∀ n f, Constants.All (P n) f → ∀ s v, ∀ e : Exp, stmtAt p n = some s → s.defVar? = some v →
    v.holdsInt = true → e.evaluate f ≠ .undefined → P n v (e.evaluate f)

namespace Keeps
variable {p : Program} {i : Icfg} {g : CallGraph} {P : Node → Var → Value → Prop} {f : Facts Node (Constants Var)}

theorem preserves (keeps : Keeps p i g P) : (scheme p i g).Preserves fun n fact => fact.All (P n) where
  initial _ := Constants.All.empty
  meets f n each := by
    rw [meets_eq]
    refine .gather (keeps.meets n) ?_ fun e enters => keeps.edges n e enters _ ?_
    · cases found : (boundaries p i g).get? n with
      | none => exact .empty
      | some fact => exact keeps.outside n fact found
    · exact all_sent each e.source
  computes n fact all := all_transferNode all (keeps.writes n fact all)

theorem initial (keeps : Keeps p i g P) : (initialFacts p i g).Each fun n fact => fact.All (P n) := by
  intro n fact found
  have found : (initialFacts p i g).behind.get? n = some fact := or_self_iff.mp found
  rw [get?_initialFacts, Option.or_eq_some_iff] at found
  rcases found with given | ⟨-, blank⟩
  · exact keeps.outside n fact given
  · split at blank
    · rw [← Option.some.inj blank]
      exact .empty
    · cases blank

theorem after (keeps : Keeps p i g P) {k : Nat} {a : Agenda Node}
    (run : (system p i g).After (.worklist i.nodes) (initialFacts p i g) k a f) :
    f.Each fun n fact => fact.All (P n) :=
  keeps.preserves.after (lawful p i g) rfl keeps.initial run

theorem everywhere {P : Var → Value → Prop} {flow : MethodRef → Cfg} (flows : g.Flows p flow)
    (built : Icfg.build p g (g.graphs p flow) = .ok i) (meets : ∀ v x y, P v x → P v y → P v (x.meet y))
    (outside : ∀ v, v.holdsInt = true → P v .nac)
    (passed : ∀ call ∈ g.edges, ∀ d, p.body? call.callee = some d → ∀ pair ∈ d.params.zip call.site.call.args,
      ∀ x, P pair.2 x → P pair.1 x)
    (returned : ∀ call ∈ g.edges, ∀ d, p.body? call.callee = some d → ∀ v, call.site.result = some v →
      ∀ r ∈ d.returnVars, ∀ x, P r x → P v x)
    (writes : ∀ f, Constants.All P f → ∀ v, ∀ e : Exp, v.holdsInt = true → e.evaluate f ≠ .undefined →
      P v (e.evaluate f)) : Keeps p i g fun _ => P where
  meets _ := meets
  outside n fact found := by
    obtain ⟨m, b, -, -, -, -, rfl⟩ := (get?_boundaries_iff flows built).mp found
    intro v x entry
    obtain ⟨-, int, rfl⟩ := all_boundary b v x entry
    exact outside v int
  edges n e enters f all := by
    obtain ⟨edge, -⟩ := (Icfg.mirrored_of_build built).mem_inEdges.mp enters
    obtain ⟨rfl, -⟩ := Icfg.build_ok_iff.mp built
    cases Icfg.joins_of_mem flows edge with
    | @within _ b way => exact all_lift all b way
    | into connects =>
        exact all_call connects.runs fun pair member defined =>
          passed _ connects.edge _ connects.runs pair member _ (all.value defined)
    | back connects =>
        exact all_ret meets fun v result r member defined =>
          returned _ connects.edge _ connects.runs v result r member _ (all.value defined)
  writes _ f all _ v e _ _ := writes f all v e

end Keeps

section Steps
variable {p : Program} {g : CallGraph} {flow : MethodRef → Cfg} {i : Icfg} {m : MethodRef} {b : Body} {n : Node}

/-! ## Variables that hold no integer -/

/-- Variables that can be bound: those that hold an integer, and those that a call may hand the value of such a
variable, as a parameter of what it runs or as its result. -/
inductive Handed (p : Program) (g : CallGraph) : Var → Prop where
  | int {v : Var} : v.holdsInt = true → Handed p g v
  | param {call : CallEdge} {d : Body} {v arg : Var} : call ∈ g.edges → p.body? call.callee = some d →
      (v, arg) ∈ d.params.zip call.site.call.args → Handed p g arg → Handed p g v
  | result {call : CallEdge} {d : Body} {v r : Var} : call ∈ g.edges → p.body? call.callee = some d →
      call.site.result = some v → r ∈ d.returnVars → Handed p g r → Handed p g v

structure Matched (p : Program) (g : CallGraph) : Prop where
  params : ∀ call ∈ g.edges, ∀ d, p.body? call.callee = some d → ∀ pair ∈ d.params.zip call.site.call.args,
    pair.2.holdsInt = true → pair.1.holdsInt = true
  results : ∀ call ∈ g.edges, ∀ d, p.body? call.callee = some d → ∀ v, call.site.result = some v →
    ∀ r ∈ d.returnVars, r.holdsInt = true → v.holdsInt = true

theorem Handed.holdsInt (matched : Matched p g) {v : Var} (handed : Handed p g v) : v.holdsInt = true := by
  induction handed with
  | int holds => exact holds
  | param edge runs pair _ ih => exact matched.params _ edge _ runs _ pair ih
  | result edge runs result returned _ ih => exact matched.results _ edge _ runs _ result _ returned ih

theorem keeps_handed (flows : g.Flows p flow) (built : Icfg.build p g (g.graphs p flow) = .ok i) :
    Keeps p i g fun _ v _ => Handed p g v := by
  refine .everywhere flows built (fun _ _ _ left _ => left) (fun _ int => .int int) ?_ ?_ fun _ _ _ _ int _ => .int int
  · exact fun call edge d runs pair member _ handed => .param edge runs member handed
  · exact fun call edge d runs v result r member _ handed => .result edge runs result member handed

/-- Whatever is bound at any step has been handed a value by calls, if it holds no integer. Where the types of what
calls hand on and of what takes it agree, only variables that hold an integer are bound. -/
theorem binds_only_handed (flows : g.Flows p flow) (built : Icfg.build p g (g.graphs p flow) = .ok i) {k : Nat}
    {a : Agenda Node} {f : Facts Node (Constants Var)}
    (run : (system p i g).After (.worklist i.nodes) (initialFacts p i g) k a f) :
    (f.Each fun _ fact => ∀ v ∈ fact.keys, Handed p g v) ∧
      (Matched p g → f.Each fun _ fact => ∀ v ∈ fact.keys, v.holdsInt = true) := by
  have handed : f.Each fun _ fact => ∀ v ∈ fact.keys, Handed p g v := by
    intro n fact found v bound
    obtain ⟨x, entry⟩ := OrderedMap.mem_keys_iff.mp bound
    exact (keeps_handed flows built).after run n fact found v x entry
  exact ⟨handed, fun matched n fact found v bound => (handed n fact found v bound).holdsInt matched⟩

end Steps

end Interprocedural

namespace Relay
open Loop (method)

theorem matched : Interprocedural.Matched program calls := by
  have only {call : CallEdge} (edge : call ∈ calls.edges) : call = ⟨.static, site, callee⟩ := by
    have listed : calls.edges.toList = [⟨.static, site, callee⟩] := rfl
    rwa [OrderedSet.mem_iff, listed, List.mem_singleton] at edge
  constructor
  · intro call edge d runs pair member _
    obtain rfl := only edge
    obtain rfl : inner = d := Option.some.inj runs
    obtain rfl : pair = (a, k) := List.mem_singleton.mp member
    rfl
  · intro call edge d _ v result _ _ _
    obtain rfl := only edge
    obtain rfl : x = v := Option.some.inj result
    rfl

theorem relay_binds_ints : (Icfg.build program calls (calls.graphs program flow) = .ok joined ∧
      Interprocedural.Matched program calls) ∧
    ∃ k a f, (Interprocedural.system program joined calls).After (.worklist joined.nodes)
        (Interprocedural.initialFacts program joined calls) k a f ∧
      (∃ fact, f.before.get? (.stmt 2 method) = some fact ∧ x ∈ fact.keys) ∧
      (f.Each fun _ fact => ∀ v ∈ fact.keys, Interprocedural.Handed program calls v) ∧
      f.Each fun _ fact => ∀ v ∈ fact.keys, v.holdsInt = true := by
  have built : Icfg.build program calls (calls.graphs program flow) = .ok joined := rfl
  have computed : ((Interprocedural.solve program joined calls (some 60)).state?.bind fun s =>
      (s.input.get? (.stmt 2 method)).map fun fact => decide (x ∈ fact.keys)) = some true := by decide +kernel
  simp only [Option.bind_eq_some_iff, Option.map_eq_some_iff, decide_eq_true_eq] at computed
  obtain ⟨s, found, fact, here, bound⟩ := computed
  obtain ⟨t, settled⟩ := Outcome.settled_of_state? found
  obtain ⟨f, rfl, ⟨a, run, -⟩, -⟩ := Interprocedural.solve_settled_iff.mp settled
  obtain ⟨handed, ints⟩ := Interprocedural.binds_only_handed flows built run
  exact ⟨⟨built, matched⟩, t, a, f, run, ⟨fact, here, bound⟩, handed, ints matched⟩

end Relay

namespace Widening

def caller : MethodRef := ⟨⟨0, "Main"⟩, ⟨"f", [], .int⟩⟩

def callee : MethodRef := ⟨⟨0, "Main"⟩, ⟨"g", [.double], .int⟩⟩

def k : Var := ⟨"k", .int, some caller, 0⟩

def r : Var := ⟨"r", .double, some caller, 1⟩

def d : Var := ⟨"d", .double, some callee, 0⟩

def y : Var := ⟨"y", .int, some callee, 1⟩

def outer : Body where
  method := caller
  this := none
  params := []
  stmts := [.assign (.var k) (.lit 7), .invoke ⟨.static, callee, [k], none⟩ (some r)]
  vars := [k, r]

def inner : Body where
  method := callee
  this := none
  params := [d]
  stmts := [.assign (.var y) (.lit 7), .ret (some y)]
  vars := [d, y]

def program : Program := ⟨[⟨⟨0, "Main"⟩, none, [], false, false,
  [⟨callee.sig, true, false, none, some inner⟩, ⟨caller.sig, true, false, none, some outer⟩]⟩]⟩

def flow (m : MethodRef) : Cfg :=
  if m = caller then (Cfg.bare 0 caller 2).drawAll ((Cfg.bare 0 caller 2).edgesOf outer)
  else (Cfg.bare 1 callee 2).drawAll ((Cfg.bare 1 callee 2).edgesOf inner)

def calls : CallGraph := (CallGraph.ofEntries program none [caller]).toOption.getD .empty

def joined : Icfg := Icfg.join program calls (calls.graphs program flow)

/-- A parameter and a result that hold no integer are bound nevertheless. -/
theorem widening_bound : (Cfg.build 0 outer = .ok (flow caller) ∧ Cfg.build 1 inner = .ok (flow callee) ∧
      CallGraph.ofEntries program none [caller] = .ok calls ∧
      Icfg.build program calls (calls.graphs program flow) = .ok joined) ∧
    ∃ k a f, (Interprocedural.system program joined calls).After (.worklist joined.nodes)
        (Interprocedural.initialFacts program joined calls) k a f ∧
      (∃ fact, f.before.get? (.entry 1) = some fact ∧ d ∈ fact.keys ∧ d.holdsInt = false) ∧
      ∃ fact, f.before.get? (.exit 0) = some fact ∧ r ∈ fact.keys ∧ r.holdsInt = false := by
  have computed : ((Interprocedural.solve program joined calls (some 60)).state?.bind fun s =>
      (s.input.get? (.entry 1)).bind fun first => (s.input.get? (.exit 0)).map fun last =>
        decide (d ∈ first.keys ∧ r ∈ last.keys)) = some true := by decide +kernel
  simp only [Option.bind_eq_some_iff, Option.map_eq_some_iff, decide_eq_true_eq] at computed
  obtain ⟨s, found, first, there, last, here, passed, returned⟩ := computed
  obtain ⟨t, settled⟩ := Outcome.settled_of_state? found
  obtain ⟨f, rfl, ⟨a, run, -⟩, -⟩ := Interprocedural.solve_settled_iff.mp settled
  exact ⟨⟨rfl, rfl, rfl, rfl⟩, t, a, f, run, ⟨first, there, passed, rfl⟩, last, here, returned, rfl⟩

end Widening

namespace Interprocedural

section Steps
variable {p : Program} {g : CallGraph} {flow : MethodRef → Cfg} {i : Icfg} {m : MethodRef} {b : Body} {n : Node}

/-! ## Variables of the method -/

theorem keeps_values (flows : g.Flows p flow) (built : Icfg.build p g (g.graphs p flow) = .ok i) :
    Keeps p i g fun _ _ x => x.Bound :=
  .everywhere flows built (fun _ _ _ left right => left.meet right) (fun _ _ => ⟨Value.noConfusion, trivial⟩)
    (fun _ _ _ _ _ _ _ passed => passed) (fun _ _ _ _ _ _ _ _ _ returned => returned)
    fun _ all _ _ _ defined => Exp.bound_evaluate all defined

def Homes (p : Program) (g : CallGraph) (flow : MethodRef → Cfg) (n : Node) (v : Var) : Prop :=
  ∀ m ∈ g.reachable, ∀ b, p.body? m = some b → n ∈ (flow m).nodes → v ∈ b.vars

theorem keeps_homes (belongs : ∀ e ∈ g.edges, e.site.belongs p = true) (flows : g.Flows p flow)
    (built : Icfg.build p g (g.graphs p flow) = .ok i)
    (contained : ∀ m ∈ g.reachable, ∀ b, p.body? m = some b → b.SelfContained) :
    Keeps p i g fun n v _ => Homes p g flow n v where
  meets _ _ _ _ left _ := left
  outside n fact found := by
    obtain ⟨m, b, -, reachable, body, rfl, rfl⟩ := (get?_boundaries_iff flows built).mp found
    intro v x entry m' reachable' b' body' inside
    have here : (flow m).entry ∈ (flow m).nodes := Cfg.mem_nodes.mpr (by simp [Cfg.contains, Cfg.entry])
    obtain rfl := flows.eq_of_mem_nodes reachable body reachable' body' here inside
    obtain rfl := Option.some.inj (body.symm.trans body')
    exact (contained m reachable b body).params v (Propagation.all_boundary b v x entry).1
  edges n e enters f all := by
    intro v x entry m reachable b body inside
    -- the method is given by now, so that it is enough to look at where its nodes are entered
    have own : (transferEdge p e.passage f).All fun v _ => v ∈ b.vars := by
      rcases Icfg.mem_inEdges_cases flows built reachable body inside enters with
        ⟨way, drawn, -, rfl⟩ | ⟨-, source, site, rfl⟩ | ⟨call, d, connects, -, rfl⟩
      · have source := ((flows.drawn m reachable b body).mirrored.inside way drawn).1
        rw [Icfg.lift_source] at all
        refine all_lift (fun u y known => ?_) b way
        exact all u y known m reachable b body (Cfg.mem_nodes.mpr source)
      · refine all_call body fun pair member _ => ?_
        exact (contained m reachable b body).params _ (List.of_mem_zip member).1
      · refine all_ret (fun _ _ _ left _ => left) fun u result _ _ _ => ?_
        obtain ⟨b', body', placed⟩ := (CallSite.belongs_iff connects.home).mp (belongs _ connects.edge)
        obtain rfl := Option.some.inj (body.symm.trans body')
        refine (contained m reachable b body).written _ (List.mem_of_getElem? placed) u ?_
        simp [CallSite.stmt, Stmt.defVar?, Stmt.def?, result, Exp.var?]
    exact own v x entry
  writes n f _ s v _ stands written _ _ := by
    intro m reachable b body inside
    rw [stmtAt_eq flows reachable body (Cfg.mem_nodes.mp inside)] at stands
    exact (contained m reachable b body).written s (Body.mem_of_stmt? stands) v written

theorem present_initialFacts (p : Program) (g : CallGraph) (member : n ∈ i.nodes) :
    ∃ before behind, (initialFacts p i g).before.get? n = some before ∧
      (initialFacts p i g).behind.get? n = some behind := by
  have found := get?_initialFacts p i g n
  rw [if_pos member] at found
  obtain ⟨fact, given⟩ : ∃ fact, ((boundaries p i g).get? n).or (some OrderedMap.empty) = some fact := by
    cases (boundaries p i g).get? n <;> exact ⟨_, rfl⟩
  exact ⟨fact, fact, found.trans given, found.trans given⟩

/-- At every step there are facts on both sides of every node of a method, and they are about the variables of the
method. Calls may come back to methods that wait for them. -/
theorem facts_belong {Past : Program → Prop} (made : g.Made Past)
    (kept : ∀ q, Past q → ∀ site : CallSite, site.belongs q = true → site.belongs p = true)
    (flows : g.Flows p flow) (built : Icfg.build p g (g.graphs p flow) = .ok i)
    (contained : ∀ m ∈ g.reachable, ∀ b, p.body? m = some b → b.SelfContained) {k : Nat} {a : Agenda Node}
    {f : Facts Node (Constants Var)}
    (run : (system p i g).After (.worklist i.nodes) (initialFacts p i g) k a f) (reachable : m ∈ g.reachable)
    (body : p.body? m = some b) (inside : n ∈ (flow m).nodes) :
    ∃ before behind, f.before.get? n = some before ∧ f.behind.get? n = some behind ∧
      before.Belongs b ∧ behind.Belongs b := by
  have belongs (fact : Constants Var) (found : f.before.get? n = some fact ∨ f.behind.get? n = some fact) :
      fact.Belongs b := by
    have homes := (keeps_homes (made.belongs kept) flows built contained).after run n fact found
    have values := (keeps_values flows built).after run n fact found
    constructor
    · intro v bound
      obtain ⟨x, entry⟩ := OrderedMap.mem_keys_iff.mp bound
      exact homes v x entry m reachable b body inside
    · exact fun v entry => (values v _ entry).1 rfl
    · exact fun v c entry => (values v _ entry).2
  obtain ⟨before, behind, found, found'⟩ := Scheme.present_after (c := scheme p i g) rfl run
    (present_initialFacts p g (Icfg.mem_nodes_of_flow built reachable body inside))
  exact ⟨before, behind, found, found', belongs before (.inl found), belongs behind (.inr found')⟩

end Steps

end Interprocedural

namespace Echo
open Loop (method)

theorem contained : body.SelfContained := ⟨by decide +kernel, by decide +kernel⟩

theorem echo_belongs : (calls.Made (· = program) ∧
      Icfg.build program calls (calls.graphs program flow) = .ok joined ∧ body.SelfContained) ∧
    ∃ t a f, (Interprocedural.system program joined calls).After (.worklist joined.nodes)
        (Interprocedural.initialFacts program joined calls) t a f ∧
      ∃ before behind, f.before.get? (.stmt 1 method) = some before ∧ f.behind.get? (.stmt 1 method) = some behind ∧
        before.Belongs body ∧ behind.Belongs body := by
  have resolved : CallGraph.ofEntries program none [method] = .ok calls := rfl
  have built : Icfg.build program calls (calls.graphs program flow) = .ok joined := rfl
  have made := CallGraph.made_ofEntries resolved
  have kept (q : Program) (past : q = program) (site : CallSite) (belongs : site.belongs q = true) :
      site.belongs program = true := past ▸ belongs
  obtain ⟨s, t, settled⟩ : ∃ s t, Interprocedural.solve program joined calls (some 60) = .settled s t :=
    Outcome.exists_of_state? (by decide +kernel)
  obtain ⟨f, -, ⟨a, run, -⟩, -⟩ := Interprocedural.solve_settled_iff.mp settled
  have all (m : MethodRef) (reachable : m ∈ calls.reachable) (b : Body) (found : program.body? m = some b) :
      b.SelfContained := by
    have listed : calls.reachable.toList = [method] := rfl
    rw [OrderedSet.mem_iff, listed, List.mem_singleton] at reachable
    subst reachable
    obtain rfl : body = b := Option.some.inj found
    exact contained
  exact ⟨⟨made, built, contained⟩, t, a, f, run, Interprocedural.facts_belong made kept flows built all run
    (m := method) (by decide +kernel) rfl (by decide +kernel)⟩

end Echo

end Dataflow
