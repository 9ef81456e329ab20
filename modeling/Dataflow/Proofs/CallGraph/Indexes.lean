import Dataflow.Proofs.Workspace.Bodies
import Dataflow.Workspace.Calls

/-!
The indexes of a call graph over a whole session. Entries, methods and edges are added in any order, and some of these
calls fail; meanwhile anything may happen in the workspace that changes neither the graph nor bodies (`History`). A call
that fails changes nothing, and whenever one looks, both indexes agree with the list of edges, the edges are those of
calls that stand in reachable bodies, and asking for callees and for callers gives the same relation
(`consistent_of_history`). Callees are looked up by the body of a method, so this last needs that methods have no other
bodies than their own, as they do in a workspace that calls have built.
-/

namespace Dataflow

namespace CallGraph
variable {Past : Program → Prop} {p : Program} {g : CallGraph} {m n : MethodRef}

theorem mem_callees_iff (own : p.OwnBodies) (indexed : g.Indexed) (belongs : ∀ e ∈ g.edges, e.site.belongs p = true) :
    n ∈ g.callees p m ↔ ∃ e ∈ g.edges, e.site.home = some m ∧ e.callee = n := by
  simp only [callees, OrderedSet.mem_distinct, List.mem_flatMap, calleesOf, List.mem_map, indexed _, List.mem_filter,
    decide_eq_true_eq]
  constructor
  · rintro ⟨s, site, e, ⟨edge, rfl⟩, rfl⟩
    -- callees are looked up by the calls of the body, so those have to be calls of the method itself
    exact ⟨e, edge, (Program.site_placed own site).1, rfl⟩
  · rintro ⟨e, edge, home, rfl⟩
    obtain ⟨b, body, placed⟩ := (CallSite.belongs_iff home).mp (belongs e edge)
    have site : e.site ∈ b.sites := Program.mem_sites_iff.mpr ⟨by rw [home, own m b body], placed⟩
    exact ⟨e.site, by simpa [Program.sites, body] using site, e, ⟨edge, rfl⟩, rfl⟩

theorem mem_callers_iff (indexed : ∀ n, g.edgesInto n = g.edges.toList.filter (·.callee = n)) :
    m ∈ g.callers n ↔ ∃ e ∈ g.edges, e.site.home = some m ∧ e.callee = n := by
  simp only [callers, OrderedSet.mem_distinct, List.mem_filterMap, callersOf, List.mem_map, indexed, List.mem_filter,
    decide_eq_true_eq]
  constructor
  · rintro ⟨s, ⟨e, ⟨edge, callee⟩, rfl⟩, home⟩
    exact ⟨e, edge, home, callee⟩
  · rintro ⟨e, edge, home, callee⟩
    exact ⟨e.site, ⟨e, ⟨edge, callee⟩, rfl⟩, home⟩

/-- Whatever a call graph is asked, the answers agree with its list of edges, and the edges with the program. -/
structure Consistent (p : Program) (g : CallGraph) : Prop where
  once : g.edges.toList.Nodup
  outOf : ∀ s, g.edgesOutOf s = g.edges.toList.filter (·.site = s)
  into : ∀ m, g.edgesInto m = g.edges.toList.filter (·.callee = m)
  placed : ∀ e ∈ g.edges.toList, ∃ m b, e.site.home = some m ∧ m ∈ g.reachable.toList ∧ p.body? m = some b ∧
    b.stmts[e.site.pos]? = some e.site.stmt
  fits : ∀ e ∈ g.edges.toList, e.site.call.args.length = e.callee.arity
  converse : p.OwnBodies → ∀ m n, n ∈ g.callees p m ↔ m ∈ g.callers n

theorem Made.consistent (made : g.Made Past)
    (kept : ∀ q, Past q → ∀ s : CallSite, s.belongs q = true → s.belongs p = true) : g.Consistent p where
  once := g.edges.nodup
  outOf := made.indexed
  into := made.indexedInto
  placed e edge := by
    obtain ⟨⟨m, reachable, home⟩, -⟩ := made.accepted e edge
    obtain ⟨b, body, placed⟩ := (CallSite.belongs_iff home).mp (made.belongs kept e edge)
    exact ⟨m, b, home, reachable, body, placed⟩
  fits e edge := (made.accepted e edge).2
  converse own m n := by
    rw [mem_callees_iff own made.indexed (made.belongs kept), mem_callers_iff made.indexedInto]

/-! ## Sessions -/

inductive Operation where
  | entry (m : MethodRef)
  | method (m : MethodRef)
  | edge (e : CallEdge)

def Operation.perform (id : Nat) : Operation → Session Unit
  | .entry m => Session.addCallEntry id m
  | .method m => do
      let _ ← Session.addCallMethod id m
  | .edge e => do
      let _ ← Session.addCallEdge id e

/-- Workspaces in the course of a session, from where the call graph of a number has just been made. -/
inductive History (id : Nat) : Workspace → Prop where
  | created {w : Workspace} : w.callGraphs[id]? = some .empty → History id w
  | called {w : Workspace} (op : Operation) : History id w → History id ((op.perform id).on w).2
  | meanwhile {w w' : Workspace} : History id w → w'.callGraphs[id]? = w.callGraphs[id]? →
      (∀ m, w'.program.body? m = w.program.body? m) → History id w'

section History
variable {id : Nat} {w : Workspace}

theorem on_callGraph (found : w.callGraphs[id]? = some g) : (Session.callGraph id).on w = (.ok g, w) := by
  rw [Session.callGraph, Steps.on_bind, Steps.on_get]
  simp [found]

theorem perform_cases (found : w.callGraphs[id]? = some g) (op : Operation) :
    (∃ error, (op.perform id).on w = (.error error, w)) ∨
      ∃ g', (op.perform id).on w = (.ok (), { w with callGraphs := w.callGraphs.set id g' }) ∧
        ∀ Past : Program → Prop, Past w.program → g.Made Past → g'.Made Past := by
  cases op with
  | entry m =>
      refine .inr ⟨g.addEntry m, ?_, fun _ _ made => made.entry⟩
      rw [Operation.perform, Session.addCallEntry, Steps.on_bind, on_callGraph found]
      rfl
  | method m =>
      refine .inr ⟨(g.addReachable m).1, ?_, fun _ _ made => made.method⟩
      rw [Operation.perform, Steps.on_bind, Session.addCallMethod, Steps.on_bind, on_callGraph found]
      rfl
  | edge e =>
      have ran : (Session.addCallEdge id e).on w = match g.addEdge w.program e with
          | .error error => (.error error, w)
          | .ok (g', new) => (.ok new, { w with callGraphs := w.callGraphs.set id g' }) := by
        rw [Session.addCallEdge, Steps.on_bind, on_callGraph found]
        simp only [Steps.on_bind, Steps.on_get, Steps.on_lift]
        cases g.addEdge w.program e <;> rfl
      rw [Operation.perform, Steps.on_bind, ran]
      cases added : g.addEdge w.program e with
      | error error => exact .inl ⟨error, rfl⟩
      | ok result => exact .inr ⟨result.1, rfl, fun _ past made => made.edge past added⟩

theorem History.made (history : History id w) : ∃ g, w.callGraphs[id]? = some g ∧
    g.Made fun q => ∀ m, q.body? m = w.program.body? m := by
  induction history with
  | created new => exact ⟨.empty, new, .empty⟩
  | @called w op _ ih =>
      obtain ⟨g, found, made⟩ := ih
      rcases perform_cases found op with ⟨error, failed⟩ | ⟨g', ran, grows⟩
      · rw [failed]
        exact ⟨g, found, made⟩
      · rw [ran]
        have bound : id < w.callGraphs.length := (List.getElem?_eq_some_iff.mp found).1
        exact ⟨g', by simp [bound], grows _ (fun m => rfl) made⟩
  | meanwhile _ same bodies ih =>
      obtain ⟨g, found, made⟩ := ih
      exact ⟨g, same.trans found, made.mono fun q alike m => (alike m).trans (bodies m).symm⟩

theorem History.foldl (history : History id w) (ops : List Operation) :
    History id (ops.foldl (fun w op => ((op.perform id).on w).2) w) := by
  induction ops generalizing w with
  | nil => exact history
  | cons op ops ih => exact ih (history.called op)

theorem program_perform (found : w.callGraphs[id]? = some g) (op : Operation) :
    ((op.perform id).on w).2.program = w.program := by
  rcases perform_cases found op with ⟨error, failed⟩ | ⟨g', ran, -⟩
  · rw [failed]
  · rw [ran]

theorem History.built (history : History id w) (built : w.Built) (ops : List Operation) :
    (ops.foldl (fun w op => ((op.perform id).on w).2) w).Built := by
  induction ops generalizing w with
  | nil => exact built
  | cons op ops ih =>
      obtain ⟨g, found, -⟩ := history.made
      exact ih (history.called op) (built.meanwhile (program_perform found op))

/-- At any time in a session, the call graph is consistent with the program. In a workspace that calls have built,
callees and callers are converse to each other, and in any workspace a call that fails leaves everything as it was. -/
theorem consistent_of_history (history : History id w) :
    ∃ g, w.callGraphs[id]? = some g ∧ g.Consistent w.program ∧
      (w.Built → ∀ m n, n ∈ g.callees w.program m ↔ m ∈ g.callers n) ∧
      ∀ op error w', (Operation.perform id op).on w = (.error error, w') → w' = w := by
  obtain ⟨g, found, made⟩ := history.made
  have kept (q : Program) (alike : ∀ m, q.body? m = w.program.body? m) (s : CallSite) (belongs : s.belongs q = true) :
      s.belongs w.program = true := by
    cases home : s.home with
    | none => simp [CallSite.belongs, home] at belongs
    | some m =>
        rw [CallSite.belongs_iff home] at belongs ⊢
        rwa [← alike m]
  have consistent := made.consistent kept
  refine ⟨g, found, consistent, fun built => consistent.converse built.ownBodies, fun op error w' failed => ?_⟩
  rcases perform_cases found op with ⟨_, unchanged⟩ | ⟨_, ran, -⟩
  · exact (Prod.mk.inj (failed.symm.trans unchanged)).2
  · cases failed.symm.trans ran

end History

end CallGraph

namespace Shapes
open CallGraph (Operation History)

def askSite : CallSite := ⟨some grow, 0, ask, some ⟨"x", .int, some grow, 1⟩⟩

def toTile : CallEdge := ⟨.interface, askSite, ⟨tile, area⟩⟩

def toGrow : CallEdge := ⟨.interface, askSite, grow⟩

def operations : List Operation :=
  [.edge toTile, .entry grow, .method grow, .edge toGrow, .edge toTile, .edge toTile]

def constructions : List Construction :=
  [.addClass "Main" "Main" none [] false false,
    .addClass "Shape" "Shape" none [] true true,
    .addClass "Solid" "Solid" none [shape] true true,
    .addClass "Square" "Square" none [shape] false false,
    .addClass "Tile" "Tile" (some square) [solid] false false,
    .declare "Shape.area" ⟨shape, area⟩ false true,
    .startMethod "Main.grow" grow true (some ["s"]),
    .instruct grow (.var "x" .int),
    .instruct grow (.invoke .interface ⟨shape, area⟩ [] (some "s") (some "x")),
    .instruct grow (.ret (some "x")),
    .instruct grow .finish,
    .startMethod "Square.area" ⟨square, area⟩ false none,
    .instruct ⟨square, area⟩ (.invoke .static grow ["this"] none none),
    .instruct ⟨square, area⟩ (.ret none),
    .instruct ⟨square, area⟩ .finish,
    .startMethod "Tile.area" ⟨tile, area⟩ false none,
    .instruct ⟨tile, area⟩ (.ret none),
    .instruct ⟨tile, area⟩ .finish]

def assembled : Workspace := constructions.foldl (fun w call => (call.perform.on w).2) .empty

def workspace : Workspace := { assembled with callGraphs := [.empty] }

def later : Workspace := operations.foldl (fun w op => ((op.perform 0).on w).2) workspace

theorem consistent_later : (History 0 later ∧ later.Built) ∧
    later.callGraphs.map (·.edges.toList) = [[toTile]] ∧
    (∃ g, later.callGraphs[0]? = some g ∧ g.Consistent later.program ∧
      ∀ m n, n ∈ g.callees later.program m ↔ m ∈ g.callers n) ∧
    (((Operation.edge toGrow).perform 0).on later).1.toOption = none ∧
    (((Operation.edge toGrow).perform 0).on later).2 = later := by
  have fresh : History 0 workspace := .created rfl
  have whole : assembled.Built := Workspace.Built.empty.foldl constructions
  have made : workspace.Built := whole.meanwhile (by simp only [workspace])
  have history : History 0 later := fresh.foldl operations
  have built : later.Built := fresh.built made operations
  obtain ⟨g, found, consistent, converse, unchanged⟩ := CallGraph.consistent_of_history history
  have fails : (((Operation.edge toGrow).perform 0).on later).1.toOption = none := by decide +kernel
  refine ⟨⟨history, built⟩, by decide +kernel, ⟨g, found, consistent, converse built⟩, fails, ?_⟩
  cases ran : ((Operation.edge toGrow).perform 0).on later with
  | mk result w =>
      rw [ran] at fails
      cases result with
      | ok _ => cases fails
      | error error => exact unchanged _ error w ran

end Shapes

end Dataflow
