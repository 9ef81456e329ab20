import Dataflow.CallGraph.Resolve
import Dataflow.Proofs.Data.Maps
import Dataflow.Proofs.Data.Search

/-!
The call graph that follows from the class hierarchy is closed: entries and whatever a reachable method may call
are reachable, and the edges of a call are found by looking it up (`closed_of_ofEntries`). Each step of the
construction adds certain methods and edges (`Adds`), and such steps compose. Graphs that are made otherwise, by any
sequence of the same operations (`Made`), need not be closed, but calls are found in them and stand where they say.
-/

namespace Dataflow

namespace Program
variable {p : Program} {h : Option Hierarchy} {m : MethodRef}

theorem mem_methods_of_method? (declared : (p.method? m).isSome = true) : m ∈ p.methods := by
  obtain ⟨d, found⟩ := Option.isSome_iff_exists.mp declared
  obtain ⟨c, owner, found⟩ := Option.bind_eq_some_iff.mp found
  have same : c.id = m.owner := by simpa using List.find?_some owner
  have same' : d.sig = m.sig := by simpa using List.find?_some found
  refine List.mem_flatMap.mpr ⟨c, List.mem_of_find?_eq_some owner, ?_⟩
  refine List.mem_map.mpr ⟨d, List.mem_of_find?_eq_some found, ?_⟩
  rw [same, same']

theorem mem_methods_of_dispatch {c : ClassId} {sig : Subsignature} (runs : p.dispatch c sig = some m) :
    m ∈ p.methods := by
  obtain ⟨d, found, rfl⟩ := Option.map_eq_some_iff.mp runs
  refine mem_methods_of_method? ?_
  have concrete := List.find?_some found
  cases declared : p.method? ⟨d, sig⟩ with
  | none => simp [declared] at concrete
  | some _ => rfl

theorem mem_methods_of_targets {c : Call} {ms : List MethodRef} (runs : p.targets h c = .ok ms) (member : m ∈ ms) :
    m ∈ p.methods := by
  unfold targets at runs
  split at runs
  · obtain rfl := Except.ok.inj runs
    split at member
    · next declared =>
        rw [List.mem_singleton.mp member]
        exact mem_methods_of_method? declared
    · cases member
  · obtain rfl := Except.ok.inj runs
    exact mem_methods_of_dispatch (Option.mem_toList.mp member)
  all_goals
    cases h with
    | none => cases runs
    | some h =>
        obtain rfl := Except.ok.inj runs
        obtain ⟨d, -, runs⟩ := List.mem_filterMap.mp (OrderedSet.mem_distinct.mp member)
        exact mem_methods_of_dispatch runs

def siteEdges (p : Program) (h : Option Hierarchy) (s : CallSite) : List CallEdge :=
  ((p.targets h s.call).toOption.getD []).map fun callee => ⟨s.call.kind, s, callee⟩

def methodEdges (p : Program) (h : Option Hierarchy) (m : MethodRef) : List CallEdge :=
  (p.sites m).flatMap (p.siteEdges h)

theorem callee_mem_called {e : CallEdge} (member : e ∈ p.methodEdges h m) :
    e.callee ∈ p.called h m ∧ e.callee ∈ p.methods := by
  obtain ⟨s, site, member⟩ := List.mem_flatMap.mp member
  obtain ⟨callee, runs, rfl⟩ := List.mem_map.mp member
  refine ⟨List.mem_flatMap.mpr ⟨s, site, runs⟩, ?_⟩
  cases told : p.targets h s.call with
  | error _ => simp [told, Except.toOption] at runs
  | ok ms => exact mem_methods_of_targets told (by simpa [told, Except.toOption] using runs)

end Program

theorem CallSite.belongs_iff {p : Program} {s : CallSite} {m : MethodRef} (home : s.home = some m) :
    s.belongs p = true ↔ ∃ b, p.body? m = some b ∧ b.stmts[s.pos]? = some s.stmt := by
  rw [belongs, home, Option.bind_some]
  cases p.body? m <;> simp

namespace CallGraph
variable {p : Program} {h : Option Hierarchy} {g g' g'' : CallGraph}

def Indexed (g : CallGraph) : Prop := ∀ s, g.edgesOutOf s = g.edges.toList.filter (·.site = s)

structure Adds (g g' : CallGraph) (ms : List MethodRef) (es : List CallEdge) : Prop where
  entries : g'.entries = g.entries
  reachable : ∀ m, m ∈ g'.reachable ↔ m ∈ g.reachable ∨ m ∈ ms
  edges : ∀ e, e ∈ g'.edges ↔ e ∈ g.edges ∨ e ∈ es
  indexed : g.Indexed → g'.Indexed

theorem Adds.refl (g : CallGraph) : g.Adds g [] [] where
  entries := rfl
  reachable m := by simp
  edges e := by simp
  indexed := id

theorem Adds.trans {ms ms' : List MethodRef} {es es' : List CallEdge} (first : g.Adds g' ms es)
    (second : g'.Adds g'' ms' es') : g.Adds g'' (ms ++ ms') (es ++ es') where
  entries := second.entries.trans first.entries
  reachable m := by rw [second.reachable, first.reachable, List.mem_append, or_assoc]
  edges e := by rw [second.edges, first.edges, List.mem_append, or_assoc]
  indexed indexed := second.indexed (first.indexed indexed)

theorem foldlM_cons_ok {α : Type} {step : CallGraph → α → Except Error CallGraph} {head : α} {tail : List α}
    (ran : (head :: tail).foldlM step g = .ok g') :
    ∃ between, step g head = .ok between ∧ tail.foldlM step between = .ok g' := by
  rw [List.foldlM_cons] at ran
  cases first : step g head with
  | error e => simp [first, bind, Except.bind] at ran
  | ok between =>
      rw [first] at ran
      exact ⟨between, rfl, ran⟩

theorem Adds.foldlM {α : Type} {step : CallGraph → α → Except Error CallGraph} {ms : α → List MethodRef}
    {es : α → List CallEdge} {items : List α}
    (each : ∀ a ∈ items, ∀ g g', step g a = .ok g' → g.Adds g' (ms a) (es a))
    (ran : items.foldlM step g = .ok g') : g.Adds g' (items.flatMap ms) (items.flatMap es) := by
  induction items generalizing g with
  | nil =>
      obtain rfl := Except.ok.inj ran
      exact .refl g
  | cons head tail ih =>
      obtain ⟨between, first, rest⟩ := foldlM_cons_ok ran
      have later := ih (fun a member => each a (List.mem_cons_of_mem _ member)) rest
      exact (each head List.mem_cons_self g between first).trans later

theorem refusal_eq_none_iff {e : CallEdge} : g.refusal p e = none ↔ (∃ m ∈ g.reachable, e.site.home = some m) ∧
    e.site.belongs p = true ∧ e.site.call.args.length = e.callee.arity := by
  unfold refusal misplaced
  cases home : e.site.home with
  | none => simp
  | some m =>
      by_cases belongs : e.site.belongs p = true
      · have told : g.reachable.contains m = decide (m ∈ g.reachable) := rfl
        by_cases reachable : m ∈ g.reachable <;> simp [belongs, told, reachable]
      · simp [belongs]

theorem addEdge_ok {e : CallEdge} {new : Bool} (added : g.addEdge p e = .ok (g', new)) : g.refusal p e = none ∧
    (e ∈ g.edges ∧ g' = g ∨ e ∉ g.edges ∧ g' = { g with
      edges := g.edges.insert e
      bySite := g.bySite.insert e.site (g.bySite.getD e.site [] ++ [e])
      byCallee := g.byCallee.insert e.callee (g.byCallee.getD e.callee [] ++ [e]) }) := by
  unfold addEdge at added
  split at added
  · cases added
  · next accepted =>
      refine ⟨accepted, ?_⟩
      split at added
      · next known => exact .inl ⟨OrderedSet.contains_iff.mp known, (Prod.mk.inj (Except.ok.inj added)).1.symm⟩
      · next unknown =>
          exact .inr ⟨fun known => unknown (OrderedSet.contains_iff.mpr known),
            (Prod.mk.inj (Except.ok.inj added)).1.symm⟩

/-- An index that files edges in order does so still when a new edge is filed: it comes last, both among all edges and
among those of its key. -/
theorem filed_insert {κ : Type} [DecidableEq κ] (key : CallEdge → κ) {index : OrderedMap κ (List CallEdge)}
    {edges : OrderedSet CallEdge} {e : CallEdge} (absent : e ∉ edges)
    (filed : ∀ k, index.getD k [] = edges.toList.filter (key · = k)) (k : κ) :
    (index.insert (key e) (index.getD (key e) [] ++ [e])).getD k [] =
      (edges.insert e).toList.filter (key · = k) := by
  have listed : (edges.insert e).toList = edges.toList ++ [e] := by
    rw [OrderedSet.insert, dif_neg (show e ∉ edges.toList from absent)]
  rw [listed, List.filter_append, ← filed]
  by_cases here : key e = k <;> simp [OrderedMap.getD, here]

theorem adds_addEdge {e : CallEdge} {new : Bool} (added : g.addEdge p e = .ok (g', new)) :
    g.Adds g' [] [e] := by
  obtain ⟨-, ⟨known, rfl⟩ | ⟨unknown, rfl⟩⟩ := addEdge_ok added
  · refine ⟨rfl, by simp, fun e' => ?_, id⟩
    rw [List.mem_singleton, or_iff_left_of_imp]
    rintro rfl
    exact known
  · exact ⟨rfl, by simp, by simp, filed_insert CallEdge.site unknown⟩

theorem Adds.edgesOnly {α : Type} {step : CallGraph → α → Except Error CallGraph} {es : α → List CallEdge}
    {items : List α} (each : ∀ a ∈ items, ∀ g g', step g a = .ok g' → g.Adds g' [] (es a))
    (ran : items.foldlM step g = .ok g') : g.Adds g' [] (items.flatMap es) := by
  have nothing : items.flatMap (fun _ => []) = ([] : List MethodRef) := List.flatMap_eq_nil_iff.mpr (by simp)
  rw [← nothing]
  exact Adds.foldlM each ran

theorem addSite_ok {s : CallSite} (added : addSite p h g s = .ok g') : ∃ callees, p.targets h s.call = .ok callees ∧
    callees.foldlM (fun g callee => (g.addEdge p ⟨s.call.kind, s, callee⟩).map Prod.fst) g = .ok g' := by
  unfold addSite at added
  cases told : p.targets h s.call with
  | error e => simp [told, bind, Except.bind] at added
  | ok callees =>
      rw [told] at added
      exact ⟨callees, rfl, added⟩

theorem addEdge_ok_of_map {e : CallEdge} (added : (g.addEdge p e).map Prod.fst = .ok g') :
    ∃ new, g.addEdge p e = .ok (g', new) := by
  cases ran : g.addEdge p e with
  | error error => simp [ran, Except.map] at added
  | ok result =>
      obtain rfl : result.1 = g' := by simpa [ran, Except.map] using added
      exact ⟨result.2, rfl⟩

theorem adds_addSite {s : CallSite} (added : addSite p h g s = .ok g') : g.Adds g' [] (p.siteEdges h s) := by
  obtain ⟨callees, told, added⟩ := addSite_ok added
  have made : p.siteEdges h s = callees.flatMap fun callee => [⟨s.call.kind, s, callee⟩] := by
    rw [Program.siteEdges, told, ← List.map_eq_flatMap]
    rfl
  rw [made]
  refine Adds.edgesOnly (fun callee _ g g' step => ?_) added
  obtain ⟨new, edge⟩ := addEdge_ok_of_map step
  exact adds_addEdge edge

theorem adds_addMethod {m : MethodRef} (added : addMethod p h g m = .ok g') :
    g.Adds g' [m] (p.methodEdges h m) := by
  have marked : g.Adds (g.addReachable m).1 [m] [] := ⟨rfl, by simp [addReachable], by simp [addReachable], id⟩
  exact marked.trans (Adds.edgesOnly (fun s _ g g' step => adds_addSite step) added)

theorem adds_ofEntries {entries : List MethodRef} (built : ofEntries p h entries = .ok g) :
    (entries.foldl addEntry empty).Adds g (closure p h entries)
      ((closure p h entries).flatMap (p.methodEdges h)) := by
  have whole := Adds.foldlM (fun m _ g g' step => adds_addMethod step) built
  rwa [← List.map_eq_flatMap, List.map_id'] at whole

theorem foldl_addEntry (entries : List MethodRef) (g : CallGraph) :
    entries.foldl addEntry g = { g with entries := g.entries.insertAll entries } := by
  induction entries generalizing g with
  | nil => rfl
  | cons head tail ih =>
      rw [List.foldl_cons, ih]
      rfl

/-! ## Any sequence of operations -/

/-- A graph that was made by adding entries, methods and edges in any order. `Past` tells of the programs, as they were
when an edge was added. -/
inductive Made (Past : Program → Prop) : CallGraph → Prop where
  | empty : Made Past empty
  | entry {g : CallGraph} {m : MethodRef} : Made Past g → Made Past (g.addEntry m)
  | method {g : CallGraph} {m : MethodRef} : Made Past g → Made Past (g.addReachable m).1
  | edge {g g' : CallGraph} {q : Program} {e : CallEdge} {new : Bool} :
      Past q → g.addEdge q e = .ok (g', new) → Made Past g → Made Past g'

section Made
variable {Past : Program → Prop}

theorem Made.mono {Past' : Program → Prop} (wider : ∀ q, Past q → Past' q) (made : g.Made Past) : g.Made Past' := by
  induction made with
  | empty => exact .empty
  | entry _ ih => exact ih.entry
  | method _ ih => exact ih.method
  | edge past added _ ih => exact ih.edge (wider _ past) added

theorem Made.indexed (made : g.Made Past) : g.Indexed := by
  induction made with
  | empty => exact fun s => rfl
  | entry _ ih => exact ih
  | method _ ih => exact ih
  | edge _ added _ ih => exact (adds_addEdge added).indexed ih

theorem Made.belongs (made : g.Made Past)
    (kept : ∀ q, Past q → ∀ s : CallSite, s.belongs q = true → s.belongs p = true) : ∀ e ∈ g.edges, e.site.belongs p = true := by
  induction made with
  | empty => exact fun e edge => absurd edge (OrderedSet.not_mem_empty e)
  | entry _ ih => exact ih
  | method _ ih => exact ih
  | edge past added _ ih =>
      intro e edge
      rcases ((adds_addEdge added).edges e).mp edge with before | new
      · exact ih e before
      · obtain rfl := List.mem_singleton.mp new
        exact kept _ past _ (refusal_eq_none_iff.mp (addEdge_ok added).1).2.1

theorem Made.indexedInto (made : g.Made Past) : ∀ m, g.edgesInto m = g.edges.toList.filter (·.callee = m) := by
  induction made with
  | empty => exact fun m => rfl
  | entry _ ih => exact ih
  | method _ ih => exact ih
  | edge _ added _ ih =>
      obtain ⟨-, ⟨-, rfl⟩ | ⟨unknown, rfl⟩⟩ := addEdge_ok added
      · exact ih
      · exact filed_insert CallEdge.callee unknown ih

theorem Made.accepted (made : g.Made Past) : ∀ e ∈ g.edges,
    (∃ m ∈ g.reachable, e.site.home = some m) ∧ e.site.call.args.length = e.callee.arity := by
  induction made with
  | empty => exact fun e edge => absurd edge (OrderedSet.not_mem_empty e)
  | entry _ ih => exact ih
  | method _ ih =>
      intro e edge
      obtain ⟨⟨m, reachable, home⟩, fits⟩ := ih e edge
      exact ⟨⟨m, OrderedSet.mem_insert.mpr (.inl reachable), home⟩, fits⟩
  | edge _ added _ ih =>
      have adds := adds_addEdge added
      intro e edge
      obtain ⟨⟨m, reachable, home⟩, fits⟩ : (∃ m ∈ _, e.site.home = some m) ∧ _ := by
        rcases (adds.edges e).mp edge with before | new
        · exact ih e before
        · obtain rfl := List.mem_singleton.mp new
          obtain ⟨home, -, fits⟩ := refusal_eq_none_iff.mp (addEdge_ok added).1
          exact ⟨home, fits⟩
      exact ⟨⟨m, (adds.reachable m).mpr (.inl reachable), home⟩, fits⟩

theorem made_foldlM {α : Type} {step : CallGraph → α → Except Error CallGraph} {items : List α}
    (each : ∀ a g g', step g a = .ok g' → g.Made Past → g'.Made Past) (ran : items.foldlM step g = .ok g')
    (made : g.Made Past) : g'.Made Past := by
  induction items generalizing g with
  | nil => exact Except.ok.inj ran ▸ made
  | cons head tail ih =>
      obtain ⟨between, first, rest⟩ := foldlM_cons_ok ran
      exact ih rest (each head g between first made)

theorem made_addSite {s : CallSite} (added : addSite p h g s = .ok g') (made : g.Made (· = p)) : g'.Made (· = p) := by
  obtain ⟨callees, -, added⟩ := addSite_ok added
  refine made_foldlM (fun callee g g' step made => ?_) added made
  obtain ⟨new, edge⟩ := addEdge_ok_of_map step
  exact .edge rfl edge made

theorem made_ofEntries {entries : List MethodRef} (built : ofEntries p h entries = .ok g) : g.Made (· = p) := by
  refine made_foldlM (fun m g g' step made => ?_) built ?_
  · exact made_foldlM (fun s g g' step made => made_addSite step made) step made.method
  · have any (g : CallGraph) (made : g.Made (· = p)) : (entries.foldl addEntry g).Made (· = p) := by
      clear built
      induction entries generalizing g with
      | nil => exact made
      | cons head tail ih => exact ih _ made.entry
    exact any empty .empty

end Made

/-! ## Closed graphs -/

/-- What runs can come to by calls is reachable, and the edges of a call are found by looking it up. -/
structure Closed (g : CallGraph) : Prop where
  indexed : g.Indexed
  entries : ∀ m ∈ g.entries, m ∈ g.reachable
  callees : ∀ e ∈ g.edges, e.callee ∈ g.reachable

theorem closed_of_ofEntries {entries : List MethodRef} (built : ofEntries p h entries = .ok g) : g.Closed := by
  have adds := adds_ofEntries built
  rw [foldl_addEntry] at adds
  have reachable (m : MethodRef) (found : m ∈ closure p h entries) : m ∈ g.reachable :=
    (adds.reachable m).mpr (.inr found)
  constructor
  · exact adds.indexed fun s => rfl
  · intro m entry
    have given : m ∈ entries := by simpa [adds.entries, empty] using entry
    exact reachable m (Search.start_mem_reach given (List.mem_append_left _ given))
  · intro e edge
    have made : e ∈ (closure p h entries).flatMap (p.methodEdges h) := by
      simpa [empty] using (adds.edges e).mp edge
    obtain ⟨m, found, made⟩ := List.mem_flatMap.mp made
    obtain ⟨called, declared⟩ := Program.callee_mem_called made
    exact reachable _ (Search.mem_reach_of_next found called (List.mem_append_right _ declared))

theorem mem_calleesOf (closed : g.Closed) {s : CallSite} {callee : MethodRef} :
    callee ∈ g.calleesOf s ↔ ∃ e ∈ g.edges, e.site = s ∧ e.callee = callee := by
  rw [calleesOf, closed.indexed s]
  simp [and_assoc, OrderedSet.mem_iff]

end CallGraph

end Dataflow
