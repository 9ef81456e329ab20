import Dataflow.Proofs.CallGraph.Closure
import Dataflow.Proofs.CallGraph.Resolution

/-!
Building a call graph from its entries. A queue of methods starts with the entries; a method that comes up for the
first time is added with the edges of its calls, and all that these may run is queued (`Builds`). The queue runs out,
and what it leaves is what adding the methods of the closure in order gives (`builds_ofEntries`). All goes well unless
a call in the closure passes another number of arguments than something that it may run has parameters, and then the
graph is the closure, with one edge for each call in it and each method that the call may run (`ofEntries_exact`).
-/

namespace Dataflow

open Search (Visits)

abbrev ClassDecl.Owned (c : ClassDecl) : Prop := ∀ d ∈ c.methods, ∀ b ∈ d.body, b.method = ⟨c.id, d.sig⟩

namespace Program
variable {p : Program} {h : Hierarchy} {m n : MethodRef}

def OwnBodies (p : Program) : Prop := ∀ m b, p.body? m = some b → b.method = m

abbrev Owned (p : Program) : Prop := ∀ decl ∈ p.classes, decl.Owned

theorem Owned.ownBodies (own : p.Owned) : p.OwnBodies := by
  intro m b body
  obtain ⟨d, found, body⟩ := Option.bind_eq_some_iff.mp body
  obtain ⟨decl, declared, found⟩ := Option.bind_eq_some_iff.mp found
  have sig : d.sig = m.sig := by simpa using List.find?_some found
  rw [own decl (List.mem_of_find?_eq_some declared) d (List.mem_of_find?_eq_some found) b body,
    id_of_class? declared, sig]

def MayRun (p : Program) (h : Hierarchy) (call : Call) (m : MethodRef) : Prop :=
  ∃ ms, p.targets (some h) call = .ok ms ∧ m ∈ ms

inductive Resolves (p : Program) (h : Hierarchy) (call : Call) : List MethodRef → Prop where
  | static : call.kind = .static → Resolves p h call (if (p.method? call.target).isSome then [call.target] else [])
  | special {found : Option MethodRef} : call.kind = .special →
      p.Dispatches call.target.sig call.target.owner found → Resolves p h call found.toList
  | below {classes : List ClassId} {found : List (Option MethodRef)} :
      call.kind = .virtual ∨ call.kind = .interface → Visits (h.below p) [call.target.owner] [] classes →
      List.Forall₂ (p.Dispatches call.target.sig) classes found →
      Resolves p h call (OrderedSet.distinct (found.filterMap id))

theorem targets_resolves (acyclic : p.Acyclic) (known : h.Over p) (call : Call) :
    ∃ ms, p.targets (some h) call = .ok ms ∧ p.Resolves h call ms := by
  have dispatches (c : ClassId) := dispatches_dispatch acyclic c call.target.sig
  have visits : Visits (h.below p) [call.target.owner] []
      (Search.reach (h.below p) (call.target.owner :: p.classes.map ClassDecl.id) [call.target.owner]) :=
    Search.visits_reach (fun a _ b below => List.mem_cons_of_mem _ (mem_ids_of_class? (known.below below))) (by simp)
  have each (cs : List ClassId) : List.Forall₂ (p.Dispatches call.target.sig) cs
      (cs.map fun c => p.dispatch c call.target.sig) := by
    rw [List.forall₂_map_right_iff, List.forall₂_same]
    exact fun c _ => dispatches c
  unfold targets
  cases kind : call.kind with
  | static => exact ⟨_, rfl, .static kind⟩
  | special => exact ⟨_, rfl, .special kind (dispatches _)⟩
  | virtual => exact ⟨_, rfl, by simpa [List.filterMap_map] using Resolves.below (.inl kind) visits (each _)⟩
  | interface => exact ⟨_, rfl, by simpa [List.filterMap_map] using Resolves.below (.inr kind) visits (each _)⟩

theorem targets_ok (p : Program) (h : Hierarchy) (call : Call) : ∃ ms, p.targets (some h) call = .ok ms := by
  unfold targets
  cases call.kind <;> exact ⟨_, rfl⟩

theorem mem_called_iff : n ∈ p.called (some h) m ↔ ∃ s ∈ p.sites m, p.MayRun h s.call n := by
  simp only [called, List.mem_flatMap, MayRun]
  refine exists_congr fun s => and_congr_right fun _ => ?_
  cases p.targets (some h) s.call <;> simp [Except.toOption]

theorem mem_siteEdges_iff {s : CallSite} {e : CallEdge} :
    e ∈ p.siteEdges (some h) s ↔ e.site = s ∧ e.kind = s.call.kind ∧ p.MayRun h s.call e.callee := by
  obtain ⟨kind, site, callee⟩ := e
  simp only [siteEdges, List.mem_map, CallEdge.mk.injEq, MayRun]
  cases p.targets (some h) s.call with
  | error _ => simp [Except.toOption]
  | ok ms => simp [Except.toOption]; grind

theorem mem_sites_iff {b : Body} {s : CallSite} :
    s ∈ b.sites ↔ s.home = some b.method ∧ b.stmts[s.pos]? = some s.stmt := by
  obtain ⟨home, pos, call, result⟩ := s
  simp only [Body.sites, List.mem_filterMap, Prod.exists, CallSite.stmt]
  constructor
  · rintro ⟨stmt, i, listed, made⟩
    split at made
    · obtain ⟨rfl, rfl, rfl, rfl⟩ := CallSite.mk.inj (Option.some.inj made)
      exact ⟨rfl, List.mk_mem_zipIdx_iff_getElem?.mp listed⟩
    · cases made
  · rintro ⟨rfl, found⟩
    exact ⟨_, _, List.mk_mem_zipIdx_iff_getElem?.mpr found, rfl⟩

theorem site_placed (own : p.OwnBodies) {s : CallSite} (site : s ∈ p.sites m) :
    s.home = some m ∧ s.belongs p = true := by
  cases body : p.body? m with
  | none => simp [sites, body] at site
  | some b =>
      obtain ⟨home, placed⟩ := mem_sites_iff.mp (by simpa [sites, body] using site)
      rw [own m b body] at home
      exact ⟨home, by simp [CallSite.belongs, home, body, placed]⟩

end Program

namespace CallGraph
variable {p : Program} {h : Hierarchy} {g : CallGraph} {entries : List MethodRef} {m : MethodRef}

/-! ## The queue -/

inductive Builds (p : Program) (h : Option Hierarchy) :
    List MethodRef → CallGraph → Except Error CallGraph → Prop where
  | done {g : CallGraph} : Builds p h [] g (.ok g)
  | again {m : MethodRef} {queue : List MethodRef} {g : CallGraph} {result : Except Error CallGraph} :
      m ∈ g.reachable → Builds p h queue g result → Builds p h (m :: queue) g result
  | adds {m : MethodRef} {queue : List MethodRef} {g g' : CallGraph} {result : Except Error CallGraph} :
      m ∉ g.reachable → addMethod p h g m = .ok g' → Builds p h (queue ++ p.called h m) g' result →
      Builds p h (m :: queue) g result
  | fails {m : MethodRef} {queue : List MethodRef} {g : CallGraph} {error : Error} :
      m ∉ g.reachable → addMethod p h g m = .error error → Builds p h (m :: queue) g (.error error)

theorem builds_of_visits {h : Option Hierarchy} {queue visited later : List MethodRef}
    (visits : Visits (p.called h) queue visited later) (same : ∀ m, m ∈ g.reachable ↔ m ∈ visited) :
    Builds p h queue g (later.foldlM (addMethod p h) g) := by
  induction visits generalizing g with
  | done => exact .done
  | again known _ ih => exact .again ((same _).mpr known) (ih same)
  | @visit m queue visited later new _ ih =>
      have absent : m ∉ g.reachable := fun member => new ((same m).mp member)
      rw [List.foldlM_cons]
      cases added : addMethod p h g m with
      | error error => exact .fails absent added
      | ok g' =>
          refine .adds absent added (ih fun n => ?_)
          rw [(adds_addMethod added).reachable, same, List.mem_append]

theorem closure_closed (h : Option Hierarchy) (entries : List MethodRef) :
    ∀ m ∈ entries ++ p.methods, ∀ n ∈ p.called h m, n ∈ entries ++ p.methods := by
  intro m _ n called
  obtain ⟨s, -, runs⟩ := List.mem_flatMap.mp called
  cases told : p.targets h s.call with
  | error _ => simp [told, Except.toOption] at runs
  | ok ms =>
      exact List.mem_append_right _ (Program.mem_methods_of_targets told (by simpa [told, Except.toOption] using runs))

theorem builds_ofEntries (p : Program) (h : Option Hierarchy) (entries : List MethodRef) :
    Builds p h entries (entries.foldl addEntry empty) (ofEntries p h entries) := by
  refine builds_of_visits (Search.visits_reach (closure_closed h entries) fun m => List.mem_append_left _) fun m => ?_
  rw [foldl_addEntry]
  simp [empty]

/-! ## The closure -/

inductive Reached (p : Program) (h : Hierarchy) (entries : List MethodRef) : MethodRef → Prop where
  | entry {m : MethodRef} : m ∈ entries → Reached p h entries m
  | call {m n : MethodRef} {s : CallSite} :
      Reached p h entries m → s ∈ p.sites m → p.MayRun h s.call n → Reached p h entries n

theorem mem_closure_iff : m ∈ closure p (some h) entries ↔ Reached p h entries m := by
  rw [closure, Search.mem_reach_iff (closure_closed _ entries) fun m => List.mem_append_left _]
  constructor
  · rintro ⟨first, entry, reaches⟩
    induction reaches with
    | refl => exact .entry entry
    | tail _ called ih =>
        obtain ⟨s, site, runs⟩ := Program.mem_called_iff.mp called
        exact .call ih site runs
  · intro reached
    induction reached with
    | @entry m entry => exact ⟨m, entry, .refl⟩
    | call _ site runs ih =>
        obtain ⟨first, entry, reaches⟩ := ih
        exact ⟨first, entry, reaches.tail (Program.mem_called_iff.mpr ⟨_, site, runs⟩)⟩

/-! ## Arities -/

def Checks (fits : Prop) : Except Error CallGraph → Prop
  | .ok _ => fits
  | .error error => ¬ fits ∧ ∃ text callee count, error = .arityMismatch text callee count

theorem checks_foldlM {α : Type} {step : CallGraph → α → Except Error CallGraph} {Fits : α → Prop}
    (Ready : CallGraph → Prop) {items : List α} (each : ∀ a ∈ items, ∀ g, Ready g → Checks (Fits a) (step g a))
    (keeps : ∀ a g g', step g a = .ok g' → Ready g → Ready g') (ready : Ready g) :
    Checks (∀ a ∈ items, Fits a) (items.foldlM step g) := by
  induction items generalizing g with
  | nil => simp [Checks, pure, Except.pure]
  | cons head tail ih =>
      obtain ⟨first, others⟩ := List.forall_mem_cons.mp each
      have checked := first g ready
      rw [List.foldlM_cons]
      cases ran : step g head with
      | error error =>
          rw [ran] at checked
          exact ⟨fun fits => checked.1 (fits head List.mem_cons_self), checked.2⟩
      | ok g' =>
          rw [ran] at checked
          have rest := ih others (keeps head g g' ran ready)
          have fits : (∀ a ∈ head :: tail, Fits a) ↔ ∀ a ∈ tail, Fits a := by
            rw [List.forall_mem_cons, and_iff_right (show Fits head from checked)]
          simp only [bind, Except.bind]
          rwa [fits]

def Fits (p : Program) (h : Hierarchy) (s : CallSite) : Prop :=
  ∀ n, p.MayRun h s.call n → s.call.args.length = n.arity

theorem checks_addEdge {s : CallSite} {n : MethodRef} (home : s.home = some m) (belongs : s.belongs p = true)
    (reachable : m ∈ g.reachable) :
    Checks (s.call.args.length = n.arity) ((g.addEdge p ⟨s.call.kind, s, n⟩).map Prod.fst) := by
  have placed : g.misplaced s.home (s.belongs p) s.text = none := by
    simp [misplaced, home, belongs, reachable]
  unfold addEdge refusal
  rw [placed]
  by_cases fits : s.call.args.length = n.arity
  · by_cases known : g.edges.contains ⟨s.call.kind, s, n⟩ = true <;>
      simp [fits, known, Except.map, Checks]
  · simp [fits, Except.map, Checks]

theorem checks_addSite {s : CallSite} (home : s.home = some m) (belongs : s.belongs p = true)
    (reachable : m ∈ g.reachable) : Checks (Fits p h s) (addSite p (some h) g s) := by
  obtain ⟨ms, told⟩ := p.targets_ok h s.call
  have fits : Fits p h s ↔ ∀ n ∈ ms, s.call.args.length = n.arity := by simp [Fits, Program.MayRun, told]
  have adds : addSite p (some h) g s =
      ms.foldlM (fun g n => (g.addEdge p ⟨s.call.kind, s, n⟩).map Prod.fst) g := by
    rw [addSite, told]
    rfl
  rw [adds, fits]
  refine checks_foldlM (m ∈ ·.reachable) (fun n _ g reachable => checks_addEdge home belongs reachable) ?_ reachable
  intro n g g' step reachable
  obtain ⟨new, added⟩ := addEdge_ok_of_map step
  exact ((adds_addEdge added).reachable m).mpr (.inl reachable)

theorem checks_addMethod (own : p.OwnBodies) (g : CallGraph) (m : MethodRef) :
    Checks (∀ s ∈ p.sites m, Fits p h s) (addMethod p (some h) g m) := by
  refine checks_foldlM (m ∈ ·.reachable) (fun s site g reachable => ?_) ?_ (by simp [addReachable])
  · obtain ⟨home, belongs⟩ := Program.site_placed own site
    exact checks_addSite home belongs reachable
  · exact fun s g g' added reachable => ((adds_addSite added).reachable m).mpr (.inl reachable)

theorem checks_ofEntries (own : p.OwnBodies) (entries : List MethodRef) :
    Checks (∀ m ∈ closure p (some h) entries, ∀ s ∈ p.sites m, Fits p h s) (ofEntries p (some h) entries) :=
  checks_foldlM (fun _ => True) (fun m _ g _ => checks_addMethod own g m) (fun _ _ _ _ => id) trivial

/-! ## The whole graph -/

def Mismatched (p : Program) (h : Hierarchy) (entries : List MethodRef) : Prop :=
  ∃ m, Reached p h entries m ∧ ∃ s ∈ p.sites m, ∃ n, p.MayRun h s.call n ∧ s.call.args.length ≠ n.arity

theorem mismatched_iff :
    Mismatched p h entries ↔ ¬ ∀ m ∈ closure p (some h) entries, ∀ s ∈ p.sites m, Fits p h s := by
  simp [Mismatched, Fits, mem_closure_iff]

structure Exact (p : Program) (h : Hierarchy) (entries : List MethodRef) (g : CallGraph) : Prop where
  reachable : ∀ m, m ∈ g.reachable.toList ↔ Reached p h entries m
  methodsOnce : g.reachable.toList.Nodup
  edges : ∀ e, e ∈ g.edges.toList ↔ ∃ m, m ∈ g.reachable.toList ∧ e.site ∈ p.sites m ∧ e.kind = e.site.call.kind ∧
    p.MayRun h e.site.call e.callee
  edgesOnce : g.edges.toList.Nodup
  ends : ∀ e ∈ g.edges.toList, (∃ m ∈ g.reachable.toList, e.site.home = some m) ∧ e.callee ∈ g.reachable.toList
  entries : g.entries.toList = entries.eraseDups

theorem exact_of_ofEntries (own : p.OwnBodies) (built : ofEntries p (some h) entries = .ok g) :
    Exact p h entries g := by
  have adds := adds_ofEntries built
  rw [foldl_addEntry] at adds
  have reachable (m : MethodRef) : m ∈ g.reachable.toList ↔ Reached p h entries m := by
    rw [← mem_closure_iff, ← OrderedSet.mem_iff, adds.reachable]
    simp [empty]
  have edges (e : CallEdge) : e ∈ g.edges.toList ↔ ∃ m, m ∈ g.reachable.toList ∧ e.site ∈ p.sites m ∧
      e.kind = e.site.call.kind ∧ p.MayRun h e.site.call e.callee := by
    rw [← OrderedSet.mem_iff, adds.edges]
    simp only [empty, OrderedSet.not_mem_empty, false_or, List.mem_flatMap, Program.methodEdges, mem_closure_iff,
      Program.mem_siteEdges_iff, reachable]
    refine exists_congr fun m => and_congr_right fun _ => ?_
    constructor
    · rintro ⟨s, site, rfl, runs⟩
      exact ⟨site, runs⟩
    · rintro ⟨site, runs⟩
      exact ⟨e.site, site, rfl, runs⟩
  refine ⟨reachable, g.reachable.nodup, edges, g.edges.nodup, fun e edge => ?_, ?_⟩
  · obtain ⟨m, member, site, -, runs⟩ := (edges e).mp edge
    exact ⟨⟨m, member, (Program.site_placed own site).1⟩,
      (reachable _).mpr (.call ((reachable m).mp member) site runs)⟩
  · rw [adds.entries, ← OrderedSet.distinct_eq_eraseDups]
    rfl

/-- Building a call graph ends. It fails because of an arity just if a call in the closure of the entries does not fit
something that it may run, and otherwise gives the graph of the closure. The hierarchy may have been made when the
program had fewer classes. -/
theorem ofEntries_exact {past : Program} {classes : List ClassId} (made : Hierarchy.ofClasses past classes = some h)
    (kept : ∀ c, (past.class? c).isSome = true → (p.class? c).isSome = true) (acyclic : p.Acyclic) (own : p.OwnBodies)
    (entries : List MethodRef) :
    (∀ call, ∃ ms, p.targets (some h) call = .ok ms ∧ p.Resolves h call ms) ∧
    Builds p (some h) entries (entries.foldl addEntry empty) (ofEntries p (some h) entries) ∧
    ((∃ text callee count, ofEntries p (some h) entries = .error (.arityMismatch text callee count)) ↔
      Mismatched p h entries) ∧
    (¬ Mismatched p h entries → ∃ g, ofEntries p (some h) entries = .ok g ∧ Exact p h entries g) := by
  have known : h.Over p := fun link c d listed => kept d (Hierarchy.over_ofClasses made link c d listed)
  refine ⟨Program.targets_resolves acyclic known, builds_ofEntries p (some h) entries, ?_⟩
  have checked := checks_ofEntries (h := h) own entries
  rw [mismatched_iff, Classical.not_not]
  cases built : ofEntries p (some h) entries with
  | error error =>
      rw [built] at checked
      obtain ⟨misfit, text, callee, count, rfl⟩ := checked
      exact ⟨⟨fun _ => misfit, fun _ => ⟨text, callee, count, rfl⟩⟩, fun fits => absurd fits misfit⟩
  | ok g =>
      rw [built] at checked
      exact ⟨⟨fun failed => by simp at failed, fun misfit => absurd checked misfit⟩,
        fun _ => ⟨g, rfl, exact_of_ofEntries own built⟩⟩

end CallGraph

namespace Shapes

def calls : CallGraph := (CallGraph.ofEntries program (some hierarchy) [grow, grow]).toOption.getD .empty

theorem ofEntries_grow : CallGraph.ofEntries program (some hierarchy) [grow, grow] = .ok calls := rfl

theorem exact_calls : (Hierarchy.ofClasses program [tile] = some hierarchy ∧ program.Acyclic ∧ program.OwnBodies) ∧
    CallGraph.Exact program hierarchy [grow, grow] calls := by
  have acyclic : program.Acyclic := Program.acyclic_of_stamps (by decide)
  have own : program.OwnBodies := Program.Owned.ownBodies (by decide)
  obtain ⟨-, -, fails, succeeds⟩ := CallGraph.ofEntries_exact ofClasses_tile (fun _ => id) acyclic own [grow, grow]
  have fits : ¬ CallGraph.Mismatched program hierarchy [grow, grow] := by
    rw [← fails, ofEntries_grow]
    rintro ⟨_, _, _, failed⟩
    cases failed
  obtain ⟨g, built, whole⟩ := succeeds fits
  obtain rfl : calls = g := Except.ok.inj (ofEntries_grow.symm.trans built)
  exact ⟨⟨ofClasses_tile, acyclic, own⟩, whole⟩

end Shapes

end Dataflow
