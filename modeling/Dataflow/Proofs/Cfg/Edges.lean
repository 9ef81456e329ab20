import Dataflow.Cfg.Build
import Dataflow.Proofs.Ir.Drafts

/-!
The edges of control flow graphs. A body has a graph exactly when all its jumps lead to statements of its own,
and then the edges of the graph are the ways out of the entry and of each statement (`build_ok_iff`). Both
lists of edges of such a graph hold the same edges, also after more have been drawn between its nodes
(`Drawn.mirrored`), so that predecessors and successors are converse to each other.
-/

namespace Dataflow

def Stmt.aimed : Stmt → Bool
  | .branch _ _ _ target => target.isSome
  | .goto target => target.isSome
  | .switch _ cases otherwise => cases.all (·.2.isSome) && otherwise.isSome
  | .assign _ _ | .invoke _ _ | .ret _ | .nop _ => true

theorem Stmt.ways_aimed {s : Stmt} (aimed : s.aimed = true) {next exit : Node} {kind : EdgeKind} {value : Option Int}
    {leads : Option Node} (way : (kind, value, leads) ∈ s.ways next exit) : ∃ target, leads = some target := by
  rw [← Option.isSome_iff_exists]
  cases s with
  | switch v cases otherwise =>
      simp only [Stmt.aimed, Bool.and_eq_true, List.all_eq_true] at aimed
      simp only [ways, List.mem_append, List.mem_map, Prod.mk.injEq, List.mem_singleton] at way
      rcases way with ⟨c, member, -, -, rfl⟩ | ⟨-, -, rfl⟩
      · exact aimed.1 c member
      · exact aimed.2
  | branch op left right dest =>
      simp only [ways, List.mem_cons, Prod.mk.injEq, List.not_mem_nil, or_false] at way
      rcases way with ⟨-, -, rfl⟩ | ⟨-, -, rfl⟩
      · exact aimed
      · rfl
  | goto dest =>
      simp only [ways, List.mem_singleton, Prod.mk.injEq] at way
      rw [way.2.2]
      exact aimed
  | _ =>
      simp only [ways, List.mem_singleton, Prod.mk.injEq] at way
      rw [way.2.2]
      rfl

namespace Cfg

def drawAll (g : Cfg) (es : List Edge) : Cfg :=
  { g with outgoing := g.outgoing ++ es, incoming := g.incoming ++ es }

@[simp] theorem contains_drawAll (g : Cfg) (es : List Edge) (n : Node) :
    (g.drawAll es).contains n = g.contains n := by
  cases n <;> rfl

@[simp] theorem drawAll_nil (g : Cfg) : g.drawAll [] = g := by simp [drawAll]

@[simp] theorem drawAll_drawAll (g : Cfg) (es fs : List Edge) :
    (g.drawAll es).drawAll fs = g.drawAll (es ++ fs) := by
  simp [drawAll]

theorem contains_node {g : Cfg} {pos : Nat} : g.contains (g.node pos) = true ↔ pos < g.size := by
  simp [contains, node]

theorem contains_nodeOrExit (g : Cfg) (pos : Nat) : g.contains (g.nodeOrExit pos) = true := by
  unfold nodeOrExit
  split
  · exact contains_node.mpr ‹_›
  · simp [contains, exit]

theorem addEdge_ok_iff {g g' : Cfg} {e : Edge} :
    g.addEdge e = (.ok (), g') ↔
      g.contains e.source = true ∧ g.contains e.target = true ∧ g' = g.drawAll [e] := by
  unfold addEdge
  by_cases source : g.contains e.source
  · have same : ({ g with outgoing := g.outgoing ++ [e] } : Cfg).contains e.target = g.contains e.target := by
      cases e.target <;> rfl
    by_cases target : g.contains e.target
    · simp [source, same, target, drawAll, eq_comm]
    · simp [source, same, target]
  · simp [source]

/-! ## Ways out of statements -/

def wayEdge (g : Cfg) (pos : Nat) (way : EdgeKind × Option Int × Option Node) : Option Edge :=
  way.2.2.map fun target => ⟨g.node pos, target, way.1, way.2.1⟩

def waysAt (g : Cfg) (item : Stmt × Nat) : List (EdgeKind × Option Int × Option Node) :=
  item.1.ways (g.nodeOrExit (item.2 + 1)) g.exit

def stmtEdges (g : Cfg) (item : Stmt × Nat) : List Edge :=
  (g.waysAt item).flatMap fun way => (g.wayEdge item.2 way).toList

def Resolved (g : Cfg) (item : Stmt × Nat) : Prop :=
  ∀ way ∈ g.waysAt item, ∃ target, way.2.2 = some target ∧ g.contains target = true

@[simp] theorem wayEdge_drawAll (g : Cfg) (es : List Edge) : (g.drawAll es).wayEdge = g.wayEdge := rfl

@[simp] theorem stmtEdges_drawAll (g : Cfg) (es : List Edge) : (g.drawAll es).stmtEdges = g.stmtEdges := rfl

@[simp] theorem resolved_drawAll (g : Cfg) (es : List Edge) (item : Stmt × Nat) :
    (g.drawAll es).Resolved item ↔ g.Resolved item := by
  simp only [Resolved, contains_drawAll]
  rfl

theorem foldlM_ok_iff {α : Type} {g g' : Cfg} {step : Cfg → α → Except Fault Cfg} {Fits : α → Prop}
    {edges : α → List Edge} {items : List α} {es : List Edge}
    (drawn : ∀ es, ∀ item ∈ items, ∀ h, step (g.drawAll es) item = .ok h ↔
      Fits item ∧ h = g.drawAll (es ++ edges item)) :
    items.foldlM step (g.drawAll es) = .ok g' ↔
      (∀ item ∈ items, Fits item) ∧ g' = g.drawAll (es ++ items.flatMap edges) := by
  induction items generalizing es with
  | nil => simp only [List.foldlM_nil, pure, Except.pure, Except.ok.injEq, List.not_mem_nil,
      false_implies, implies_true, true_and, List.flatMap_nil, List.append_nil, eq_comm]
  | cons item items ih =>
      have first := drawn es item (by simp)
      have rest (es : List Edge) : items.foldlM step (g.drawAll es) = .ok g' ↔
          (∀ item ∈ items, Fits item) ∧ g' = g.drawAll (es ++ items.flatMap edges) :=
        ih fun es item member => drawn es item (by simp [member])
      rw [List.foldlM_cons]
      cases result : step (g.drawAll es) item with
      | error fault =>
          have misfit : ¬ Fits item := by
            intro fits
            have := (first _).mpr ⟨fits, rfl⟩
            simp [result] at this
          simp [bind, Except.bind, misfit]
      | ok h =>
          obtain ⟨fits, rfl⟩ := (first h).mp result
          simp only [bind, Except.bind]
          rw [rest]
          simp [fits]

theorem addWay_ok_iff {g g' : Cfg} {pos : Nat} {way : EdgeKind × Option Int × Option Node}
    (inside : pos < g.size) :
    addWay pos g way = .ok g' ↔ (∃ target, way.2.2 = some target ∧ g.contains target = true) ∧
      g' = g.drawAll (g.wayEdge pos way).toList := by
  unfold addWay wayEdge
  cases leads : way.2.2 with
  | none => simp
  | some target =>
      have edge (h : Cfg) : g.addEdge ⟨g.node pos, target, way.1, way.2.1⟩ = (.ok (), h) ↔
          g.contains (g.node pos) = true ∧ g.contains target = true ∧
            h = g.drawAll [⟨g.node pos, target, way.1, way.2.1⟩] := addEdge_ok_iff
      rcases drawn : g.addEdge ⟨g.node pos, target, way.1, way.2.1⟩ with ⟨_ | ⟨⟨⟩⟩, h⟩
      · have absent : g.contains target ≠ true := by
          intro there
          have := (edge _).mpr ⟨contains_node.mpr inside, there, rfl⟩
          simp [drawn] at this
        simp [drawn, absent]
      · obtain ⟨-, there, rfl⟩ := (edge h).mp drawn
        simp only [drawn, Except.ok.injEq, Option.some.injEq, exists_eq_left', there, true_and,
          Option.map_some, Option.toList_some]
        exact eq_comm

theorem addStmt_ok_iff {g g' : Cfg} {item : Stmt × Nat} (inside : item.2 < g.size) :
    addStmt g item = .ok g' ↔ g.Resolved item ∧ g' = g.drawAll (g.stmtEdges item) := by
  have ways : (g.waysAt item).foldlM (addWay item.2) (g.drawAll []) = .ok g' ↔
      g.Resolved item ∧ g' = g.drawAll ([] ++ g.stmtEdges item) := by
    apply foldlM_ok_iff
    intro es way _ h
    rw [addWay_ok_iff (by simpa [drawAll] using inside)]
    simp
  rw [drawAll_nil, List.nil_append] at ways
  exact ways

/-! ## Graphs of bodies -/

def entryEdge (g : Cfg) : Edge := ⟨g.entry, g.nodeOrExit 0, .entry, none⟩

theorem opened_eq (id : Nat) (b : Body) :
    opened id b = (bare id b.method b.stmts.length).drawAll [(bare id b.method b.stmts.length).entryEdge] := by
  have drawn := (addEdge_ok_iff (g := bare id b.method b.stmts.length)
    (e := (bare id b.method b.stmts.length).entryEdge)).mpr
      ⟨by simp [entryEdge, contains, entry], contains_nodeOrExit _ 0, rfl⟩
  exact congrArg Prod.snd drawn

def edgesOf (g : Cfg) (b : Body) : List Edge := g.entryEdge :: b.stmts.zipIdx.flatMap g.stmtEdges

theorem build_ok_iff {id : Nat} {b : Body} {g : Cfg} :
    build id b = .ok g ↔
      (∀ item ∈ b.stmts.zipIdx, (bare id b.method b.stmts.length).Resolved item) ∧
        g = (bare id b.method b.stmts.length).drawAll ((bare id b.method b.stmts.length).edgesOf b) := by
  unfold build
  rw [opened_eq, foldlM_ok_iff]
  · rfl
  · intro es item member h
    obtain ⟨-, bound, -⟩ := List.mem_zipIdx member
    rw [addStmt_ok_iff (by simpa [drawAll, bare] using bound)]
    simp

inductive Drawn (b : Body) : Cfg → Prop where
  | built {id : Nat} {g : Cfg} : build id b = .ok g → Drawn b g
  | extended {g g' : Cfg} {e : Edge} : Drawn b g → g.addEdge e = (.ok (), g') → Drawn b g'

structure Mirrored (g : Cfg) : Prop where
  alike : g.incoming = g.outgoing
  inside : ∀ e ∈ g.outgoing, g.contains e.source = true ∧ g.contains e.target = true

theorem Mirrored.drawAll {g : Cfg} {es : List Edge} (mirrored : g.Mirrored)
    (inside : ∀ e ∈ es, g.contains e.source = true ∧ g.contains e.target = true) :
    (g.drawAll es).Mirrored where
  alike := by simp [Cfg.drawAll, mirrored.alike]
  inside e member := by
    rw [contains_drawAll, contains_drawAll]
    exact (List.mem_append.mp member).elim (mirrored.inside e) (inside e)

theorem mem_stmtEdges {g : Cfg} {item : Stmt × Nat} {e : Edge} :
    e ∈ g.stmtEdges item ↔ ∃ kind value target, (kind, value, some target) ∈ g.waysAt item ∧
      e = ⟨g.node item.2, target, kind, value⟩ := by
  simp only [stmtEdges, wayEdge, List.mem_flatMap, Option.mem_toList, Option.map_eq_some_iff]
  constructor
  · rintro ⟨⟨kind, value, leads⟩, member, target, rfl, rfl⟩
    exact ⟨kind, value, target, member, rfl⟩
  · rintro ⟨kind, value, target, member, rfl⟩
    exact ⟨_, member, target, rfl, rfl⟩

theorem edgesOf_inside {g : Cfg} {b : Body} (size : g.size = b.stmts.length)
    (resolved : ∀ item ∈ b.stmts.zipIdx, g.Resolved item) :
    ∀ e ∈ g.edgesOf b, g.contains e.source = true ∧ g.contains e.target = true := by
  intro e member
  rcases List.mem_cons.mp member with rfl | member
  · exact ⟨by simp [entryEdge, contains, entry], contains_nodeOrExit g 0⟩
  · obtain ⟨item, here, member⟩ := List.mem_flatMap.mp member
    obtain ⟨kind, value, target, way, rfl⟩ := mem_stmtEdges.mp member
    obtain ⟨-, bound, -⟩ := List.mem_zipIdx here
    obtain ⟨target', same, inside⟩ := resolved item here _ way
    obtain rfl : target = target' := Option.some.inj same
    exact ⟨contains_node.mpr (by omega), inside⟩

/-- No edge enters the entry. An entry is made with its graph, so the statements of a body do not jump there. -/
def Rooted (g : Cfg) : Prop := ∀ e ∈ g.outgoing, e.target ≠ g.entry

instance (g : Cfg) : Decidable g.Rooted := inferInstanceAs (Decidable (∀ e ∈ g.outgoing, e.target ≠ g.entry))

theorem Drawn.mirrored {b : Body} {g : Cfg} (drawn : g.Drawn b) : g.Mirrored := by
  induction drawn with
  | built built =>
      obtain ⟨resolved, rfl⟩ := build_ok_iff.mp built
      exact Mirrored.drawAll ⟨rfl, by simp [bare]⟩ (edgesOf_inside rfl resolved)
  | extended _ added ih =>
      obtain ⟨source, target, rfl⟩ := addEdge_ok_iff.mp added
      exact ih.drawAll (by simp [source, target])

theorem Drawn.shape {b : Body} {g : Cfg} (drawn : g.Drawn b) :
    g.method = b.method ∧ g.size = b.stmts.length := by
  induction drawn with
  | built built =>
      obtain ⟨-, rfl⟩ := build_ok_iff.mp built
      exact ⟨rfl, rfl⟩
  | extended _ added ih =>
      obtain ⟨-, -, rfl⟩ := addEdge_ok_iff.mp added
      exact ih

theorem Drawn.resolved {b : Body} {g : Cfg} (drawn : g.Drawn b) : ∀ item ∈ b.stmts.zipIdx, g.Resolved item := by
  induction drawn with
  | built built =>
      obtain ⟨resolved, rfl⟩ := build_ok_iff.mp built
      simpa using resolved
  | extended _ added ih =>
      obtain ⟨-, -, rfl⟩ := addEdge_ok_iff.mp added
      simpa using ih

theorem Mirrored.mem_preds_iff {g : Cfg} (mirrored : g.Mirrored) {n m : Node} :
    n ∈ g.preds m ↔ m ∈ g.succs n := by
  rw [mem_preds, mem_succs, mirrored.alike]
  constructor <;> exact fun ⟨e, member, source, target⟩ => ⟨e, member, target, source⟩

theorem Mirrored.mem_edges_iff {g : Cfg} (mirrored : g.Mirrored) {e : Edge} : e ∈ g.edges ↔ e ∈ g.outgoing := by
  simp only [edges, outEdges, List.mem_flatMap, List.mem_filter, decide_eq_true_eq]
  constructor
  · rintro ⟨n, -, edge, -⟩
    exact edge
  · exact fun edge => ⟨e.source, mem_nodes.mpr (mirrored.inside e edge).1, edge, rfl⟩

theorem nodes_nodup (g : Cfg) : g.nodes.Nodup := by
  have stmts : ((List.range g.size).map g.node).Nodup :=
    List.Pairwise.map _ (fun a b ne same => ne (Node.stmt.inj same).1) List.nodup_range
  simp only [nodes, List.cons_append, List.nodup_cons, List.nodup_append, List.mem_append, List.mem_map]
  simp [stmts, entry, exit, node]

theorem filter_flatMap_eq {ι : Type} [DecidableEq ι] {f : ι → List Edge} {p : Edge → Bool} {k : ι} {ns : List ι}
    (once : ns.Nodup) (own : ∀ i, ∀ e ∈ f i, p e = true ↔ i = k) :
    (ns.flatMap f).filter p = if k ∈ ns then f k else [] := by
  have each (i : ι) : (f i).filter p = if i = k then f k else [] := by
    split
    · next same =>
        subst same
        exact List.filter_eq_self.mpr fun e member => (own i e member).mpr rfl
    · next other => exact List.filter_eq_nil_iff.mpr fun e member fits => other ((own i e member).mp fits)
  induction ns with
  | nil => rfl
  | cons head tail ih =>
      obtain ⟨absent, once⟩ := List.nodup_cons.mp once
      rw [List.flatMap_cons, List.filter_append, each, ih once]
      by_cases here : head = k
      · subst here
        simp [absent]
      · simp [here, Ne.symm here]

theorem filter_edges {g : Cfg} {n : Node} (inside : n ∈ g.nodes) :
    g.edges.filter (·.source = n) = g.outEdges n := by
  have own (m : Node) (e : Edge) (member : e ∈ g.outEdges m) : decide (e.source = n) = true ↔ m = n := by
    rw [decide_eq_true_iff, of_decide_eq_true (List.mem_filter.mp member).2]
  rw [edges, filter_flatMap_eq g.nodes_nodup own, if_pos inside]

theorem Mirrored.succs_inside {g : Cfg} (mirrored : g.Mirrored) {n m : Node} (next : m ∈ g.succs n) :
    g.contains n = true ∧ g.contains m = true := by
  obtain ⟨e, member, rfl, rfl⟩ := mem_succs.mp next
  exact mirrored.inside e member

/-! ## Bodies that have a graph -/

theorem mem_ways {s : Stmt} {next exit target : Node} {kind : EdgeKind} {value : Option Int}
    (way : (kind, value, some target) ∈ s.ways next exit) : target = next ∨ target = exit ∨ target ∈ s.jumps := by
  cases s with
  | switch v cases otherwise =>
      simp only [Stmt.ways, List.mem_append, List.mem_map, Prod.mk.injEq, List.mem_singleton] at way
      refine .inr (.inr ?_)
      simp only [Stmt.jumps, List.mem_append, List.mem_filterMap, Option.mem_toList]
      rcases way with ⟨c, member, -, -, leads⟩ | ⟨-, -, leads⟩
      · exact .inl ⟨c, member, leads⟩
      · exact .inr leads.symm
  | branch op left right dest =>
      simp only [Stmt.ways, List.mem_cons, Prod.mk.injEq, List.not_mem_nil, or_false] at way
      rcases way with ⟨-, -, leads⟩ | ⟨-, -, leads⟩
      · exact .inr (.inr (by simp [Stmt.jumps, ← leads]))
      · exact .inl (Option.some.inj leads)
  | goto dest =>
      simp only [Stmt.ways, List.mem_singleton, Prod.mk.injEq] at way
      exact .inr (.inr (by simp [Stmt.jumps, ← way.2.2]))
  | ret value =>
      simp only [Stmt.ways, List.mem_singleton, Prod.mk.injEq] at way
      exact .inr (.inl (Option.some.inj way.2.2))
  | assign | invoke | nop =>
      simp only [Stmt.ways, List.mem_singleton, Prod.mk.injEq] at way
      exact .inl (Option.some.inj way.2.2)

theorem exists_build {b : Body} (aimed : ∀ s ∈ b.stmts, s.aimed = true)
    (inside : ∀ s ∈ b.stmts, ∀ n ∈ s.jumps, ∃ pos < b.stmts.length, n = .stmt pos b.method) (id : Nat) :
    ∃ g, build id b = .ok g := by
  refine ⟨_, build_ok_iff.mpr ⟨fun item listed => ?_, rfl⟩⟩
  rintro ⟨kind, value, leads⟩ way
  have member : item.1 ∈ b.stmts := (List.mem_zipIdx listed).2.2 ▸ List.getElem_mem _
  obtain ⟨target, rfl⟩ := Stmt.ways_aimed (aimed _ member) way
  refine ⟨target, rfl, ?_⟩
  rcases mem_ways way with rfl | rfl | jump
  · exact contains_nodeOrExit _ _
  · simp [contains, exit]
  · obtain ⟨pos, bound, rfl⟩ := inside _ member target jump
    simp [contains, bare, bound]

/-! ## The edges of a body as built -/

section Built
variable {id : Nat} {b : Body} {g : Cfg}

theorem stmt?_node (built : build id b = .ok g) (pos : Nat) : b.stmt? (g.node pos) = b.stmts[pos]? := by
  simp [Body.stmt?, node, (Drawn.built built).shape.1]

theorem mem_outgoing_iff (built : build id b = .ok g) {e : Edge} :
    e ∈ g.outgoing ↔ e = g.entryEdge ∨ ∃ pos s, b.stmt? (g.node pos) = some s ∧ e ∈ g.stmtEdges (s, pos) := by
  simp only [stmt?_node built]
  obtain ⟨-, rfl⟩ := build_ok_iff.mp built
  have listed (es : List Edge) : ((bare id b.method b.stmts.length).drawAll es).outgoing = es := rfl
  rw [listed, edgesOf, List.mem_cons, List.mem_flatMap]
  refine or_congr Iff.rfl ⟨?_, ?_⟩
  · rintro ⟨⟨s, pos⟩, here, member⟩
    exact ⟨pos, s, List.mem_zipIdx_iff_getElem?.mp here, member⟩
  · rintro ⟨pos, s, here, member⟩
    exact ⟨(s, pos), List.mem_zipIdx_iff_getElem?.mpr here, member⟩

theorem source_of_mem_stmtEdges {item : Stmt × Nat} {e : Edge} (member : e ∈ g.stmtEdges item) :
    e.source = g.node item.2 := by
  obtain ⟨kind, value, target, -, rfl⟩ := mem_stmtEdges.mp member
  rfl

theorem eq_entryEdge (built : build id b = .ok g) {e : Edge} (edge : e ∈ g.outgoing)
    (nothing : b.stmt? e.source = none) : e = g.entryEdge := by
  rcases (mem_outgoing_iff built).mp edge with first | ⟨pos, s, here, member⟩
  · exact first
  · rw [source_of_mem_stmtEdges member, here] at nothing
    cases nothing

theorem mem_stmtEdges_of_stmt? (built : build id b = .ok g) {e : Edge} (edge : e ∈ g.outgoing) {s : Stmt}
    (here : b.stmt? e.source = some s) :
    ∃ pos, e.source = g.node pos ∧ e ∈ g.stmtEdges (s, pos) := by
  rcases (mem_outgoing_iff built).mp edge with rfl | ⟨pos, t, there, member⟩
  · cases here
  · have source := source_of_mem_stmtEdges member
    rw [source, there] at here
    obtain rfl := Option.some.inj here
    exact ⟨pos, source, member⟩

theorem outEdges_exit (built : build id b = .ok g) : g.outEdges g.exit = [] := by
  refine List.filter_eq_nil_iff.mpr fun e edge leaves => ?_
  have source : e.source = g.exit := of_decide_eq_true leaves
  have first := eq_entryEdge built edge (by rw [source]; rfl)
  rw [first] at source
  cases source

theorem succs_exit (built : build id b = .ok g) : g.succs g.exit = [] := by
  rw [succs, outEdges_exit built]
  rfl

theorem nodeOrExit_ne_entry (g : Cfg) (pos : Nat) : g.nodeOrExit pos ≠ g.entry := by
  unfold nodeOrExit
  split <;> simp [node, exit, entry]

theorem rooted_of_jumpWithin (built : build id b = .ok g) {method : MethodRef}
    (within : JumpWithin method b.stmts) : g.Rooted := by
  intro e edge
  rcases (mem_outgoing_iff built).mp edge with rfl | ⟨pos, s, here, member⟩
  · exact nodeOrExit_ne_entry g 0
  · obtain ⟨kind, value, target, way, rfl⟩ := mem_stmtEdges.mp member
    rcases mem_ways way with rfl | rfl | jump
    · exact nodeOrExit_ne_entry g _
    · simp [exit, entry]
    · obtain ⟨pos, rfl⟩ := within s (Body.mem_of_stmt? here) target jump
      simp [entry]

end Built

end Cfg

end Dataflow
