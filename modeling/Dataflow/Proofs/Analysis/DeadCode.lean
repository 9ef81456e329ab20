import Dataflow.Analysis.DeadCode
import Dataflow.Proofs.Analysis.Constants
import Dataflow.Proofs.Analysis.Liveness
import Dataflow.Proofs.Data.Search

/-!
Leaving out dead code preserves behaviour: a body in which every dead statement does nothing runs through the same
nodes as the body itself, the outside sees the same, and live variables hold the same. Control never comes to a
statement that the search for live code does not reach, because the constants it goes by are sound. An assignment
that is skipped writes a variable that no later statement reads before it is written again, so the stores of both
runs agree on the live variables.
-/

namespace Dataflow

def Stmt.computed : Stmt → List Exp
  | .assign _ rhs => [rhs]
  | .branch op left right _ => [.bin op left right]
  | .switch v _ _ => [.var v]
  | .invoke _ _ | .goto _ | .ret _ | .nop _ => []

structure Body.Simple (b : Body) : Prop where
  flat : ∀ s ∈ b.stmts, ∀ e ∈ s.computed, e.isFlat = true
  ints : ∀ s ∈ b.stmts, ∀ e ∈ s.computed, ∀ v ∈ e.operands, v.holdsInt = true

def Body.without (b : Body) (dead : List Node) : Body :=
  { b with stmts := b.stmts.mapIdx fun pos s => if .stmt pos b.method ∈ dead then .nop "nop" else s }

theorem Body.stmt?_without (b : Body) (dead : List Node) (n : Node) :
    (b.without dead).stmt? n = (b.stmt? n).map fun s => if n ∈ dead then .nop "nop" else s := by
  cases n with
  | stmt pos method =>
      by_cases own : method = b.method
      · subst own
        simp [stmt?, without]
      · simp [stmt?, without, own]
  | _ => rfl

namespace Cfg
variable {id : Nat} {b : Body} {g : Cfg}

theorem resolved_nop (g : Cfg) (tag : String) (pos : Nat) : g.Resolved (.nop tag, pos) := by
  intro way member
  obtain rfl := List.mem_singleton.mp member
  exact ⟨_, rfl, contains_nodeOrExit g _⟩

theorem bare_without (id : Nat) (b : Body) (dead : List Node) :
    bare id (b.without dead).method (b.without dead).stmts.length = bare id b.method b.stmts.length := by
  simp [Body.without]

/-- A body without its dead statements has a graph. What is left has the edges that it had, and so do assignments
that were taken out. -/
theorem build_without (built : build id b = .ok g) (dead : List Node) :
    ∃ g', build id (b.without dead) = .ok g' ∧ g'.entry = g.entry ∧
      ∀ e ∈ g.outgoing, (e.source ∈ dead → ∃ lhs rhs, b.stmt? e.source = some (.assign lhs rhs)) →
        e ∈ g'.outgoing := by
  obtain ⟨resolved, whole⟩ := build_ok_iff.mp built
  have settled : ∀ item ∈ (b.without dead).stmts.zipIdx, (bare id b.method b.stmts.length).Resolved item := by
    rintro ⟨s, pos⟩ member
    rw [List.mem_zipIdx_iff_getElem?] at member
    simp only [Body.without, List.getElem?_mapIdx, Option.map_eq_some_iff] at member
    obtain ⟨old, there, rfl⟩ := member
    split
    · exact resolved_nop _ _ _
    · exact resolved (old, pos) (List.mem_zipIdx_iff_getElem?.mpr there)
  obtain ⟨g', rebuilt⟩ : ∃ g', build id (b.without dead) = .ok g' :=
    ⟨_, build_ok_iff.mpr ⟨by rwa [bare_without], rfl⟩⟩
  obtain ⟨-, whole'⟩ := build_ok_iff.mp rebuilt
  rw [bare_without] at whole'
  have sameNode : g'.node = g.node := by rw [whole, whole']; rfl
  have sameEdges : g'.stmtEdges = g.stmtEdges := by rw [whole, whole']; rfl
  refine ⟨g', rebuilt, by rw [whole, whole']; rfl, fun e edge taken => ?_⟩
  rw [mem_outgoing_iff rebuilt, sameEdges]
  rcases (mem_outgoing_iff built).mp edge with rfl | ⟨pos, s, here, member⟩
  · exact .inl (by rw [whole, whole']; rfl)
  · have source := source_of_mem_stmtEdges member
    rw [source] at taken
    refine .inr ⟨pos, _, by rw [sameNode, Body.stmt?_without, here, Option.map_some], ?_⟩
    split
    · next dropped =>
        obtain ⟨lhs, rhs, assigns⟩ := taken dropped
        obtain rfl := Option.some.inj (here.symm.trans assigns)
        exact member
    · exact member

end Cfg

namespace DeadCode

theorem mem_dead {d : DeadCode} {judged : Node → Bool} {dead : List Node} (found : d.dead judged = .ok dead)
    {n : Node} : n ∈ dead ↔ n ∈ d.graph.nodes ∧ n ≠ d.graph.exit ∧ (n ∉ d.reached ∨ d.skippable n = true) := by
  simp only [DeadCode.dead] at found
  split at found
  · cases found
  · cases found
    simp

theorem skippable_iff {d : DeadCode} {n : Node} :
    d.skippable n = true ↔ ∃ v rhs, d.body.stmt? n = some (.assign (.var v) rhs) ∧
      v ∉ d.live.getD n OrderedSet.empty ∧ rhs.isPure = true := by
  unfold skippable
  split
  · next v rhs here =>
      simp only [here, Option.some.injEq, Stmt.assign.injEq, Exp.var.injEq, Bool.and_eq_true, Bool.not_eq_true',
        ← Bool.not_eq_true, OrderedSet.contains_iff]
      constructor
      · rintro ⟨unread, pure⟩
        exact ⟨v, rhs, ⟨rfl, rfl⟩, unread, pure⟩
      · rintro ⟨_, _, ⟨rfl, rfl⟩, unread, pure⟩
        exact ⟨unread, pure⟩
  · next other =>
      simp only [Bool.false_eq_true, false_iff, not_exists]
      rintro v rhs ⟨here, -⟩
      exact other v rhs here

theorem mem_targets {d : DeadCode} {e : Edge} (edge : e ∈ d.graph.outgoing) {kind : EdgeKind}
    (same : e.kind = kind) : e.target ∈ d.targets e.source kind := by
  simp only [targets, Cfg.outEdges, List.mem_map, List.mem_filter, decide_eq_true_eq]
  exact ⟨e, ⟨⟨edge, rfl⟩, same⟩, rfl⟩

/-! ## Control stays among what is reached -/

theorem entry_reached (d : DeadCode) : d.graph.entry ∈ d.reached :=
  Search.start_mem_reach (by simp) (by simp [domain, Cfg.nodes])

theorem reached_next {d : DeadCode} {n m : Node} (inside : n ∈ d.graph.nodes) (reached : n ∈ d.reached)
    (next : m ∈ d.next n) : m ∈ d.reached :=
  Search.mem_reach_of_next reached next (by
    simp only [domain, List.mem_append, List.mem_flatMap]
    exact .inr ⟨n, inside, next⟩)

structure Grounded (d : DeadCode) (id : Nat) (known : Facts Node (Constants Var))
    (live : Facts Node (SetFact Var)) : Prop where
  built : Cfg.build id d.body = .ok d.graph
  constants : d.constants = known.before
  propagated : Propagation.analysis.Solves d.graph d.body known
  liveness : d.live = live.before
  solved : Liveness.analysis.Solves d.graph d.body live

section Grounded
variable {d : DeadCode} {id : Nat} {known : Facts Node (Constants Var)} {live : Facts Node (SetFact Var)}

theorem mem_succs_of_edge {g : Cfg} {e : Edge} (edge : e ∈ g.outgoing) : e.target ∈ g.succs e.source :=
  Cfg.mem_succs.mpr ⟨e, edge, rfl, rfl⟩

theorem edge_of_switch (grounded : d.Grounded id known live) {e : Edge} (edge : e ∈ d.graph.outgoing) {v : Var}
    {cases : List (Int × Option Node)} {otherwise : Option Node}
    (here : d.body.stmt? e.source = some (.switch v cases otherwise)) :
    (e.kind = .switchCase ∧ ∃ c ∈ cases, e.caseValue = some c.1 ∧ c.2 = some e.target) ∨
      (e.kind = .switchDefault ∧ otherwise = some e.target) := by
  obtain ⟨pos, -, member⟩ := Cfg.mem_stmtEdges_of_stmt? grounded.built edge here
  obtain ⟨kind, value, target, way, rfl⟩ := Cfg.mem_stmtEdges.mp member
  simp only [Cfg.waysAt, Stmt.ways, List.mem_append, List.mem_map, Prod.mk.injEq, List.mem_singleton] at way
  rcases way with ⟨c, listed, rfl, rfl, leads⟩ | ⟨rfl, rfl, leads⟩
  · exact .inl ⟨rfl, c, listed, rfl, leads⟩
  · exact .inr ⟨rfl, leads.symm⟩

theorem mem_chosen (grounded : d.Grounded id known live) {e : Edge} (edge : e ∈ d.graph.outgoing) {v : Var}
    {cases : List (Int × Option Node)} {otherwise : Option Node}
    (here : d.body.stmt? e.source = some (.switch v cases otherwise)) {σ : Store} {w : Word} (holds : σ v = some w)
    {given : Exp → Word → Prop} (takes : (Stmt.switch v cases otherwise).Takes given σ e) :
    e.target ∈ if (cases.filter (·.1 = w.toInt)).isEmpty then otherwise.toList
      else (cases.filter (·.1 = w.toInt)).filterMap Prod.snd := by
  have leads := edge_of_switch grounded edge here
  cases takes with
  | case held kind equal =>
      obtain rfl := Option.some.inj (holds.symm.trans held)
      rcases leads with ⟨-, c, member, value, leads⟩ | ⟨other, -⟩
      · have hit : c.1 = w.toInt := Option.some.inj (value.symm.trans equal)
        have chosen : c ∈ cases.filter (·.1 = w.toInt) := List.mem_filter.mpr ⟨member, by simpa using hit⟩
        simp only [List.isEmpty_eq_false_iff_exists_mem.mpr ⟨c, chosen⟩, Bool.false_eq_true, if_false]
        exact List.mem_filterMap.mpr ⟨c, chosen, leads⟩
      · simp [kind] at other
  | default held kind unequal =>
      obtain rfl := Option.some.inj (holds.symm.trans held)
      rcases leads with ⟨other, -⟩ | ⟨-, leads⟩
      · simp [kind] at other
      · have none : cases.filter (·.1 = w.toInt) = [] := by simpa [List.filter_eq_nil_iff] using unequal
        simp [none, leads]

theorem mem_feasible (grounded : d.Grounded id known live) (simple : d.body.Simple) {e : Edge}
    (edge : e ∈ d.graph.outgoing) {s : Stmt} (here : d.body.stmt? e.source = some s) {fact : Constants Var}
    (found : d.constants.get? e.source = some fact) {σ : Store} (describes : fact.Describes σ)
    {given : Exp → Word → Prop} (takes : s.Takes given σ e) : e.target ∈ d.feasible e.source := by
  have ints := simple.ints s (Body.mem_of_stmt? here)
  have someway := mem_succs_of_edge edge
  have goes := takes
  unfold feasible
  rw [OrderedMap.getD, found, here, Option.getD_some]
  cases takes with
  | ifTrue condition kind | ifFalse condition kind =>
      rcases Exp.covers_evaluate describes (ints _ (by simp [Stmt.computed])) condition with decided | unknown
      · simp only [decided]
        exact mem_targets edge kind
      · simp only [unknown]
        exact someway
  | @case v _ _ w holds | @default v _ _ w holds =>
      have int : v.holdsInt = true := ints (.var v) (by simp [Stmt.computed]) v (by simp [Exp.operands])
      rcases describes v w int holds with word | unknown
      · simp only [word]
        exact mem_chosen grounded edge here holds goes
      · simp only [unknown]
        exact someway
  | _ => exact someway

theorem mem_next (grounded : d.Grounded id known live) (simple : d.body.Simple) {now later : State}
    (descriptive : Propagation.Known d.graph d.body known now) {given : Exp → Word → Prop}
    (moves : d.graph.Moves d.body given (fun s σ e => s.Takes given σ e) now later) :
    later.node ∈ d.next now.node := by
  unfold next
  cases moves with
  | @silent e σ edge nothing =>
      have someway := mem_succs_of_edge edge
      split
      · exact someway
      · simpa only [feasible, nothing] using someway
  | @stmt e s σ σ' edge here goes effect =>
      split
      · exact mem_succs_of_edge edge
      · have inner : e.source ≠ d.graph.entry := by
          intro first
          rw [first] at here
          cases here
        obtain ⟨-, describes⟩ := descriptive
        rw [if_neg inner, ← grounded.constants] at describes
        obtain ⟨fact, found, describes⟩ := describes
        exact mem_feasible grounded simple edge here found describes goes

/-! ## Live variables hold the same -/

/-- A state of a body, and one of the body without its dead statements: control is at the same place, which it can
reach, and live variables hold the same. -/
structure Paired (d : DeadCode) (live : Facts Node (SetFact Var)) (now now' : State) : Prop where
  node : now'.node = now.node
  inside : d.graph.contains now.node = true
  reached : now.node ∈ d.reached
  agree : ∀ v ∈ live.behind.getD now.node OrderedSet.empty, now.store v = now'.store v

theorem skippable_of_dead {judged : Node → Bool} {dead : List Node} (found : d.dead judged = .ok dead) {n : Node}
    (reached : n ∈ d.reached) (dropped : n ∈ dead) : d.skippable n = true := by
  obtain ⟨-, -, unreached | skippable⟩ := (mem_dead found).mp dropped
  · exact absurd reached unreached
  · exact skippable

theorem stable_of_edge (grounded : d.Grounded id known live) {e : Edge} (edge : e ∈ d.graph.outgoing) :
    Liveness.analysis.StableAt d.graph d.body live e.source := by
  have mirrored := (Cfg.Drawn.built grounded.built).mirrored
  refine grounded.solved.inner _ (Cfg.mem_nodes.mpr (mirrored.inside e edge).1) fun last => ?_
  have next := mem_succs_of_edge edge
  rw [show e.source = d.graph.exit from last, Cfg.succs_exit grounded.built] at next
  cases next

theorem live_at_source (grounded : d.Grounded id known live) {e : Edge} (edge : e ∈ d.graph.outgoing) {v : Var}
    (later : v ∈ live.behind.getD e.target OrderedSet.empty) (unwritten : d.body.writesAt? e.source ≠ some v) :
    v ∈ live.behind.getD e.source OrderedSet.empty :=
  (Liveness.mem_behind_iff (stable_of_edge grounded edge)).mpr
    (.inr ⟨⟨_, mem_succs_of_edge edge, later⟩, unwritten⟩)

theorem live_of_read (grounded : d.Grounded id known live) {n : Node} (inside : d.graph.contains n = true) {v : Var}
    (read : v ∈ d.body.readsAt n) : v ∈ live.behind.getD n OrderedSet.empty := by
  have inner : n ≠ d.graph.exit := by
    rintro rfl
    cases read
  exact (Liveness.mem_behind_iff (grounded.solved.inner n (Cfg.mem_nodes.mpr inside) inner)).mpr (.inl read)

theorem not_live_of_unread (grounded : d.Grounded id known live) {e : Edge} (edge : e ∈ d.graph.outgoing) {v : Var}
    (unread : v ∉ d.live.getD e.source OrderedSet.empty) : v ∉ live.behind.getD e.target OrderedSet.empty := by
  intro later
  obtain ⟨before, -, found, -, rfl, -⟩ := Liveness.lawful.stableAt_iff.mp (stable_of_edge grounded edge)
  rw [grounded.liveness, OrderedMap.getD, found, Option.getD_some] at unread
  exact unread (Liveness.mem_merged.mpr ⟨_, mem_succs_of_edge edge, later⟩)

theorem Paired.reads (grounded : d.Grounded id known live) {now now' : State} (paired : d.Paired live now now')
    {s : Stmt} (here : d.body.stmt? now.node = some s) : ∀ u ∈ s.uses, now.store u = now'.store u := by
  intro u read
  exact paired.agree u (live_of_read grounded paired.inside (by simpa [Body.readsAt, here] using read))

theorem agree_of_skipped (grounded : d.Grounded id known live) {e : Edge} (edge : e ∈ d.graph.outgoing) {v : Var}
    {rhs : Exp} (here : d.body.stmt? e.source = some (.assign (.var v) rhs))
    (unread : v ∉ d.live.getD e.source OrderedSet.empty) {σ σ' τ : Store} {given : Exp → Word → Prop}
    (effect : (Stmt.assign (.var v) rhs).Effect given σ τ)
    (agree : ∀ u ∈ live.behind.getD e.source OrderedSet.empty, σ u = σ' u) :
    ∀ u ∈ live.behind.getD e.target OrderedSet.empty, τ u = σ' u := by
  intro u later
  have other : v ≠ u := fun same => not_live_of_unread grounded edge unread (same ▸ later)
  have writes : (Stmt.assign (.var v) rhs).defVar? = some v := rfl
  have before := live_at_source grounded edge later (by simp [Body.writesAt?, here, writes, other])
  calc τ u = σ u := effect.frame (by simp [writes, other])
    _ = σ' u := agree u before

theorem agree_of_kept (grounded : d.Grounded id known live) {e : Edge} (edge : e ∈ d.graph.outgoing) {s : Stmt}
    (here : d.body.stmt? e.source = some s) {σ σ' τ τ' : Store}
    (same : ∀ u, s.defVar? = some u ∨ σ u = σ' u → τ u = τ' u)
    (agree : ∀ u ∈ live.behind.getD e.source OrderedSet.empty, σ u = σ' u) :
    ∀ u ∈ live.behind.getD e.target OrderedSet.empty, τ u = τ' u := by
  intro u later
  by_cases written : s.defVar? = some u
  · exact same u (.inl written)
  · have before := live_at_source grounded edge later (by simpa [Body.writesAt?, here] using written)
    exact same u (.inr (agree u before))

theorem Paired.moves (grounded : d.Grounded id known live) (simple : d.body.Simple) {judged : Node → Bool}
    {dead : List Node} (found : d.dead judged = .ok dead) {g' : Cfg}
    (kept : ∀ e ∈ d.graph.outgoing,
      (e.source ∈ dead → ∃ lhs rhs, d.body.stmt? e.source = some (.assign lhs rhs)) → e ∈ g'.outgoing)
    {now later now' : State} (descriptive : Propagation.Known d.graph d.body known now)
    (paired : d.Paired live now now') {given : Exp → Word → Prop}
    (moves : d.graph.Moves d.body given (fun s σ e => s.Takes given σ e) now later) :
    ∃ later', g'.Moves (d.body.without dead) given (fun s σ e => s.Takes given σ e) now' later' ∧
      d.Paired live later later' := by
  have reached : later.node ∈ d.reached :=
    reached_next (Cfg.mem_nodes.mpr paired.inside) paired.reached (mem_next grounded simple descriptive moves)
  have inside (e : Edge) (edge : e ∈ d.graph.outgoing) : d.graph.contains e.target = true :=
    ((Cfg.Drawn.built grounded.built).mirrored.inside e edge).2
  -- control is where the search went, so a dead statement here can only be one that is skipped
  have assigns (dropped : now.node ∈ dead) : ∃ lhs rhs, d.body.stmt? now.node = some (.assign lhs rhs) := by
    obtain ⟨v, rhs, here, -⟩ := skippable_iff.mp (skippable_of_dead found paired.reached dropped)
    exact ⟨_, _, here⟩
  obtain ⟨node, σ'⟩ := now'
  obtain rfl : node = now.node := paired.node
  cases moves with
  | @silent e σ edge nothing =>
      refine ⟨⟨e.target, σ'⟩, .silent (kept e edge assigns) (by rw [Body.stmt?_without, nothing]; rfl),
        rfl, inside e edge, reached, fun v later => ?_⟩
      exact paired.agree v (live_at_source grounded edge later (by simp [Body.writesAt?, nothing]))
  | @stmt e s σ τ edge here goes effect =>
      by_cases dropped : e.source ∈ dead
      · obtain ⟨v, rhs, assigned, unread, -⟩ := skippable_iff.mp (skippable_of_dead found paired.reached dropped)
        obtain rfl := Option.some.inj (here.symm.trans assigned)
        have idle : (d.body.without dead).stmt? e.source = some (.nop "nop") := by
          rw [Body.stmt?_without, here, Option.map_some, if_pos dropped]
        exact ⟨⟨e.target, σ'⟩, .stmt (kept e edge assigns) idle .nop .nop, rfl, inside e edge, reached,
          agree_of_skipped grounded edge here unread effect paired.agree⟩
      · have stays : (d.body.without dead).stmt? e.source = some s := by
          rw [Body.stmt?_without, here, Option.map_some, if_neg dropped]
        have reads := paired.reads grounded here
        obtain ⟨τ', effect', same⟩ := effect.congr reads
        exact ⟨⟨e.target, τ'⟩, .stmt (kept e edge assigns) stays (goes.congr reads) effect', rfl, inside e edge,
          reached, agree_of_kept grounded edge here same paired.agree⟩

theorem not_asks_of_atom {e : Exp} (atom : e.isAtom = true) : e.asks = false := by
  cases e <;> first | rfl | cases atom

theorem not_asks_of_pure {b : Body} (simple : b.Simple) {v : Var} {rhs : Exp}
    (member : .assign (.var v) rhs ∈ b.stmts) (pure : rhs.isPure = true) : rhs.asks = false := by
  cases rhs with
  | bin op left right =>
      have flat := simple.flat _ member (.bin op left right) (by simp [Stmt.computed])
      simp only [Exp.isFlat, Bool.and_eq_true] at flat
      simp [Exp.asks, not_asks_of_atom flat.1, not_asks_of_atom flat.2]
  | var | lit => rfl
  | _ => cases pure

theorem Paired.sight (grounded : d.Grounded id known live) (simple : d.body.Simple) {judged : Node → Bool}
    {dead : List Node} (found : d.dead judged = .ok dead) {now now' : State} (paired : d.Paired live now now') :
    d.body.sight now = (d.body.without dead).sight now' := by
  obtain ⟨node, σ'⟩ := now'
  obtain rfl : node = now.node := paired.node
  simp only [Body.sight, Body.stmt?_without]
  cases here : d.body.stmt? now.node with
  | none => rfl
  | some s =>
      simp only [Option.map_some, Sight.mk.injEq, true_and]
      by_cases dropped : now.node ∈ dead
      · obtain ⟨v, rhs, assigned, -, pure⟩ := skippable_iff.mp (skippable_of_dead found paired.reached dropped)
        obtain rfl := Option.some.inj (here.symm.trans assigned)
        have silent := not_asks_of_pure simple (Body.mem_of_stmt? here) pure
        simp [dropped, Stmt.isVisible, silent]
      · simp only [dropped, if_false, List.map_congr_left (paired.reads grounded here)]

theorem typed_of_simple {b : Body} (simple : b.Simple) : Propagation.Typed b :=
  fun _ _ member _ u operand => simple.ints _ member _ (by simp [Stmt.computed]) u operand

def Alike (d : DeadCode) (live : Facts Node (SetFact Var)) (dead : List Node) (now now' : State) : Prop :=
  d.Paired live now now' ∧ d.body.sight now = (d.body.without dead).sight now'

theorem sights_eq {dead : List Node} {trace trace' : List State}
    (alike : List.Forall₂ (d.Alike live dead) trace trace') :
    trace.map d.body.sight = trace'.map (d.body.without dead).sight := by
  induction alike with
  | nil => rfl
  | cons first _ ih => rw [List.map_cons, List.map_cons, first.2, ih]

theorem runs_alike (grounded : d.Grounded id known live) (simple : d.body.Simple) (rooted : d.graph.Rooted)
    {judged : Node → Bool} {dead : List Node} (found : d.dead judged = .ok dead) {g' : Cfg}
    (entry : g'.entry = d.graph.entry)
    (kept : ∀ e ∈ d.graph.outgoing,
      (e.source ∈ dead → ∃ lhs rhs, d.body.stmt? e.source = some (.assign lhs rhs)) → e ∈ g'.outgoing)
    {first : Store} (opens : d.body.Opens first) {oracle : List Sight → Word} {trace : List State}
    (runs : d.body.Runs d.graph oracle first trace) :
    ∃ trace', (d.body.without dead).Runs g' oracle first trace' ∧
      List.Forall₂ (d.Alike live dead) trace trace' := by
  induction runs with
  | start =>
      have paired : d.Paired live ⟨d.graph.entry, first⟩ ⟨g'.entry, first⟩ :=
        ⟨entry, by simp [Cfg.contains, Cfg.entry], d.entry_reached, fun _ _ => rfl⟩
      exact ⟨_, .start, .cons ⟨paired, paired.sight grounded simple found⟩ .nil⟩
  | @next now later past before moves ih =>
      obtain ⟨trace', runs', alike⟩ := ih
      have seen := sights_eq alike
      obtain ⟨now', past', ⟨paired, -⟩, -, rfl⟩ := List.forall₂_cons_left_iff.mp alike
      have descriptive : Propagation.Known d.graph d.body known now :=
        Propagation.known_of_roams (Cfg.Drawn.built grounded.built).mirrored rooted (typed_of_simple simple)
          grounded.propagated opens (Body.Runs.roams before)
      obtain ⟨later', moves', paired'⟩ := paired.moves grounded simple found kept descriptive moves
      -- the oracle has seen the same, so it answers the same
      rw [seen] at moves'
      exact ⟨_, Run.next runs' moves', .cons ⟨paired', paired'.sight grounded simple found⟩ alike⟩

end Grounded

/-- Take a finished body whose operators apply to variables and literals and which computes with integers, and the
dead code found by any solutions of both problems. For every run of the body, with any parameters and whatever
the outside gives, the body without its dead statements runs through the same nodes; at each of them the outside
sees the same, and every live variable holds the same. -/
theorem without_dead_runs_alike {b : Body} (finished : b.Finished) (simple : b.Simple) {id : Nat} {g : Cfg}
    (built : Cfg.build id b = .ok g) {c : Solution Node (Constants Var)} {l : Solution Node (SetFact Var)}
    {strategy strategy' : Strategy} {limit limit' : Option Int} {t t' : Nat}
    (propagated : Propagation.analysis.solve g b strategy limit = .settled c t)
    (solved : Liveness.analysis.solve g b strategy' limit' = .settled l t')
    {judged : Node → Bool} {dead : List Node} (found : DeadCode.dead ⟨b, g, c.input, l.output⟩ judged = .ok dead)
    {first : Store} (opens : b.Opens first) (oracle : List Sight → Word) {trace : List State}
    (runs : b.Runs g oracle first trace) :
    ∃ g', Cfg.build id (b.without dead) = .ok g' ∧
      ∃ trace', (b.without dead).Runs g' oracle first trace' ∧
        List.Forall₂ (fun now now' => now'.node = now.node ∧ b.sight now = (b.without dead).sight now' ∧
          ∃ live, l.input.get? now.node = some live ∧ ∀ v ∈ live, now.store v = now'.store v) trace trace' := by
  have mirrored := (Cfg.Drawn.built built).mirrored
  have knows := Analysis.solves_of_settled Propagation.lawful mirrored propagated
  have lives := Analysis.solves_of_settled Liveness.lawful mirrored solved
  obtain ⟨known, rfl, -⟩ := Analysis.solve_settled_iff.mp propagated
  obtain ⟨live, rfl, -⟩ := Analysis.solve_settled_iff.mp solved
  have grounded : Grounded ⟨b, g, known.before, live.before⟩ id known live := ⟨built, rfl, knows, rfl, lives⟩
  obtain ⟨g', rebuilt, entry, kept⟩ := Cfg.build_without built dead
  have rooted := Cfg.rooted_of_jumpWithin built finished.jumpWithin
  obtain ⟨trace', runs', alike⟩ := runs_alike grounded simple rooted found entry kept opens runs
  refine ⟨g', rebuilt, trace', runs', alike.imp fun now now' ⟨paired, seen⟩ => ⟨paired.node, seen, ?_⟩⟩
  exact ⟨_, Liveness.behind_some lives (Cfg.mem_nodes.mpr paired.inside), paired.agree⟩

end DeadCode

namespace Countdown
open Loop (method p x)

def y : Var := ⟨"y", .int, some method, 2⟩

def instrs : List Instr := [
  .assign (.ident "x") (.int 1),
  .label "top",
  .branch .ne (.ident "x") (.int 1) "off",
  .compute "y" .add (.ident "p") (.ident "x"),
  .compute "p" .sub (.ident "p") (.int 1),
  .branch .gt (.ident "p") (.int 0) "top",
  .ret (some "p"),
  .label "off",
  .ret (some "x")]

def body : Body where
  method := method
  this := none
  params := [p]
  stmts := [
    .assign (.var x) (.lit 1),
    .branch .ne (.var x) (.lit 1) (some (.stmt 6 method)),
    .assign (.var y) (.bin .add (.var p) (.var x)),
    .assign (.var p) (.bin .sub (.var p) (.lit 1)),
    .branch .gt (.var p) (.lit 0) (some (.stmt 1 method)),
    .ret (some p),
    .ret (some x)]
  vars := [p, x, y]

def graph : Cfg := (Cfg.bare 0 method 7).drawAll ((Cfg.bare 0 method 7).edgesOf body)

theorem graph_built : Cfg.build 0 body = .ok graph := rfl

set_option maxRecDepth 10000 in
theorem body_finished : body.Finished := by
  have done : (Drafting.finish.on (.ofInstrs method true ["p"] instrs)).1 = .ok body := rfl
  exact Body.finished_of_instrs done

theorem body_simple : body.Simple := ⟨by decide, by decide⟩

def first : Store := fun v => if v = p then some 1 else none

def trace : List State :=
  let set := first.set x 1
  [⟨graph.node 3, set.set y 2⟩, ⟨graph.node 2, set⟩, ⟨graph.node 1, set⟩, ⟨graph.node 0, first⟩,
    ⟨graph.entry, first⟩]

theorem first_opens : body.Opens first := Body.opens_of_param (List.mem_singleton_self p) 1

theorem trace_runs (oracle : List Sight → Word) : body.Runs graph oracle first trace := by
  have entered : body.Runs graph oracle first [⟨graph.node 0, first⟩, ⟨graph.entry, first⟩] :=
    Run.start.next (.silent (e := graph.entryEdge) (by decide +kernel) rfl)
  have set : body.Runs graph oracle first [⟨graph.node 1, first.set x 1⟩, _, _] :=
    Run.next entered (.stmt (e := ⟨graph.node 0, graph.node 1, .fallThrough, none⟩) (by decide +kernel) rfl
      .assign (.assign (.lit 1)))
  have equal (given : Exp → Word → Prop) : (Exp.bin .ne (.var x) (.lit 1)).Yields given (first.set x 1)
      (BinOp.ne.onWords 1 (BitVec.ofInt 32 1)) := .bin (.var rfl) (.lit 1) (by decide)
  have passed : body.Runs graph oracle first [⟨graph.node 2, first.set x 1⟩, _, _, _] :=
    Run.next set (.stmt (e := ⟨graph.node 1, graph.node 2, .ifFalse, none⟩) (by decide +kernel) rfl
      (.ifFalse (equal _) rfl) .branch)
  have sum (given : Exp → Word → Prop) : (Exp.bin .add (.var p) (.var x)).Yields given (first.set x 1)
      (BinOp.add.onWords 1 1) := .bin (.var rfl) (.var rfl) (by decide)
  exact Run.next passed (.stmt (e := ⟨graph.node 2, graph.node 3, .fallThrough, none⟩) (by decide +kernel) rfl
    .assign (.assign (sum _)))

theorem countdown_runs_alike :
    ∃ c t l t', Propagation.analysis.solve graph body .worklist (some 60) = .settled c t ∧
      Liveness.analysis.solve graph body .iterative (some 60) = .settled l t' ∧
      DeadCode.dead ⟨body, graph, c.input, l.output⟩ (fun _ => true) = .ok [graph.node 2, graph.node 6] ∧
      ∃ g', Cfg.build 0 (body.without [graph.node 2, graph.node 6]) = .ok g' ∧
        ∃ trace', (body.without [graph.node 2, graph.node 6]).Runs g' (fun _ => 0) first trace' ∧
          List.Forall₂ (fun now now' => now'.node = now.node ∧
            body.sight now = (body.without [graph.node 2, graph.node 6]).sight now' ∧
            ∃ live, l.input.get? now.node = some live ∧ ∀ v ∈ live, now.store v = now'.store v) trace trace' := by
  have computed : ((Propagation.analysis.solve graph body .worklist (some 60)).state?.bind fun c =>
      (Liveness.analysis.solve graph body .iterative (some 60)).state?.bind fun l =>
        (DeadCode.dead ⟨body, graph, c.input, l.output⟩ fun _ => true).toOption) =
      some [graph.node 2, graph.node 6] := by decide +kernel
  simp only [Option.bind_eq_some_iff] at computed
  obtain ⟨c, constants, l, liveness, judged⟩ := computed
  obtain ⟨t, propagated⟩ := Outcome.settled_of_state? constants
  obtain ⟨t', solved⟩ := Outcome.settled_of_state? liveness
  have found : DeadCode.dead ⟨body, graph, c.input, l.output⟩ (fun _ => true) =
      .ok [graph.node 2, graph.node 6] := by
    cases result : DeadCode.dead ⟨body, graph, c.input, l.output⟩ fun _ => true with
    | error n => simp [result, Except.toOption] at judged
    | ok dead => simpa [result, Except.toOption] using judged
  exact ⟨c, t, l, t', propagated, solved, found, DeadCode.without_dead_runs_alike body_finished body_simple
    graph_built propagated solved found first_opens _ (trace_runs _)⟩

end Countdown

end Dataflow
