import Dataflow.Proofs.Fact.Order
import Dataflow.Proofs.Semantics.Execution
import Dataflow.Proofs.Solver.Fixpoint

/-!
Constant propagation is sound: whenever a run comes to a node, what is known there of a variable is what the
variable holds, or that it is no constant. A fact describes a store if it says nothing false of it. Evaluation and
transfer keep facts descriptive along each step of a run, and a meet describes what one of its parts describes, so
that the equations which a solution solves carry the invariant from node to node.
-/

namespace Dataflow

def Value.Covers (x : Value) (w : Word) : Prop := x = .const w.toInt ∨ x = .nac

namespace Value

theorem Covers.mono {x y : Value} {w : Word} (covers : x.Covers w) (le : x ≤ y) : y.Covers w := by
  rcases le_iff.mp le with rfl | rfl | rfl
  · rcases covers with impossible | impossible <;> cases impossible
  · exact .inr rfl
  · exact covers

theorem covers_binary {op : BinOp} {x y : Value} {a b : Word} (atLeft : x.Covers a) (atRight : y.Covers b)
    (divisor : op.divides → b ≠ 0) : (binary op x y).Covers (op.onWords a b) := by
  have total : ¬ (op.divides && y = .const 0) := by
    rintro zero
    simp only [Bool.and_eq_true, decide_eq_true_eq] at zero
    rcases atRight with known | known
    · obtain ⟨divides, rfl⟩ := zero
      exact divisor divides (BitVec.toInt_inj.mp (Value.const.inj known).symm)
    · exact absurd (known.symm.trans zero.2) (by simp)
  unfold binary
  rw [if_neg total]
  rcases atLeft with rfl | rfl
  · rcases atRight with rfl | rfl
    · exact .inl (congrArg _ (op.apply_toInt a b))
    · exact .inr rfl
  · exact .inr rfl

end Value

namespace Constants

/-- A fact says nothing false of what the variables that hold an integer hold. -/
def Describes (f : Constants Var) (σ : Store) : Prop :=
  ∀ v w, v.holdsInt = true → σ v = some w → (f.value v).Covers w

theorem Describes.mono {f g : Constants Var} {σ : Store} (describes : f.Describes σ) (le : f ≤ g) :
    g.Describes σ := fun v w int holds => (describes v w int holds).mono (le v)

end Constants

theorem Exp.covers_evaluate {f : Constants Var} {σ : Store} (describes : f.Describes σ)
    {given : Exp → Word → Prop} {e : Exp} {w : Word} (ints : ∀ v ∈ e.operands, v.holdsInt = true)
    (yields : e.Yields given σ w) : (e.evaluate f).Covers w := by
  induction yields with
  | var holds => exact describes _ _ (ints _ (by simp [operands])) holds
  | lit n => exact .inl (congrArg _ (Word32.toInt_ofInt n).symm)
  | bin _ _ divisor ihLeft ihRight =>
      exact Value.covers_binary (ihLeft fun v member => ints v (List.mem_append_left _ member))
        (ihRight fun v member => ints v (List.mem_append_right _ member)) divisor
  | @foreign e w outside comes => cases e <;> first | exact .inr rfl | cases outside

namespace Propagation

def Typed (b : Body) : Prop :=
  ∀ v e, Stmt.assign (.var v) e ∈ b.stmts → v.holdsInt = true → ∀ u ∈ e.operands, u.holdsInt = true

theorem describes_set {f : Constants Var} {σ : Store} (describes : f.Describes σ) {v : Var} {x : Value}
    {w : Word} (covers : v.holdsInt = true → x.Covers w) :
    (if v.holdsInt then f.set v x else f).Describes (σ.set v w) := by
  intro u c int holds
  by_cases here : v = u
  · subst here
    simp only [Store.set, if_true, Option.some.injEq] at holds
    simpa [int, ← holds] using covers int
  · have before : σ u = some c := by simpa [Store.set, here] using holds
    have kept : (if v.holdsInt then f.set v x else f).value u = f.value u := by
      split <;> simp [here]
    rw [kept]
    exact describes u c int before

theorem describes_transfer {b : Body} (typed : Typed b) {s : Stmt} (member : s ∈ b.stmts) {f : Constants Var}
    {σ σ' : Store} (describes : f.Describes σ) {given : Exp → Word → Prop} (effect : s.Effect given σ σ') :
    (transfer (some s) f).Describes σ' := by
  cases effect with
  | @assign v rhs w value =>
      exact describes_set describes fun int => Exp.covers_evaluate describes (typed v rhs member int) value
  | @store lhs rhs w memory value =>
      cases lhs <;> first | exact describes | cases memory
  | result comes => exact describes_set describes fun _ => .inr rfl
  | _ => exact describes

theorem value_boundary (b : Body) (v : Var) :
    (boundary b).value v = if v ∈ b.params ∧ v.holdsInt = true then .nac else .undefined := by
  rw [boundary, Constants.value_foldl_set]
  simp [List.mem_filter]

theorem describes_boundary {b : Body} {σ : Store} (opens : b.Opens σ) : (boundary b).Describes σ := by
  intro v w int holds
  exact .inr (by rw [value_boundary, if_pos ⟨opens v w holds, int⟩])

def sent (f : Facts Node (Constants Var)) (n : Node) : Constants Var := f.behind.getD n OrderedMap.empty

theorem sent_of_get? {f : Facts Node (Constants Var)} {n : Node} {fact : Constants Var}
    (found : f.behind.get? n = some fact) : sent f n = fact := by
  rw [sent, OrderedMap.getD, found, Option.getD_some]

theorem facts_of_solves {g : Cfg} {b : Body} {f : Facts Node (Constants Var)} {n : Node}
    (solves : analysis.Solves g b f) (inside : n ∈ g.nodes) (inner : n ≠ g.entry) :
    f.before.get? n = some (Constants.gather OrderedMap.empty (g.preds n) (sent f)) ∧
      f.behind.get? n = some (sent f n) ∧
      (sent f n).same (transfer (b.stmt? n) (Constants.gather OrderedMap.empty (g.preds n) (sent f))) = true := by
  obtain ⟨before, behind, here, there, met, same⟩ := solves.inner n inside inner
  obtain rfl : before = Constants.gather OrderedMap.empty (g.preds n) (sent f) :=
    met.trans (Constants.gather_eq_meetAll (g.preds n) (sent f)).symm
  have sends : sent f n = behind := sent_of_get? there
  exact ⟨here, by rw [sends, there], by rw [sends]; exact same⟩

/-! ## Runs -/

/-- What is known where control is describes the store. At the entry, that is what is known behind it. -/
def Known (g : Cfg) (b : Body) (f : Facts Node (Constants Var)) (now : State) : Prop :=
  g.contains now.node = true ∧
    if now.node = g.entry then (boundary b).Describes now.store
    else ∃ fact, f.before.get? now.node = some fact ∧ fact.Describes now.store

section Runs
variable {b : Body} {g : Cfg} {f : Facts Node (Constants Var)}

theorem describes_behind (typed : Typed b) (solves : analysis.Solves g b f) {now later : State}
    {given : Exp → Word → Prop} {may : Stmt → Store → Edge → Prop} (known : Known g b f now)
    (moves : g.Moves b given may now later) :
    (sent f now.node).Describes later.store := by
  obtain ⟨inside, known⟩ := known
  by_cases first : now.node = g.entry
  · rw [if_pos first] at known
    -- nothing stands at the entry, and behind it is the boundary fact
    have sends : f.behind.get? g.entry = some (boundary b) := solves.start.2
    rw [first, sent_of_get? sends]
    cases moves with
    | silent => exact known
    | stmt _ here =>
        rw [show Edge.source _ = g.entry from first] at here
        cases here
  · rw [if_neg first] at known
    obtain ⟨fact, found, describes⟩ := known
    obtain ⟨before, behind, here, there, -, same⟩ := solves.inner _ (Cfg.mem_nodes.mpr inside) first
    obtain rfl : before = fact := Option.some.inj (here.symm.trans found)
    rw [sent_of_get? there]
    have computed : (transfer (b.stmt? now.node) before).Describes later.store := by
      cases moves with
      | silent _ nothing =>
          rw [nothing]
          exact describes
      | stmt _ stands _ effect =>
          rw [stands]
          exact describes_transfer typed (Body.mem_of_stmt? stands) describes effect
    intro v w int holds
    have values : behind.get? v = (transfer (b.stmt? now.node) before).get? v := OrderedMap.same_iff.mp same v
    rw [Constants.value, OrderedMap.getD, values]
    exact computed v w int holds

theorem Known.moves (mirrored : g.Mirrored) (rooted : g.Rooted) (typed : Typed b) (solves : analysis.Solves g b f)
    {now later : State} {given : Exp → Word → Prop} {may : Stmt → Store → Edge → Prop} (known : Known g b f now)
    (moves : g.Moves b given may now later) : Known g b f later := by
  have described := describes_behind typed solves known moves
  obtain ⟨e, edge, source, target⟩ : ∃ e ∈ g.outgoing, e.source = now.node ∧ e.target = later.node := by
    cases moves with
    | silent edge => exact ⟨_, edge, rfl, rfl⟩
    | stmt edge => exact ⟨_, edge, rfl, rfl⟩
  have inner : later.node ≠ g.entry := target ▸ rooted e edge
  have inside : g.contains later.node = true := target ▸ (mirrored.inside e edge).2
  have pred : now.node ∈ g.preds later.node :=
    mirrored.mem_preds_iff.mpr (Cfg.mem_succs.mpr ⟨e, edge, source, target⟩)
  obtain ⟨found, -⟩ := facts_of_solves solves (Cfg.mem_nodes.mpr inside) inner
  refine ⟨inside, ?_⟩
  rw [if_neg inner]
  exact ⟨_, found, described.mono (Constants.le_gather pred)⟩

theorem known_of_roams (mirrored : g.Mirrored) (rooted : g.Rooted) (typed : Typed b)
    (solves : analysis.Solves g b f) {first : Store} (opens : b.Opens first) {now : State} {past : List State}
    (run : b.Roams g first (now :: past)) : Known g b f now := by
  generalize whole : now :: past = trace at run
  induction run generalizing now past with
  | start =>
      obtain ⟨rfl, -⟩ := List.cons.inj whole
      refine ⟨by simp [Cfg.contains, Cfg.entry], ?_⟩
      rw [if_pos rfl]
      exact describes_boundary opens
  | next _ moves ih =>
      obtain ⟨rfl, -⟩ := List.cons.inj whole
      exact (ih rfl).moves mirrored rooted typed solves moves

end Runs

/-- Wherever a run comes, whatever edges it takes and whatever comes from outside, what the solution knows in
front of the node of a variable that holds an integer is the word that it holds, or that it is no constant. -/
theorem sound_along_runs {b : Body} {g : Cfg} (drawn : g.Drawn b) (rooted : g.Rooted) (typed : Typed b)
    {strategy : Strategy} {limit : Option Int} {c : Solution Node (Constants Var)} {t : Nat}
    (settled : analysis.solve g b strategy limit = .settled c t) {first : Store} (opens : b.Opens first)
    {now : State} {past : List State} (run : b.Roams g first (now :: past)) (inner : now.node ≠ g.entry) :
    ∃ fact, c.input.get? now.node = some fact ∧ ∀ v w, v.holdsInt = true → now.store v = some w →
      fact.value v = .const w.toInt ∨ fact.value v = .nac := by
  have solves := Analysis.solves_of_settled lawful drawn.mirrored settled
  obtain ⟨facts, rfl, -⟩ := Analysis.solve_settled_iff.mp settled
  have known := (known_of_roams drawn.mirrored rooted typed solves opens run).2
  rw [if_neg inner] at known
  exact known

theorem loop_sound :
    let first : Store := fun v => if v = Loop.p then some 3 else none
    let now : State := ⟨Loop.graph.node 2, first.set Loop.x 0⟩
    ∃ c t, analysis.solve Loop.graph Loop.body .worklist (some 40) = .settled c t ∧
      ∃ past, Loop.body.Roams Loop.graph first (now :: past) ∧
        ∃ fact, c.input.get? now.node = some fact ∧ ∀ v w, v.holdsInt = true → now.store v = some w →
          fact.value v = .const w.toInt ∨ fact.value v = .nac := by
  intro first now
  obtain ⟨c, t, settled⟩ : ∃ c t, analysis.solve Loop.graph Loop.body .worklist (some 40) = .settled c t :=
    Outcome.exists_of_state? (by decide +kernel)
  have entered : Loop.body.Roams Loop.graph first [⟨Loop.graph.node 0, first⟩, ⟨Loop.graph.entry, first⟩] :=
    Run.start.next (.silent (e := Loop.graph.entryEdge) (by decide +kernel) rfl)
  have set : Loop.body.Roams Loop.graph first
      [⟨Loop.graph.node 1, first.set Loop.x 0⟩, ⟨Loop.graph.node 0, first⟩, ⟨Loop.graph.entry, first⟩] :=
    Run.next entered (.stmt (e := ⟨Loop.graph.node 0, Loop.graph.node 1, .fallThrough, none⟩)
      (by decide +kernel) rfl trivial (.assign (.lit 0)))
  have run : Loop.body.Roams Loop.graph first (now :: _) :=
    Run.next set (.stmt (e := ⟨Loop.graph.node 1, Loop.graph.node 2, .ifFalse, none⟩)
      (by decide +kernel) rfl trivial .branch)
  have typed : Typed Loop.body := by
    intro v e member _ u operand
    simp only [Loop.body, List.mem_cons, Stmt.assign.injEq, Exp.var.injEq, reduceCtorEq, List.not_mem_nil,
      or_false, false_or] at member
    rcases member with ⟨rfl, rfl⟩ | ⟨rfl, rfl⟩
    · simp [Exp.operands] at operand
    · obtain rfl : u = Loop.x := by simpa [Exp.operands] using operand
      rfl
  have opens : Loop.body.Opens first := Body.opens_of_param (List.mem_singleton_self Loop.p) 3
  exact ⟨c, t, settled, _, run,
    sound_along_runs (.built Loop.graph_built) (by decide +kernel) typed settled opens run (by decide)⟩

end Propagation

end Dataflow
