import Dataflow.Proofs.Icfg.Composition
import Dataflow.Proofs.Ir.Drafts
import Dataflow.Proofs.Solver.Fixpoint
import Dataflow.Workspace.Managing

/-!
Results kept with bodies. A ledger says under which configuration each solution that is kept has been computed; a workspace
matches it if every such solution is what solving gives under that configuration, and nothing else is kept in the place of
one (`Workspace.Matches`). Most steps leave the ledger as it is (`Workspace.Grows`). Solving enters its configuration, and
the search for dead code enters the one without options wherever nothing has been entered before.
-/

namespace Dataflow

namespace Steps
variable {ε σ α β : Type}

theorem on_bind_ok {step : Steps ε σ α} {next : α → Steps ε σ β} {s t : σ} {b : β} :
    (step >>= next).on s = (.ok b, t) ↔ ∃ a u, step.on s = (.ok a, u) ∧ (next a).on u = (.ok b, t) := by
  rw [on_bind]
  rcases step.on s with ⟨_ | a, u⟩ <;> simp

theorem on_tryCatch (step : Steps ε σ α) (handle : ε → Steps ε σ α) (s : σ) :
    (tryCatch step handle).on s = match step.on s with
      | (.ok a, t) => (.ok a, t)
      | (.error e, t) => (handle e).on t := by
  rcases ran : step.run.run s with ⟨_ | a, t⟩ <;>
    (simp only [on, ExceptT.run_tryCatch, StateT.run_bind, ran]; rfl)

theorem on_attempt (step : Steps ε σ α) (s : σ) : (attempt step).on s = (.ok (step.on s).1, (step.on s).2) := by
  rw [attempt, on_tryCatch, on_bind]
  rcases step.on s with ⟨_ | a, t⟩ <;> rfl

namespace Keeps
variable {P : σ → Prop}

theorem lift (r : Except ε α) : Keeps P (Steps.lift r : Steps ε σ α) := by
  intro s kept
  rw [on_lift]
  exact kept

theorem throw_bind (e : ε) (next : α → Steps ε σ β) : Keeps P (MonadExcept.throw e >>= next) := fun _ kept => kept

theorem mapM {items : List α} {step : α → Steps ε σ β} (each : ∀ item ∈ items, Keeps P (step item)) :
    Keeps P (items.mapM step) := by
  induction items with
  | nil => exact pure _
  | cons head tail ih =>
      rw [List.mapM_cons]
      exact (each head (by simp)).bind fun _ => (ih fun item member => each item (by simp [member])).bind fun _ => pure _

end Keeps

end Steps

theorem Problem.id_injective {q q' : Problem} (same : q.id = q'.id) : q = q' := by
  cases q <;> cases q' <;> first | rfl | exact absurd same (by decide)

theorem Problem.id_ne (q : Problem) {id : String} (other : id ∉ ["constprop", "livevar"]) : q.id ≠ id := by
  rintro rfl
  cases q <;> exact other (by decide)

theorem Problem.of_solve {q : Problem} {g : Cfg} {b : Body} {strategy : Strategy} {limit : Option Int} {s : Solved}
    {t : Nat} (settled : q.solve g b strategy limit = .settled s t) : s.problem = q ∧ s.strategy = strategy := by
  cases q with
  | constants =>
      rw [solve] at settled
      cases ran : Propagation.analysis.solve g b strategy limit <;> rw [ran] at settled <;> cases settled
      obtain ⟨facts, rfl, -⟩ := Analysis.solve_settled_iff.mp ran
      exact ⟨rfl, rfl⟩
  | liveness =>
      rw [solve] at settled
      cases ran : Liveness.analysis.solve g b strategy limit <;> rw [ran] at settled <;> cases settled
      obtain ⟨facts, rfl, -⟩ := Analysis.solve_settled_iff.mp ran
      exact ⟨rfl, rfl⟩

/-! ## What is kept with bodies -/

def Ledger := Problem → MethodRef → Option Config

namespace Ledger

def blank : Ledger := fun _ _ => none

def enter (l : Ledger) (q : Problem) (m : MethodRef) (c : Config) : Ledger :=
  fun q' m' => if m' = m ∧ q' = q then some c else l q' m'

def fill (l : Ledger) (q : Problem) (m : MethodRef) : Ledger := l.enter q m ((l q m).getD (.plain q.id))

theorem enter_self (l : Ledger) (q : Problem) (m : MethodRef) (c : Config) : l.enter q m c q m = some c := by simp [enter]

theorem enter_of_ne {l : Ledger} {q q' : Problem} {m m' : MethodRef} {c : Config} (other : m' = m → q' ≠ q) :
    l.enter q m c q' m' = l q' m' :=
  if_neg fun same => other same.1 same.2

theorem fill_of_entered {l : Ledger} {q : Problem} {m : MethodRef} {c : Config} (entry : l q m = some c) :
    l.fill q m = l := by
  funext q' m'
  by_cases same : m' = m ∧ q' = q
  · obtain ⟨rfl, rfl⟩ := same
    rw [fill, entry, Option.getD_some, enter_self]
  · exact if_neg same

end Ledger

namespace Workspace

def result? (w : Workspace) (m : MethodRef) (id : String) : Option Stored := (w.stores.getD m OrderedMap.empty).get? id

def Yields (w : Workspace) (q : Problem) (c : Config) (m : MethodRef) (s : Solved) : Prop :=
  ∃ g b t, w.kept? m = some g ∧ w.program.body? g.method = some b ∧
    q.solve g b c.strategy (Session.limitOf c) = .settled s t

/-- The solution kept with the body of a method has been computed under a configuration. -/
def Computed (w : Workspace) (q : Problem) (c : Config) (m : MethodRef) : Prop :=
  ∃ k s, w.result? m q.id = some (.solved k) ∧ w.solutions[k]? = some s ∧ w.Yields q c m s

def Numbered (w : Workspace) : Prop := ∀ m g, w.kept? m = some g → w.graphs[g.id]? = some g

structure Matches (w : Workspace) (ledger : Ledger) : Prop where
  numbered : w.Numbered
  blank : ∀ q m, ledger q m = none → w.result? m q.id = none
  entered : ∀ q m c, ledger q m = some c → w.Computed q c m

structure Alike (w w' : Workspace) : Prop where
  program : w'.program = w.program
  registry : w'.registry = w.registry
  callGraphs : w'.callGraphs = w.callGraphs

/-- Nothing is changed but that more graphs, solutions and results of other kinds are kept. -/
structure Grows (w w' : Workspace) : Prop extends Alike w w' where
  kept : ∀ m g, w.kept? m = some g → w'.kept? m = some g
  numbered : w.Numbered → w'.Numbered
  solutions : w.solutions <+: w'.solutions
  results : ∀ (q : Problem) m, w'.result? m q.id = w.result? m q.id

variable {w w' w'' : Workspace} {q : Problem} {c : Config} {m : MethodRef} {s : Solved} {ledger : Ledger}

theorem Alike.refl (w : Workspace) : w.Alike w := ⟨rfl, rfl, rfl⟩

theorem Alike.trans (first : w.Alike w') (second : w'.Alike w'') : w.Alike w'' :=
  ⟨second.program.trans first.program, second.registry.trans first.registry, second.callGraphs.trans first.callGraphs⟩

theorem Grows.refl (w : Workspace) : w.Grows w := ⟨.refl w, fun _ _ => id, id, List.prefix_refl _, fun _ _ => rfl⟩

theorem Grows.trans (first : w.Grows w') (second : w'.Grows w'') : w.Grows w'' where
  toAlike := first.toAlike.trans second.toAlike
  kept m g before := second.kept m g (first.kept m g before)
  numbered before := second.numbered (first.numbered before)
  solutions := first.solutions.trans second.solutions
  results q m := (second.results q m).trans (first.results q m)

theorem Yields.grow (yields : w.Yields q c m s) (grows : w.Grows w') : w'.Yields q c m s := by
  obtain ⟨g, b, t, kept, body, settled⟩ := yields
  exact ⟨g, b, t, grows.kept m g kept, grows.program ▸ body, settled⟩

theorem Computed.grow (computed : w.Computed q c m) (grows : w.Grows w') : w'.Computed q c m := by
  obtain ⟨k, s, stored, found, yields⟩ := computed
  obtain ⟨bound, -⟩ := List.getElem?_eq_some_iff.mp found
  obtain ⟨more, longer⟩ := grows.solutions
  refine ⟨k, s, (grows.results q m).trans stored, ?_, yields.grow grows⟩
  rw [← longer, List.getElem?_append_left bound, found]

theorem Matches.grow (agrees : w.Matches ledger) (grows : w.Grows w') : w'.Matches ledger where
  numbered := grows.numbered agrees.numbered
  blank q m nothing := (grows.results q m).trans (agrees.blank q m nothing)
  entered q m c entry := (agrees.entered q m c entry).grow grows

theorem matches_blank (fresh : ∀ m id, w.result? m id = none) : w.Matches .blank := by
  refine ⟨fun m g kept => ?_, fun q m _ => fresh m q.id, fun q m c entry => by cases entry⟩
  obtain ⟨id, stored, -⟩ := kept?_eq_some_iff.mp kept
  cases (fresh m "cfg").symm.trans stored

/-! ## Storing -/

def storing (w : Workspace) (m : MethodRef) (id : String) (r : Stored) : Workspace :=
  { w with stores := w.stores.insert m ((w.stores.getD m OrderedMap.empty).insert id r) }

theorem result?_storing_self {id : String} {r : Stored} : (w.storing m id r).result? m id = some r := by
  simp [result?, storing, OrderedMap.getD]

theorem result?_storing_of_ne {m' : MethodRef} {id id' : String} {r : Stored} (other : m' = m → id' ≠ id) :
    (w.storing m id r).result? m' id' = w.result? m' id' := by
  by_cases same : m' = m
  · subst same
    simp [result?, storing, OrderedMap.getD, Ne.symm (other rfl)]
  · simp [result?, storing, OrderedMap.getD, Ne.symm same]

theorem kept?_storing {m' : MethodRef} {id : String} {r : Stored} (other : m' = m → id ≠ "cfg") :
    (w.storing m id r).kept? m' = w.kept? m' := by
  have same : (w.storing m id r).stored? m' = w.stored? m' := result?_storing_of_ne fun equal => (other equal).symm
  rw [kept?, kept?, same]
  rfl

theorem grows_storing {id : String} {r : Stored} (graphs : id ≠ "cfg") (problems : ∀ q : Problem, q.id ≠ id) :
    w.Grows (w.storing m id r) where
  program := rfl
  registry := rfl
  callGraphs := rfl
  kept _ _ before := (kept?_storing fun _ => graphs).trans before
  numbered before m' g kept := before m' g ((kept?_storing fun _ => graphs).symm.trans kept)
  solutions := List.prefix_refl _
  results q _ := result?_storing_of_ne fun _ => problems q

theorem grows_storing_graph {g : Cfg} (kept : w.kept? m = some g) (own : w.graphs[g.id]? = some g) :
    w.Grows (w.storing m "cfg" (.graph g.id)) := by
  have all (m' : MethodRef) : (w.storing m "cfg" (.graph g.id)).kept? m' = w.kept? m' := by
    by_cases same : m' = m
    · rw [same, kept]
      exact kept?_eq_some_iff.mpr ⟨g.id, result?_storing_self, own⟩
    · exact kept?_storing fun equal => absurd equal same
  exact {
    program := rfl
    registry := rfl
    callGraphs := rfl
    kept := fun m' g' before => (all m').trans before
    numbered := fun before m' g' kept => before m' g' ((all m').symm.trans kept)
    solutions := List.prefix_refl _
    results := fun q m' => result?_storing_of_ne fun _ => q.id_ne (by decide) }

theorem grows_keeping {g : Cfg} (nothing : w.kept? m = none) (number : g.id = w.graphs.length) :
    w.Grows (w.keeping m g) where
  program := rfl
  registry := rfl
  callGraphs := rfl
  kept := (keeps_keeping nothing).kept
  numbered before m' g' found := by
    by_cases same : m' = m
    · rw [same, kept?_keeping_self number] at found
      exact Option.some.inj found ▸ getElem?_keeping_self number
    · obtain ⟨id, stored, here⟩ := kept?_eq_some_iff.mp found
      rw [stored?_keeping_of_ne same] at stored
      by_cases bound : id < w.graphs.length
      · rw [keeping, List.getElem?_append_left bound] at here
        exact getElem?_keeping (before m' g' (kept?_eq_some_iff.mpr ⟨id, stored, here⟩))
      · -- a number beyond all graphs comes to be that of the new one
        have last : id = w.graphs.length := by
          have := (List.getElem?_eq_some_iff.mp here).1
          simp only [keeping, List.length_append, List.length_singleton] at this
          omega
        rw [last, ← number, getElem?_keeping_self number] at here
        exact Option.some.inj here ▸ getElem?_keeping_self number
  solutions := List.prefix_refl _
  results q _ := result?_storing_of_ne fun _ => q.id_ne (by decide)

def recording (w : Workspace) (q : Problem) (m : MethodRef) (s : Solved) : Workspace :=
  storing { w with solutions := w.solutions ++ [s] } m q.id (.solved w.solutions.length)

theorem alike_recording : w.Alike (w.recording q m s) := ⟨rfl, rfl, rfl⟩

theorem Matches.record (agrees : w.Matches ledger) (yields : w.Yields q c m s) :
    (w.recording q m s).Matches (ledger.enter q m c) := by
  have kept (m' : MethodRef) : (w.recording q m s).kept? m' = w.kept? m' := kept?_storing fun _ => q.id_ne (by decide)
  have results {q' : Problem} {m' : MethodRef} (other : m' = m → q' ≠ q) :
      (w.recording q m s).result? m' q'.id = w.result? m' q'.id :=
    result?_storing_of_ne fun same equal => other same (Problem.id_injective equal)
  have yields' {q' : Problem} {c' : Config} {m' : MethodRef} {s' : Solved} (before : w.Yields q' c' m' s') :
      (w.recording q m s).Yields q' c' m' s' := by
    obtain ⟨g, b, t, found, body, settled⟩ := before
    exact ⟨g, b, t, (kept m').trans found, body, settled⟩
  refine ⟨fun m' g found => agrees.numbered m' g ((kept m').symm.trans found), fun q' m' nothing => ?_,
    fun q' m' c' entered => ?_⟩
  · have other : m' = m → q' ≠ q := by
      rintro rfl rfl
      rw [Ledger.enter_self] at nothing
      cases nothing
    rw [Ledger.enter_of_ne other] at nothing
    exact (results other).trans (agrees.blank q' m' nothing)
  · by_cases same : m' = m ∧ q' = q
    · obtain ⟨rfl, rfl⟩ := same
      obtain rfl : c = c' := Option.some.inj ((ledger.enter_self ..).symm.trans entered)
      exact ⟨_, s, result?_storing_self, List.getElem?_concat_length, yields' yields⟩
    · have other : m' = m → q' ≠ q := fun equal equal' => same ⟨equal, equal'⟩
      rw [Ledger.enter_of_ne other] at entered
      obtain ⟨k, s', stored, found, before⟩ := agrees.entered q' m' c' entered
      refine ⟨k, s', (results other).trans stored, ?_, yields' before⟩
      obtain ⟨bound, -⟩ := List.getElem?_eq_some_iff.mp found
      exact (List.getElem?_append_left bound).trans found

end Workspace

namespace Session
open Steps (Keeps on_bind on_bind_ok)
open Workspace

variable {w w₀ w' : Workspace} {q : Problem} {c : Config} {m : MethodRef} {s : Solved} {ledger : Ledger}

theorem keeps_of_grows {α : Type} {step : Session α} (grows : ∀ w : Workspace, w.Grows (step.on w).2) : Keeps w₀.Grows step :=
  fun w before => before.trans (grows w)

theorem grows_of_ran {α : Type} {step : Session α} (keeps : ∀ w₀ : Workspace, Keeps w₀.Grows step)
    {outcome : Except Error α} (ran : step.on w = (outcome, w')) : w.Grows w' := by
  have grows := keeps w w (.refl w)
  rwa [ran] at grows

theorem note_keeps (level : Level) (source text : String) : Keeps w₀.Grows (note level source text) :=
  keeps_of_grows fun _ => ⟨⟨rfl, rfl, rfl⟩, fun _ _ => id, id, List.prefix_refl _, fun _ _ => rfl⟩

theorem bodyOf_keeps : Keeps w₀.Grows (bodyOf m) := Keeps.get.bind fun _ => Keeps.lift _

theorem on_buildGraph_cases (w : Workspace) (m : MethodRef) : (∃ e, (buildGraph m).on w = (.error e, w)) ∨
    ∃ g : Cfg, g.id = w.graphs.length ∧ (buildGraph m).on w = (.ok g, { w with
      graphs := w.graphs ++ [g], log := w.log ++ [⟨.debug, "ctrlflow_graph", g.described⟩] }) := by
  cases body : w.program.body? m with
  | none =>
      refine .inl ⟨.noBody m, ?_⟩
      simp [buildGraph, bodyOf, on_bind, Program.body, body]
  | some b =>
      cases built : Cfg.build w.graphs.length b with
      | ok g =>
          have number : g.id = w.graphs.length := by
            obtain ⟨-, rfl⟩ := Cfg.build_ok_iff.mp built
            rfl
          exact .inr ⟨g, number, on_buildGraph body built⟩
      | error e =>
          cases e <;> exact .inl ⟨_, by simp [buildGraph, bodyOf, on_bind, Program.body, body, built]; rfl⟩

inductive Asked (w : Workspace) (m : MethodRef) : Except Error (Except Datum Cfg) × Workspace → Prop where
  | failed (e : Error) : Asked w m (.error e, w)
  | datum (d : Datum) : Asked w m (.ok (.error d), w)
  | kept {g : Cfg} : w.kept? m = some g → Asked w m (.ok (.ok g), w)
  | built {g : Cfg} : w.kept? m = none → g.id = w.graphs.length → Asked w m (.ok (.ok g), w.keeping m g)

theorem asked_keptGraph (w : Workspace) (m : MethodRef) : Asked w m ((keptGraph m).on w) := by
  cases kept : w.kept? m with
  | some g =>
      rw [on_keptGraph_of_kept kept]
      exact .kept kept
  | none =>
      have fresh : Asked w m ((do
          let g ← buildGraph m
          store m "cfg" (.graph g.id)
          return .ok g : Session (Except Datum Cfg)).on w) := by
        rw [on_bind]
        rcases on_buildGraph_cases w m with ⟨e, failed⟩ | ⟨g, number, built⟩
        · rw [failed]
          exact .failed e
        · rw [built]
          exact .built kept number
      rw [keptGraph, on_bind, show (storeOf m).on w = (.ok (w.stores.getD m OrderedMap.empty), w) from rfl]
      simp only [show (w.stores.getD m OrderedMap.empty).get? "cfg" = w.stored? m from rfl]
      split
      · next id stored =>
          have missing : w.graphs[id]? = none := by simpa [kept?, stored] using kept
          rw [on_bind, Steps.on_get]
          simp only [missing]
          exact fresh
      · exact fresh
      · exact .datum _
      · exact fresh

theorem Asked.grows {ran : Except Error (Except Datum Cfg) × Workspace} (asked : Asked w m ran) : w.Grows ran.2 := by
  cases asked with
  | built nothing number => exact grows_keeping nothing number
  | _ => exact .refl w

theorem keptGraph_keeps : Keeps w₀.Grows (keptGraph m) := keeps_of_grows fun w => (asked_keptGraph w m).grows

theorem graphOf_keeps : Keeps w₀.Grows (graphOf m) :=
  keptGraph_keeps.bind fun g => by cases g; exacts [Keeps.throw _, Keeps.pure _]

theorem kept?_of_graphOf {g : Cfg} (asked : (graphOf m).on w = (.ok g, w')) : w'.kept? m = some g := by
  obtain ⟨given, between, kept, proper⟩ := on_bind_ok.mp asked
  cases given with
  | error d => cases proper
  | ok g =>
      cases proper
      have outcome := asked_keptGraph w m
      rw [kept] at outcome
      cases outcome with
      | kept known => exact known
      | built _ number => exact kept?_keeping_self number

theorem settled_keeps {α : Type} {id : String} {limit : Option Int} {stuck : Node → Session Error}
    {outcome : Outcome Node α} (each : ∀ n, Keeps w₀.Grows (stuck n)) : Keeps w₀.Grows (settled id limit stuck outcome) := by
  cases outcome with
  | settled => exact Keeps.pure _
  | stuck n => exact (each n).bind fun _ => Keeps.throw _
  | exhausted | endless => exact Keeps.throw _

theorem stuckIn_keeps {g : Cfg} {n : Node} : Keeps w₀.Grows (stuckIn g n) := Keeps.get.bind fun _ => Keeps.pure _

theorem solve_keeps {g : Cfg} {strategy : Strategy} {limit : Option Int} : Keeps w₀.Grows (solve q g strategy limit) :=
  bodyOf_keeps.bind fun _ => (settled_keeps fun _ => stuckIn_keeps).bind fun _ =>
    (note_keeps _ _ _).bind fun _ => Keeps.pure _

theorem solveAs_keeps : Keeps w₀.Grows (solveAs q c m) := graphOf_keeps.bind fun _ => solve_keeps

theorem body?_of_bodyOf {b : Body} (asked : (bodyOf m).on w = (.ok b, w')) : w.program.body? m = some b ∧ w' = w := by
  cases found : w.program.body? m <;> simp_all [bodyOf, on_bind, Program.body]

theorem settled_ok {α : Type} {id : String} {limit : Option Int} {stuck : Node → Session Error}
    {outcome : Outcome Node α} {a : α} (ran : (settled id limit stuck outcome).on w = (.ok a, w')) :
    w' = w ∧ ∃ t, outcome = .settled a t := by
  cases outcome with
  | settled a t =>
      cases ran
      exact ⟨rfl, t, rfl⟩
  | stuck n =>
      obtain ⟨e, between, -, thrown⟩ := on_bind_ok.mp ran
      cases thrown
  | exhausted | endless => cases ran

theorem yields_of_solveAs (solved : (solveAs q c m).on w = (.ok s, w')) : w.Grows w' ∧ w'.Yields q c m s := by
  refine ⟨grows_of_ran (fun _ => solveAs_keeps) solved, ?_⟩
  obtain ⟨g, w₁, asked, solving⟩ := on_bind_ok.mp solved
  obtain ⟨b, w₂, body, settling⟩ := on_bind_ok.mp solving
  obtain ⟨found, rfl⟩ := body?_of_bodyOf body
  obtain ⟨s', w₃, settled, noted⟩ := on_bind_ok.mp settling
  obtain ⟨rfl, t, yields⟩ := settled_ok settled
  simp only [note, on_bind, Steps.on_modify, Steps.on_pure, Prod.mk.injEq, Except.ok.injEq] at noted
  obtain ⟨rfl, rfl⟩ := noted
  have kept := kept?_of_graphOf asked
  exact ⟨g, b, t, kept, found, yields⟩

def Writes {α : Type} (step : Session α) (write : Ledger → Ledger) : Prop :=
  ∀ ⦃w w' : Workspace⦄ ⦃a : α⦄ ⦃ledger : Ledger⦄, step.on w = (.ok a, w') → w.Matches ledger →
    w'.Matches (write ledger) ∧ w.Alike w'

namespace Writes
variable {α β : Type} {step : Session α} {next : α → Session β} {write write' both : Ledger → Ledger}

theorem of_keeps (keeps : ∀ w₀ : Workspace, Keeps w₀.Grows step) : Writes step id := by
  intro w w' a ledger ran agrees
  have grows := grows_of_ran keeps ran
  exact ⟨agrees.grow grows, grows.toAlike⟩

theorem bind (first : Writes step write) (second : ∀ a, Writes (next a) write')
    (whole : ∀ ledger, both ledger = write' (write ledger)) : Writes (step >>= next) both := by
  intro w w' b ledger ran agrees
  obtain ⟨a, between, ran, ran'⟩ := on_bind_ok.mp ran
  obtain ⟨agrees', alike⟩ := first ran agrees
  obtain ⟨agrees'', alike'⟩ := second a ran' agrees'
  exact ⟨whole ledger ▸ agrees'', alike.trans alike'⟩

theorem after (quiet : ∀ w₀ : Workspace, Keeps w₀.Grows step) (rest : ∀ a, Writes (next a) write) :
    Writes (step >>= next) write :=
  (of_keeps quiet).bind rest fun _ => rfl

end Writes

theorem record_writes : Writes (do store m q.id (.solved (← keep (← solveAs q c m)))) fun ledger => ledger.enter q m c := by
  intro w w' a ledger ran agrees
  obtain ⟨s, between, solved, kept⟩ := on_bind_ok.mp ran
  obtain ⟨grows, yields⟩ := yields_of_solveAs solved
  cases kept
  exact ⟨(agrees.grow grows).record yields, grows.toAlike.trans alike_recording⟩

theorem on_solutionOf_of_kept {k : Nat} (stored : w.result? m q.id = some (.solved k)) (found : w.solutions[k]? = some s)
    (same : s.problem = q) : (solutionOf q m).on w = (.ok (some s), w) := by
  have known : (solution? k).on w = (.ok (some s), w) := by rw [← found]; rfl
  rw [solutionOf, on_bind, show (storeOf m).on w = (.ok (w.stores.getD m OrderedMap.empty), w) from rfl]
  simp only [show (w.stores.getD m OrderedMap.empty).get? q.id = w.result? m q.id from rfl, stored, on_bind, known, same,
    if_true]
  rfl

theorem solutionOf_writes : Writes (solutionOf q m) fun ledger => ledger.fill q m := by
  intro w w' a ledger ran agrees
  cases entry : ledger q m with
  | some c =>
      obtain ⟨k, s, stored, found, g, b, t, -, -, settled⟩ := agrees.entered q m c entry
      rw [on_solutionOf_of_kept stored found (Problem.of_solve settled).1] at ran
      cases ran
      show w.Matches (ledger.fill q m) ∧ w.Alike w
      rw [Ledger.fill_of_entered entry]
      exact ⟨agrees, .refl w⟩
  | none =>
      rw [solutionOf, on_bind, show (storeOf m).on w = (.ok (w.stores.getD m OrderedMap.empty), w) from rfl] at ran
      simp only [show (w.stores.getD m OrderedMap.empty).get? q.id = w.result? m q.id from rfl,
        agrees.blank q m entry] at ran
      show w'.Matches (ledger.fill q m) ∧ w.Alike w'
      rw [Ledger.fill, entry, Option.getD_none]
      obtain ⟨s, between, solved, kept⟩ := on_bind_ok.mp ran
      obtain ⟨grows, yields⟩ := yields_of_solveAs solved
      cases kept
      exact ⟨(agrees.grow grows).record yields, grows.toAlike.trans alike_recording⟩

theorem lostAt_keeps {n : Node} {live : Bool} : Keeps w₀.Grows (lostAt n m live) := by
  refine Keeps.get.bind fun w => ?_
  dsimp only
  split <;> exact Keeps.pure _

theorem deadCode_writes : Writes (deadCode m) fun ledger => (ledger.fill .constants m).fill .liveness m := by
  unfold deadCode
  refine .after (fun _ => graphOf_keeps) fun g => .after (fun _ => bodyOf_keeps) fun b => ?_
  refine solutionOf_writes.bind (fun constants => solutionOf_writes.bind (fun live => .of_keeps fun w₀ => ?_)
    fun _ => rfl) fun _ => rfl
  dsimp only
  split
  · exact Keeps.throw _
  · split
    · exact lostAt_keeps.bind fun _ => Keeps.throw _
    · exact (note_keeps _ _ _).bind fun _ => Keeps.pure _

end Session

end Dataflow
