import Dataflow.Proofs.Registry.Order
import Dataflow.Proofs.Workspace.Results

/-!
Options of plans. A plan runs each analysis under the configuration that it has for it, on the methods that are in scope by
then, and the scope changes at most once, when the call graph is found. So a solution that is kept has been computed as
the plan says, unless its method came into scope after the solver had run and before dead code was searched for
(`Overtaken`): then it has been computed without options (`computed_as_planned`).
-/

namespace Dataflow

/-! ## Writing to the ledger -/

def Config.entry (c : Config) (q : Problem) (old : Option Config) : Option Config :=
  if c.id = q.id then some c else if c.id = "deadcode" then some (old.getD (.plain q.id)) else old

namespace Ledger
variable {l : Ledger} {c : Config}

def within (l : Ledger) (ms : List MethodRef) (c : Config) : Ledger :=
  fun q m => if m ∈ ms then c.entry q (l q m) else l q m

def after (l : Ledger) (ms : List MethodRef) (configs : List Config) : Ledger := configs.foldl (fun l c => l.within ms c) l

theorem within_cons (m : MethodRef) (ms : List MethodRef) : l.within (m :: ms) c = (l.within [m] c).within ms c := by
  have again (q : Problem) (old : Option Config) : c.entry q (c.entry q old) = c.entry q old := by
    by_cases own : c.id = q.id
    · simp only [Config.entry, if_pos own]
    · simp only [Config.entry, if_neg own]
      by_cases dead : c.id = "deadcode" <;> simp [dead]
  funext q m'
  by_cases here : m' = m <;> by_cases later : m' ∈ ms <;> simp [within, here, later, again]

theorem within_of_other (ms : List MethodRef) (problems : ∀ q : Problem, c.id ≠ q.id) (other : c.id ≠ "deadcode") :
    l.within ms c = l := by
  funext q m
  simp [within, Config.entry, problems q, other]

theorem within_of_problem {q : Problem} (same : c.id = q.id) (m : MethodRef) : l.within [m] c = l.enter q m c := by
  have other : c.id ≠ "deadcode" := by rw [same]; exact q.id_ne (by decide)
  funext q' m'
  by_cases here : m' = m <;> by_cases equal : q' = q
  · simp [within, enter, Config.entry, here, equal, same]
  · have ne : q.id ≠ q'.id := fun ids => equal (Problem.id_injective ids.symm)
    simp [within, enter, Config.entry, here, equal, same, ne, same ▸ other]
  all_goals simp [within, enter, here]

theorem within_of_deadCode (same : c.id = "deadcode") (m : MethodRef) :
    l.within [m] c = (l.fill .constants m).fill .liveness m := by
  funext q m'
  have other : "deadcode" ≠ q.id := (q.id_ne (by decide)).symm
  by_cases here : m' = m
  · subst here
    cases q <;> simp [within, fill, enter, Config.entry, same, other]
  · simp [within, fill, enter, here]

end Ledger

theorem Registry.builtin_cases {id : String} {a : Registered} (listed : builtin.get? id = some a) :
    (id = "cfg" ∧ a = ⟨.method, [], .graph⟩) ∨ (id = Problem.liveness.id ∧ a = ⟨.method, ["cfg"], .liveness⟩) ∨
    (id = Problem.constants.id ∧ a = ⟨.method, ["cfg"], .constants⟩) ∨
    (id = "deadcode" ∧ a = ⟨.method, ["cfg", "constprop", "livevar"], .deadCode⟩) ∨
    (id = "cha" ∧ a = ⟨.program, [], .callGraph⟩) ∨
    (id = "inter-constprop" ∧ a = ⟨.program, ["cha"], .interprocedural⟩) := by
  have member := OrderedMap.get?_eq_some_iff.mp listed
  have entries : builtin.entries = [("cfg", ⟨.method, [], .graph⟩), ("livevar", ⟨.method, ["cfg"], .liveness⟩),
      ("constprop", ⟨.method, ["cfg"], .constants⟩),
      ("deadcode", ⟨.method, ["cfg", "constprop", "livevar"], .deadCode⟩),
      ("cha", ⟨.program, [], .callGraph⟩), ("inter-constprop", ⟨.program, ["cha"], .interprocedural⟩)] := rfl
  simp only [entries, List.mem_cons, Prod.mk.injEq, List.not_mem_nil, or_false] at member
  exact member

namespace Session
open Steps (Keeps on_bind on_bind_ok)
open Workspace (grows_storing grows_storing_graph)

variable {w w₀ w' : Workspace} {c : Config} {a : Registered} {m m' : Manager} {ledger : Ledger}

theorem graph_writes {method : MethodRef} : Writes (do store method "cfg" (.graph (← graphOf method).id)) id := by
  intro w w' _ ledger ran agrees
  obtain ⟨g, between, asked, stored⟩ := on_bind_ok.mp ran
  have grows := grows_of_ran (fun _ => graphOf_keeps) asked
  have agrees' := agrees.grow grows
  have kept := kept?_of_graphOf asked
  have more := grows_storing_graph kept (agrees'.numbered method g kept)
  cases stored
  exact ⟨agrees'.grow more, (grows.trans more).toAlike⟩

theorem runOnMethod_writes (listed : Registry.builtin.get? c.id = some a) (subject : a.subject = .method)
    (method : MethodRef) :
    Writes (do store method c.id (← runOnMethod c method a.task)) fun ledger => ledger.within [method] c := by
  rcases Registry.builtin_cases listed with
    ⟨id, rfl⟩ | ⟨id, rfl⟩ | ⟨id, rfl⟩ | ⟨id, rfl⟩ | ⟨-, rfl⟩ | ⟨-, rfl⟩
  · have others (q : Problem) : c.id ≠ q.id := by rw [id]; exact (q.id_ne (by decide)).symm
    simp only [Ledger.within_of_other _ others (by rw [id]; decide), runOnMethod, bind_assoc, pure_bind, id]
    exact graph_writes
  · simp only [Ledger.within_of_problem id, runOnMethod, bind_assoc, pure_bind, id]
    exact record_writes
  · simp only [Ledger.within_of_problem id, runOnMethod, bind_assoc, pure_bind, id]
    exact record_writes
  · simp only [Ledger.within_of_deadCode id, runOnMethod, bind_assoc, pure_bind, id]
    exact deadCode_writes.bind (fun nodes => .of_keeps fun w₀ => keeps_of_grows fun w =>
      grows_storing (by decide) fun q => q.id_ne (by decide)) fun _ => rfl
  · cases subject
  · cases subject

theorem forM_writes (listed : Registry.builtin.get? c.id = some a) (subject : a.subject = .method)
    (methods : List MethodRef) :
    Writes (methods.forM fun method => do store method c.id (← runOnMethod c method a.task))
      fun ledger => ledger.within methods c := by
  induction methods with
  | nil =>
      have nothing (ledger : Ledger) : ledger.within [] c = ledger := by
        funext q m
        simp [Ledger.within]
      simp only [nothing]
      exact .of_keeps fun _ => Keeps.pure _
  | cons head tail ih =>
      exact (runOnMethod_writes listed subject head).bind (fun _ => ih) fun _ => Ledger.within_cons head tail

theorem callGraph_keeps {id : Nat} : Keeps w₀.Grows (callGraph id) := Keeps.get.bind fun _ => Keeps.pure _

theorem graphToJoin_keeps {method : MethodRef} : Keeps w₀.Grows (graphToJoin method) := by
  refine keptGraph_keeps.bind fun g => ?_
  cases g with
  | ok g => exact Keeps.pure _
  | error d =>
      show Keeps _ (if d.hasPlainMembers then _ else _)
      split
      · exact Keeps.pure _
      · exact Keeps.throw _

theorem join_keeps {id : Nat} : Keeps w₀.Grows (join id) := by
  refine callGraph_keeps.bind fun g => Keeps.get.bind fun w => ?_
  refine (Keeps.mapM fun method _ => graphToJoin_keeps).bind fun kept => ?_
  dsimp only
  split
  · exact Keeps.throw_bind _ _
  · exact Keeps.get.bind fun _ => (Keeps.lift _).bind fun _ => (note_keeps _ _ _).bind fun _ => Keeps.pure _

theorem solveJoined_keeps {j : Joined} {id : String} {direction : Direction} {limit : Option Int} :
    Keeps w₀.Grows (solveJoined j id direction limit) := by
  unfold solveJoined
  dsimp only
  split
  · exact Keeps.throw_bind _ _
  · refine Keeps.get.bind fun _ => callGraph_keeps.bind fun _ => ?_
    exact (settled_keeps fun _ => Keeps.get.bind fun _ => Keeps.pure _).bind fun _ =>
      (note_keeps _ _ _).bind fun _ => Keeps.pure _

theorem solveProgram_keeps {context : Context} {graph : Nat} {id : String} {direction : Direction} {limit : Option Int} :
    Keeps w₀.Grows (solveProgram context (some graph) id direction limit) :=
  (Keeps.pure graph).bind fun _ => join_keeps.bind fun _ => solveJoined_keeps

/-! ## Managers -/

theorem on_managed (m : Manager) (w : Workspace) : (managed m).on w = (match m.methods, m.results.get? "cha" with
    | some methods, _ => .ok methods
    | none, some (.callGraph id) => .ok ((w.callGraphs[id]?).getD CallGraph.empty).reachable.toList
    | none, none | none, some (.datum .null) => .ok ((m.context.map Context.entries).getD [])
    | none, some _ => .error (.wrongResult "cha"), w) := by
  unfold managed foundCallGraph?
  cases m.methods with
  | some methods => rfl
  | none =>
      rcases m.results.get? "cha" with _ | (id | s | d)
      · rfl
      · rfl
      · rfl
      · cases d <;> rfl

theorem on_managedBodies (m : Manager) (w : Workspace) :
    (managedBodies m).on w = (((managed m).on w).1.map (·.filter w.program.hasBody), w) := by
  obtain ⟨outcome, same⟩ : ∃ outcome, (managed m).on w = (outcome, w) := ⟨_, on_managed m w⟩
  rw [managedBodies, on_bind, same]
  cases outcome <;> rfl

end Session

structure Manager.Alike (m m' : Manager) : Prop where
  methods : m'.methods = m.methods
  context : m'.context = m.context
  calls : m'.results.get? "cha" = m.results.get? "cha"

theorem Manager.Alike.trans {m m' m'' : Manager} (first : m.Alike m') (second : m'.Alike m'') : m.Alike m'' :=
  ⟨second.methods.trans first.methods, second.context.trans first.context, second.calls.trans first.calls⟩

namespace Workspace
variable {w w' : Workspace} {m m' : Manager}

def scope (w : Workspace) (m : Manager) : List MethodRef := ((Session.managedBodies m).on w).1.toOption.getD []

theorem scope_of_alike (alike : w.Alike w') (managers : m.Alike m') : w'.scope m' = w.scope m := by
  rw [scope, scope, Session.on_managedBodies, Session.on_managedBodies, Session.on_managed, Session.on_managed,
    managers.methods, managers.context, managers.calls, alike.program, alike.callGraphs]

theorem scope_of_methods {methods : List MethodRef} (given : m.methods = some methods) :
    w.scope m = methods.filter w.program.hasBody := by
  rw [scope, Session.on_managedBodies, Session.on_managed, given]
  rfl

end Workspace

namespace Session
open Steps (Keeps on_bind on_bind_ok)

variable {w w₀ w' : Workspace} {c : Config} {a : Registered} {m m' : Manager} {ledger : Ledger}

theorem runConfig_of_method (found : w.registry.get? c.id = some a) (listed : Registry.builtin.get? c.id = some a)
    (subject : a.subject = .method) (agrees : w.Matches ledger) (ran : (runConfig m c).on w = (.ok m', w')) :
    m' = m ∧ w'.Matches (ledger.within (w.scope m) c) ∧ w.Alike w' := by
  rw [runConfig, on_bind, Steps.on_get] at ran
  simp only [on_bind_ok, Steps.on_lift, Registry.find, found, Prod.mk.injEq, Except.ok.injEq] at ran
  obtain ⟨_, _, ⟨rfl, rfl⟩, run⟩ := ran
  simp only [subject, on_bind_ok] at run
  obtain ⟨methods, w₁, managed, _, w₂, noted, _, w₃, looped, done⟩ := run
  have scope : w.scope m = methods := by rw [Workspace.scope, managed]; rfl
  obtain rfl : w = w₁ := by
    rw [on_managedBodies] at managed
    exact (Prod.mk.inj managed).2
  have grows := grows_of_ran (fun _ => note_keeps _ _ _) noted
  obtain ⟨agrees', alike⟩ := forM_writes listed subject methods looped (agrees.grow grows)
  cases done
  exact ⟨rfl, scope ▸ agrees', grows.toAlike.trans alike⟩

theorem on_runConfig_program (found : w.registry.get? c.id = some a) (subject : a.subject = .program)
    (ran : (runConfig m c).on w = (.ok m', w')) :
    ∃ context w₁ result, w.Grows w₁ ∧ (runOnProgram c m context a.task).on w₁ = (.ok result, w') ∧
      m' = { m with results := m.results.insert c.id result } := by
  rw [runConfig, on_bind, Steps.on_get] at ran
  simp only [on_bind_ok, Steps.on_lift, Registry.find, found, Prod.mk.injEq, Except.ok.injEq] at ran
  obtain ⟨_, _, ⟨rfl, rfl⟩, run⟩ := ran
  simp only [subject] at run
  split at run
  · cases run
  · next context given =>
      simp only [on_bind_ok] at run
      obtain ⟨_, w₁, noted, result, w₂, ran, done⟩ := run
      cases done
      exact ⟨context, w₁, result, grows_of_ran (fun _ => note_keeps _ _ _) noted, ran, rfl⟩

theorem built_ok {made : Except Error CallGraph} {id : Nat} (ran : (built made).on w = (.ok id, w')) :
    ∃ g w₁, w.Grows w₁ ∧ w' = { w₁ with callGraphs := w₁.callGraphs ++ [g] } := by
  obtain ⟨g, w₁, lifted, rest⟩ := on_bind_ok.mp ran
  obtain ⟨_, w₂, noted, kept⟩ := on_bind_ok.mp rest
  rw [Steps.on_lift] at lifted
  obtain rfl : w = w₁ := (Prod.mk.inj lifted).2
  cases kept
  exact ⟨g, w₂, grows_of_ran (fun _ => note_keeps _ _ _) noted, rfl⟩

theorem runConfig_of_callGraph (id : c.id = "cha") (found : w.registry.get? c.id = some ⟨.program, [], .callGraph⟩)
    (agrees : w.Matches ledger) (ran : (runConfig m c).on w = (.ok m', w')) :
    w'.Matches ledger ∧ w'.program = w.program ∧ w'.registry = w.registry ∧ m'.methods = m.methods ∧
      ∃ graph, m'.results.get? "cha" = some (.callGraph graph) := by
  obtain ⟨context, w₁, result, grows, run, rfl⟩ := on_runConfig_program found rfl ran
  obtain ⟨graph, w₂, asked, given⟩ := on_bind_ok.mp run
  obtain ⟨_, _, got, made⟩ := on_bind_ok.mp asked
  cases got
  obtain ⟨g, w₃, noted, rfl⟩ := built_ok made
  cases given
  have more := grows.trans noted
  have agrees' := agrees.grow more
  refine ⟨⟨agrees'.numbered, agrees'.blank, agrees'.entered⟩, more.program, more.registry, rfl, graph, ?_⟩
  simp [id]

theorem runConfig_writes (found : w.registry.get? c.id = some a) (listed : Registry.builtin.get? c.id = some a)
    (other : c.id ≠ "cha") (known : c.id = "inter-constprop" → ∃ graph, m.results.get? "cha" = some (.callGraph graph))
    (agrees : w.Matches ledger) (ran : (runConfig m c).on w = (.ok m', w')) :
    w'.Matches (ledger.within (w.scope m) c) ∧ w.Alike w' ∧ m.Alike m' := by
  have kinds : a.subject = .method ∨ (c.id = "inter-constprop" ∧ a = ⟨.program, ["cha"], .interprocedural⟩) := by
    rcases Registry.builtin_cases listed with ⟨-, rfl⟩ | ⟨-, rfl⟩ | ⟨-, rfl⟩ | ⟨-, rfl⟩ | ⟨id, -⟩ | last
    · exact .inl rfl
    · exact .inl rfl
    · exact .inl rfl
    · exact .inl rfl
    · exact absurd id other
    · exact .inr last
  rcases kinds with subject | ⟨id, rfl⟩
  · obtain ⟨rfl, agrees', alike⟩ := runConfig_of_method found listed subject agrees ran
    exact ⟨agrees', alike, rfl, rfl, rfl⟩
  · obtain ⟨graph, calls⟩ := known id
    obtain ⟨context, w₁, result, grows, run, rfl⟩ := on_runConfig_program found rfl ran
    have quiet (w₀ : Workspace) : Keeps w₀.Grows (runOnProgram c m context .interprocedural) := by
      simp only [runOnProgram, foundCallGraph?, calls, pure_bind]
      exact solveProgram_keeps.bind fun _ => Keeps.pure _
    have more := grows.trans (grows_of_ran quiet run)
    have others (q : Problem) : c.id ≠ q.id := by rw [id]; exact (q.id_ne (by decide)).symm
    rw [Ledger.within_of_other _ others (by rw [id]; decide)]
    exact ⟨agrees.grow more, more.toAlike, rfl, rfl, by simp [id]⟩

/-! ## Runs -/

theorem runConfigs_cons_ok {rest : List Config} {m'' : Manager} {w'' : Workspace} :
    (runConfigs m (c :: rest)).on w = (.ok (.ok (), m''), w'') ↔
      ∃ m' w', (runConfig m c).on w = (.ok m', w') ∧ (runConfigs m' rest).on w' = (.ok (.ok (), m''), w'') := by
  rw [runConfigs, on_bind, Steps.on_attempt]
  rcases (runConfig m c).on w with ⟨_ | m', w'⟩ <;> simp

theorem runConfigs_append_ok {first rest : List Config} {m'' : Manager} {w'' : Workspace} :
    (runConfigs m (first ++ rest)).on w = (.ok (.ok (), m''), w'') ↔
      ∃ m' w', (runConfigs m first).on w = (.ok (.ok (), m'), w') ∧
        (runConfigs m' rest).on w' = (.ok (.ok (), m''), w'') := by
  induction first generalizing m w with
  | nil => simp [runConfigs]
  | cons c first ih =>
      rw [List.cons_append, runConfigs_cons_ok]
      simp only [ih, runConfigs_cons_ok]
      grind

theorem runConfigs_writes {configs : List Config}
    (stock : ∀ id ∈ Registry.builtin.keys, w.registry.get? id = Registry.builtin.get? id)
    (listed : ∀ id ∈ configs.map Config.id, id ∈ Registry.builtin.keys) (others : "cha" ∉ configs.map Config.id)
    (known : "inter-constprop" ∈ configs.map Config.id → ∃ graph, m.results.get? "cha" = some (.callGraph graph))
    (agrees : w.Matches ledger) (ran : (runConfigs m configs).on w = (.ok (.ok (), m'), w')) :
    w'.Matches (ledger.after (w.scope m) configs) ∧ w.Alike w' ∧ m.Alike m' := by
  induction configs generalizing m w ledger with
  | nil =>
      cases ran
      exact ⟨agrees, .refl _, rfl, rfl, rfl⟩
  | cons c rest ih =>
      rw [List.map_cons, List.mem_cons, not_or] at others
      obtain ⟨m₁, w₁, first, later⟩ := runConfigs_cons_ok.mp ran
      have member := listed c.id List.mem_cons_self
      obtain ⟨a, found⟩ := OrderedMap.mem_keys_iff.mp member
      obtain ⟨agrees₁, alike, managers⟩ := runConfig_writes ((stock c.id member).trans found) found (Ne.symm others.1)
        (fun id => known (id ▸ List.mem_cons_self)) agrees first
      have known₁ (member : "inter-constprop" ∈ rest.map Config.id) :
          ∃ graph, m₁.results.get? "cha" = some (.callGraph graph) := by
        rw [managers.calls]
        exact known (List.mem_cons_of_mem _ member)
      obtain ⟨agrees', alike', managers'⟩ := ih (by rwa [alike.registry])
        (fun id member => listed id (List.mem_cons_of_mem _ member)) others.2 known₁ agrees₁ later
      rw [Workspace.scope_of_alike alike managers] at agrees'
      exact ⟨agrees', alike.trans alike', managers.trans managers'⟩

end Session

/-! ## What a run has written -/

theorem Ledger.after_apply {plan : Plan} {configs : List Config} (planned : ∀ c ∈ configs, c = plan.configFor c.id)
    (l : Ledger) (ms : List MethodRef) (q : Problem) (m : MethodRef) :
    l.after ms configs q m =
      if m ∈ ms then
        if q.id ∈ configs.map Config.id then some (plan.configFor q.id)
        else if "deadcode" ∈ configs.map Config.id then some ((l q m).getD (.plain q.id)) else l q m
      else l q m := by
  induction configs generalizing l with
  | nil => simp [after]
  | cons c rest ih =>
      rw [show l.after ms (c :: rest) = (l.within ms c).after ms rest from rfl, ih fun c member => planned c (List.mem_cons_of_mem _ member)]
      have own := planned c List.mem_cons_self
      by_cases here : m ∈ ms
      · simp only [here, if_true, List.map_cons, List.mem_cons, within, Config.entry]
        by_cases same : c.id = q.id
        · have entry : some c = some (plan.configFor q.id) := by rw [← same, ← own]
          simp [same, entry]
        · have other : q.id ≠ c.id := Ne.symm same
          simp only [same, other, if_false, false_or]
          by_cases dead : c.id = "deadcode"
          · simp only [dead, if_true, true_or, Option.getD_some, ite_self]
          · simp only [dead, Ne.symm dead, if_false, false_or]
      · simp [here, within]

theorem Registry.mem_builtin_of_order {r : Registry} {plan : Plan} {order : List Config}
    (stock : ∀ id ∈ builtin.keys, r.get? id = builtin.get? id) (listed : ∀ id ∈ plan.ids, id ∈ builtin.keys)
    (ordered : r.order plan = .ok order) : ∀ id ∈ order.map Config.id, id ∈ builtin.keys := by
  have closed : ∀ e ∈ builtin.entries, ∀ other ∈ e.2.requires, other ∈ builtin.keys := by decide
  intro id member
  obtain ⟨root, given, reaches⟩ := (mem_of_order ordered).mp member
  clear member
  induction reaches with
  | refl => exact listed root given
  | tail _ step ih =>
      obtain ⟨a, found, requires⟩ := step
      rw [stock _ ih] at found
      exact closed _ (OrderedMap.get?_eq_some_iff.mp found) _ requires

theorem Registry.Laid.mem_before {r : Registry} {plan : Plan} {order first rest : List Config}
    (laid : Laid r plan order) (split : order = first ++ rest) {id other : String} (requires : r.Requires id other)
    (member : id ∈ first.map Config.id) : other ∈ first.map Config.id := by
  obtain ⟨c, here, rfl⟩ := List.mem_map.mp member
  obtain ⟨l₁, l₂, rfl⟩ := List.append_of_mem here
  rw [List.append_assoc, List.cons_append] at split
  rw [List.map_append]
  exact List.mem_append_left _ (laid.before_of_requires split requires)

/-- A method comes into scope with the call graph, after a problem has been solved and before dead code is searched for. -/
structure Overtaken (w : Workspace) (m : Manager) (order : List Config) (q : Problem) (method : MethodRef) : Prop where
  unlisted : m.methods = none
  late : [q.id, "cha", "deadcode"].Sublist (order.map Config.id)
  new : method ∉ w.scope m

section Runs
variable {w w' : Workspace} {m m' : Manager} {plan : Plan} {order : List Config}

def Parts (order first rest : List Config) : Prop :=
  (order = first ∧ rest = [] ∧ "cha" ∉ first.map Config.id) ∨ ∃ c, c.id = "cha" ∧ order = first ++ c :: rest

theorem exists_ledger (stock : ∀ id ∈ Registry.builtin.keys, w.registry.get? id = Registry.builtin.get? id)
    (laid : Registry.Laid w.registry plan order) (listed : ∀ id ∈ order.map Config.id, id ∈ Registry.builtin.keys)
    (agrees : w.Matches .blank) (ran : (Session.runConfigs m order).on w = (.ok (.ok (), m'), w')) :
    ∃ first rest scope, Parts order first rest ∧ (m.methods ≠ none → scope = w.scope m) ∧
      w'.Matches ((Ledger.blank.after (w.scope m) first).after scope rest) := by
  have interprocedural : w.registry.Requires "inter-constprop" "cha" := by
    refine ⟨⟨.program, ["cha"], .interprocedural⟩, ?_, by simp⟩
    rw [stock _ (by decide)]
    rfl
  by_cases calls : "cha" ∈ order.map Config.id
  · -- the scope is one before the call graph is found, and one after that
    obtain ⟨c, member, id⟩ := List.mem_map.mp calls
    obtain ⟨first, rest, rfl⟩ := List.append_of_mem member
    obtain ⟨m₁, w₁, ran₁, ran⟩ := Session.runConfigs_append_ok.mp ran
    obtain ⟨m₂, w₂, ran₂, ran₃⟩ := Session.runConfigs_cons_ok.mp ran
    have distinct := laid.nodup
    rw [List.map_append, List.map_cons, id] at distinct
    rw [List.map_append, List.map_cons, id] at listed
    obtain ⟨-, tail, apart⟩ := List.nodup_append.mp distinct
    have absent : "cha" ∉ first.map Config.id := fun member => apart _ member _ List.mem_cons_self rfl
    obtain ⟨agrees₁, alike, managers⟩ := Session.runConfigs_writes stock
      (fun id member => listed id (List.mem_append_left _ member)) absent
      (fun member => absurd (laid.mem_before rfl interprocedural member) absent) agrees ran₁
    have found : w₁.registry.get? c.id = some ⟨.program, [], .callGraph⟩ := by
      rw [alike.registry, id, stock _ (by decide)]
      rfl
    obtain ⟨agrees₂, program, registry, methods, graph, known⟩ :=
      Session.runConfig_of_callGraph id found agrees₁ ran₂
    obtain ⟨agrees', -, -⟩ := Session.runConfigs_writes (by rwa [registry, alike.registry])
      (fun id member => listed id (List.mem_append_right _ (List.mem_cons_of_mem _ member)))
      (List.nodup_cons.mp tail).1 (fun _ => ⟨graph, known⟩) agrees₂ ran₃
    refine ⟨first, rest, w₂.scope m₂, .inr ⟨c, id, rfl⟩, fun given => ?_, agrees'⟩
    obtain ⟨given, same⟩ := Option.ne_none_iff_exists'.mp given
    rw [Workspace.scope_of_methods same, Workspace.scope_of_methods (methods.trans (managers.methods.trans same)),
      program, alike.program]
  · have known (member : "inter-constprop" ∈ order.map Config.id) :
        ∃ graph, m.results.get? "cha" = some (.callGraph graph) :=
      absurd (laid.mem_before (List.append_nil order).symm interprocedural member) calls
    exact ⟨order, [], w.scope m, .inl ⟨rfl, rfl, calls⟩, fun _ => rfl,
      (Session.runConfigs_writes stock listed calls known agrees ran).1⟩

section Parts
variable {first rest : List Config} {q : Problem} {method : MethodRef} {scope : List MethodRef} {c : Config}

theorem Parts.late_iff (parts : Parts order first rest) (distinct : (order.map Config.id).Nodup) :
    [q.id, "cha", "deadcode"].Sublist (order.map Config.id) ↔
      q.id ∈ first.map Config.id ∧ "deadcode" ∈ rest.map Config.id := by
  rcases parts with ⟨rfl, rfl, absent⟩ | ⟨c, id, rfl⟩
  · simp only [List.map_nil, List.not_mem_nil, and_false, iff_false]
    exact fun late => absent (late.subset (by simp))
  · rw [List.map_append, List.map_cons, id] at distinct ⊢
    exact Lists.sublist_three_iff distinct (q.id_ne (by decide))

theorem Parts.first_subset (parts : Parts order first rest) : first ⊆ order := by
  rcases parts with ⟨rfl, -⟩ | ⟨c, -, rfl⟩ <;> simp

theorem Parts.rest_subset (parts : Parts order first rest) : rest ⊆ order := by
  rcases parts with ⟨-, rfl, -⟩ | ⟨c, -, rfl⟩ <;> simp

theorem Parts.mem_first (parts : Parts order first rest) (laid : Registry.Laid w.registry plan order) {id other : String}
    (requires : w.registry.Requires id other) (member : id ∈ first.map Config.id) : other ∈ first.map Config.id := by
  rcases parts with ⟨rfl, -⟩ | ⟨c, -, rfl⟩
  · exact laid.mem_before (List.append_nil order).symm requires member
  · exact laid.mem_before rfl requires member

theorem Parts.not_mem_rest (parts : Parts order first rest) (distinct : (order.map Config.id).Nodup) {id : String}
    (member : id ∈ first.map Config.id) : id ∉ rest.map Config.id := by
  rcases parts with ⟨rfl, rfl, -⟩ | ⟨c, -, rfl⟩
  · exact List.not_mem_nil
  · rw [List.map_append, List.map_cons] at distinct
    exact fun later => (List.nodup_append.mp distinct).2.2 id member id (List.mem_cons_of_mem _ later) rfl

theorem Parts.mem_of_rest (parts : Parts order first rest) (laid : Registry.Laid w.registry plan order)
    (needs : w.registry.Requires "deadcode" q.id) (dead : "deadcode" ∈ rest.map Config.id)
    (missing : q.id ∉ rest.map Config.id) : q.id ∈ first.map Config.id := by
  have member := laid.mem_before (List.append_nil order).symm needs (List.map_subset _ parts.rest_subset dead)
  rcases parts with ⟨rfl, -⟩ | ⟨c, id, rfl⟩
  · exact member
  · have other : q.id ≠ "cha" := q.id_ne (by decide)
    simpa only [List.map_append, List.map_cons, List.mem_append, List.mem_cons, id, other, missing, or_false] using member

theorem Parts.entered (parts : Parts order first rest) (laid : Registry.Laid w.registry plan order)
    (needs : w.registry.Requires "deadcode" q.id) (fixed : m.methods ≠ none → scope = w.scope m)
    (entry : (Ledger.blank.after (w.scope m) first).after scope rest q method = some c) :
    (Overtaken w m order q method → c = .plain q.id) ∧
      (¬ Overtaken w m order q method → c = plan.configFor q.id) := by
  have late : Overtaken w m order q method ↔
      m.methods = none ∧ (q.id ∈ first.map Config.id ∧ "deadcode" ∈ rest.map Config.id) ∧ method ∉ w.scope m := by
    rw [← parts.late_iff laid.nodup]
    exact ⟨fun o => ⟨o.unlisted, o.late, o.new⟩, fun o => ⟨o.1, o.2.1, o.2.2⟩⟩
  have early : Ledger.blank.after (w.scope m) first q method =
      if method ∈ w.scope m ∧ q.id ∈ first.map Config.id then some (plan.configFor q.id) else none := by
    have before := parts.mem_first laid needs
    rw [Ledger.after_apply fun c member => laid.config_eq (parts.first_subset member)]
    grind [Ledger.blank]
  rw [Ledger.after_apply (fun c member => laid.config_eq (parts.rest_subset member)), early] at entry
  by_cases done : method ∈ w.scope m ∧ q.id ∈ first.map Config.id
  · -- what was entered before the scope changed is entered still
    have same : some (plan.configFor q.id) = some c := by simpa [done] using entry
    exact ⟨fun overtaken => absurd done.1 overtaken.new, fun _ => (Option.some.inj same).symm⟩
  rw [if_neg done] at entry
  by_cases here : method ∈ scope
  · -- nothing had been entered, so the solver or the search for dead code did so in the new scope
    rw [if_pos here] at entry
    by_cases solved : q.id ∈ rest.map Config.id
    · rw [if_pos solved] at entry
      exact ⟨fun overtaken => absurd solved (parts.not_mem_rest laid.nodup (late.mp overtaken).2.1.1),
        fun _ => (Option.some.inj entry).symm⟩
    · rw [if_neg solved] at entry
      by_cases dead : "deadcode" ∈ rest.map Config.id
      · rw [if_pos dead] at entry
        -- the search for dead code requires the solver, which has been run before the scope changed
        have before := parts.mem_of_rest laid needs dead solved
        have new : method ∉ w.scope m := fun old => done ⟨old, before⟩
        have unlisted : m.methods = none := by_contra fun given => new (fixed given ▸ here)
        exact ⟨fun _ => (Option.some.inj entry).symm, fun not => absurd (late.mpr ⟨unlisted, ⟨before, dead⟩, new⟩) not⟩
      · rw [if_neg dead] at entry
        cases entry
  · rw [if_neg here] at entry
    cases entry

end Parts

/-- Whatever plan over the analyses that are always there is run, by a manager with any context and list of methods and
on bodies without results: if the run succeeds, each solution that is then kept has been computed under the configuration
that the plan has for its analysis, or without options if the plan does not list it. The only exception are methods that
come into scope with the call graph, after the problem has been solved and before dead code is searched for: theirs have
been computed without options, whatever the plan says. -/
theorem computed_as_planned (stock : ∀ id ∈ Registry.builtin.keys, w.registry.get? id = Registry.builtin.get? id)
    (listed : ∀ id ∈ plan.ids, id ∈ Registry.builtin.keys) (fresh : ∀ method id, w.result? method id = none)
    (ran : (Session.runPlan m plan).on w = (.ok (.ok (), m'), w')) :
    ∃ order, w.registry.order plan = .ok order ∧ ∀ (q : Problem) method r, w'.result? method q.id = some r →
      (Overtaken w m order q method → w'.Computed q (.plain q.id) method) ∧
      (¬ Overtaken w m order q method → w'.Computed q (plan.configFor q.id) method) := by
  rw [Session.runPlan, Steps.on_bind, Steps.on_get] at ran
  cases ordered : w.registry.order plan with
  | error e =>
      simp only [ordered] at ran
      cases ran
  | ok order =>
      simp only [ordered] at ran
      have laid : Registry.Laid w.registry plan order := by
        have answers := Registry.order_answers w.registry plan
        rw [ordered] at answers
        exact answers.laid
      obtain ⟨first, rest, scope, parts, fixed, agrees'⟩ :=
        exists_ledger stock laid (Registry.mem_builtin_of_order stock listed ordered) (Workspace.matches_blank fresh) ran
      refine ⟨order, rfl, fun q method r kept => ?_⟩
      have needs : w.registry.Requires "deadcode" q.id := by
        refine ⟨⟨.method, ["cfg", "constprop", "livevar"], .deadCode⟩, ?_, by cases q <;> decide⟩
        rw [stock _ (by decide)]
        rfl
      cases entry : (Ledger.blank.after (w.scope m) first).after scope rest q method with
      | none =>
          rw [agrees'.blank q method entry] at kept
          cases kept
      | some c =>
          obtain ⟨plain, planned⟩ := parts.entered laid needs fixed entry
          have computed := agrees'.entered q method c entry
          exact ⟨fun overtaken => plain overtaken ▸ computed, fun punctual => planned punctual ▸ computed⟩

end Runs

namespace Latecomer

def first : MethodRef := ⟨⟨0, "Main"⟩, ⟨"first", [], .int⟩⟩

def second : MethodRef := ⟨⟨0, "Main"⟩, ⟨"second", [], .int⟩⟩

def caller : Body := ⟨first, none, [], [.invoke ⟨.static, second, [], none⟩ none, .ret none], []⟩

def callee : Body := ⟨second, none, [], [.ret none], []⟩

def workspace : Workspace :=
  { Workspace.empty with program := ⟨[⟨⟨0, "Main"⟩, none, [], false, false,
      [⟨first.sig, true, false, none, some caller⟩, ⟨second.sig, true, false, none, some callee⟩]⟩]⟩ }

def manager : Manager := ⟨some ⟨none, [first]⟩, none, OrderedMap.empty⟩

def plan : Plan :=
  ⟨[⟨"constprop", OrderedMap.ofList [("strategy", .text "iterative")]⟩, .plain "cha", .plain "deadcode"]⟩

def after : Workspace := ((Session.runPlan manager plan).on workspace).2

def strategyAt (w : Workspace) (m : MethodRef) : Option Strategy :=
  match w.result? m Problem.constants.id with
  | some (.solved k) => (w.solutions[k]?).map Solved.strategy
  | _ => none

theorem exists_of_strategyAt {w : Workspace} {m : MethodRef} {strategy : Strategy} (found : strategyAt w m = some strategy) :
    ∃ k s, w.result? m Problem.constants.id = some (.solved k) ∧ w.solutions[k]? = some s ∧ s.strategy = strategy := by
  unfold strategyAt at found
  split at found
  · next k stored =>
      obtain ⟨s, here, same⟩ := Option.map_eq_some_iff.mp found
      exact ⟨k, s, stored, here, same⟩
  · cases found

def seen (outcome : Except Error (Except Error Unit × Manager) × Workspace) : Bool × Option Strategy × Option Strategy :=
  (match outcome.1 with
    | .ok (.ok (), _) => true
    | _ => false, strategyAt outcome.2 first, strategyAt outcome.2 second)

def soon (q : Problem) (g : Cfg) (b : Body) (strategy : Strategy) (limit : Option Int) : Outcome Node Solved :=
  match q.solve g b strategy (some (limit.getD 20)) with
  | .settled s t => .settled s t
  | _ => q.solve g b strategy limit

theorem solve_eq_soon : Problem.solve = soon := by
  funext q g b strategy limit
  cases limit with
  | some k =>
      rw [soon, Option.getD_some]
      cases q.solve g b strategy (some k) <;> rfl
  | none =>
      rw [soon, Option.getD_none]
      split
      · next s t settled =>
          cases q with
          | constants | liveness =>
              obtain ⟨found, ran, rfl⟩ := Outcome.map_settled_iff.mp settled
              exact Outcome.map_settled_iff.mpr ⟨found, Analysis.solve_none_of_settled ran, rfl⟩
      · rfl

theorem on_runPlan {order : List Config} (ordered : workspace.registry.order plan = .ok order) :
    (Session.runPlan manager plan).on workspace = (Session.runConfigs manager order).on workspace := by
  rw [Session.runPlan, Steps.on_bind, Steps.on_get]
  simp only [ordered]

-- The run is evaluated once, for all that is said of it. Solving without limit does not evaluate, but what it is equal
-- to does.
theorem seen_outcome :
    seen ((Session.runPlan manager plan).on workspace) = (true, some .iterative, some .worklist) := by
  have ordered : workspace.registry.order plan = .ok [.plain "cfg", plan.configFor "constprop", .plain "cha",
      .plain "livevar", .plain "deadcode"] := rfl
  rw [on_runPlan ordered]
  simp only [Session.runConfigs]
  unfold Session.runConfig Session.runOnMethod Session.deadCode Session.solutionOf Session.solveAs Session.solve
  simp only [solve_eq_soon]
  decide +kernel

theorem plan_ran : ∃ m', (Session.runPlan manager plan).on workspace = (.ok (.ok (), m'), after) := by
  have succeeded := congrArg Prod.fst seen_outcome
  simp only [seen] at succeeded
  split at succeeded
  · next m' same => exact ⟨m', Prod.ext same rfl⟩
  · cases succeeded

theorem latecomer_computed : (∃ m', (Session.runPlan manager plan).on workspace = (.ok (.ok (), m'), after)) ∧
    (plan.configFor "constprop").strategy = .iterative ∧
    after.Computed .constants (plan.configFor "constprop") first ∧ after.Computed .constants (.plain "constprop") second := by
  obtain ⟨m', ran⟩ := plan_ran
  obtain ⟨order, ordered, each⟩ := computed_as_planned (fun _ _ => rfl) (by decide) (fun _ _ => rfl) ran
  have ids : (workspace.registry.order plan).map (List.map Config.id) =
      .ok ["cfg", "constprop", "cha", "livevar", "deadcode"] := rfl
  rw [ordered] at ids
  obtain ⟨k, s, stored, -⟩ := exists_of_strategyAt (congrArg (·.2.1) seen_outcome)
  obtain ⟨k', s', stored', -⟩ := exists_of_strategyAt (congrArg (·.2.2) seen_outcome)
  have punctual : ¬ Overtaken workspace manager order .constants first := fun overtaken => overtaken.new (by decide)
  have overtaken : Overtaken workspace manager order .constants second :=
    ⟨rfl, by rw [Except.ok.inj ids]; decide, by decide⟩
  exact ⟨⟨m', ran⟩, by decide, (each .constants first _ stored).2 punctual, (each .constants second _ stored').1 overtaken⟩

/-- A plan that lists options for an analysis succeeds, and a solution of that analysis is kept that has been computed
without them. -/
theorem latecomer_defaulted : (∃ m', (Session.runPlan manager plan).on workspace = (.ok (.ok (), m'), after)) ∧
    "constprop" ∈ plan.ids ∧ (plan.configFor "constprop").strategy = .iterative ∧
    (∃ k s, after.result? second "constprop" = some (.solved k) ∧ after.solutions[k]? = some s ∧ s.strategy = .worklist) ∧
    ¬ after.Computed .constants (plan.configFor "constprop") second := by
  have planned : (plan.configFor "constprop").strategy = .iterative := by decide
  obtain ⟨k, s, stored, found, strategy⟩ := exists_of_strategyAt (congrArg (·.2.2) seen_outcome)
  refine ⟨plan_ran, by decide, planned, ⟨k, s, stored, found, strategy⟩, ?_⟩
  rintro ⟨k', s', stored', found', g, b, t, -, -, settled⟩
  obtain rfl : k = k' := by simpa using stored.symm.trans stored'
  obtain rfl : s = s' := Option.some.inj (found.symm.trans found')
  rw [(Problem.of_solve settled).2, planned] at strategy
  cases strategy

end Latecomer

end Dataflow
