import Dataflow.Registry
import Dataflow.Proofs.Data.Maps
import Mathlib.Data.List.Chain
import Mathlib.Data.List.Nodup
import Mathlib.Logic.Relation

/-!
The order in which the analyses of a plan are run. Orders are built up by putting an analysis behind all that it requires
(`Laid`), so that in each of them requirements come first, over any number of steps (`Laid.before`). A visit either lays
down what it has reached or names a fault: an analysis that is not registered, or a trail of requirements that comes back
to itself (`visit_answers`). Hence there is an order exactly if neither occurs in what the plan needs, and then it has each
needed analysis once (`order_exact`).
-/

namespace Dataflow

def Plan.configFor (p : Plan) (id : String) : Config := (p.get? id).getD (Config.plain id)

theorem Plan.configFor_id (p : Plan) (id : String) : (p.configFor id).id = id := by
  unfold configFor
  cases found : p.get? id with
  | none => rfl
  | some c => simpa using List.find?_some found

theorem Plan.configFor_mem {p : Plan} {id : String} (listed : id ∈ p.ids) : p.configFor id ∈ p.configs := by
  obtain ⟨c, member, rfl⟩ := List.mem_map.mp listed
  unfold configFor
  cases found : p.get? c.id with
  | none =>
      have other := List.find?_eq_none.mp found c member
      simp at other
  | some d => exact List.mem_of_find?_eq_some found

theorem Plan.configFor_of_not_mem {p : Plan} {id : String} (absent : id ∉ p.ids) :
    p.configFor id = Config.plain id := by
  have none : p.get? id = none := List.find?_eq_none.mpr fun c member same =>
    absent (List.mem_map.mpr ⟨c, member, by simpa using same⟩)
  rw [configFor, none, Option.getD_none]

namespace Registry
open Relation

variable {r : Registry} {plan : Plan}

def Requires (r : Registry) (id other : String) : Prop := ∃ a, r.get? id = some a ∧ other ∈ a.requires

def Needed (r : Registry) (plan : Plan) (id : String) : Prop := ∃ root ∈ plan.ids, ReflTransGen r.Requires root id

/-! ## Orders -/

/-- Orders in which each analysis is registered, and comes once and behind all that it requires. -/
inductive Laid (r : Registry) (plan : Plan) : List Config → Prop where
  | nil : Laid r plan []
  | snoc {l : List Config} {id : String} {a : Registered} : Laid r plan l → r.get? id = some a →
      (∀ other ∈ a.requires, other ∈ l.map Config.id) → id ∉ l.map Config.id → Laid r plan (l ++ [plan.configFor id])

namespace Laid
variable {l l₁ l₂ : List Config} {c : Config}

theorem nodup (laid : Laid r plan l) : (l.map Config.id).Nodup := by
  induction laid with
  | nil => exact List.nodup_nil
  | @snoc l id a _ _ _ absent ih =>
      rw [List.map_append, List.map_singleton, plan.configFor_id]
      exact List.concat_eq_append ▸ List.Nodup.concat absent ih

theorem config_eq (laid : Laid r plan l) (member : c ∈ l) : c = plan.configFor c.id := by
  induction laid with
  | nil => cases member
  | snoc _ _ _ _ ih =>
      rcases List.mem_append.mp member with before | last
      · exact ih before
      · rw [List.mem_singleton.mp last, plan.configFor_id]

theorem registered (laid : Laid r plan l) (member : c ∈ l) : ∃ a, r.get? c.id = some a := by
  induction laid with
  | nil => cases member
  | snoc _ found _ _ ih =>
      rcases List.mem_append.mp member with before | last
      · exact ih before
      · rw [List.mem_singleton.mp last, plan.configFor_id]
        exact ⟨_, found⟩

theorem before_of_requires (laid : Laid r plan l) (split : l = l₁ ++ c :: l₂) {other : String}
    (requires : r.Requires c.id other) : other ∈ l₁.map Config.id := by
  induction laid generalizing l₂ with
  | nil => exact absurd split (by simp)
  | @snoc l id a _ found all _ ih =>
      rcases List.eq_nil_or_concat l₂ with rfl | ⟨l₂, last, rfl⟩
      · obtain ⟨rfl, same⟩ := List.append_inj' split rfl
        obtain rfl := (List.cons.inj same).1
        obtain ⟨a', found', listed⟩ := requires
        rw [plan.configFor_id, found] at found'
        exact all other (Option.some.inj found' ▸ listed)
      · rw [List.concat_eq_append, ← List.cons_append, ← List.append_assoc] at split
        exact ih (List.append_inj' split rfl).1

theorem before (laid : Laid r plan l) (split : l = l₁ ++ c :: l₂) {other : String}
    (requires : TransGen r.Requires c.id other) : other ∈ l₁.map Config.id := by
  -- along the requirements, from the analysis itself: each next one stands before the last
  generalize start : c.id = id at requires
  induction requires using TransGen.head_induction_on generalizing c l₁ l₂ with
  | single step => exact laid.before_of_requires split (start ▸ step)
  | head step _ ih =>
      obtain ⟨d, member, same⟩ := List.mem_map.mp (laid.before_of_requires split (start ▸ step))
      obtain ⟨m₁, m₂, rfl⟩ := List.append_of_mem member
      have further : l = m₁ ++ d :: (m₂ ++ c :: l₂) := by simp [split]
      have earlier := ih further same
      rw [List.map_append]
      exact List.mem_append_left _ earlier

theorem lt_of_requires (laid : Laid r plan l) {i j : Nat} {c d : Config} (here : l[i]? = some c)
    (there : l[j]? = some d) (requires : TransGen r.Requires c.id d.id) : j < i := by
  obtain ⟨bound, rfl⟩ := List.getElem?_eq_some_iff.mp here
  obtain ⟨bound', rfl⟩ := List.getElem?_eq_some_iff.mp there
  have split : l = l.take i ++ l[i] :: l.drop (i + 1) := by simp
  obtain ⟨k, shorter, found⟩ := List.getElem_of_mem (laid.before split requires)
  simp only [List.length_map, List.length_take, List.getElem_map, List.getElem_take] at shorter found
  have left : k < (l.map Config.id).length := by simp; omega
  have right : j < (l.map Config.id).length := by simpa using bound'
  have same : (l.map Config.id)[k] = (l.map Config.id)[j] := by simpa using found
  have : k = j := laid.nodup.getElem_inj_iff.mp same
  omega

theorem acyclic (laid : Laid r plan l) (member : c ∈ l) : ¬ TransGen r.Requires c.id c.id := by
  intro cycle
  obtain ⟨i, bound, rfl⟩ := List.getElem_of_mem member
  have found : l[i]? = some l[i] := List.getElem?_eq_getElem bound
  exact Nat.lt_irrefl i (laid.lt_of_requires found found cycle)

end Laid

/-! ## Visits -/

/-- What visiting some analyses adds to an order. Those on the path that leads to them are still missing in it. -/
structure Visited (r : Registry) (plan : Plan) (path : List String) (ids : List String) (l l' : List Config) : Prop where
  laid : Laid r plan l'
  grown : l <+: l'
  awaited : ∀ id ∈ path, id ∉ l'.map Config.id
  reached : ∀ id ∈ l'.map Config.id, id ∈ l.map Config.id ∨ ∃ first ∈ ids, ReflTransGen r.Requires first id
  done : ∀ id ∈ ids, id ∈ l'.map Config.id

inductive Fault (r : Registry) (ids : List String) : Error → Prop where
  | unknown {first id : String} : first ∈ ids → ReflTransGen r.Requires first id → r.get? id = none →
      Fault r ids (.unknownAnalysis id)
  | cyclic {first id : String} {trail : List String} : first ∈ ids → ReflTransGen r.Requires first id → id ∈ trail →
      (trail ++ [id]).IsChain r.Requires → Fault r ids (.cyclicRequirement (trail ++ [id]))

theorem Fault.of_step {ids ids' : List String} {e : Error} (fault : Fault r ids e)
    (leads : ∀ id ∈ ids, ∃ first ∈ ids', ReflTransGen r.Requires first id) : Fault r ids' e := by
  cases fault with
  | unknown member reaches missing =>
      obtain ⟨first, listed, prior⟩ := leads _ member
      exact .unknown listed (prior.trans reaches) missing
  | cyclic member reaches back chain =>
      obtain ⟨first, listed, prior⟩ := leads _ member
      exact .cyclic listed (prior.trans reaches) back chain

def Answers (r : Registry) (plan : Plan) (path ids : List String) (l : List Config) :
    Except Error (List Config) → Prop
  | .ok l' => Visited r plan path ids l l'
  | .error e => Fault r ids e

theorem transGen_of_isChain {path : List String} {id p : String} (chain : (path ++ [id]).IsChain r.Requires)
    (member : p ∈ path) : TransGen r.Requires p id := by
  induction path generalizing p with
  | nil => cases member
  | cons head tail ih =>
      have rest : (tail ++ [id]).IsChain r.Requires := List.IsChain.of_cons chain
      rcases List.mem_cons.mp member with rfl | later
      · cases tail with
        | nil => exact .single (List.isChain_pair.mp chain)
        | cons next tail =>
            exact .head (List.isChain_cons_cons.mp chain).1 (ih rest List.mem_cons_self)
      · exact ih rest later

theorem foldlM_answers {path ids : List String} {l : List Config}
    {step : List Config → String → Except Error (List Config)}
    (each : ∀ id ∈ ids, ∀ l, Laid r plan l → (∀ p ∈ path, p ∉ l.map Config.id) → Answers r plan path [id] l (step l id))
    (laid : Laid r plan l) (free : ∀ p ∈ path, p ∉ l.map Config.id) : Answers r plan path ids l (ids.foldlM step l) := by
  induction ids generalizing l with
  | nil => exact ⟨laid, List.prefix_refl l, free, fun _ => .inl, by simp⟩
  | cons id ids ih =>
      have first := each id List.mem_cons_self l laid free
      rw [List.foldlM_cons]
      cases ran : step l id with
      | error e =>
          rw [ran] at first
          exact Fault.of_step first fun other member => ⟨other, by simp_all, .refl⟩
      | ok between =>
          rw [ran] at first
          have rest := ih (fun other member => each other (List.mem_cons_of_mem _ member)) first.laid first.awaited
          simp only [bind, Except.bind]
          cases finished : ids.foldlM step between with
          | error e =>
              rw [finished] at rest
              exact Fault.of_step rest fun other member => ⟨other, List.mem_cons_of_mem _ member, .refl⟩
          | ok l' =>
              rw [finished] at rest
              refine ⟨rest.laid, first.grown.trans rest.grown, rest.awaited, fun other member => ?_, fun other member => ?_⟩
              · rcases rest.reached other member with before | ⟨start, listed, reaches⟩
                · rcases first.reached other before with old | ⟨start, listed, reaches⟩
                  · exact .inl old
                  · exact .inr ⟨start, by simp_all, reaches⟩
                · exact .inr ⟨start, List.mem_cons_of_mem _ listed, reaches⟩
              · rcases List.mem_cons.mp member with rfl | later
                · exact (rest.grown.map Config.id).subset (first.done other (by simp))
                · exact rest.done other later

theorem Visited.lay {path : List String} {l l' : List Config} {id : String} {a : Registered}
    (inner : Visited r plan (path ++ [id]) a.requires l l') (found : r.get? id = some a) (fresh : id ∉ path) :
    Visited r plan path [id] l (l' ++ [plan.configFor id]) := by
  have ids : (l' ++ [plan.configFor id]).map Config.id = l'.map Config.id ++ [id] := by
    rw [List.map_append, List.map_singleton, plan.configFor_id]
  refine ⟨.snoc inner.laid found inner.done (inner.awaited id (by simp)), inner.grown.trans (List.prefix_append ..), ?_, ?_, ?_⟩
  · intro p member
    rw [ids, List.mem_append, List.mem_singleton, not_or]
    exact ⟨inner.awaited p (List.mem_append_left _ member), fun same => fresh (same ▸ member)⟩
  · intro other member
    rw [ids, List.mem_append, List.mem_singleton] at member
    rcases member with before | rfl
    · rcases inner.reached other before with old | ⟨start, listed, reaches⟩
      · exact .inl old
      · exact .inr ⟨id, List.mem_cons_self, .head ⟨a, found, listed⟩ reaches⟩
    · exact .inr ⟨other, List.mem_cons_self, .refl⟩
  · rw [ids]
    simp

/-- A visit of an analysis at the end of a path of requirements lays it down with all it requires, or names a fault. -/
theorem visit_answers {depth : Nat} {path : List String} {l : List Config} {id : String}
    (enough : r.size < depth + path.length) (simple : path.Nodup) (known : ∀ p ∈ path, p ∈ r.keys)
    (chain : (path ++ [id]).IsChain r.Requires) (laid : Laid r plan l) (free : ∀ p ∈ path, p ∉ l.map Config.id) :
    Answers r plan path [id] l (r.visit plan depth path l id) := by
  induction depth generalizing path l id with
  | zero =>
      -- a path of distinct registered analyses is no longer than the registry
      have short := simple.length_le_of_subset known
      rw [show r.keys.length = r.size from List.length_map ..] at short
      omega
  | succ depth ih =>
      rw [visit]
      split
      · next present => exact ⟨laid, List.prefix_refl l, free, fun _ => .inl, by simpa using present⟩
      next absent =>
      split
      · next back => exact .cyclic List.mem_cons_self .refl back chain
      next fresh =>
      cases found : r.get? id with
      | none =>
          rw [show r.find id = .error (.unknownAnalysis id) by rw [find, found]]
          exact .unknown List.mem_cons_self .refl found
      | some a =>
          rw [show r.find id = .ok a by rw [find, found]]
          simp only [bind, Except.bind]
          have longer : r.size < depth + (path ++ [id]).length := by
            simp only [List.length_append, List.length_singleton]
            omega
          have simple' : (path ++ [id]).Nodup := List.concat_eq_append ▸ List.Nodup.concat fresh simple
          have known' : ∀ p ∈ path ++ [id], p ∈ r.keys := by
            simpa [or_imp, forall_and, OrderedMap.mem_keys_iff, found] using known
          have free' : ∀ p ∈ path ++ [id], p ∉ l.map Config.id := by
            simpa [or_imp, forall_and] using And.intro free absent
          have inner : Answers r plan (path ++ [id]) a.requires l
              (a.requires.foldlM (r.visit plan depth (path ++ [id])) l) := by
            refine foldlM_answers (fun other listed l laid free => ?_) laid free'
            have extended : (path ++ [id] ++ [other]).IsChain r.Requires := by
              rw [List.append_assoc]
              exact List.isChain_append_cons_cons.mpr ⟨chain, ⟨a, found, listed⟩, List.isChain_singleton _⟩
            exact ih longer simple' known' extended laid free
          cases finished : a.requires.foldlM (r.visit plan depth (path ++ [id])) l with
          | error e =>
              rw [finished] at inner
              exact Fault.of_step inner fun other listed => ⟨id, List.mem_cons_self, .single ⟨a, found, listed⟩⟩
          | ok l' =>
              rw [finished] at inner
              exact Visited.lay inner found fresh

theorem order_answers (r : Registry) (plan : Plan) : Answers r plan [] plan.ids [] (r.order plan) :=
  foldlM_answers (fun id _ l laid free => visit_answers (by simp) List.nodup_nil (by simp)
    (List.isChain_singleton id) laid free) .nil (by simp)

theorem mem_of_order {l : List Config} (ordered : r.order plan = .ok l) {id : String} :
    id ∈ l.map Config.id ↔ r.Needed plan id := by
  have visited := order_answers r plan
  rw [ordered] at visited
  constructor
  · intro member
    rcases visited.reached id member with old | needed
    · cases old
    · exact needed
  · rintro ⟨root, listed, reaches⟩
    -- an order that has an analysis has what it requires
    induction reaches with
    | refl => exact visited.done root listed
    | tail _ step ih =>
        obtain ⟨c, member, rfl⟩ := List.mem_map.mp ih
        obtain ⟨l₁, l₂, rfl⟩ := List.append_of_mem member
        rw [List.map_append]
        exact List.mem_append_left _ (visited.laid.before rfl (.single step))

/-- A plan can be put in order exactly if all that it needs is registered and free of cycles; otherwise the error tells
one that is not registered, or a trail of requirements that runs into a cycle. An order has each needed analysis once,
behind all that it requires over any number of steps, and runs it as the plan says, or else without options. -/
theorem order_exact (r : Registry) (plan : Plan) :
    ((∃ l, r.order plan = .ok l) ↔
      ∀ id, r.Needed plan id → (∃ a, r.get? id = some a) ∧ ¬ TransGen r.Requires id id) ∧
    (∀ e, r.order plan = .error e →
      (∃ id, e = .unknownAnalysis id ∧ r.Needed plan id ∧ r.get? id = none) ∨
      ∃ trail id, e = .cyclicRequirement (trail ++ [id]) ∧ id ∈ trail ∧ (trail ++ [id]).IsChain r.Requires ∧
        r.Needed plan id ∧ TransGen r.Requires id id) ∧
    ∀ l, r.order plan = .ok l →
      (l.map Config.id).Nodup ∧ (∀ id, id ∈ l.map Config.id ↔ r.Needed plan id) ∧
      (∀ (i j : Nat) c d, l[i]? = some c → l[j]? = some d → TransGen r.Requires c.id d.id → j < i) ∧
      ∀ c ∈ l, (c.id ∈ plan.ids → c ∈ plan.configs) ∧ (c.id ∉ plan.ids → c = Config.plain c.id) := by
  have answers := order_answers r plan
  have faulty (e : Error) (failed : r.order plan = .error e) :
      (∃ id, e = .unknownAnalysis id ∧ r.Needed plan id ∧ r.get? id = none) ∨
      ∃ trail id, e = .cyclicRequirement (trail ++ [id]) ∧ id ∈ trail ∧ (trail ++ [id]).IsChain r.Requires ∧
        r.Needed plan id ∧ TransGen r.Requires id id := by
    rw [failed] at answers
    cases answers with
    | unknown listed reaches missing => exact .inl ⟨_, rfl, ⟨_, listed, reaches⟩, missing⟩
    | cyclic listed reaches back chain =>
        exact .inr ⟨_, _, rfl, back, chain, ⟨_, listed, reaches⟩, transGen_of_isChain chain back⟩
  refine ⟨⟨?_, fun sound => ?_⟩, faulty, fun l ordered => ?_⟩
  · rintro ⟨l, ordered⟩ id needed
    obtain ⟨c, member, rfl⟩ := List.mem_map.mp ((mem_of_order ordered).mpr needed)
    rw [ordered] at answers
    exact ⟨answers.laid.registered member, answers.laid.acyclic member⟩
  · cases ran : r.order plan with
    | ok l => exact ⟨l, rfl⟩
    | error e =>
        rcases faulty e ran with ⟨id, -, needed, missing⟩ | ⟨-, id, -, -, -, needed, cycle⟩
        · obtain ⟨a, found⟩ := (sound id needed).1
          rw [missing] at found
          cases found
        · exact absurd cycle (sound id needed).2
  · rw [ordered] at answers
    have laid : Laid r plan l := answers.laid
    refine ⟨laid.nodup, fun id => mem_of_order ordered, fun i j c d => laid.lt_of_requires, fun c member => ?_⟩
    refine ⟨fun listed => ?_, fun absent => ?_⟩
    · rw [laid.config_eq member]
      exact Plan.configFor_mem listed
    · rw [← Plan.configFor_of_not_mem absent]
      exact laid.config_eq member

end Registry

end Dataflow
