import Dataflow.Config.Plan
import Dataflow.Proofs.Data.Lists
import Dataflow.Proofs.Data.Maps

/-!
Reading and writing plans. An entry is accepted exactly if it stands for a configuration that passes the checks
(`Config.ofDatum_ok_iff`), and a list of entries exactly if all are and no id comes twice (`Plan.ofEntries_ok_iff`).
What is written for a configuration stands for it, so every plan that was read is read back from what is written for
it (`Plan.survives_writing`).
-/

namespace Dataflow

structure Options.Valid (o : Options) : Prop where
  strategy : o.get? "strategy" = none ∨ o.get? "strategy" = some (.text "worklist") ∨
    o.get? "strategy" = some (.text "iterative")
  limit : o.get? "max_iterations" = none ∨ o.get? "max_iterations" = some .null ∨
    ∃ n : Int, 0 < n ∧ o.get? "max_iterations" = some (.int n)

theorem Strategy.ofText?_isSome_iff {name : String} :
    (Strategy.ofText? name).isSome ↔ name = "worklist" ∨ name = "iterative" := by
  unfold ofText?
  split <;> simp_all

namespace Options

theorem strategy?_isSome_iff {o : Options} :
    o.strategy?.isSome ↔ o.get? "strategy" = none ∨ o.get? "strategy" = some (.text "worklist") ∨
      o.get? "strategy" = some (.text "iterative") := by
  unfold strategy?
  split
  · next absent => simp [absent]
  · next name given => simp [given, Strategy.ofText?_isSome_iff]
  · next other notText given =>
      cases other <;> simp_all

theorem limit?_isSome_iff {o : Options} :
    o.limit?.isSome ↔ o.get? "max_iterations" = none ∨ o.get? "max_iterations" = some .null ∨
      ∃ n : Int, 0 < n ∧ o.get? "max_iterations" = some (.int n) := by
  unfold limit?
  split
  · next absent => simp [absent]
  · next given => simp [given]
  · next n given =>
      split <;> simp_all
  · next other notNull notInt given =>
      cases other <;> simp_all

theorem check_ok_iff {id : String} {o : Options} : o.check id = .ok () ↔ o.Valid := by
  have valid_iff : o.Valid ↔ o.strategy?.isSome ∧ o.limit?.isSome := by
    rw [strategy?_isSome_iff, limit?_isSome_iff]
    exact ⟨fun valid => ⟨valid.strategy, valid.limit⟩, fun ⟨strategy, limit⟩ => ⟨strategy, limit⟩⟩
  rw [valid_iff, check]
  cases o.strategy? <;> cases o.limit? <;>
    simp [bind, Except.bind, pure, Except.pure, throw, throwThe, MonadExceptOf.throw]

end Options

namespace Config

structure Checked (c : Config) : Prop where
  named : c.id ≠ ""
  valid : c.options.Valid

/-- What stands for a configuration in a plan: its id alone, or an object with the id and the options. Options that are
absent, null, zero or empty count as none. -/
inductive Entry : Datum → Config → Prop where
  | bare {id : String} : Entry (.text id) (.plain id)
  | plain {fields : List (String × Datum)} {id : String} :
      (∀ f ∈ fields, f.1 = "id" ∨ f.1 = "options") → Datum.field? "id" fields = some (.text id) →
      (∀ d, Datum.field? "options" fields = some d → d.isEmpty = true) → Entry (.object fields) (.plain id)
  | full {fields entries : List (String × Datum)} {id : String} :
      (∀ f ∈ fields, f.1 = "id" ∨ f.1 = "options") → Datum.field? "id" fields = some (.text id) →
      Datum.field? "options" fields = some (.object entries) → Entry (.object fields) ⟨id, OrderedMap.ofList entries⟩

variable {c : Config}

theorem make_ok_iff {d : Datum} {o : Options} :
    make d o = .ok c ↔ ∃ id, d = .text id ∧ c = ⟨id, o⟩ ∧ c.Checked := by
  constructor
  · intro made
    unfold make at made
    split at made
    · next name =>
        split at made
        · cases made
        · next named =>
            cases checked : o.check name with
            | error e =>
                rw [checked] at made
                cases made
            | ok u =>
                rw [checked] at made
                cases made
                exact ⟨name, rfl, rfl, named, Options.check_ok_iff.mp checked⟩
    · cases made
  · rintro ⟨id, rfl, rfl, named, valid⟩
    have checked : o.check id = .ok () := Options.check_ok_iff.mpr valid
    simp only [make, if_neg named, checked]
    rfl

section Fields
variable {fields entries : List (String × Datum)} {id : Datum}

theorem unknown_eq_nil_iff :
    ((fields.map Prod.fst).filter fun k => k ≠ "id" ∧ k ≠ "options") = [] ↔
      ∀ f ∈ fields, f.1 = "id" ∨ f.1 = "options" := by
  rw [List.filter_eq_nil_iff, List.forall_mem_map]
  exact forall₂_congr fun f _ => by simp [or_iff_not_imp_left]

theorem ofDatum_plain (known : ∀ f ∈ fields, f.1 = "id" ∨ f.1 = "options")
    (given : Datum.field? "id" fields = some id)
    (nothing : ∀ d, Datum.field? "options" fields = some d → d.isEmpty = true) :
    ofDatum (.object fields) = make id OrderedMap.empty := by
  have empty : ((Datum.field? "options" fields).getD .null).isEmpty = true := by
    cases there : Datum.field? "options" fields with
    | none => rfl
    | some d => exact nothing d there
  simp only [ofDatum, given, unknown_eq_nil_iff.mpr known, empty, ne_eq, not_true_eq_false, if_false, if_true]

theorem ofDatum_full (known : ∀ f ∈ fields, f.1 = "id" ∨ f.1 = "options")
    (given : Datum.field? "id" fields = some id) (there : Datum.field? "options" fields = some (.object entries)) :
    ofDatum (.object fields) = make id (OrderedMap.ofList entries) := by
  simp only [ofDatum, given, unknown_eq_nil_iff.mpr known, there, Option.getD_some, ne_eq, not_true_eq_false, if_false]
  cases entries <;> rfl

theorem exists_of_ofDatum (read : ofDatum (.object fields) = .ok c) :
    ∃ id, Datum.field? "id" fields = some id ∧ (∀ f ∈ fields, f.1 = "id" ∨ f.1 = "options") ∧
      ((∀ d, Datum.field? "options" fields = some d → d.isEmpty = true) ∨
        ∃ entries, Datum.field? "options" fields = some (.object entries)) := by
  simp only [ofDatum] at read
  split at read
  · cases read
  · next id given =>
      split at read
      · cases read
      · next known =>
          refine ⟨id, given, unknown_eq_nil_iff.mp (not_not.mp known), ?_⟩
          cases there : Datum.field? "options" fields with
          | none => exact .inl nofun
          | some d =>
              -- An object counts as options also if it is empty; anything else has to be empty.
              simp only [there, Option.getD_some] at read
              cases d with
              | object entries => exact .inr ⟨entries, rfl⟩
              | _ =>
                  split at read
                  · next empty => exact .inl fun e same => Option.some.inj same ▸ empty
                  · cases read

end Fields

theorem ofDatum_ok_iff {d : Datum} : ofDatum d = .ok c ↔ Entry d c ∧ c.Checked := by
  constructor
  · intro read
    cases d with
    | text name =>
        rw [ofDatum] at read
        obtain ⟨id, same, rfl, checked⟩ := make_ok_iff.mp read
        cases same
        exact ⟨.bare, checked⟩
    | object fields =>
        obtain ⟨id, given, known, nothing | ⟨entries, there⟩⟩ := exists_of_ofDatum read
        · rw [ofDatum_plain known given nothing] at read
          obtain ⟨name, rfl, rfl, checked⟩ := make_ok_iff.mp read
          exact ⟨.plain known given nothing, checked⟩
        · rw [ofDatum_full known given there] at read
          obtain ⟨name, rfl, rfl, checked⟩ := make_ok_iff.mp read
          exact ⟨.full known given there, checked⟩
    | _ => cases read
  · rintro ⟨entry, checked⟩
    cases entry with
    | bare => exact make_ok_iff.mpr ⟨_, rfl, rfl, checked⟩
    | plain known given nothing =>
        rw [ofDatum_plain known given nothing]
        exact make_ok_iff.mpr ⟨_, rfl, rfl, checked⟩
    | full known given there =>
        rw [ofDatum_full known given there]
        exact make_ok_iff.mpr ⟨_, rfl, rfl, checked⟩

theorem entry_toDatum (c : Config) : Entry c.toDatum c := by
  have entry : Entry c.toDatum ⟨c.id, OrderedMap.ofList c.options.entries⟩ := .full (by simp) rfl rfl
  rwa [OrderedMap.ofList_entries] at entry

end Config

namespace Plan
variable {p : Plan}

theorem repeated?_eq_none_iff {seen ids : List String} :
    repeated? seen ids = none ↔ ids.Nodup ∧ ∀ id ∈ ids, id ∉ seen := by
  induction ids generalizing seen with
  | nil => simp [repeated?]
  | cons id ids ih =>
      by_cases known : id ∈ seen
      · simp [repeated?, known]
      · simp only [repeated?, known, if_false, ih, List.nodup_cons, List.mem_cons]
        grind

theorem ofEntries_of_mapM {entries : List Datum} {configs : List Config}
    (read : entries.mapM Config.ofDatum = .ok configs) :
    ofEntries entries = .ok p ↔ p.configs = configs ∧ (configs.map Config.id).Nodup := by
  have once : (configs.map Config.id).Nodup ↔ repeated? [] (configs.map Config.id) = none := by
    simp [repeated?_eq_none_iff]
  rw [once]
  simp only [ofEntries, read, bind, Except.bind]
  cases p
  cases repeated? [] (configs.map Config.id) with
  | some id => simp [throw, throwThe, MonadExceptOf.throw]
  | none => simp [pure, Except.pure, eq_comm]

theorem ofEntries_ok_iff {entries : List Datum} :
    ofEntries entries = .ok p ↔
      List.Forall₂ Config.Entry entries p.configs ∧ (∀ c ∈ p.configs, c.Checked) ∧ p.ids.Nodup := by
  rw [← and_assoc, ← Lists.forall₂_and_right]
  simp only [← Config.ofDatum_ok_iff, ← Lists.mapM_ok_iff]
  constructor
  · intro read
    cases found : entries.mapM Config.ofDatum with
    | error e =>
        rw [ofEntries, found] at read
        cases read
    | ok configs =>
        obtain ⟨rfl, distinct⟩ := (ofEntries_of_mapM found).mp read
        exact ⟨rfl, distinct⟩
  · rintro ⟨found, distinct⟩
    exact (ofEntries_of_mapM found).mpr ⟨rfl, distinct⟩

theorem ofDatum_object_ok_iff {fields : List (String × Datum)} :
    ofDatum (.object fields) = .ok p ↔
      ∃ entries, Datum.field? "analyses" fields = some (.list entries) ∧ ofEntries entries = .ok p := by
  rw [ofDatum]
  cases there : Datum.field? "analyses" fields with
  | none => simp
  | some d => cases d <;> simp

theorem get?_eq_some_iff (distinct : p.ids.Nodup) {id : String} {c : Config} :
    p.get? id = some c ↔ c ∈ p.configs ∧ c.id = id := by
  constructor
  · intro found
    exact ⟨List.mem_of_find?_eq_some found, by simpa using List.find?_some found⟩
  · rintro ⟨member, rfl⟩
    cases found : p.get? c.id with
    | none => simpa using List.find?_eq_none.mp found c member
    | some d =>
        have same : d.id = c.id := by simpa using List.find?_some found
        rw [List.inj_on_of_nodup_map distinct (List.mem_of_find?_eq_some found) member same]

/-- A plan that was read from an object has the configurations that its entries stand for, in their order and all
checked, each under an id of its own. What is written for it is read again as the same plan. -/
theorem survives_writing {fields : List (String × Datum)} (read : ofDatum (.object fields) = .ok p) :
    (∃ entries, Datum.field? "analyses" fields = some (.list entries) ∧
      List.Forall₂ Config.Entry entries p.configs) ∧
    p.ids.Nodup ∧ (∀ c ∈ p.configs, c.Checked) ∧ (∀ id c, p.get? id = some c ↔ c ∈ p.configs ∧ c.id = id) ∧
    ∃ q, ofDatum p.toDatum = .ok q ∧ q = p ∧ q.toDatum = p.toDatum := by
  obtain ⟨entries, there, accepted⟩ := ofDatum_object_ok_iff.mp read
  obtain ⟨stand, checked, distinct⟩ := ofEntries_ok_iff.mp accepted
  have again : ofDatum p.toDatum = .ok p := by
    apply ofDatum_object_ok_iff.mpr
    refine ⟨p.configs.map Config.toDatum, rfl, ofEntries_ok_iff.mpr ⟨?_, checked, distinct⟩⟩
    -- What is written for each configuration stands for it.
    rw [List.forall₂_map_left_iff, List.forall₂_same]
    exact fun c _ => c.entry_toDatum
  exact ⟨⟨entries, there, stand⟩, distinct, checked, fun id c => get?_eq_some_iff distinct, p, again, rfl, rfl⟩

end Plan

namespace Itinerary

def options : Options :=
  OrderedMap.ofList [("max_iterations", .int 9), ("strategy", .text "iterative"), ("weights", .list [.float .nan])]

def plan : Plan := ⟨[.plain "cfg", .plain "livevar", ⟨"constprop", options⟩]⟩

def fields : List (String × Datum) :=
  [("title", .text "all"),
    ("analyses", .list [.text "cfg", .object [("options", .null), ("id", .text "livevar")],
      .object [("id", .text "constprop"), ("options", .object options.entries)]])]

theorem itinerary_survives : Plan.ofDatum (.object fields) = .ok plan ∧ plan.ids = ["cfg", "livevar", "constprop"] ∧
    plan.get? "constprop" = some ⟨"constprop", options⟩ ∧ Plan.ofDatum plan.toDatum = .ok plan := by
  have read : Plan.ofDatum (.object fields) = .ok plan := rfl
  obtain ⟨-, -, -, look, q, again, rfl, -⟩ := Plan.survives_writing read
  exact ⟨read, rfl, (look "constprop" _).mpr (by simp [plan]), again⟩

end Itinerary

end Dataflow
