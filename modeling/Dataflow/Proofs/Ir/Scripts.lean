import Dataflow.Proofs.Ir.Drafts
import Mathlib.Data.List.Nodup

/-!
Scripts: what instructions have written, as one who gives them sees it. An instruction builds its operands, which may
fail, and then does at most one deed on the draft (`exec_deliberates`): it places a label, or it appends a statement whose
targets wait for labels. The lines of a script are the deeds that did not fail, and a draft follows its script through
any instructions, failed ones and attempts to finish among them (`Follows.run`).
-/

namespace Dataflow

/-! ## Targets of statements -/

namespace Stmt

def slots : Stmt → List Slot
  | .branch _ _ _ _ | .goto _ => [.target]
  | .switch _ cases _ => (List.range cases.length).map .case ++ [.otherwise]
  | .assign _ _ | .invoke _ _ | .ret _ | .nop _ => []

def target? (slot : Slot) : Stmt → Option Node
  | .branch _ _ _ target | .goto target => if slot = .target then target else none
  | .switch _ cases otherwise =>
      match slot with
      | .case k => cases[k]?.bind Prod.snd
      | .otherwise => otherwise
      | .target => none
  | .assign _ _ | .invoke _ _ | .ret _ | .nop _ => none

def blank : Stmt → Stmt
  | .branch op left right _ => .branch op left right none
  | .goto _ => .goto none
  | .switch v cases _ => .switch v (cases.map fun c => (c.1, none)) none
  | s => s

variable {s t : Stmt} {slot slot' : Slot} {node : Node}

@[simp] theorem slots_blank (s : Stmt) : s.blank.slots = s.slots := by
  cases s <;> simp [blank, slots]

@[simp] theorem blank_retarget (slot : Slot) (node : Node) (s : Stmt) : (s.retarget slot node).blank = s.blank := by
  cases s with
  | switch v cases otherwise =>
      cases slot with
      | case k =>
          simp only [retarget, blank, Stmt.switch.injEq, true_and, and_true]
          refine List.ext_getElem? fun j => ?_
          rw [List.getElem?_map, List.getElem?_map, List.getElem?_modify]
          by_cases here : k = j <;> cases cases[j]? <;> simp [here]
      | _ => rfl
  | branch | goto => cases slot <;> rfl
  | _ => rfl

theorem target?_retarget : (s.retarget slot node).target? slot' =
    if slot = slot' ∧ slot ∈ s.slots then some node else s.target? slot' := by
  cases s with
  | switch v cases otherwise =>
      cases slot with
      | target => simp [retarget, slots]
      | otherwise => cases slot' <;> simp [retarget, slots, target?]
      | case k =>
          cases slot' with
          | case j =>
              simp only [retarget, target?, slots, List.getElem?_modify, Slot.case.injEq, List.mem_append, List.mem_map,
                List.mem_range, exists_eq_right, List.mem_singleton, reduceCtorEq, or_false]
              by_cases here : k = j
              · subst here
                by_cases inside : k < cases.length <;> simp [inside]
              · simp [here]
          | _ => simp [retarget, target?]
  | branch | goto => cases slot <;> cases slot' <;> simp [retarget, slots, target?]
  | _ => simp [retarget, slots, target?]

theorem target?_of_not_mem (absent : slot ∉ s.slots) : s.target? slot = none := by
  cases s with
  | switch v cases otherwise => cases slot <;> simp_all [slots, target?]
  | branch | goto => simp_all [slots, target?]
  | _ => rfl

theorem eq_of_targets (same : s.blank = t.blank) (targets : ∀ slot, s.target? slot = t.target? slot) : s = t := by
  cases s with
  | switch v cases otherwise =>
      cases t <;> simp only [blank, Stmt.switch.injEq, reduceCtorEq, and_true] at same
      next w cases' otherwise' =>
          obtain ⟨rfl, values⟩ := same
          have last : otherwise = otherwise' := targets .otherwise
          -- the values of the cases are the same without targets, and the targets are those in the slots of the cases
          have each : cases = cases' := by
            refine List.ext_getElem? fun k => ?_
            have value := congrArg (·[k]?) values
            have leads := targets (.case k)
            simp only [List.getElem?_map] at value
            simp only [target?] at leads
            cases here : cases[k]? <;> cases there : cases'[k]? <;> simp_all [Prod.ext_iff]
          rw [last, each]
  | branch op left right target =>
      cases t <;> simp only [blank, Stmt.branch.injEq, reduceCtorEq, and_true] at same
      have leads := targets .target
      simp_all [target?]
  | goto target =>
      cases t <;> simp only [blank, reduceCtorEq] at same
      have leads := targets .target
      simp_all [target?]
  | _ => cases t <;> simp_all [blank]

end Stmt

/-! ## Lines -/

inductive Line where
  | label (name : String)
  | stmt (s : Stmt) (waiting : List (Slot × String))

namespace Line

def appended : List Line → List (Stmt × List (Slot × String))
  | [] => []
  | .label _ :: rest => appended rest
  | .stmt s waiting :: rest => (s, waiting) :: appended rest

def placedFrom (k : Nat) : List Line → List (String × Nat)
  | [] => []
  | .label name :: rest => (name, k) :: placedFrom k rest
  | .stmt _ _ :: rest => placedFrom (k + 1) rest

def placed : List Line → List (String × Nat) := placedFrom 0

def fixups (lines : List Line) : List Fixup :=
  (appended lines).zipIdx.flatMap fun e => e.1.2.map fun w => ⟨e.2, w.1, w.2⟩

variable {lines before after : List Line} {name : String}

@[simp] theorem appended_append (lines more : List Line) : appended (lines ++ more) = appended lines ++ appended more := by
  fun_induction appended lines <;> simp_all [appended]

theorem placedFrom_append (k : Nat) (lines more : List Line) :
    placedFrom k (lines ++ more) = placedFrom k lines ++ placedFrom (k + (appended lines).length) more := by
  fun_induction placedFrom k lines with
  | case1 => rfl
  | case2 k name rest ih => simp [placedFrom, appended, ih]
  | case3 k s waiting rest ih => simp [placedFrom, appended, ih, Nat.add_assoc, Nat.add_comm 1]

theorem mem_placed_iff {n : Nat} :
    (name, n) ∈ placed lines ↔ ∃ before after, lines = before ++ .label name :: after ∧ n = (appended before).length := by
  constructor
  · have from_any (k : Nat) (member : (name, n) ∈ placedFrom k lines) :
        ∃ before after, lines = before ++ .label name :: after ∧ n = k + (appended before).length := by
      fun_induction placedFrom k lines with
      | case1 => cases member
      | case2 k other rest ih =>
          rcases List.mem_cons.mp member with here | later
          · obtain ⟨rfl, rfl⟩ := Prod.mk.inj here
            exact ⟨[], rest, rfl, rfl⟩
          · obtain ⟨before, after, rfl, rfl⟩ := ih later
            exact ⟨.label other :: before, after, rfl, rfl⟩
      | case3 k s waiting rest ih =>
          obtain ⟨before, after, rfl, rfl⟩ := ih member
          exact ⟨.stmt s waiting :: before, after, rfl, by simp [appended]; omega⟩
    intro member
    simpa using from_any 0 member
  · rintro ⟨before, after, rfl, rfl⟩
    simp [placed, placedFrom_append, placedFrom]

theorem mem_fixups_iff {f : Fixup} :
    f ∈ fixups lines ↔ ∃ a, (appended lines)[f.pos]? = some a ∧ (f.slot, f.label) ∈ a.2 := by
  simp only [fixups, List.mem_flatMap, List.mem_map, List.mem_zipIdx_iff_getElem?]
  constructor
  · rintro ⟨e, here, w, waiting, rfl⟩
    exact ⟨e.1, here, waiting⟩
  · rintro ⟨a, here, waiting⟩
    exact ⟨(a, f.pos), here, _, waiting, rfl⟩

end Line

/-! ## Deeds -/

namespace Instr

def waiting : Instr → List (Slot × String)
  | .branch _ _ _ dest | .goto dest => [(.target, dest)]
  | .switch _ cases otherwise => cases.zipIdx.map (fun c => (.case c.2, c.1.2)) ++ [(.otherwise, otherwise)]
  | _ => []

def isOpen : Instr → Bool
  | .openBranch _ _ _ | .openGoto | .openSwitch _ _ => true
  | _ => false

def isFinish : Instr → Bool
  | .finish => true
  | _ => false

def line? (i : Instr) : Except Error Written → Option Line
  | .ok .nothing =>
      match i with
      | .label name => some (.label name)
      | _ => none
  | .ok (.stmt s) => some (.stmt s i.waiting)
  | _ => none

end Instr

inductive Deed where
  | tell (v : Written)
  | label (name : String)
  | append (s : Stmt) (waiting : List (Slot × String))

namespace Deed

def perform : Deed → Drafting Written
  | .tell v => pure v
  | .label name => do
      Drafting.label name
      return .nothing
  | .append s waiting => return .stmt (← Drafting.addJump s waiting)

def Fits (i : Instr) : Deed → Prop
  | .tell v => i.line? (.ok v) = none
  | .label name => i = .label name
  | .append s waiting => waiting = i.waiting ∧ s.blank = s ∧ waiting.map Prod.fst = s.slots

end Deed

namespace Drafting

theorem on_addJump (s : Stmt) (waiting : List (Slot × String)) (d : Draft) :
    (addJump s waiting).on d = if d.finished then (.error (.bodyFinished d.method), d)
      else (.ok s, { d with
        labels := d.labels ++ d.pending.map fun name => (name, d.stmts.length)
        pending := []
        stmts := d.stmts ++ [s]
        fixups := d.fixups ++ waiting.map fun w => ⟨d.stmts.length, w.1, w.2⟩ }) := by
  simp only [addJump, Steps.on_bind, Steps.on_get, on_add]
  cases d.finished <;> rfl

end Drafting

theorem Deed.on_label (name : String) (d : Draft) :
    (Deed.label name).perform.on d =
      if (d.labelPos? name).isSome || name ∈ d.pending then (.error (.duplicateLabel d.method name), d)
      else (.ok .nothing, { d with pending := d.pending ++ [name] }) := by
  rw [perform, Steps.on_bind, Drafting.on_label]
  cases (d.labelPos? name).isSome || name ∈ d.pending <;> rfl

theorem Deed.on_append (s : Stmt) (waiting : List (Slot × String)) (d : Draft) :
    (Deed.append s waiting).perform.on d = if d.finished then (.error (.bodyFinished d.method), d)
      else (.ok (.stmt s), { d with
        labels := d.labels ++ d.pending.map fun name => (name, d.stmts.length)
        pending := []
        stmts := d.stmts ++ [s]
        fixups := d.fixups ++ waiting.map fun w => ⟨d.stmts.length, w.1, w.2⟩ }) := by
  rw [perform, Steps.on_bind, Drafting.on_addJump]
  cases d.finished <;> rfl

namespace Drafting

/-- A step looks only at names and parameters until it has decided on a deed. -/
def Deliberates (i : Instr) (step : Drafting Written) : Prop :=
  ∀ scope params, ∃ (scope' : Scope) (decision : Except Error Deed), (∀ deed, decision = .ok deed → deed.Fits i) ∧
    ∀ d : Draft, d.scope = scope → d.params = params → step.on d =
      match decision with
      | .error e => (.error e, { d with scope := scope' })
      | .ok deed => deed.perform.on { d with scope := scope' }

section Deliberates
variable {i : Instr}

theorem Deliberates.perform {deed : Deed} (fits : deed.Fits i) : Deliberates i deed.perform := by
  intro scope params
  refine ⟨scope, .ok deed, fun _ same => Except.ok.inj same ▸ fits, ?_⟩
  rintro d rfl -
  rfl

theorem Deliberates.throw (e : Error) : Deliberates i (throw e) := by
  intro scope params
  refine ⟨scope, .error e, by simp, ?_⟩
  rintro d rfl -
  rfl

theorem Deliberates.inScope {α : Type} (step : Scoping α) {next : α → Drafting Written}
    (then_ : ∀ a, Deliberates i (next a)) : Deliberates i (inScope step >>= next) := by
  intro scope params
  have ran (d : Draft) (here : d.scope = scope) :
      (Drafting.inScope step).on d = ((step.on scope).1, { d with scope := (step.on scope).2 }) := by
    simp [Drafting.inScope, Steps.on_bind, here]
  rcases outcome : step.on scope with ⟨_ | a, between⟩
  · next e =>
      refine ⟨between, .error e, by simp, fun d here _ => ?_⟩
      rw [Steps.on_bind, ran d here, outcome]
  · obtain ⟨scope', decision, fits, rest⟩ := then_ a between params
    refine ⟨scope', decision, fits, fun d here given => ?_⟩
    rw [Steps.on_bind, ran d here, outcome]
    exact rest { d with scope := between } rfl given

theorem Deliberates.compound (t : Term) {next : Option Exp → Drafting Written}
    (then_ : ∀ e, Deliberates i (next e)) : Deliberates i (Instr.compound t >>= next) := by
  unfold Instr.compound
  split
  · rw [map_eq_pure_bind, bind_assoc]
    exact .inScope _ fun e => by simpa using then_ (some e)
  · simpa using then_ none

theorem Deliberates.operand (built : Option Exp) (t : Term) {next : Exp → Drafting Written}
    (then_ : ∀ e, Deliberates i (next e)) : Deliberates i (Instr.operand built t >>= next) := by
  cases built with
  | some e => simpa [Instr.operand] using then_ e
  | none => exact .inScope _ then_

theorem Deliberates.addJump {s : Stmt} {waiting : List (Slot × String)} (fits : (Deed.append s waiting).Fits i) :
    Deliberates i (do return .stmt (← Drafting.addJump s waiting)) := Deliberates.perform fits

theorem Deliberates.add {s : Stmt} (fits : (Deed.append s []).Fits i) :
    Deliberates i (do return .stmt (← Drafting.add s)) := by
  intro scope params
  refine ⟨scope, .ok (.append s []), fun _ same => Except.ok.inj same ▸ fits, ?_⟩
  rintro d rfl -
  show _ = (Deed.append s []).perform.on d
  rw [Deed.on_append, Steps.on_bind, on_add]
  cases d.finished <;> simp

theorem Deliberates.assign {lhs rhs : Exp} (fits : (Deed.append (.assign lhs rhs) []).Fits i) :
    Deliberates i (do return .stmt (← Drafting.assign lhs rhs)) := by
  unfold Drafting.assign
  split
  · exact .throw _
  · exact .add fits

end Deliberates

theorem exec_deliberates {i : Instr} (closed : i.isOpen = false) (goes : i.isFinish = false) :
    Deliberates i i.exec := by
  cases i with
  | var name type => exact .inScope _ fun v => .perform (by rfl : (Deed.tell (.var v)).Fits _)
  | param k =>
      intro scope params
      cases found : (place? params.length k).bind (params[·]?) with
      | some v =>
          refine ⟨scope, .ok (.tell (.param v)), fun _ same => Except.ok.inj same ▸ rfl, ?_⟩
          rintro d rfl rfl
          simp [Instr.exec, Steps.on_bind, found, Deed.perform]
      | none =>
          refine ⟨scope, .error (.outOfRange k), by simp, ?_⟩
          rintro d rfl rfl
          simp [Instr.exec, Steps.on_bind, found]
  | label name => exact .perform (by rfl : (Deed.label name).Fits _)
  | finish => cases goes
  | assign lhs rhs =>
      exact .compound _ fun _ => .compound _ fun _ => .operand _ _ fun _ => .operand _ _ fun _ => .assign ⟨rfl, rfl, rfl⟩
  | compute name op left right =>
      exact .compound _ fun _ => .compound _ fun _ => .inScope _ fun _ => .operand _ _ fun _ => .operand _ _ fun _ =>
        .assign ⟨rfl, rfl, rfl⟩
  | branch op left right dest =>
      exact .compound _ fun _ => .compound _ fun _ => .operand _ _ fun _ => .operand _ _ fun _ => .addJump ⟨rfl, rfl, rfl⟩
  | goto dest => exact .addJump ⟨rfl, rfl, rfl⟩
  | switch name cases otherwise =>
      refine .inScope _ fun v => .addJump ⟨rfl, by simp [Stmt.blank], ?_⟩
      rw [List.map_append, List.map_map, Stmt.slots, List.length_map, List.range_eq_range', ← List.zipIdx_map_snd 0 cases,
        List.map_map]
      rfl
  | invoke kind target args base result =>
      exact .inScope _ fun _ => .inScope _ fun _ => .inScope _ fun _ => .add ⟨rfl, rfl, rfl⟩
  | ret name => exact .inScope _ fun _ => .add ⟨rfl, rfl, rfl⟩
  | nop tag => exact .add ⟨rfl, rfl, rfl⟩
  | openBranch | openGoto | openSwitch => cases closed

end Drafting

/-! ## Drafts and their scripts -/

def Draft.after (d : Draft) (is : List Instr) : Draft := is.foldl (fun d i => (i.exec.on d).2) d

def Draft.transcript (d : Draft) : List Instr → List (Instr × Except Error Written)
  | [] => []
  | i :: is => (i, (i.exec.on d).1) :: transcript (i.exec.on d).2 is

def Draft.script (d : Draft) (is : List Instr) : List Line := (d.transcript is).filterMap fun e => e.1.line? e.2

theorem Draft.script_cons (d : Draft) (i : Instr) (is : List Instr) :
    d.script (i :: is) = (i.line? (i.exec.on d).1).toList ++ (i.exec.on d).2.script is := by
  rw [script, transcript, List.filterMap_cons]
  cases i.line? (i.exec.on d).1 <;> rfl

/-- A draft is as far as its script. Some of its statements may have targets already. -/
structure Follows (lines : List Line) (d : Draft) : Prop where
  stmts : d.stmts.map Stmt.blank = (Line.appended lines).map Prod.fst
  waiting : ∀ a ∈ Line.appended lines, a.2.map Prod.fst = a.1.slots
  fixups : d.fixups = Line.fixups lines
  labels : d.labels ++ d.pending.map (fun name => (name, d.stmts.length)) = Line.placed lines
  early : ∀ l ∈ d.labels, l.2 < d.stmts.length
  distinct : ((Line.placed lines).map Prod.fst).Nodup

namespace Follows
variable {lines : List Line} {d : Draft} {i : Instr}

theorem length_eq (follows : Follows lines d) : d.stmts.length = (Line.appended lines).length := by
  simpa using congrArg List.length follows.stmts

theorem labelled (follows : Follows lines d) {name : String} (new : d.labelPos? name = none) (free : name ∉ d.pending) :
    Follows (lines ++ [.label name]) { d with pending := d.pending ++ [name] } where
  stmts := by simpa [Line.appended] using follows.stmts
  waiting := by simpa [Line.appended] using follows.waiting
  fixups := by simpa [Line.fixups, Line.appended] using follows.fixups
  labels := by
    rw [Line.placed, Line.placedFrom_append, ← Line.placed, ← follows.labels]
    simp [Line.placedFrom, follows.length_eq]
  early := follows.early
  distinct := by
    have absent : name ∉ (Line.placed lines).map Prod.fst := by
      rw [← follows.labels]
      simp only [Draft.labelPos?, Option.map_eq_none_iff, List.find?_eq_none, decide_eq_true_eq] at new
      rw [List.map_append, List.mem_append, not_or]
      constructor
      · rw [List.mem_map]
        exact fun ⟨l, member, same⟩ => new l member same
      · simpa using free
    rw [Line.placed, Line.placedFrom_append, ← Line.placed, List.map_append]
    exact List.concat_eq_append ▸ List.Nodup.concat absent follows.distinct

theorem appended (follows : Follows lines d) {s : Stmt} {waiting : List (Slot × String)} (plain : s.blank = s)
    (all : waiting.map Prod.fst = s.slots) : Follows (lines ++ [.stmt s waiting]) { d with
      labels := d.labels ++ d.pending.map fun name => (name, d.stmts.length)
      pending := []
      stmts := d.stmts ++ [s]
      fixups := d.fixups ++ waiting.map fun w => ⟨d.stmts.length, w.1, w.2⟩ } where
  stmts := by simp [Line.appended, follows.stmts, plain]
  waiting a member := by
    rw [Line.appended_append, List.mem_append] at member
    rcases member with before | last
    · exact follows.waiting a before
    · rw [List.mem_singleton.mp last]
      exact all
  fixups := by
    simp [Line.fixups, Line.appended, List.zipIdx_append, follows.fixups, follows.length_eq]
  labels := by
    rw [Line.placed, Line.placedFrom_append, ← Line.placed, ← follows.labels]
    simp [Line.placedFrom]
  early l member := by
    rw [List.length_append, List.length_singleton]
    rcases List.mem_append.mp member with before | new
    · exact Nat.lt_succ_of_lt (follows.early l before)
    · obtain ⟨name, -, rfl⟩ := List.mem_map.mp new
      exact Nat.lt_succ_self _
  distinct := by
    rw [Line.placed, Line.placedFrom_append, ← Line.placed]
    simpa [Line.placedFrom] using follows.distinct

theorem perform (follows : Follows lines d) {deed : Deed} (fits : deed.Fits i) :
    Follows (lines ++ (i.line? (deed.perform.on d).1).toList) (deed.perform.on d).2 := by
  cases deed with
  | tell v =>
      have ran : (Deed.tell v).perform.on d = (.ok v, d) := rfl
      have silent : i.line? (.ok v) = none := fits
      rw [ran, silent]
      simpa using follows
  | label name =>
      subst fits
      rw [Deed.on_label]
      split
      · simpa [Instr.line?] using follows
      · next new =>
          simp only [Bool.or_eq_true, decide_eq_true_eq, not_or, Bool.not_eq_true, Option.isSome_eq_false_iff,
            Option.isNone_iff_eq_none] at new
          exact follows.labelled new.1 new.2
  | append s waiting =>
      obtain ⟨rfl, plain, all⟩ := fits
      rw [Deed.on_append]
      split
      · simpa [Instr.line?] using follows
      · exact follows.appended plain all

end Follows

/-! ## Attempts to finish -/

def Draft.blank (d : Draft) : Draft := { d with stmts := d.stmts.map Stmt.blank }

theorem Draft.blank_retarget (d : Draft) (pos : Nat) (slot : Slot) (node : Node) :
    (d.retarget pos slot node).blank = d.blank := by
  have same : (d.stmts.modify pos (Stmt.retarget slot node)).map Stmt.blank = d.stmts.map Stmt.blank := by
    refine List.ext_getElem? fun k => ?_
    rw [List.getElem?_map, List.getElem?_map, List.getElem?_modify]
    by_cases here : pos = k <;> cases d.stmts[k]? <;> simp [here]
  rw [blank, blank, retarget, same]

namespace Drafting

theorem blank_forM_resolve (fs : List Fixup) (d : Draft) : (Steps.on (fs.forM resolve) d).2.blank = d.blank := by
  have kept : Steps.Keeps (fun t => t.blank = d.blank) (fs.forM resolve) := by
    refine .forM fun f _ t same => ?_
    rw [on_resolve]
    split
    · exact same
    · exact (t.blank_retarget ..).trans same
  exact kept d rfl

theorem on_finish (d : Draft) :
    finish.on d = if d.pending = [] then
        match Steps.on (d.fixups.forM resolve) d with
        | (.ok _, t) => (.ok t.body, { t with finished := true })
        | (.error e, t) => (.error e, t)
      else (.error (.danglingLabels d.method d.pending), d) := by
  simp only [finish, Steps.on_bind, Steps.on_get]
  by_cases none : d.pending = []
  · simp only [none, ne_eq, not_true_eq_false, if_false, if_true, Steps.on_bind]
    rcases Steps.on (d.fixups.forM resolve) d with ⟨_ | _, t⟩ <;> rfl
  · simp [none]

theorem blank_finish (d : Draft) : ∃ done, (finish.on d).2.blank = { d.blank with finished := done } ∧
    ∀ e, (finish.on d).1 = .error e → done = d.finished := by
  have same := blank_forM_resolve d.fixups d
  rw [on_finish]
  split
  · rcases ran : Steps.on (d.fixups.forM resolve) d with ⟨_ | _, t⟩ <;> rw [ran] at same
    · exact ⟨d.finished, same, fun _ _ => rfl⟩
    · exact ⟨true, congrArg (fun b : Draft => { b with finished := true }) same, fun e failed => by cases failed⟩
  · exact ⟨d.finished, rfl, fun _ _ => rfl⟩

end Drafting

theorem Instr.eq_finish {i : Instr} (last : i.isFinish = true) : i = .finish := by
  cases i <;> simp_all [isFinish]

theorem Instr.exec_finish (d : Draft) :
    Instr.finish.exec.on d = ((Drafting.finish.on d).1.map .body, (Drafting.finish.on d).2) := by
  rw [exec, Steps.on_bind]
  rcases Drafting.finish.on d with ⟨_ | _, t⟩ <;> rfl

theorem Instr.line?_finish (d : Draft) : Instr.finish.line? (Instr.finish.exec.on d).1 = none := by
  rw [exec_finish]
  cases (Drafting.finish.on d).1 <;> rfl

namespace Follows
variable {lines : List Line} {d d' : Draft} {i : Instr}

theorem of_blank (follows : Follows lines d) {done : Bool} (same : d'.blank = { d.blank with finished := done }) :
    Follows lines d' := by
  have stmts : d'.stmts.map Stmt.blank = d.stmts.map Stmt.blank := congrArg Draft.stmts same
  have labels : d'.labels = d.labels := (congrArg Draft.labels same :)
  have pending : d'.pending = d.pending := (congrArg Draft.pending same :)
  have length : d'.stmts.length = d.stmts.length := by simpa using congrArg List.length stmts
  exact ⟨stmts.trans follows.stmts, follows.waiting, (congrArg Draft.fixups same :).trans follows.fixups,
    by rw [labels, pending, length, follows.labels], by rw [labels, length]; exact follows.early, follows.distinct⟩

theorem exec (follows : Follows lines d) (closed : i.isOpen = false) :
    Follows (lines ++ (i.line? (i.exec.on d).1).toList) (i.exec.on d).2 := by
  cases last : i.isFinish with
  | false =>
      obtain ⟨scope, decision, fits, ran⟩ := Drafting.exec_deliberates closed last d.scope d.params
      -- names do not show in a script
      have named : Follows lines { d with scope } := ⟨follows.1, follows.2, follows.3, follows.4, follows.5, follows.6⟩
      rw [ran d rfl rfl]
      cases decision with
      | error e => simpa [Instr.line?] using named
      | ok deed => exact named.perform (fits deed rfl)
  | true =>
      obtain rfl := Instr.eq_finish last
      obtain ⟨done, same, -⟩ := Drafting.blank_finish d
      rw [Instr.line?_finish, Instr.exec_finish]
      simpa using follows.of_blank same

theorem run (follows : Follows lines d) {is : List Instr} (closed : ∀ i ∈ is, i.isOpen = false) :
    Follows (lines ++ d.script is) (d.after is) := by
  induction is generalizing lines d with
  | nil => simpa [Draft.script, Draft.transcript, Draft.after] using follows
  | cons i is ih =>
      rw [Draft.script_cons, ← List.append_assoc]
      exact ih (follows.exec (closed i List.mem_cons_self)) fun j member => closed j (List.mem_cons_of_mem _ member)

theorem start (method : MethodRef) (isStatic : Bool) (names : List String) : Follows [] (.start method isStatic names) :=
  ⟨rfl, by simp [Line.appended], rfl, rfl, by simp [Draft.start], by simp [Line.placed, Line.placedFrom]⟩

end Follows

theorem Deed.perform_blank {i : Instr} {deed : Deed} (fits : deed.Fits i) (d : Draft) :
    deed.perform.on d.blank = ((deed.perform.on d).1, (deed.perform.on d).2.blank) := by
  cases deed with
  | tell v => rfl
  | label name =>
      rw [on_label, on_label, show d.blank.labelPos? name = d.labelPos? name from rfl,
        show d.blank.pending = d.pending from rfl]
      cases (d.labelPos? name).isSome || name ∈ d.pending <;> rfl
  | append s waiting =>
      rw [on_append, on_append, show d.blank.finished = d.finished from rfl]
      cases d.finished <;> simp [Draft.blank, fits.2.1]

theorem Instr.exec_blank {i : Instr} (closed : i.isOpen = false) (goes : i.isFinish = false) (d : Draft) :
    i.exec.on d.blank = ((i.exec.on d).1, (i.exec.on d).2.blank) := by
  -- the draft without targets has the same names and parameters, so the instruction comes to the same decision
  obtain ⟨scope, decision, fits, ran⟩ := Drafting.exec_deliberates closed goes d.scope d.params
  rw [ran d rfl rfl, ran d.blank rfl rfl]
  cases decision with
  | error e => rfl
  | ok deed => exact Deed.perform_blank (fits deed rfl) { d with scope }

theorem Draft.run_blank {d : Draft} {is : List Instr} (closed : ∀ i ∈ is, i.isOpen = false)
    (failing : ∀ e ∈ d.transcript is, e.1.isFinish = true → ∃ error, e.2 = .error error) :
    (d.after is).blank = d.blank.after (is.filter fun i => !i.isFinish) ∧
      d.script is = d.blank.script (is.filter fun i => !i.isFinish) := by
  induction is generalizing d with
  | nil => exact ⟨rfl, rfl⟩
  | cons i is ih =>
      have rest := ih (d := (i.exec.on d).2) (fun j member => closed j (List.mem_cons_of_mem _ member))
        fun e member => failing e (List.mem_cons_of_mem _ member)
      cases last : i.isFinish with
      | false =>
          have step := i.exec_blank (closed i List.mem_cons_self) last d
          rw [List.filter_cons_of_pos (by simp [last]), script_cons, script_cons, step, rest.2]
          exact ⟨rest.1.trans (congrArg (Draft.after · _) (congrArg Prod.snd step).symm), rfl⟩
      | true =>
          obtain rfl := Instr.eq_finish last
          obtain ⟨error, failed⟩ := failing _ List.mem_cons_self rfl
          obtain ⟨done, same, unfinished⟩ := Drafting.blank_finish d
          -- a failed attempt sets targets and no more
          have unchanged : (Instr.finish.exec.on d).2.blank = d.blank := by
            simp only [Instr.exec_finish] at failed ⊢
            cases outcome : (Drafting.finish.on d).1 with
            | ok b => simp [outcome, Except.map] at failed
            | error e => rw [same, unfinished e outcome]; rfl
          rw [unchanged] at rest
          rw [List.filter_cons_of_neg (by simp [last]), script_cons, Instr.line?_finish]
          exact rest

end Dataflow
