import Dataflow.Proofs.Ir.Drafts

/-!
Variables of bodies. Looking up names only adds to a scope, and the variables that an expression is built of are in
the scope from then on (`Term.build_finds`). An instruction appends a statement of what it has built before, so all
variables that a finished body mentions are variables of the body (`Body.Finished.mentions`).
-/

namespace Dataflow

def Stmt.vars (s : Stmt) : List Var := s.defVar?.toList ++ s.uses

structure Body.SelfContained (b : Body) : Prop where
  params : ∀ v ∈ b.params, v ∈ b.vars
  written : ∀ s ∈ b.stmts, ∀ v, s.defVar? = some v → v ∈ b.vars

/-! ## Steps that find variables -/

/-- Where some variables are known, a step keeps all that are, and the invariant, also if it fails. If it does not fail,
the variables of what it gives are known. -/
def Steps.Finds {ε σ α : Type} (vars : σ → List Var) (P : σ → Prop) (known : List Var) (of : α → List Var)
    (step : Steps ε σ α) : Prop :=
  ∀ s, P s → known ⊆ vars s → P (step.on s).2 ∧ vars s ⊆ vars (step.on s).2 ∧
    ∀ a, (step.on s).1 = .ok a → of a ⊆ vars (step.on s).2

namespace Steps.Finds
variable {ε σ α β : Type} {vars : σ → List Var} {P : σ → Prop} {known : List Var} {of : α → List Var}
  {of' : β → List Var}

theorem pure {a : α} (within : of a ⊆ known) : Finds vars P known of (Pure.pure a : Steps ε σ α) := by
  intro s kept here
  refine ⟨kept, List.Subset.refl _, fun b same => ?_⟩
  obtain rfl := Except.ok.inj same
  exact List.Subset.trans within here

theorem throw (e : ε) : Finds vars P known of (MonadExcept.throw e : Steps ε σ α) :=
  fun _ kept _ => ⟨kept, List.Subset.refl _, fun _ impossible => nomatch impossible⟩

theorem still {step : Steps ε σ α} (kept : ∀ s, P s → known ⊆ vars s → P (step.on s).2)
    (same : ∀ s, vars (step.on s).2 = vars s) : Finds vars P known (fun _ => []) step :=
  fun s holds here => ⟨kept s holds here, (same s).symm ▸ List.Subset.refl _, fun _ _ => List.nil_subset _⟩

theorem get : Finds vars P known (fun _ => []) (MonadState.get : Steps ε σ σ) :=
  still (fun _ kept _ => kept) fun _ => rfl

theorem modify {f : σ → σ} (kept : ∀ s, P s → P (f s)) (same : ∀ s, vars (f s) = vars s) :
    Finds vars P known (fun _ => []) (modify f : Steps ε σ PUnit) :=
  still (fun s holds _ => kept s holds) same

theorem bind {step : Steps ε σ α} {next : α → Steps ε σ β} (first : Finds vars P known of step)
    (second : ∀ a, Finds vars P (known ++ of a) of' (next a)) : Finds vars P known of' (step >>= next) := by
  intro s holds here
  obtain ⟨kept, grown, found⟩ := first s holds here
  rw [on_bind]
  rcases ran : step.on s with ⟨_ | a, t⟩ <;> rw [ran] at kept grown found
  · exact ⟨kept, grown, fun _ impossible => nomatch impossible⟩
  · have known : known ++ of a ⊆ vars t := List.append_subset.mpr ⟨List.Subset.trans here grown, found a rfl⟩
    obtain ⟨kept', grown', found'⟩ := second a t kept known
    exact ⟨kept', List.Subset.trans grown grown', found'⟩

theorem discard {step : Steps ε σ α} {f : α → β} (first : Finds vars P known of step) :
    Finds vars P known (fun _ => []) (step >>= fun a => Pure.pure (f a)) :=
  first.bind fun _ => pure (List.nil_subset _)

theorem lift (r : Except ε α) : Finds vars P known (fun _ => []) (Steps.lift r : Steps ε σ α) := by
  cases r with
  | ok a => exact pure (List.nil_subset _)
  | error e => exact throw e

theorem forM {items : List α} {step : α → Steps ε σ PUnit}
    (each : ∀ item known, Finds vars P known (fun _ => []) (step item)) :
    Finds vars P known (fun _ => []) (items.forM step) := by
  induction items generalizing known with
  | nil => exact pure (List.nil_subset _)
  | cons head tail ih => exact (each head known).bind fun _ => ih

theorem mapM {items : List β} {step : β → Steps ε σ α}
    (each : ∀ item known, Finds vars P known of (step item)) :
    Finds vars P known (fun found => found.flatMap of) (items.mapM step) := by
  induction items generalizing known with
  | nil => exact pure (List.nil_subset _)
  | cons head tail ih =>
      rw [List.mapM_cons]
      refine (each head known).bind fun a => ih.bind fun rest => pure ?_
      intro v member
      simp only [List.flatMap_cons, List.mem_append] at member ⊢
      exact member.imp .inr id

theorem mapM? {item : Option β} {step : β → Steps ε σ α}
    (each : ∀ item known, Finds vars P known of (step item)) :
    Finds vars P known (fun found => found.toList.flatMap of) (item.mapM step) := by
  cases item with
  | none => exact pure (List.nil_subset _)
  | some b =>
      rw [Option.mapM_some, map_eq_pure_bind]
      exact (each b known).bind fun a => pure (by simp)

end Steps.Finds

/-! ## Scopes -/

theorem Scope.var_finds (s : Scope) (name : String) (type : Ty) :
    s.vars ⊆ (s.var name type).2.vars ∧ (s.var name type).1 ∈ (s.var name type).2.vars := by
  unfold var
  split
  · next v found => exact ⟨List.Subset.refl _, List.mem_of_find?_eq_some found⟩
  · next absent =>
      -- a name that is new hides nothing
      have free (v : Var) (member : v ∈ s.vars) : v.name ≠ name := by
        simpa using List.find?_eq_none.mp absent v member
      refine ⟨fun v member => ?_, ?_⟩
      · simp [declare, member, free v member]
      · simp [declare]

namespace Scoping
variable {known : List Var}

abbrev Finds {α : Type} (known : List Var) (of : α → List Var) (step : Scoping α) : Prop :=
  Steps.Finds Scope.vars (fun _ => True) known of step

theorem var_finds (name : String) (type : Ty) : Finds known (fun v => [v]) (var name type) := by
  intro s _ _
  obtain ⟨grown, found⟩ := s.var_finds name type
  refine ⟨trivial, grown, fun v same => ?_⟩
  obtain rfl : (s.var name type).1 = v := Except.ok.inj same
  exact List.cons_subset.mpr ⟨found, List.nil_subset _⟩

theorem intVars_finds (names : List String) : Finds known (fun vs => vs) (intVars names) := by
  have found : Finds known (fun vs => vs.flatMap fun v => [v]) (intVars names) := .mapM fun _ _ => var_finds _ .int
  simpa using found

theorem intVar?_finds (name : Option String) : Finds known (fun v => v.toList) (intVar? name) := by
  have found : Finds known (fun v => v.toList.flatMap fun v => [v]) (intVar? name) := .mapM? fun _ _ => var_finds _ .int
  simpa using found

end Scoping

theorem Term.build_finds (t : Term) {known : List Var} : t.build.Finds known Exp.uses := by
  induction t generalizing known with
  | int n => exact .pure (List.nil_subset _)
  | ident x => exact (Scoping.var_finds x .int).bind fun v => .pure (by simp [Exp.uses])
  | bin op left right ihLeft ihRight =>
      exact ihLeft.bind fun l => ihRight.bind fun r => .pure (by simp [Exp.uses])
  | new cls => exact .pure (List.nil_subset _)
  | cast type x => exact (Scoping.var_finds x .int).bind fun v => .pure (by simp [Exp.uses])
  | field name type base owner => exact (Scoping.intVar?_finds base).bind fun v => .pure (by simp [Exp.uses])
  | elem base index ih => exact (Scoping.var_finds base .int).bind fun v => ih.bind fun i => .pure (by simp [Exp.uses])
  | call kind target args base =>
      exact (Steps.Finds.lift target).bind fun _ => (Scoping.intVars_finds args).bind fun as =>
        (Scoping.intVar?_finds base).bind fun b => .pure (by simp [Exp.uses, Call.uses])

/-! ## Drafts -/

def Draft.mentioned (d : Draft) : List Var := d.params ++ d.stmts.flatMap Stmt.vars

def Draft.Closed (d : Draft) : Prop := d.mentioned ⊆ d.scope.vars

@[simp] theorem Stmt.vars_retarget (slot : Slot) (node : Node) (s : Stmt) : (s.retarget slot node).vars = s.vars := by
  cases s <;> cases slot <;> rfl

theorem Draft.mentioned_retarget (d : Draft) (pos : Nat) (slot : Slot) (node : Node) :
    (d.retarget pos slot node).mentioned ⊆ d.mentioned := by
  refine List.append_subset.mpr ⟨List.subset_append_left _ _, fun v member => List.mem_append_right _ ?_⟩
  obtain ⟨s, there, reads⟩ := List.mem_flatMap.mp member
  rcases Lists.mem_modify there with before | ⟨old, before, rfl⟩
  · exact List.mem_flatMap.mpr ⟨s, before, reads⟩
  · exact List.mem_flatMap.mpr ⟨old, before, by simpa using reads⟩

namespace Drafting
variable {α : Type} {known : List Var} {of : α → List Var}

abbrev Finds {α : Type} (known : List Var) (of : α → List Var) (step : Drafting α) : Prop :=
  Steps.Finds (fun d => d.scope.vars) Draft.Closed known of step

theorem inScope_finds {step : Scoping α} (finds : step.Finds known of) : Finds known of (inScope step) := by
  intro d closed here
  obtain ⟨-, grown, found⟩ := finds d.scope trivial here
  simp only [inScope, Steps.on_bind, Steps.on_get, Steps.on_set, Steps.on_lift]
  exact ⟨List.Subset.trans closed grown, grown, found⟩

theorem label_finds (name : String) : Finds known (fun _ => []) (label name) := by
  refine .still (fun d closed _ => ?_) fun d => ?_
  · rw [on_label]
    split <;> exact closed
  · rw [on_label]
    split <;> rfl

theorem add_finds {s : Stmt} (within : s.vars ⊆ known) : Finds known (fun _ => []) (add s) := by
  refine .still (fun d closed here => ?_) fun d => ?_
  · rw [on_add]
    split
    · exact closed
    · simp only [Draft.Closed, Draft.mentioned, List.flatMap_append, List.flatMap_singleton, ← List.append_assoc]
      exact List.append_subset.mpr ⟨closed, List.Subset.trans within here⟩
  · rw [on_add]
    split <;> rfl

theorem addJump_finds {s : Stmt} (within : s.vars ⊆ known) (waiting : List (Slot × String)) :
    Finds known (fun _ => []) (addJump s waiting) :=
  Steps.Finds.get.bind fun _ => (add_finds (by simpa using within)).bind fun _ =>
    .discard (.modify (fun _ closed => closed) fun _ => rfl)

theorem assign_finds {lhs rhs : Exp} (within : lhs.uses ++ rhs.uses ⊆ known) :
    Finds known (fun _ => []) (assign lhs rhs) := by
  have mentioned : (Stmt.assign lhs rhs).vars ⊆ lhs.uses ++ rhs.uses := by
    cases lhs <;> simp [Stmt.vars, Stmt.defVar?, Stmt.def?, Stmt.uses, Exp.var?, Exp.uses]
  unfold assign
  split
  · exact .throw _
  · exact add_finds (List.Subset.trans mentioned within)

theorem resolve_finds (f : Fixup) : Finds known (fun _ => []) (resolve f) := by
  refine .still (fun d closed _ => ?_) fun d => ?_
  · rw [on_resolve]
    split
    · exact closed
    · exact List.Subset.trans (d.mentioned_retarget ..) closed
  · rw [on_resolve]
    split <;> rfl

theorem finish_finds : Finds known (fun _ => []) finish := by
  unfold finish
  refine Steps.Finds.get.bind fun d => ?_
  split
  · exact .throw _
  · refine (Steps.Finds.forM fun f _ => resolve_finds f).bind fun _ => ?_
    refine .bind (.modify (fun _ closed => closed) fun _ => rfl) fun _ => ?_
    exact Steps.Finds.get.discard

end Drafting

namespace Instr
open Drafting (Finds inScope_finds add_finds addJump_finds assign_finds)
variable {known : List Var}

theorem compound_finds (t : Term) : Finds known (fun e => e.toList.flatMap Exp.uses) (compound t) := by
  unfold compound
  split
  · rw [map_eq_pure_bind]
    exact (inScope_finds t.build_finds).bind fun e => .pure (by simp)
  · exact .pure (List.nil_subset _)

theorem operand_finds {built : Option Exp} (t : Term) (within : built.toList.flatMap Exp.uses ⊆ known) :
    Finds known Exp.uses (operand built t) := by
  cases built with
  | some e => exact .pure (by simpa using within)
  | none => exact inScope_finds t.build_finds

theorem operands_finds {left right : Term} {next : Exp → Exp → Drafting Written}
    (then_ : ∀ l r known, l.uses ++ r.uses ⊆ known → Finds known (fun _ => []) (next l r)) :
    Finds known (fun _ => []) (do
      let l ← compound left
      let r ← compound right
      let l ← operand l left
      let r ← operand r right
      next l r) := by
  refine (compound_finds left).bind fun l => (compound_finds right).bind fun r => ?_
  refine (operand_finds left (by simp)).bind fun l => (operand_finds right (by grind)).bind fun r => ?_
  exact then_ l r _ (by grind)

theorem exec_finds (i : Instr) : Finds known (fun _ => []) i.exec := by
  cases i with
  | var name type => exact (inScope_finds (Scoping.var_finds name type)).discard
  | param k =>
      refine Steps.Finds.get.bind fun d => ?_
      simp only
      split
      · exact .pure (List.nil_subset _)
      · exact .throw _
  | label name => exact (Drafting.label_finds name).discard
  | finish => exact Drafting.finish_finds.discard
  | assign lhs rhs =>
      exact operands_finds fun l r known within => (assign_finds within).discard
  | compute name op left right =>
      -- the written name is looked up between the compound operands and the others
      refine (compound_finds left).bind fun l => (compound_finds right).bind fun r => ?_
      refine (inScope_finds (Scoping.var_finds name .int)).bind fun v => ?_
      refine (operand_finds left (by grind)).bind fun l => (operand_finds right (by grind)).bind fun r => ?_
      exact (assign_finds (by grind [Exp.uses])).discard
  | branch op left right dest =>
      exact operands_finds fun l r known within => (addJump_finds within _).discard
  | goto dest => exact (addJump_finds (List.nil_subset _) _).discard
  | switch name cases otherwise =>
      refine (inScope_finds (Scoping.var_finds name .int)).bind fun v => ?_
      exact (addJump_finds (by simp [Stmt.vars, Stmt.defVar?, Stmt.def?, Stmt.uses]) _).discard
  | invoke kind target args base result =>
      refine (inScope_finds (Scoping.intVars_finds args)).bind fun as => ?_
      refine (inScope_finds (Scoping.intVar?_finds base)).bind fun b => ?_
      refine (inScope_finds (Scoping.intVar?_finds result)).bind fun r => ?_
      refine (add_finds ?_).discard
      cases r <;> grind [Stmt.vars, Stmt.defVar?, Stmt.def?, Stmt.uses, Call.uses, Exp.var?]
  | ret name =>
      refine (inScope_finds (Scoping.intVar?_finds name)).bind fun v => ?_
      exact (add_finds (by simp [Stmt.vars, Stmt.defVar?, Stmt.def?, Stmt.uses])).discard
  | nop tag => exact (add_finds (List.nil_subset _)).discard
  | openBranch op left right =>
      exact operands_finds fun l r known within => (add_finds within).discard
  | openGoto => exact (add_finds (List.nil_subset _)).discard
  | openSwitch name cases =>
      refine (inScope_finds (Scoping.var_finds name .int)).bind fun v => ?_
      exact (add_finds (by simp [Stmt.vars, Stmt.defVar?, Stmt.def?, Stmt.uses])).discard

end Instr

theorem Draft.closed_start (method : MethodRef) (isStatic : Bool) (names : List String) :
    (Draft.start method isStatic names).Closed := by
  have from_any (given : List (String × Ty)) (params : List Var) (scope : Scope) (inside : params ⊆ scope.vars) :
      let made := given.foldl (fun acc p => (acc.1 ++ [(acc.2.var p.1 p.2).1], (acc.2.var p.1 p.2).2)) (params, scope)
      made.1 ⊆ made.2.vars := by
    induction given generalizing params scope with
    | nil => exact inside
    | cons p rest ih =>
        obtain ⟨grown, found⟩ := scope.var_finds p.1 p.2
        have last := List.cons_subset.mpr ⟨found, List.nil_subset _⟩
        exact ih _ _ (List.append_subset.mpr ⟨List.Subset.trans inside grown, last⟩)
  simp only [Closed, mentioned, start, List.flatMap_nil, List.append_nil]
  exact from_any _ _ _ (List.nil_subset _)

theorem Draft.Authored.closed {d : Draft} (authored : d.Authored) : d.Closed := by
  induction authored with
  | start method isStatic names => exact closed_start method isStatic names
  | exec i _ ih => exact (i.exec_finds _ ih (List.nil_subset _)).1

theorem Body.Finished.mentions {b : Body} (finished : b.Finished) :
    b.params ⊆ b.vars ∧ ∀ s ∈ b.stmts, s.vars ⊆ b.vars := by
  obtain ⟨d, authored, done⟩ := finished
  have closed : (Drafting.finish.on d).2.Closed := (Drafting.finish_finds d authored.closed (List.nil_subset _)).1
  obtain ⟨params, stmts⟩ := List.append_subset.mp closed
  rw [Drafting.body_of_finish (Prod.ext done rfl)]
  exact ⟨params, fun s member v mentioned => stmts (List.mem_flatMap.mpr ⟨s, member, mentioned⟩)⟩

theorem Body.Finished.selfContained {b : Body} (finished : b.Finished) : b.SelfContained where
  params := finished.mentions.1
  written s member v written := by
    refine finished.mentions.2 s member (List.mem_append_left _ ?_)
    rw [written]
    exact List.mem_singleton_self v

end Dataflow
