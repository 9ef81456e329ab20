import Dataflow.Ir.Instr
import Dataflow.Proofs.Data.Lists

/-!
Bodies that instructions write. What a draft can become by one instruction, which may fail, is said once
(`Drafting.Invariant`), and what such steps keep holds of all drafts that instructions have written
(`Draft.Authored.keeps`). So the jumps of a draft lead to statements that it has: a jump is appended without targets,
only resolving a label gives it one, and a label is placed where a statement is appended.
-/

namespace Dataflow

/-! ## Invariants of steps -/

def Steps.Keeps {ε σ α : Type} (P : σ → Prop) (step : Steps ε σ α) : Prop := ∀ s, P s → P (step.on s).2

namespace Steps.Keeps
variable {ε σ α β : Type} {P : σ → Prop}

theorem pure (a : α) : Keeps P (Pure.pure a : Steps ε σ α) := fun _ kept => kept

theorem throw (e : ε) : Keeps P (MonadExcept.throw e : Steps ε σ α) := fun _ kept => kept

theorem get : Keeps P (MonadState.get : Steps ε σ σ) := fun _ kept => kept

theorem bind {step : Steps ε σ α} {next : α → Steps ε σ β} (first : Keeps P step)
    (second : ∀ a, Keeps P (next a)) : Keeps P (step >>= next) := by
  intro s kept
  have between := first s kept
  rw [on_bind]
  rcases ran : step.on s with ⟨_ | a, t⟩ <;> rw [ran] at between
  · exact between
  · exact second a t between

theorem map {step : Steps ε σ α} (f : α → β) (first : Keeps P step) : Keeps P (f <$> step) := by
  rw [map_eq_pure_bind]
  exact first.bind fun a => pure _

theorem forM {items : List α} {step : α → Steps ε σ PUnit} (each : ∀ item ∈ items, Keeps P (step item)) :
    Keeps P (items.forM step) := by
  induction items with
  | nil => exact pure _
  | cons head tail ih =>
      show Keeps P (step head >>= fun _ => tail.forM step)
      exact (each head (by simp)).bind fun _ => ih fun item member => each item (by simp [member])

end Steps.Keeps

/-! ## Drafts and finished bodies -/

inductive Draft.Authored : Draft → Prop where
  | start (method : MethodRef) (isStatic : Bool) (names : List String) : Authored (.start method isStatic names)
  | exec {d : Draft} (i : Instr) : Authored d → Authored (i.exec.on d).2

def Body.Finished (b : Body) : Prop := ∃ d : Draft, d.Authored ∧ (Drafting.finish.on d).1 = .ok b

def Draft.ofInstrs (method : MethodRef) (isStatic : Bool) (names : List String) (is : List Instr) : Draft :=
  is.foldl (fun d i => (i.exec.on d).2) (.start method isStatic names)

theorem Body.finished_of_instrs {method : MethodRef} {isStatic : Bool} {names : List String} {is : List Instr}
    {b : Body} (done : (Drafting.finish.on (.ofInstrs method isStatic names is)).1 = .ok b) : b.Finished := by
  have after (is : List Instr) (d : Draft) (before : d.Authored) :
      (is.foldl (fun d i => (i.exec.on d).2) d).Authored := by
    induction is generalizing d with
    | nil => exact before
    | cons i is ih => exact ih _ (before.exec i)
  exact ⟨_, after is _ (.start method isStatic names), done⟩

def Stmt.jumps : Stmt → List Node
  | .branch _ _ _ target => target.toList
  | .goto target => target.toList
  | .switch _ cases otherwise => cases.filterMap Prod.snd ++ otherwise.toList
  | .assign _ _ | .invoke _ _ | .ret _ | .nop _ => []

def JumpWithin (method : MethodRef) (stmts : List Stmt) : Prop :=
  ∀ s ∈ stmts, ∀ n ∈ s.jumps, ∃ pos, n = .stmt pos method

namespace Drafting
open Steps (Keeps)

/-- What the steps of all instructions keep: entering names, placing labels, appending statements, which do not jump
yet, and resolving and finishing jumps. -/
structure Invariant (P : Draft → Prop) : Prop where
  named : ∀ d scope, P d → P { d with scope }
  labelled : ∀ d name, d.labelPos? name = none → name ∉ d.pending → P d → P { d with pending := d.pending ++ [name] }
  appended : ∀ d s, d.finished = false → s.jumps = [] → P d → P { d with
    labels := d.labels ++ d.pending.map fun name => (name, d.stmts.length)
    pending := []
    stmts := d.stmts ++ [s] }
  waiting : ∀ d fixups, P d → P { d with fixups }
  resolved : ∀ (d : Draft) (f : Fixup) pos, d.labelPos? f.label = some pos → P d →
    P (d.retarget f.pos f.slot (.stmt pos d.method))
  finished : ∀ d, P d → P { d with finished := true }

theorem on_label (name : String) (d : Draft) :
    (label name).on d =
      if (d.labelPos? name).isSome || name ∈ d.pending then (.error (.duplicateLabel d.method name), d)
      else (.ok (), { d with pending := d.pending ++ [name] }) := by
  unfold label
  rw [Steps.on_bind, Steps.on_get]
  simp only
  split <;> rfl

theorem on_add (s : Stmt) (d : Draft) :
    (add s).on d = if d.finished then (.error (.bodyFinished d.method), d)
      else (.ok s, { d with
        labels := d.labels ++ d.pending.map fun name => (name, d.stmts.length)
        pending := []
        stmts := d.stmts ++ [s] }) := by
  unfold add
  rw [Steps.on_bind, Steps.on_get]
  simp only
  split <;> rfl

theorem on_resolve (f : Fixup) (d : Draft) :
    (resolve f).on d = match d.labelPos? f.label with
      | none => (.error (.undefinedLabel d.method f.label), d)
      | some pos => (.ok (), d.retarget f.pos f.slot (.stmt pos d.method)) := by
  unfold resolve
  rw [Steps.on_bind, Steps.on_get]
  simp only
  cases d.labelPos? f.label <;> rfl

section Keeps
variable {P : Draft → Prop} (kept : Invariant P)
include kept

theorem inScope_keeps {α : Type} (step : Scoping α) : Keeps P (inScope step) := by
  intro d holds
  simp only [inScope, Steps.on_bind, Steps.on_get, Steps.on_set, Steps.on_lift]
  exact kept.named d _ holds

theorem label_keeps (name : String) : Keeps P (label name) := by
  intro d holds
  rw [on_label]
  split
  · exact holds
  · next new =>
      simp only [Bool.or_eq_true, decide_eq_true_eq, not_or, Bool.not_eq_true, Option.isSome_eq_false_iff,
        Option.isNone_iff_eq_none] at new
      exact kept.labelled d name new.1 new.2 holds

theorem add_keeps {s : Stmt} (aimless : s.jumps = []) : Keeps P (add s) := by
  intro d holds
  rw [on_add]
  split
  · exact holds
  · next going => exact kept.appended d s (by simpa using going) aimless holds

theorem addJump_keeps {s : Stmt} (aimless : s.jumps = []) (waiting : List (Slot × String)) :
    Keeps P (addJump s waiting) :=
  Keeps.get.bind fun _ => (add_keeps kept aimless).bind fun _ =>
    Keeps.bind (fun d holds => kept.waiting d _ holds) fun _ => Keeps.pure _

theorem assign_keeps (lhs rhs : Exp) : Keeps P (assign lhs rhs) := by
  unfold assign
  split
  · exact Keeps.throw _
  · exact add_keeps kept rfl

theorem resolve_keeps (f : Fixup) : Keeps P (resolve f) := by
  intro d holds
  rw [on_resolve]
  split
  · exact holds
  · next pos placed => exact kept.resolved d f pos placed holds

theorem finish_keeps : Keeps P finish := by
  unfold finish
  refine Keeps.get.bind fun d => ?_
  split
  · exact Keeps.throw _
  · exact (Keeps.forM fun f _ => resolve_keeps kept f).bind fun _ =>
      Keeps.bind (fun d holds => kept.finished d holds) fun _ => Keeps.get.bind fun _ => Keeps.pure _

end Keeps

theorem mem_jumps_retarget {slot : Slot} {node n : Node} {s : Stmt} (jump : n ∈ (s.retarget slot node).jumps) :
    n = node ∨ n ∈ s.jumps := by
  cases s with
  | branch op left right target =>
      cases slot <;> simp_all [Stmt.retarget, Stmt.jumps]
  | goto target =>
      cases slot <;> simp_all [Stmt.retarget, Stmt.jumps]
  | switch v cases otherwise =>
      cases slot with
      | target => exact .inr jump
      | case k =>
          simp only [Stmt.retarget, Stmt.jumps, List.mem_append, List.mem_filterMap] at jump ⊢
          rcases jump with ⟨c, member, leads⟩ | last
          · rcases Lists.mem_modify member with before | ⟨old, before, rfl⟩
            · exact .inr (.inl ⟨c, before, leads⟩)
            · exact .inl (Option.some.inj leads).symm
          · exact .inr (.inr last)
      | otherwise =>
          simp only [Stmt.retarget, Stmt.jumps, List.mem_append, Option.toList_some, List.mem_singleton] at jump
          exact jump.elim (fun before => .inr (List.mem_append_left _ before)) .inl
  | _ => exact .inr jump

theorem body_of_finish {d d' : Draft} {b : Body} (done : finish.on d = (.ok b, d')) : b = d'.body := by
  unfold finish at done
  rw [Steps.on_bind, Steps.on_get] at done
  simp only at done
  split at done
  · cases done
  · rw [Steps.on_bind] at done
    rcases ran : Steps.on (d.fixups.forM resolve) d with ⟨_ | ⟨⟩, t⟩
    · rw [ran] at done
      cases done
    · rw [ran] at done
      cases done
      rfl

structure Inside (d : Draft) : Prop where
  jumps : ∀ s ∈ d.stmts, ∀ n ∈ s.jumps, ∃ pos < d.stmts.length, n = .stmt pos d.method
  labels : ∀ l ∈ d.labels, l.2 < d.stmts.length

theorem inside_invariant : Invariant Inside where
  named _ _ inside := ⟨inside.jumps, inside.labels⟩
  labelled _ _ _ _ inside := ⟨inside.jumps, inside.labels⟩
  waiting _ _ inside := ⟨inside.jumps, inside.labels⟩
  finished _ inside := ⟨inside.jumps, inside.labels⟩
  appended d s _ aimless inside := by
    have longer {k : Nat} (bound : k ≤ d.stmts.length) : k < (d.stmts ++ [s]).length := by
      rw [List.length_append]
      exact Nat.lt_succ_of_le bound
    constructor
    · intro t member n jump
      rcases List.mem_append.mp member with before | last
      · obtain ⟨pos, bound, rfl⟩ := inside.jumps t before n jump
        exact ⟨pos, longer (Nat.le_of_lt bound), rfl⟩
      · rw [List.mem_singleton.mp last, aimless] at jump
        cases jump
    · intro l member
      rcases List.mem_append.mp member with before | new
      · exact longer (Nat.le_of_lt (inside.labels l before))
      · obtain ⟨name, -, rfl⟩ := List.mem_map.mp new
        exact longer (Nat.le_refl _)
  resolved d f pos placed inside := by
    have bound : pos < d.stmts.length := by
      obtain ⟨l, found, rfl⟩ := Option.map_eq_some_iff.mp placed
      exact inside.labels l (List.mem_of_find?_eq_some found)
    have same : (d.retarget f.pos f.slot (.stmt pos d.method)).stmts.length = d.stmts.length :=
      List.length_modify ..
    constructor
    · intro s member n jump
      rw [same]
      rcases Lists.mem_modify member with before | ⟨old, before, rfl⟩
      · exact inside.jumps s before n jump
      · rcases mem_jumps_retarget jump with rfl | kept
        · exact ⟨pos, bound, rfl⟩
        · exact inside.jumps old before n kept
    · intro l member
      rw [same]
      exact inside.labels l member

end Drafting

namespace Instr
open Steps (Keeps)
open Drafting

section Keeps
variable {P : Draft → Prop} (kept : Invariant P)
include kept

theorem compound_keeps (t : Term) : Keeps P (compound t) := by
  unfold compound
  split
  · exact (inScope_keeps kept _).map _
  · exact Keeps.pure _

theorem operand_keeps (built : Option Exp) (t : Term) : Keeps P (operand built t) := by
  cases built with
  | some e => exact Keeps.pure _
  | none => exact inScope_keeps kept _

theorem exec_keeps (i : Instr) : Keeps P i.exec := by
  cases i with
  | var name type => exact (inScope_keeps kept _).bind fun _ => Keeps.pure _
  | param k =>
      refine Keeps.get.bind fun d => ?_
      simp only
      split
      · exact Keeps.pure _
      · exact Keeps.throw _
  | label name => exact (label_keeps kept _).bind fun _ => Keeps.pure _
  | finish => exact (finish_keeps kept).bind fun _ => Keeps.pure _
  | assign lhs rhs =>
      exact (compound_keeps kept _).bind fun _ => (compound_keeps kept _).bind fun _ => (operand_keeps kept _ _).bind fun _ =>
        (operand_keeps kept _ _).bind fun _ => (assign_keeps kept _ _).bind fun _ => Keeps.pure _
  | compute name op left right =>
      exact (compound_keeps kept _).bind fun _ => (compound_keeps kept _).bind fun _ => (inScope_keeps kept _).bind fun _ =>
        (operand_keeps kept _ _).bind fun _ => (operand_keeps kept _ _).bind fun _ => (assign_keeps kept _ _).bind fun _ =>
        Keeps.pure _
  | branch op left right dest =>
      exact (compound_keeps kept _).bind fun _ => (compound_keeps kept _).bind fun _ => (operand_keeps kept _ _).bind fun _ =>
        (operand_keeps kept _ _).bind fun _ => (addJump_keeps kept rfl _).bind fun _ => Keeps.pure _
  | goto dest => exact (addJump_keeps kept rfl _).bind fun _ => Keeps.pure _
  | switch name cases otherwise =>
      exact (inScope_keeps kept _).bind fun _ => (addJump_keeps kept (by simp [Stmt.jumps]) _).bind fun _ => Keeps.pure _
  | invoke kind target args base result =>
      exact (inScope_keeps kept _).bind fun _ => (inScope_keeps kept _).bind fun _ => (inScope_keeps kept _).bind fun _ =>
        (add_keeps kept rfl).bind fun _ => Keeps.pure _
  | ret name => exact (inScope_keeps kept _).bind fun _ => (add_keeps kept rfl).bind fun _ => Keeps.pure _
  | nop tag => exact (add_keeps kept rfl).bind fun _ => Keeps.pure _
  | openBranch op left right =>
      exact (compound_keeps kept _).bind fun _ => (compound_keeps kept _).bind fun _ => (operand_keeps kept _ _).bind fun _ =>
        (operand_keeps kept _ _).bind fun _ => (add_keeps kept rfl).bind fun _ => Keeps.pure _
  | openGoto => exact (add_keeps kept rfl).bind fun _ => Keeps.pure _
  | openSwitch name cases =>
      exact (inScope_keeps kept _).bind fun _ => (add_keeps kept (by simp [Stmt.jumps])).bind fun _ => Keeps.pure _

end Keeps

end Instr

theorem Draft.Authored.keeps {P : Draft → Prop} (kept : Drafting.Invariant P)
    (start : ∀ method isStatic names, P (.start method isStatic names)) {d : Draft} (authored : d.Authored) : P d := by
  induction authored with
  | start method isStatic names => exact start method isStatic names
  | exec i _ ih => exact i.exec_keeps kept _ ih

theorem Body.Finished.jumps_inside {b : Body} (finished : b.Finished) :
    ∀ s ∈ b.stmts, ∀ n ∈ s.jumps, ∃ pos < b.stmts.length, n = .stmt pos b.method := by
  obtain ⟨d, authored, done⟩ := finished
  have before : Drafting.Inside d :=
    authored.keeps Drafting.inside_invariant fun _ _ _ => ⟨by simp [Draft.start], by simp [Draft.start]⟩
  have inside : Drafting.Inside (Drafting.finish.on d).2 := Drafting.finish_keeps Drafting.inside_invariant d before
  rw [Drafting.body_of_finish (Prod.ext done rfl)]
  exact inside.jumps

theorem Body.Finished.jumpWithin {b : Body} (finished : b.Finished) : JumpWithin b.method b.stmts := by
  intro s member n jump
  obtain ⟨pos, -, same⟩ := finished.jumps_inside s member n jump
  exact ⟨pos, same⟩

end Dataflow
