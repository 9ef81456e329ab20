import Dataflow.Proofs.Analysis.DeadCode
import Dataflow.Proofs.Ir.Scripts

/-!
Effects of expressions. Whether an expression can be left out is judged by its outermost form. What that misses is
hidden in an operand that is more than a variable or a literal (`acting_part_of_pure`), so where operators apply to
variables and literals only, the judgement is exact for the whole expression (`isPure_iff_harmless`). Instructions that
keep to such operands write nothing else (`Body.flat_of_instrs`). An expression of which no part acts has one value
wherever its variables have values, and the outside has no say in it (`Harmless.value`).
-/

namespace Dataflow

namespace Exp

/-! ## Parts -/

def arguments : Exp → List Exp
  | .var _ | .lit _ | .new _ => []
  | .bin _ left right => [left, right]
  | .cast _ value => [.var value]
  | .field _ _ base _ => base.toList.map .var
  | .elem base index => [.var base, index]
  | .call c => c.uses.map .var

def parts : Exp → List Exp
  | .bin op left right => .bin op left right :: (left.parts ++ right.parts)
  | .elem base index => .elem base index :: .var base :: index.parts
  | e => e :: e.arguments

def acts : Exp → Bool
  | .bin op _ _ => op = .div || op = .rem
  | e => e.isForeign

def Harmless (e : Exp) : Prop := ∀ p ∈ e.parts, p.acts = false

variable {e p : Exp}

theorem mem_parts_iff : p ∈ e.parts ↔ p = e ∨ ∃ o ∈ e.arguments, p ∈ o.parts := by
  cases e with
  | field name type base owner => grind [parts, arguments]
  | call c => grind [parts, arguments]
  | _ => simp [parts, arguments]

theorem mem_parts_self (e : Exp) : e ∈ e.parts := mem_parts_iff.mpr (.inl rfl)

theorem isPure_eq_not_acts (e : Exp) : e.isPure = !e.acts := by
  cases e with
  | bin op left right => cases op <;> rfl
  | _ => rfl

theorem Harmless.isPure (harmless : e.Harmless) : e.isPure = true := by
  rw [isPure_eq_not_acts, harmless e e.mem_parts_self]
  rfl

theorem Harmless.of_argument (harmless : e.Harmless) {o : Exp} (argument : o ∈ e.arguments) : o.Harmless :=
  fun p part => harmless p (mem_parts_iff.mpr (.inr ⟨o, argument, part⟩))

theorem harmless_of_atom (atom : e.isAtom = true) : e.Harmless := by
  cases e with
  | var | lit => simp [Harmless, parts, arguments, acts, isForeign]
  | _ => cases atom

/-- A part that acts, of an expression whose outermost form does not, is hidden in an operand that is more than a
variable or a literal. -/
theorem acting_part_of_pure (pure : e.isPure = true) (part : p ∈ e.parts) (acts : p.acts = true) :
    ∃ o ∈ e.arguments, o.isAtom = false ∧ p ∈ o.parts := by
  rcases mem_parts_iff.mp part with rfl | ⟨o, argument, inside⟩
  · simp [isPure_eq_not_acts, acts] at pure
  · refine ⟨o, argument, Bool.eq_false_iff.mpr fun atom => ?_, inside⟩
    simp [harmless_of_atom atom p inside] at acts

theorem isFlat_of_atoms {op : BinOp} {left right : Exp} (atLeft : left.isAtom = true) (atRight : right.isAtom = true) :
    (bin op left right).isFlat = true := by
  simp [isFlat, atLeft, atRight]

theorem isAtom_of_flat (flat : e.isFlat = true) (pure : e.isPure = true) : ∀ o ∈ e.arguments, o.isAtom = true := by
  cases e with
  | bin op left right => simpa [isFlat, arguments] using flat
  | var | lit => simp [arguments]
  | _ => cases pure

theorem isPure_iff_harmless (flat : e.isFlat = true) : e.isPure = true ↔ e.Harmless := by
  refine ⟨fun pure p part => Bool.eq_false_iff.mpr fun acts => ?_, Harmless.isPure⟩
  obtain ⟨o, argument, compound, -⟩ := acting_part_of_pure pure part acts
  simp [isAtom_of_flat flat pure o argument] at compound

/-! ## Values -/

theorem Harmless.value (harmless : e.Harmless) {σ : Store} (held : ∀ v ∈ e.uses, (σ v).isSome = true) :
    ∃ w, ∀ given w', e.Yields given σ w' ↔ w' = w := by
  induction e with
  | var v =>
      obtain ⟨w, holds⟩ := Option.isSome_iff_exists.mp (held v (by simp [uses]))
      refine ⟨w, fun given w' => ⟨fun yields => ?_, ?_⟩⟩
      · cases yields with
        | var holds' => exact Option.some.inj (holds'.symm.trans holds)
        | foreign outside => cases outside
      · rintro rfl
        exact .var holds
  | lit n =>
      refine ⟨BitVec.ofInt 32 n, fun given w' => ⟨fun yields => ?_, ?_⟩⟩
      · cases yields with
        | lit => rfl
        | foreign outside => cases outside
      · rintro rfl
        exact .lit n
  | bin op left right ihLeft ihRight =>
      obtain ⟨x, atLeft⟩ := ihLeft (harmless.of_argument (by simp [arguments])) fun v member =>
        held v (List.mem_append_left _ member)
      obtain ⟨y, atRight⟩ := ihRight (harmless.of_argument (by simp [arguments])) fun v member =>
        held v (List.mem_append_right _ member)
      have whole : op.divides = false := by simpa [Exp.isPure] using harmless.isPure
      refine ⟨op.onWords x y, fun given w' => ⟨fun yields => ?_, ?_⟩⟩
      · cases yields with
        | bin yieldsLeft yieldsRight divisor =>
            rw [(atLeft given _).mp yieldsLeft, (atRight given _).mp yieldsRight]
        | foreign outside => cases outside
      · rintro rfl
        exact .bin ((atLeft given x).mpr rfl) ((atRight given y).mpr rfl) (by simp [whole])
  -- what is left takes its value from outside
  | _ => cases harmless.isPure

end Exp

/-! ## Instructions -/

def Steps.Gives {ε σ α : Type} (P : σ → Prop) (Q : α → Prop) (step : Steps ε σ α) : Prop :=
  ∀ s, P s → P (step.on s).2 ∧ ∀ a, (step.on s).1 = .ok a → Q a

namespace Steps.Gives
variable {ε σ α β : Type} {P : σ → Prop} {Q : α → Prop} {R : β → Prop}

theorem pure {a : α} (holds : Q a) : Gives P Q (Pure.pure a : Steps ε σ α) := by
  intro s kept
  refine ⟨kept, fun b same => ?_⟩
  obtain rfl := Except.ok.inj same
  exact holds

theorem anyhow (step : Steps ε σ α) : Gives (fun _ => True) (fun _ => True) step :=
  fun _ _ => ⟨trivial, fun _ _ => trivial⟩

theorem of_keeps {step : Steps ε σ α} (keeps : Keeps P step) : Gives P (fun _ => True) step :=
  fun s kept => ⟨keeps s kept, fun _ _ => trivial⟩

theorem bind {step : Steps ε σ α} {next : α → Steps ε σ β} (first : Gives P Q step)
    (second : ∀ a, Q a → Gives P R (next a)) : Gives P R (step >>= next) := by
  intro s kept
  obtain ⟨between, gives⟩ := first s kept
  rw [on_bind]
  rcases ran : step.on s with ⟨_ | a, t⟩ <;> rw [ran] at between gives
  · exact ⟨between, fun _ impossible => nomatch impossible⟩
  · exact second a (gives a rfl) t between

theorem discard {step : Steps ε σ α} {f : α → β} (keeps : Keeps P step) :
    Gives P (fun _ => True) (step >>= fun a => Pure.pure (f a)) :=
  (of_keeps keeps).bind fun _ _ => pure trivial

end Steps.Gives

namespace Term
open Steps (Gives)

def isFlat : Term → Bool
  | .bin _ left right => !left.isCompound && !right.isCompound
  | _ => true

abbrev Builds (t : Term) (Q : Exp → Prop) : Prop := Gives (fun _ => True) Q t.build

theorem builds_atom {t : Term} (plain : t.isCompound = false) : t.Builds fun e => e.isAtom = true := by
  cases t with
  | int n => exact .pure rfl
  | ident x => exact (Gives.anyhow _).bind fun v _ => .pure rfl
  | _ => cases plain

theorem builds_flat {t : Term} (flat : t.isFlat = true) : t.Builds fun e => e.isFlat = true := by
  cases t with
  | bin op left right =>
      simp only [isFlat, Bool.and_eq_true, Bool.not_eq_true'] at flat
      refine (builds_atom flat.1).bind fun l atLeft => (builds_atom flat.2).bind fun r atRight => ?_
      exact .pure (Exp.isFlat_of_atoms atLeft atRight)
  | int | new => exact .pure rfl
  | ident | cast | field => exact (Gives.anyhow _).bind fun _ _ => .pure rfl
  | elem => exact (Gives.anyhow _).bind fun _ _ => (Gives.anyhow _).bind fun _ _ => .pure rfl
  | call =>
      exact (Gives.anyhow _).bind fun _ _ => (Gives.anyhow _).bind fun _ _ => (Gives.anyhow _).bind fun _ _ =>
        .pure rfl

end Term

def Stmt.Flat (s : Stmt) : Prop := ∀ e ∈ s.computed, e.isFlat = true

def Draft.Flat (d : Draft) : Prop := ∀ s ∈ d.stmts, s.Flat

theorem Stmt.computed_blank (s : Stmt) : s.blank.computed = s.computed := by
  cases s <;> rfl

theorem Draft.flat_blank {d : Draft} : d.blank.Flat ↔ d.Flat := by
  simp [Flat, blank, Stmt.Flat, Stmt.computed_blank]

namespace Drafting
open Steps (Keeps Gives)

theorem inScope_gives {α : Type} {Q : α → Prop} {step : Scoping α} (gives : Gives (fun _ => True) Q step) :
    Gives Draft.Flat Q (inScope step) := by
  intro d flat
  simp only [inScope, Steps.on_bind, Steps.on_get, Steps.on_set, Steps.on_lift]
  exact ⟨flat, (gives d.scope trivial).2⟩

theorem label_keeps_flat (name : String) : Keeps Draft.Flat (label name) := by
  intro d flat
  rw [on_label]
  split <;> exact flat

theorem add_keeps_flat {s : Stmt} (new : s.Flat) : Keeps Draft.Flat (add s) := by
  intro d flat
  rw [on_add]
  split
  · exact flat
  · intro t member
    rcases List.mem_append.mp member with before | last
    · exact flat t before
    · exact List.mem_singleton.mp last ▸ new

theorem addJump_keeps_flat {s : Stmt} (new : s.Flat) (waiting : List (Slot × String)) :
    Keeps Draft.Flat (addJump s waiting) :=
  Keeps.get.bind fun _ => (add_keeps_flat new).bind fun _ => Keeps.bind (fun _ flat => flat) fun _ => Keeps.pure _

theorem assign_keeps_flat {lhs rhs : Exp} (flat : rhs.isFlat = true) : Keeps Draft.Flat (assign lhs rhs) := by
  unfold assign
  split
  · exact Keeps.throw _
  · exact add_keeps_flat (by simpa [Stmt.Flat, Stmt.computed] using flat)

theorem finish_keeps_flat : Keeps Draft.Flat finish := by
  intro d flat
  obtain ⟨done, same, -⟩ := blank_finish d
  rw [← Draft.flat_blank, same]
  exact Draft.flat_blank.mpr flat

end Drafting

namespace Instr
open Steps (Gives)
open Drafting

def isFlat : Instr → Bool
  | .assign _ rhs => rhs.isFlat
  | .compute _ _ left right | .branch _ left right _ | .openBranch _ left right =>
      !left.isCompound && !right.isCompound
  | _ => true

section Operands
variable {t left right : Term} {Q QLeft QRight : Exp → Prop}

theorem compound_gives (builds : t.Builds Q) : Gives Draft.Flat (fun built => ∀ e ∈ built, Q e) (compound t) := by
  unfold compound
  split
  · rw [map_eq_pure_bind]
    exact (inScope_gives builds).bind fun e holds => .pure (by simpa using holds)
  · exact .pure (by simp)

theorem operand_gives (builds : t.Builds Q) {built : Option Exp} (before : ∀ e ∈ built, Q e) :
    Gives Draft.Flat Q (operand built t) := by
  cases built with
  | some e => exact .pure (before e rfl)
  | none => exact inScope_gives builds

theorem operands_gives (atLeft : left.Builds QLeft) (atRight : right.Builds QRight)
    {next : Exp → Exp → Drafting Written}
    (then_ : ∀ l r, QLeft l → QRight r → Gives Draft.Flat (fun _ => True) (next l r)) :
    Gives Draft.Flat (fun _ => True) (do
      let l ← compound left
      let r ← compound right
      let l ← operand l left
      let r ← operand r right
      next l r) := by
  refine (compound_gives atLeft).bind fun l builtLeft => (compound_gives atRight).bind fun r builtRight => ?_
  exact (operand_gives atLeft builtLeft).bind fun l left => (operand_gives atRight builtRight).bind fun r right =>
    then_ l r left right

end Operands

theorem exec_gives {i : Instr} (flat : i.isFlat = true) : Gives Draft.Flat (fun _ => True) i.exec := by
  have silent {s : Stmt} (nothing : s.computed = []) : s.Flat := by simp [Stmt.Flat, nothing]
  have branches {op : BinOp} {l r : Exp} (atLeft : l.isAtom = true) (atRight : r.isAtom = true) :
      (Stmt.branch op l r none).Flat := by simp [Stmt.Flat, Stmt.computed, Exp.isFlat_of_atoms atLeft atRight]
  cases i with
  | var name type => exact (inScope_gives (.anyhow _)).bind fun _ _ => .pure trivial
  | param k =>
      refine (Gives.of_keeps Steps.Keeps.get).bind fun d _ => ?_
      simp only
      split
      · exact .pure trivial
      · exact .of_keeps (.throw _)
  | label name => exact .discard (label_keeps_flat name)
  | finish => exact .discard finish_keeps_flat
  | assign lhs rhs =>
      exact operands_gives (.anyhow _) (Term.builds_flat flat) fun l r _ right => .discard (assign_keeps_flat right)
  | compute name op left right =>
      simp only [isFlat, Bool.and_eq_true, Bool.not_eq_true'] at flat
      have atLeft := Term.builds_atom flat.1
      have atRight := Term.builds_atom flat.2
      -- the written name is looked up between the compound operands and the others
      refine (compound_gives atLeft).bind fun l builtLeft => (compound_gives atRight).bind fun r builtRight => ?_
      refine (inScope_gives (.anyhow _)).bind fun v _ => ?_
      refine (operand_gives atLeft builtLeft).bind fun l left => (operand_gives atRight builtRight).bind fun r right => ?_
      exact .discard (assign_keeps_flat (Exp.isFlat_of_atoms left right))
  | branch op left right dest =>
      simp only [isFlat, Bool.and_eq_true, Bool.not_eq_true'] at flat
      exact operands_gives (Term.builds_atom flat.1) (Term.builds_atom flat.2) fun l r left right =>
        .discard (addJump_keeps_flat (branches left right) _)
  | goto dest => exact .discard (addJump_keeps_flat (silent rfl) _)
  | switch name cases otherwise =>
      refine (inScope_gives (.anyhow _)).bind fun v _ => .discard (addJump_keeps_flat ?_ _)
      simp [Stmt.Flat, Stmt.computed, Exp.isFlat]
  | invoke kind target args base result =>
      refine (inScope_gives (.anyhow _)).bind fun as _ => (inScope_gives (.anyhow _)).bind fun b _ => ?_
      exact (inScope_gives (.anyhow _)).bind fun r _ => .discard (add_keeps_flat (silent rfl))
  | ret name => exact (inScope_gives (.anyhow _)).bind fun v _ => .discard (add_keeps_flat (silent rfl))
  | nop tag => exact .discard (add_keeps_flat (silent rfl))
  | openBranch op left right =>
      simp only [isFlat, Bool.and_eq_true, Bool.not_eq_true'] at flat
      exact operands_gives (Term.builds_atom flat.1) (Term.builds_atom flat.2) fun l r left right =>
        .discard (add_keeps_flat (branches left right))
  | openGoto => exact .discard (add_keeps_flat (silent rfl))
  | openSwitch name cases =>
      refine (inScope_gives (.anyhow _)).bind fun v _ => .discard (add_keeps_flat ?_)
      simp [Stmt.Flat, Stmt.computed, Exp.isFlat]

end Instr

theorem Body.flat_of_instrs {method : MethodRef} {isStatic : Bool} {names : List String} {is : List Instr} {b : Body}
    (flat : ∀ i ∈ is, i.isFlat = true)
    (done : (Drafting.finish.on (.ofInstrs method isStatic names is)).1 = .ok b) : ∀ s ∈ b.stmts, s.Flat := by
  have written : (Draft.ofInstrs method isStatic names is).Flat :=
    List.foldlRecOn (motive := Draft.Flat) is _ (by simp [Draft.Flat, Draft.start]) fun d before i member =>
      (Instr.exec_gives (flat i member) d before).1
  have after := Drafting.finish_keeps_flat _ written
  rw [Drafting.body_of_finish (Prod.ext done rfl)]
  exact after

namespace Exp

/-- Where operators apply to variables and literals, an expression can be left out exactly if no part of it acts; and
instructions that keep to such operands write only such expressions. On any other expression the judgement can miss
only what an operand hides that is neither a variable nor a literal. If no part acts, the expression has one value,
whatever comes from outside, wherever its variables have values. -/
theorem pure_exactly_if_harmless :
    (∀ e : Exp,
      (e.isFlat = true → (e.isPure = true ↔ e.Harmless)) ∧
      (e.isPure = true → ∀ p ∈ e.parts, p.acts = true → ∃ o ∈ e.arguments, o.isAtom = false ∧ p ∈ o.parts) ∧
      (e.Harmless → ∀ σ : Store, (∀ v ∈ e.uses, (σ v).isSome = true) →
        ∃ w, ∀ given w', e.Yields given σ w' ↔ w' = w)) ∧
    ∀ (method : MethodRef) (isStatic : Bool) (names : List String) (is : List Instr) (b : Body),
      (∀ i ∈ is, i.isFlat = true) → (Drafting.finish.on (.ofInstrs method isStatic names is)).1 = .ok b →
        ∀ s ∈ b.stmts, ∀ e ∈ s.computed, e.isFlat = true ∧ (e.isPure = true ↔ e.Harmless) := by
  refine ⟨fun e => ⟨isPure_iff_harmless, fun pure p part acts => acting_part_of_pure pure part acts,
    fun harmless σ held => harmless.value held⟩, ?_⟩
  intro method isStatic names is b flat done s member e computed
  have computedFlat : e.isFlat = true := Body.flat_of_instrs flat done s member e computed
  exact ⟨computedFlat, isPure_iff_harmless computedFlat⟩

end Exp

namespace Averaging
open Loop (method p x)
open Countdown (y)

def sum : Exp := .bin .add (.var p) (.lit 1)

def mean : Exp := .bin .div (.var x) (.lit 2)

def instrs : List Instr := [
  .compute "x" .add (.ident "p") (.int 1),
  .assign (.ident "y") (.bin .div (.ident "x") (.int 2)),
  .ret (some "y")]

def body : Body where
  method := method
  this := none
  params := [p]
  stmts := [.assign (.var x) sum, .assign (.var y) mean, .ret (some y)]
  vars := [p, x, y]

def hidden : Exp := .bin .add (.var p) (.bin .div (.var x) (.var p))

theorem averaging_judged :
    (∀ i ∈ instrs, i.isFlat = true) ∧ (Drafting.finish.on (.ofInstrs method true ["p"] instrs)).1 = .ok body ∧
    sum.Harmless ∧ (∃ w, ∀ given w', sum.Yields given (fun _ => some 7) w' ↔ w' = w) ∧ ¬mean.Harmless ∧
    ∃ o ∈ hidden.arguments, o.isAtom = false ∧ .bin .div (.var x) (.var p) ∈ o.parts := by
  have flat : ∀ i ∈ instrs, i.isFlat = true := by decide
  have done : (Drafting.finish.on (.ofInstrs method true ["p"] instrs)).1 = .ok body := rfl
  obtain ⟨each, written⟩ := Exp.pure_exactly_if_harmless
  have judged := written method true ["p"] instrs body flat done
  have harmless : sum.Harmless :=
    (judged (.assign (.var x) sum) (by decide) sum (by decide)).2.mp rfl
  refine ⟨flat, done, harmless, (each sum).2.2 harmless _ (by simp), fun quiet => ?_, ?_⟩
  · have pure := (judged (.assign (.var y) mean) (by decide) mean (by decide)).2.mpr quiet
    cases pure
  · exact (each hidden).2.1 rfl _ (by decide) rfl

/-- A sum can be left out although one of its operands divides, and instructions write it. -/
theorem quotient_hidden :
    ((Instr.compute "y" .add (.ident "p") (.bin .div (.ident "x") (.ident "p"))).exec.on
      (.start method true ["p"])).1 = .ok (.stmt (.assign (.var y) hidden)) ∧
    hidden.isPure = true ∧ .bin .div (.var x) (.var p) ∈ hidden.parts ∧
    (Exp.bin .div (.var x) (.var p)).acts = true :=
  ⟨rfl, rfl, by decide, rfl⟩

end Averaging

end Dataflow
