import Dataflow.Cfg.Basic
import Dataflow.Proofs.Semantics.Words

/-!
Runs of bodies along the edges of a graph. A variable holds a 32-bit word, or nothing before it is first
assigned. Variables, literals and operators have the values of 32-bit arithmetic, and none where a variable is
read that holds nothing or where the divisor is zero. What a call, an allocation, a cast or a load gives comes
from outside; a run is made with respect to what the outside may give.
-/

namespace Dataflow

abbrev Store := Var → Option Word

def Store.set (σ : Store) (v : Var) (w : Word) : Store := fun u => if v = u then some w else σ u

def Body.Opens (b : Body) (σ : Store) : Prop := ∀ v w, σ v = some w → v ∈ b.params

theorem Body.opens_of_param {b : Body} {v : Var} (param : v ∈ b.params) (w : Word) :
    b.Opens fun u => if u = v then some w else none := by
  intro u _ holds
  by_cases here : u = v
  · exact here ▸ param
  · simp [here] at holds

namespace Exp

def isForeign : Exp → Bool
  | .var _ | .lit _ | .bin _ _ _ => false
  | .new _ | .cast _ _ | .field _ _ _ _ | .elem _ _ | .call _ => true

def asks : Exp → Bool
  | .bin _ left right => left.asks || right.asks
  | e => e.isForeign

def operands : Exp → List Var
  | .var v => [v]
  | .bin _ left right => left.operands ++ right.operands
  | _ => []

def isAtom : Exp → Bool
  | .var _ | .lit _ => true
  | _ => false

def isFlat : Exp → Bool
  | .bin _ left right => left.isAtom && right.isAtom
  | _ => true

inductive Yields (given : Exp → Word → Prop) (σ : Store) : Exp → Word → Prop where
  | var {v : Var} {w : Word} (holds : σ v = some w) : Yields given σ (.var v) w
  | lit (n : Int) : Yields given σ (.lit n) (BitVec.ofInt 32 n)
  | bin {op : BinOp} {left right : Exp} {x y : Word} (atLeft : Yields given σ left x)
      (atRight : Yields given σ right y) (divisor : op.divides → y ≠ 0) :
      Yields given σ (.bin op left right) (op.onWords x y)
  | foreign {e : Exp} {w : Word} (outside : e.isForeign = true) (comes : given e w) : Yields given σ e w

variable {given given' : Exp → Word → Prop} {σ τ : Store}

theorem Yields.congr {e : Exp} {w : Word} (agree : ∀ v ∈ e.uses, σ v = τ v) (yields : e.Yields given σ w) :
    e.Yields given τ w := by
  induction yields with
  | var holds => exact .var (by rw [← agree _ (by simp [uses]), holds])
  | lit n => exact .lit n
  | bin _ _ divisor ihLeft ihRight =>
      exact .bin (ihLeft fun v member => agree v (List.mem_append_left _ member))
        (ihRight fun v member => agree v (List.mem_append_right _ member)) divisor
  | foreign outside comes => exact .foreign outside comes

theorem Yields.mono (wider : ∀ e w, given e w → given' e w) {e : Exp} {w : Word} (yields : e.Yields given σ w) :
    e.Yields given' σ w := by
  induction yields with
  | var holds => exact .var holds
  | lit n => exact .lit n
  | bin _ _ divisor ihLeft ihRight => exact .bin ihLeft ihRight divisor
  | foreign outside comes => exact .foreign outside (wider _ _ comes)

end Exp

namespace Stmt

inductive Effect (given : Exp → Word → Prop) (σ : Store) : Stmt → Store → Prop where
  | assign {v : Var} {rhs : Exp} {w : Word} (value : rhs.Yields given σ w) :
      Effect given σ (.assign (.var v) rhs) (σ.set v w)
  | store {lhs rhs : Exp} {w : Word} (memory : lhs.var? = none) (value : rhs.Yields given σ w) :
      Effect given σ (.assign lhs rhs) σ
  | result {c : Call} {v : Var} {w : Word} (comes : given (.call c) w) :
      Effect given σ (.invoke c (some v)) (σ.set v w)
  | discard {c : Call} : Effect given σ (.invoke c none) σ
  | branch {op : BinOp} {left right : Exp} {target : Option Node} :
      Effect given σ (.branch op left right target) σ
  | goto {target : Option Node} : Effect given σ (.goto target) σ
  | switch {v : Var} {cases : List (Int × Option Node)} {otherwise : Option Node} :
      Effect given σ (.switch v cases otherwise) σ
  | ret {value : Option Var} : Effect given σ (.ret value) σ
  | nop {tag : String} : Effect given σ (.nop tag) σ

/-- The edges that control may take out of a statement. A condition that is one goes the way of truth, one that is
zero the other, and a switch goes to an equal case or, if there is none, to the default. -/
inductive Takes (given : Exp → Word → Prop) (σ : Store) (e : Edge) : Stmt → Prop where
  | ifTrue {op : BinOp} {left right : Exp} {target : Option Node}
      (condition : (Exp.bin op left right).Yields given σ 1) (kind : e.kind = .ifTrue) :
      Takes given σ e (.branch op left right target)
  | ifFalse {op : BinOp} {left right : Exp} {target : Option Node}
      (condition : (Exp.bin op left right).Yields given σ 0) (kind : e.kind = .ifFalse) :
      Takes given σ e (.branch op left right target)
  | case {v : Var} {cases : List (Int × Option Node)} {otherwise : Option Node} {w : Word}
      (holds : σ v = some w) (kind : e.kind = .switchCase) (equal : e.caseValue = some w.toInt) :
      Takes given σ e (.switch v cases otherwise)
  | default {v : Var} {cases : List (Int × Option Node)} {otherwise : Option Node} {w : Word}
      (holds : σ v = some w) (kind : e.kind = .switchDefault) (unequal : ∀ c ∈ cases, c.1 ≠ w.toInt) :
      Takes given σ e (.switch v cases otherwise)
  | assign {lhs rhs : Exp} : Takes given σ e (.assign lhs rhs)
  | invoke {c : Call} {result : Option Var} : Takes given σ e (.invoke c result)
  | goto {target : Option Node} : Takes given σ e (.goto target)
  | ret {value : Option Var} : Takes given σ e (.ret value)
  | nop {tag : String} : Takes given σ e (.nop tag)

variable {given given' : Exp → Word → Prop} {σ τ σ' : Store} {s : Stmt} {e : Edge}

theorem Effect.mono (wider : ∀ e w, given e w → given' e w) (effect : s.Effect given σ σ') :
    s.Effect given' σ σ' := by
  cases effect with
  | assign value => exact .assign (value.mono wider)
  | store memory value => exact .store memory (value.mono wider)
  | result comes => exact .result (wider _ _ comes)
  | _ => constructor

theorem Effect.frame (effect : s.Effect given σ σ') {u : Var} (unwritten : s.defVar? ≠ some u) : σ' u = σ u := by
  cases effect with
  | assign _ | result _ =>
      simp only [defVar?, def?, Exp.var?, Option.bind_some, ne_eq, Option.some.injEq] at unwritten
      simp [Store.set, unwritten]
  | _ => rfl

theorem Effect.congr (agree : ∀ u ∈ s.uses, σ u = τ u) (effect : s.Effect given σ σ') :
    ∃ τ', s.Effect given τ τ' ∧ ∀ u, s.defVar? = some u ∨ σ u = τ u → σ' u = τ' u := by
  cases effect with
  | @assign v rhs w value =>
      refine ⟨_, .assign (value.congr agree), fun u written => ?_⟩
      by_cases here : v = u
      · simp [Store.set, here]
      · simpa [Store.set, here, defVar?, def?, Exp.var?] using written
  | @store lhs rhs w memory value =>
      refine ⟨_, .store memory (value.congr fun u member => agree u ?_), fun u written => ?_⟩
      · cases lhs <;> simp_all [uses, Exp.var?]
      · simpa [defVar?, def?, memory] using written
  | @result c v w comes =>
      refine ⟨_, .result comes, fun u written => ?_⟩
      by_cases here : v = u
      · simp [Store.set, here]
      · simpa [Store.set, here, defVar?, def?, Exp.var?] using written
  | _ => exact ⟨τ, by constructor, by simp [defVar?, def?]⟩

theorem Takes.congr (agree : ∀ u ∈ s.uses, σ u = τ u) (takes : s.Takes given σ e) : s.Takes given τ e := by
  cases takes with
  | ifTrue condition kind => exact .ifTrue (condition.congr agree) kind
  | ifFalse condition kind => exact .ifFalse (condition.congr agree) kind
  | case holds kind equal => exact .case (by rw [← agree _ (by simp [uses]), holds]) kind equal
  | default holds kind unequal => exact .default (by rw [← agree _ (by simp [uses]), holds]) kind unequal
  | _ => constructor

end Stmt

structure State where
  node : Node
  store : Store

inductive Cfg.Moves (g : Cfg) (b : Body) (given : Exp → Word → Prop) (may : Stmt → Store → Edge → Prop) :
    State → State → Prop where
  | silent {e : Edge} {σ : Store} (edge : e ∈ g.outgoing) (nothing : b.stmt? e.source = none) :
      Moves g b given may ⟨e.source, σ⟩ ⟨e.target, σ⟩
  | stmt {e : Edge} {s : Stmt} {σ σ' : Store} (edge : e ∈ g.outgoing) (here : b.stmt? e.source = some s)
      (goes : may s σ e) (effect : s.Effect given σ σ') : Moves g b given may ⟨e.source, σ⟩ ⟨e.target, σ'⟩

theorem Cfg.Moves.mono {g : Cfg} {b : Body} {given given' : Exp → Word → Prop}
    {may may' : Stmt → Store → Edge → Prop} (wider : ∀ e w, given e w → given' e w)
    (freer : ∀ s σ e, may s σ e → may' s σ e) {now later : State} (moves : g.Moves b given may now later) :
    g.Moves b given' may' now later := by
  cases moves with
  | silent edge nothing => exact .silent edge nothing
  | stmt edge here goes effect => exact .stmt edge here (freer _ _ _ goes) (effect.mono wider)

inductive Run (step : List State → State → State → Prop) (first : State) : List State → Prop where
  | start : Run step first [first]
  | next {now later : State} {past : List State} : Run step first (now :: past) → step past now later →
      Run step first (later :: now :: past)

theorem Run.mono {step step' : List State → State → State → Prop}
    (freer : ∀ past now later, step past now later → step' past now later) {first : State} {trace : List State}
    (run : Run step first trace) : Run step' first trace := by
  induction run with
  | start => exact .start
  | next _ steps ih => exact ih.next (freer _ _ _ steps)

def Body.Roams (b : Body) (g : Cfg) (first : Store) : List State → Prop :=
  Run (fun _ => g.Moves b (fun _ _ => True) fun _ _ _ => True) ⟨g.entry, first⟩

def Stmt.isVisible : Stmt → Bool
  | .assign (.var _) rhs => rhs.asks
  | .assign _ _ | .invoke _ _ | .ret _ => true
  | .branch _ left right _ => left.asks || right.asks
  | .goto _ | .switch _ _ _ | .nop _ => false

/-- What the outside sees of a state: the node, and what a statement that deals with the outside reads. -/
structure Sight where
  node : Node
  read : List (Option Word)
deriving DecidableEq

def Body.sight (b : Body) (now : State) : Sight where
  node := now.node
  read := match b.stmt? now.node with
    | some s => if s.isVisible then s.uses.map now.store else []
    | none => []

/-- Runs in which control follows conditions and switches, and what comes from outside depends on what the
outside has seen. -/
def Body.Runs (b : Body) (g : Cfg) (oracle : List Sight → Word) (first : Store) : List State → Prop :=
  Run (fun past now later =>
    let given : Exp → Word → Prop := fun _ w => w = oracle ((now :: past).map b.sight)
    g.Moves b given (fun s σ e => s.Takes given σ e) now later) ⟨g.entry, first⟩

theorem Body.Runs.roams {b : Body} {g : Cfg} {oracle : List Sight → Word} {first : Store} {trace : List State}
    (runs : b.Runs g oracle first trace) : b.Roams g first trace :=
  Run.mono (fun _ _ _ moves => moves.mono (fun _ _ _ => trivial) fun _ _ _ _ => trivial) runs

end Dataflow
