import Dataflow.Data.Iteration

/-!
Solving by repeated updates. An agenda says which node is updated next: a worklist takes nodes from the
front of a queue and puts back what depends on a change; a sweep updates all nodes in turn, again and again
until a whole round changes nothing. `run` counts the updates and never makes more than its fuel allows;
`runToEnd` makes as many as it takes.
-/

namespace Dataflow

inductive Agenda (ν : Type) where
  | worklist (queue : List ν)
  | sweep (all pending : List ν) (changed : Bool)

namespace Agenda
variable {ν : Type}

def next? : Agenda ν → Option (ν × Agenda ν)
  | .worklist [] => none
  | .worklist (n :: rest) => some (n, .worklist rest)
  | .sweep all (n :: rest) changed => some (n, .sweep all rest changed)
  | .sweep _ [] false => none
  | .sweep [] [] true => none
  | .sweep (n :: rest) [] true => some (n, .sweep (n :: rest) rest false)

variable [DecidableEq ν]

def enqueue (queue : List ν) (ns : List ν) : List ν :=
  ns.foldl (fun q n => if n ∈ q then q else q ++ [n]) queue

def changed (dependents : List ν) : Agenda ν → Agenda ν
  | .worklist queue => .worklist (enqueue queue dependents)
  | .sweep all pending _ => .sweep all pending true

end Agenda

/-- A system to be solved: which nodes can be updated, what depends on a node, and the update of the state at a
node, which tells whether something changed that others depend on. -/
structure System (ν σ : Type) where
  ready : ν → Bool
  dependents : ν → List ν
  update : ν → σ → σ × Bool

inductive Outcome (ν σ : Type) where
  | settled (state : σ) (updates : Nat)
  | stuck (n : ν)
  | exhausted
  | endless

def Outcome.map {ν σ τ : Type} (f : σ → τ) : Outcome ν σ → Outcome ν τ
  | .settled state updates => .settled (f state) updates
  | .stuck n => .stuck n
  | .exhausted => .exhausted
  | .endless => .endless

namespace System
variable {ν σ : Type} [DecidableEq ν]

def advance (s : System ν σ) (n : ν) (rest : Agenda ν) (state : σ) : Agenda ν × σ :=
  let (state, changed) := s.update n state
  (if changed then rest.changed (s.dependents n) else rest, state)

/-- Updates nodes until the agenda is empty, at most `fuel` times. `count` updates were made before. A node
that cannot be updated ends the run before it counts. -/
def run (s : System ν σ) : Nat → Agenda ν → σ → Nat → Outcome ν σ
  | 0, agenda, state, count =>
      match agenda.next? with
      | none => .settled state count
      | some (n, _) => if s.ready n then .exhausted else .stuck n
  | fuel + 1, agenda, state, count =>
      match agenda.next? with
      | none => .settled state count
      | some (n, rest) =>
          if s.ready n then
            let (agenda, state) := s.advance n rest state
            s.run fuel agenda state (count + 1)
          else .stuck n

def turn (s : System ν σ) (now : Agenda ν × σ × Nat) : Outcome ν σ ⊕ Agenda ν × σ × Nat :=
  match now.1.next? with
  | none => .inl (.settled now.2.1 now.2.2)
  | some (n, rest) =>
      if s.ready n then
        let (agenda, state) := s.advance n rest now.2.1
        .inr (agenda, state, now.2.2 + 1)
      else .inl (.stuck n)

def runToEnd (s : System ν σ) (agenda : Agenda ν) (state : σ) (count : Nat) : Option (Outcome ν σ) :=
  Iteration.run s.turn (agenda, state, count)

/-- Solves with an optional limit on the updates. A negative limit allows as little as zero. -/
def solve (s : System ν σ) (agenda : Agenda ν) (state : σ) (limit : Option Int) : Outcome ν σ :=
  match limit with
  | some k => s.run k.toNat agenda state 0
  | none => (s.runToEnd agenda state 0).getD .endless

end System

end Dataflow
