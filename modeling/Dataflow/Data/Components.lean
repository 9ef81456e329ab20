import Dataflow.Data.OrderedMap

/-!
Strongly connected components in one depth-first pass. Elements are numbered as they are met and wait on a
stack; `low` is the least number known to be reached back to. When the search leaves an element that reaches
back no further than itself, the stack down to it is a component. Components come out before those that lead
to them.
-/

namespace Dataflow

structure Components (α : Type) where
  index : OrderedMap α Nat
  low : OrderedMap α Nat
  stack : List α
  found : List (List α)

namespace Components
variable {α : Type}

def start : Components α := ⟨OrderedMap.empty, OrderedMap.empty, [], []⟩

variable [DecidableEq α]

def meet (c : Components α) (a : α) : Components α :=
  { c with
    index := c.index.insert a c.index.size
    low := c.low.insert a c.index.size
    stack := a :: c.stack }

def lower (c : Components α) (a : α) (n : Nat) : Components α :=
  { c with low := c.low.insert a (min (c.low.getD a 0) n) }

def close (c : Components α) (a : α) : Components α :=
  { c with
    stack := (c.stack.dropWhile (· ≠ a)).drop 1
    found := c.found ++ [c.stack.takeWhile (· ≠ a) ++ [a]] }

def connect (next : α → List α) : Nat → α → Components α → Components α
  | 0, _, c => c
  | depth + 1, a, c =>
      let c := (next a).foldl (fun c b =>
        if !c.index.contains b then
          let c := connect next depth b c
          c.lower a (c.low.getD b 0)
        else if b ∈ c.stack then c.lower a (c.index.getD b 0)
        else c) (c.meet a)
      if c.low.getD a 0 = c.index.getD a 0 then c.close a else c

def of (next : α → List α) (depth : Nat) (roots : List α) : List (List α) :=
  (roots.foldl (fun c a => if c.index.contains a then c else connect next depth a c) start).found

end Components

end Dataflow
