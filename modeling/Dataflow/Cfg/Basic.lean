import Dataflow.Data.OrderedSet
import Dataflow.Data.Search
import Dataflow.Ir.Body

/-!
Control flow graphs. A graph has an entry, one node for each statement of a body, and an exit. Its edges are
listed twice, as they leave their source and as they enter their target.
-/

namespace Dataflow

inductive EdgeKind where
  | entry | fallThrough | goto | ifTrue | ifFalse | switchCase | switchDefault | ret | exceptional
deriving DecidableEq

namespace EdgeKind

def all : List EdgeKind :=
  [.entry, .fallThrough, .goto, .ifTrue, .ifFalse, .switchCase, .switchDefault, .ret, .exceptional]

def text : EdgeKind → String
  | .entry => "entry"
  | .fallThrough => "fall-through"
  | .goto => "goto"
  | .ifTrue => "if-true"
  | .ifFalse => "if-false"
  | .switchCase => "switch-case"
  | .switchDefault => "switch-default"
  | .ret => "return"
  | .exceptional => "exceptional"

def ofText? (s : String) : Option EdgeKind := all.find? (·.text == s)

end EdgeKind

structure Edge where
  source : Node
  target : Node
  kind : EdgeKind
  caseValue : Option Int
deriving DecidableEq

def Edge.text (index : Node → Int) (e : Edge) : String :=
  let value := match e.caseValue with
    | none => ""
    | some v => "(" ++ toString v ++ ")"
  "CFGEdge(" ++ toString (index e.source) ++ " -> " ++ toString (index e.target) ++ ", " ++
    e.kind.text ++ value ++ ")"

structure Cfg where
  id : Nat
  method : MethodRef
  size : Nat
  outgoing : List Edge
  incoming : List Edge

namespace Cfg

def bare (id : Nat) (method : MethodRef) (size : Nat) : Cfg := ⟨id, method, size, [], []⟩

def entry (g : Cfg) : Node := .entry g.id

def exit (g : Cfg) : Node := .exit g.id

def node (g : Cfg) (pos : Nat) : Node := .stmt pos g.method

def nodes (g : Cfg) : List Node := g.entry :: (List.range g.size).map g.node ++ [g.exit]

def contains (g : Cfg) : Node → Bool
  | .entry id => id = g.id
  | .stmt pos method => method = g.method && pos < g.size
  | .exit id => id = g.id
  | .stray _ => false

theorem mem_nodes {g : Cfg} {n : Node} : n ∈ g.nodes ↔ g.contains n = true := by
  cases n with
  | entry id => simp [nodes, contains, entry, exit, node]
  | stmt pos method =>
      simp only [nodes, contains, entry, exit, node, List.cons_append, List.mem_cons, List.mem_append,
        List.mem_map, List.mem_range, reduceCtorEq, Node.stmt.injEq, List.not_mem_nil, or_false, false_or,
        Bool.and_eq_true, decide_eq_true_eq]
      exact ⟨fun ⟨k, bound, samePos, sameMethod⟩ => ⟨sameMethod.symm, samePos ▸ bound⟩,
        fun ⟨sameMethod, bound⟩ => ⟨pos, bound, rfl, sameMethod.symm⟩⟩
  | exit id => simp [nodes, contains, entry, exit, node]
  | stray stamp => simp [nodes, contains, entry, exit, node]

def outEdges (g : Cfg) (n : Node) : List Edge := g.outgoing.filter (·.source = n)

def inEdges (g : Cfg) (n : Node) : List Edge := g.incoming.filter (·.target = n)

def preds (g : Cfg) (n : Node) : List Node := OrderedSet.distinct ((g.inEdges n).map Edge.source)

def succs (g : Cfg) (n : Node) : List Node := OrderedSet.distinct ((g.outEdges n).map Edge.target)

theorem mem_succs {g : Cfg} {n m : Node} :
    m ∈ g.succs n ↔ ∃ e ∈ g.outgoing, e.source = n ∧ e.target = m := by
  simp [succs, outEdges, and_assoc]

theorem mem_preds {g : Cfg} {n m : Node} :
    m ∈ g.preds n ↔ ∃ e ∈ g.incoming, e.target = n ∧ e.source = m := by
  simp [preds, inEdges, and_assoc]

def edges (g : Cfg) : List Edge := g.nodes.flatMap g.outEdges

/-- Draws an edge, which leaves its source even if its target is no node of the graph. The error is the end
that is no node. -/
def addEdge (g : Cfg) (e : Edge) : Except Node Unit × Cfg :=
  if !g.contains e.source then (.error e.source, g)
  else
    let g := { g with outgoing := g.outgoing ++ [e] }
    if !g.contains e.target then (.error e.target, g)
    else (.ok (), { g with incoming := g.incoming ++ [e] })

def within {α : Type} (g : Cfg) (f : Node → α) (n : Node) : Except Node α :=
  if g.contains n then .ok (f n) else .error n

def reachableFrom (g : Cfg) (start : Node) : Except Node (List Node) :=
  let order := Search.reach g.succs (start :: g.nodes ++ g.outgoing.map Edge.target) [start]
  match order.find? fun n => !g.contains n with
  | some n => .error n
  | none => .ok order

def described (g : Cfg) : String :=
  "CFG(method=" ++ g.method.text ++ ", nodes=" ++ toString g.nodes.length ++
    ", edges=" ++ toString g.edges.length ++ ")"

end Cfg

end Dataflow
