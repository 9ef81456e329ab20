import Dataflow.Icfg.Basic

/-!
Interprocedural graphs as DOT text, one cluster for each method.
-/

namespace Dataflow

namespace Icfg

def edgeStyle : Passage → String
  | .normal _ => ""
  | .callToReturn _ _ => ", style=dotted"
  | .call _ _ => ", color=blue, fontcolor=blue"
  | .ret _ _ _ => ", color=red, fontcolor=red"

def dot (i : Icfg) (title : Option String) (nodesOf : MethodRef → List Node) (index : Node → Int)
    (shown : Node → String) : String :=
  let title := match title with
    | none | some "" => []
    | some t => ["  label=\"" ++ t ++ "\";"]
  let name := fun n => "n" ++ toString (i.nodes.idxOf n)
  let node := fun n => "    " ++ name n ++ " [label=\"" ++ toString (index n) ++ ": " ++
    Text.escapeDouble (shown n) ++ "\"];"
  let cluster := fun (item : MethodRef × Nat) =>
    ["  subgraph cluster_" ++ toString item.2 ++ " \x7b",
      "    label=\"" ++ Text.escapeDouble item.1.text ++ "\";"] ++
      (nodesOf item.1).map node ++ ["  \x7d"]
  let edge := fun (e : IcfgEdge) => "  " ++ name e.source ++ " -> " ++ name e.target ++ " [label=\"" ++
    e.passage.text ++ "\"" ++ edgeStyle e.passage ++ "];"
  Text.join "\n" (["digraph ICFG \x7b"] ++ title ++ ["  node [shape=box, fontname=monospace, fontsize=10];"] ++
    i.methods.zipIdx.flatMap cluster ++ (i.nodes.flatMap i.outEdges).map edge ++ ["\x7d"])

end Icfg

end Dataflow
