import Dataflow.Cfg.Basic

/-!
Graphs as DOT text.
-/

namespace Dataflow

namespace Cfg

def colour (g : Cfg) (n : Node) : String :=
  if n = g.entry then ", style=filled, fillcolor=\"#ccffcc\""
  else if n = g.exit then ", style=filled, fillcolor=\"#ffcccc\""
  else ""

def edgeStyle : EdgeKind → String
  | .ifTrue => ", color=green, fontcolor=green"
  | .ifFalse => ", color=red, fontcolor=red"
  | .exceptional => ", style=dotted"
  | _ => ""

def dot (g : Cfg) (title : Option String) (index : Node → Int) (shown : Node → String) : String :=
  let title := match title with
    | none | some "" => g.method.text
    | some t => t
  let box := fun n => "S" ++ toString (index n + 1)
  let node := fun n => "  " ++ box n ++ " [label=\"" ++ toString (index n) ++ ": " ++
    Text.escapeDouble (shown n) ++ "\"" ++ g.colour n ++ "];"
  let edge := fun (e : Edge) =>
    let value := match e.caseValue with
      | none => ""
      | some v => ": " ++ toString v
    "  " ++ box e.source ++ " -> " ++ box e.target ++ " [label=\"" ++ e.kind.text ++ value ++ "\"" ++
      edgeStyle e.kind ++ "];"
  Text.join "\n" (["digraph CFG \x7b", "  label=\"" ++ title ++ "\";",
    "  node [shape=box, fontname=monospace, fontsize=10];"] ++
    g.nodes.map node ++ g.edges.map edge ++ ["\x7d"])

end Cfg

end Dataflow
