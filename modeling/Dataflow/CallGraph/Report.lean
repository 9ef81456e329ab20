import Dataflow.CallGraph.Basic

/-!
Figures, a summary and DOT text of a call graph.
-/

namespace Dataflow

structure CallGraph.Figures where
  methods : Nat
  entries : Nat
  edges : Nat
  sites : Nat
  unresolved : Nat
  ofKind : CallKind → Nat
  components : Nat
  recursive : Nat

namespace CallGraph

def figures (g : CallGraph) (p : Program) : Figures :=
  let sites := g.reachable.toList.flatMap p.sites
  { methods := g.reachable.size
    entries := g.entries.size
    edges := g.edges.size
    sites := sites.length
    unresolved := sites.countP fun s => !g.bySite.contains s
    ofKind := fun kind => g.edges.toList.countP (·.kind = kind)
    components := (g.components p).length
    recursive := (g.recursiveGroups p).length }

def summary (g : CallGraph) (p : Program) : String :=
  let f := g.figures p
  let line := fun m => "  " ++ m.text ++ ": calls " ++ Text.bracketed ((g.callees p m).map MethodRef.text) ++
    ", called by " ++ Text.bracketed ((g.callers m).map MethodRef.text)
  Text.join "\n" (["Call Graph Summary",
    "  Reachable methods:    " ++ toString f.methods,
    "  Entry methods:        " ++ toString f.entries,
    "  Total edges:          " ++ toString f.edges,
    "  Call sites:           " ++ toString f.sites,
    "  Unresolved sites:     " ++ toString f.unresolved,
    "  Static calls:         " ++ toString (f.ofKind .static),
    "  Special calls:        " ++ toString (f.ofKind .special),
    "  Virtual calls:        " ++ toString (f.ofKind .virtual),
    "  Interface calls:      " ++ toString (f.ofKind .interface),
    "  SCCs:                 " ++ toString f.components,
    "  Recursive SCCs:       " ++ toString f.recursive,
    "",
    "Methods:"] ++ g.reachable.toList.map line)

def edgeStyle : CallKind → String
  | .static => ""
  | .special => ", color=gray40"
  | .virtual => ", style=dashed, color=blue"
  | .interface => ", style=dashed, color=purple"

def dotEdge (g : CallGraph) (e : CallEdge) : Except Error String :=
  let number := fun m => g.reachable.toList.idxOf? m
  match e.site.home.bind number, number e.callee with
  | some i, some j => .ok ("  m" ++ toString i ++ " -> m" ++ toString j ++ " [label=\"" ++ e.kind.text ++
      ":" ++ toString e.site.index ++ "\"" ++ edgeStyle e.kind ++ "];")
  | _, _ => .error .unmarkedMethod

def dot (g : CallGraph) (title : Option String) : Except Error String := do
  let title := match title with
    | none | some "" => []
    | some t => ["  label=\"" ++ t ++ "\";"]
  let node := fun (item : MethodRef × Nat) =>
    let style := if g.entries.contains item.1 then "style=filled, fillcolor=\"#ccffcc\", shape=invhouse"
      else "style=filled, fillcolor=\"#ddeeff\""
    "  m" ++ toString item.2 ++ " [label=\"" ++ Text.escapeDouble item.1.text ++ "\", " ++ style ++ "];"
  let edges ← g.edges.toList.mapM g.dotEdge
  return Text.join "\n" (["digraph CallGraph \x7b", "  rankdir=TB;"] ++ title ++
    ["  node [shape=box, fontname=\"Helvetica\", fontsize=10];"] ++
    g.reachable.toList.zipIdx.map node ++ edges ++ ["\x7d"])

end CallGraph

end Dataflow
