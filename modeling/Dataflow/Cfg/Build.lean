import Dataflow.Cfg.Basic

/-!
The graph of a body. The entry leads to the first statement; a statement leads to its jump targets, to the
next statement or to the exit, whichever its form says.
-/

namespace Dataflow

inductive Cfg.Fault where
  | nowhere (pos : Nat)
  | foreign (n : Node)

def Stmt.ways (next exit : Node) : Stmt → List (EdgeKind × Option Int × Option Node)
  | .branch _ _ _ target => [(.ifTrue, none, target), (.ifFalse, none, some next)]
  | .goto target => [(.goto, none, target)]
  | .switch _ cases otherwise =>
      cases.map (fun c => (.switchCase, some c.1, c.2)) ++ [(.switchDefault, none, otherwise)]
  | .ret _ => [(.ret, none, some exit)]
  | .assign _ _ | .invoke _ _ | .nop _ => [(.fallThrough, none, some next)]

namespace Cfg

def nodeOrExit (g : Cfg) (pos : Nat) : Node := if pos < g.size then g.node pos else g.exit

def addWay (pos : Nat) (g : Cfg) (way : EdgeKind × Option Int × Option Node) : Except Fault Cfg :=
  match way.2.2 with
  | none => .error (.nowhere pos)
  | some target =>
      match g.addEdge ⟨g.node pos, target, way.1, way.2.1⟩ with
      | (.ok _, g) => .ok g
      | (.error n, _) => .error (.foreign n)

def addStmt (g : Cfg) (item : Stmt × Nat) : Except Fault Cfg :=
  (item.1.ways (g.nodeOrExit (item.2 + 1)) g.exit).foldlM (addWay item.2) g

def opened (id : Nat) (b : Body) : Cfg :=
  let g := bare id b.method b.stmts.length
  (g.addEdge ⟨g.entry, g.nodeOrExit 0, .entry, none⟩).2

def build (id : Nat) (b : Body) : Except Fault Cfg := b.stmts.zipIdx.foldlM addStmt (opened id b)

end Cfg

end Dataflow
