import Dataflow.Icfg.Basic

/-!
The interprocedural graph of a call graph. The edges within methods come first, method by method; then, for
each edge of the call graph between methods that have a graph, the call and the returns.
-/

namespace Dataflow

namespace Icfg

/-- What an edge of a control flow graph becomes: one that leaves a call passes it by. -/
def lift (b : Body) (e : Edge) : IcfgEdge :=
  match e.source, b.stmt? e.source with
  | .stmt pos method, some (.invoke call result) =>
      ⟨e.source, e.target, .callToReturn e.kind ⟨some method, pos, call, result⟩⟩
  | _, _ => ⟨e.source, e.target, .normal e.kind⟩

def inner (p : Program) (g : Cfg) : List IcfgEdge :=
  match p.body? g.method with
  | none => []
  | some b => g.edges.map (lift b)

def outer (p : Program) (graphs : OrderedMap MethodRef Cfg) (e : CallEdge) : List IcfgEdge :=
  match e.site.home.bind graphs.get?, graphs.get? e.callee, e.site.node? with
  | some caller, some callee, some site =>
      let returned := ((p.body? e.callee).map Body.returnVars).getD []
      ⟨site, callee.entry, .call e.site e.callee⟩ ::
        (caller.succs site).map fun n => ⟨callee.exit, n, .ret e.site e.callee returned⟩
  | _, _, _ => []

def bare (graphs : OrderedMap MethodRef Cfg) : Icfg where
  graphs := graphs.mapValues fun _ c => c.id
  nodes := graphs.values.flatMap Cfg.nodes
  outgoing := []
  incoming := []

def add (i : Icfg) (e : IcfgEdge) : Icfg :=
  { i with outgoing := i.outgoing ++ [e], incoming := i.incoming ++ [e] }

def join (p : Program) (g : CallGraph) (graphs : OrderedMap MethodRef Cfg) : Icfg :=
  (graphs.values.flatMap (inner p) ++ g.edges.toList.flatMap (outer p graphs)).foldl add (bare graphs)

def build (p : Program) (g : CallGraph) (graphs : OrderedMap MethodRef Cfg) : Except Error Icfg :=
  let i := join p g graphs
  if i.outgoing.all fun e => i.contains e.target then .ok i else .error .danglingEdge

/-- Why graphs cannot be joined when `drawn` of them come before something that is no graph: an edge of these
may already lead out of the graphs. -/
def refusal (drawn graphs : List Cfg) : Error :=
  if (drawn.flatMap Cfg.edges).all fun e => graphs.any (·.contains e.target) then .wrongResult "cfg"
  else .danglingEdge

end Icfg

end Dataflow
