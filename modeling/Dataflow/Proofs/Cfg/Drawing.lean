import Dataflow.Proofs.Cfg.Edges

/-!
Edges drawn one after the other, by calls of which some fail. A call whose edge starts outside the graph changes
nothing. One whose edge starts at a node and leads out of the graph fails halfway: the edge stays listed where it starts
(`strands`). These are all that is amiss after any calls (`mirrored_but_stranded`): every other edge is listed equally
often at both its ends, and predecessors and successors are converse to each other.
-/

namespace Dataflow

namespace Cfg

def strands (g : Cfg) (e : Edge) : Bool := g.contains e.source && !g.contains e.target

def accepts (g : Cfg) (e : Edge) : Bool := g.contains e.source && g.contains e.target

def drawEach (g : Cfg) (calls : List Edge) : Cfg := calls.foldl (fun g e => (g.addEdge e).2) g

structure MirroredBut (stranded : List Edge) (g : Cfg) : Prop where
  alike : ∀ e, (g.outEdges e.source).count e = (g.inEdges e.target).count e + stranded.count e
  ends : ∀ e ∈ g.edges, e.source ∈ g.nodes ∧ (e.target ∈ g.nodes ∨ e ∈ stranded)
  converse : ∀ p n, n ∈ g.nodes → (p ∈ g.preds n ↔ n ∈ g.succs p)

def listing (g : Cfg) (out into : List Edge) : Cfg :=
  { g with outgoing := g.outgoing ++ out, incoming := g.incoming ++ into }

section Listing
variable (g : Cfg) (out into : List Edge)

@[simp] theorem contains_listing : (g.listing out into).contains = g.contains := by
  funext n
  cases n <;> rfl

@[simp] theorem nodes_listing : (g.listing out into).nodes = g.nodes := rfl

@[simp] theorem strands_listing : (g.listing out into).strands = g.strands := by
  funext e
  simp [strands]

theorem listing_listing (out' into' : List Edge) :
    (g.listing out into).listing out' into' = g.listing (out ++ out') (into ++ into') := by
  simp [listing]

end Listing

theorem addEdge_eq (g : Cfg) (e : Edge) :
    g.addEdge e =
      if g.accepts e then (.ok (), g.listing [e] [e])
      else if g.strands e then (.error e.target, g.listing [e] [])
      else (.error e.source, g) := by
  have same : ({ g with outgoing := g.outgoing ++ [e] } : Cfg).contains e.target = g.contains e.target := by
    cases e.target <;> rfl
  unfold addEdge
  by_cases source : g.contains e.source <;> by_cases target : g.contains e.target <;>
    simp [accepts, strands, source, target, same, listing]

/-- What a run of calls leaves: where an edge starts it is listed if that is a node, where it leads only if both are. -/
theorem drawEach_eq (g : Cfg) (calls : List Edge) :
    g.drawEach calls = g.listing (calls.filter fun e => g.contains e.source) (calls.filter g.accepts) := by
  induction calls generalizing g with
  | nil => simp [drawEach, listing]
  | cons e calls ih =>
      have first : (g.addEdge e).2 = g.listing ([e].filter fun e => g.contains e.source) ([e].filter g.accepts) := by
        rw [addEdge_eq]
        by_cases source : g.contains e.source <;> by_cases target : g.contains e.target <;>
          simp [accepts, strands, source, target, listing]
      have accepts_eq (out into : List Edge) : (g.listing out into).accepts = g.accepts := by
        funext e
        simp [accepts]
      have rest := ih (g.addEdge e).2
      rw [first, contains_listing, accepts_eq, listing_listing, ← List.filter_append, ← List.filter_append] at rest
      rw [drawEach, List.foldl_cons, first]
      exact rest

theorem count_filter_eq {p : Edge → Bool} {e : Edge} {es : List Edge} :
    (es.filter p).count e = if p e then es.count e else 0 := by
  split
  · next holds => exact List.count_filter holds
  · next fails => exact List.count_eq_zero.mpr fun member => fails (List.mem_filter.mp member).2

theorem Mirrored.mirroredBut {g : Cfg} (mirrored : g.Mirrored) (calls : List Edge) :
    (g.drawEach calls).MirroredBut (calls.filter g.strands) where
  alike e := by
    rw [outEdges, inEdges, List.count_filter (by simp), List.count_filter (by simp), drawEach_eq]
    simp only [listing, List.count_append, count_filter_eq, mirrored.alike]
    by_cases source : g.contains e.source <;> by_cases target : g.contains e.target <;>
      simp [accepts, strands, source, target]
  ends e edge := by
    obtain ⟨n, inside, leaves⟩ := List.mem_flatMap.mp edge
    obtain ⟨listed, source⟩ := List.mem_filter.mp leaves
    rw [decide_eq_true_eq] at source
    refine ⟨source ▸ inside, ?_⟩
    rw [drawEach_eq] at inside listed ⊢
    rw [nodes_listing, mem_nodes, ← source] at inside
    rw [nodes_listing, mem_nodes]
    rcases List.mem_append.mp listed with before | called
    · exact .inl (mirrored.inside e before).2
    · by_cases target : g.contains e.target
      · exact .inl target
      · exact .inr (List.mem_filter.mpr ⟨(List.mem_filter.mp called).1, by simp [strands, inside, target]⟩)
  converse p n inside := by
    rw [drawEach_eq] at inside ⊢
    rw [nodes_listing, mem_nodes] at inside
    -- at a node, the edges that enter are all that lead there
    have same (e : Edge) (leads : e.target = n) :
        e ∈ (g.listing (calls.filter fun e => g.contains e.source) (calls.filter g.accepts)).incoming ↔
          e ∈ (g.listing (calls.filter fun e => g.contains e.source) (calls.filter g.accepts)).outgoing := by
      simp [listing, mirrored.alike, accepts, leads, inside]
    rw [mem_preds, mem_succs]
    constructor
    · rintro ⟨e, edge, leads, starts⟩
      exact ⟨e, (same e leads).mp edge, starts, leads⟩
    · rintro ⟨e, edge, starts, leads⟩
      exact ⟨e, (same e leads).mpr edge, leads, starts⟩

/-- After any calls on the graph of a body, failing ones among them, edges agree at both ends but for the stranded ones,
and a further call that fails adds at most one stranded edge where it starts. -/
theorem mirrored_but_stranded {id : Nat} {b : Body} {g : Cfg} (built : build id b = .ok g) (calls : List Edge) :
    (g.drawEach calls).MirroredBut (calls.filter g.strands) ∧
      ∀ e n h, (g.drawEach calls).addEdge e = (.error n, h) →
        h.inEdges = (g.drawEach calls).inEdges ∧
          (g.strands e = false → h = g.drawEach calls) ∧
          (g.strands e = true → ∀ m, h.outEdges m = (g.drawEach calls).outEdges m ++ if e.source = m then [e] else []) := by
  refine ⟨(Drawn.built built).mirrored.mirroredBut calls, fun e n h failed => ?_⟩
  have same : (g.drawEach calls).strands e = g.strands e := by rw [drawEach_eq, strands_listing]
  rw [addEdge_eq] at failed
  split at failed
  · cases failed
  · rw [same] at failed
    split at failed
    · next strands =>
        cases failed
        refine ⟨?_, by simp [strands], fun _ m => ?_⟩
        · funext m
          simp [inEdges, listing]
        · simp only [outEdges, listing, List.filter_append, List.filter_cons, List.filter_nil, decide_eq_true_eq]
    · next strands =>
        cases failed
        exact ⟨rfl, fun _ => rfl, fun strands' => absurd strands' strands⟩

end Cfg

namespace Idle

def method : MethodRef := ⟨⟨0, "Main"⟩, ⟨"idle", [], .int⟩⟩

def body : Body := ⟨method, none, [], [.nop "nop"], []⟩

def graph : Cfg := (Cfg.bare 0 method 1).drawAll ((Cfg.bare 0 method 1).edgesOf body)

def astray : Edge := ⟨.stmt 0 method, .stray 0, .exceptional, none⟩

def back : Edge := ⟨.stmt 0 method, .stmt 0 method, .goto, none⟩

theorem idle_mirrored : Cfg.build 0 body = .ok graph ∧
    (graph.drawEach [astray, back, astray, back]).MirroredBut [astray, astray] ∧
    ((graph.drawEach [astray, back, astray, back]).inEdges back.target).count back = 2 := by
  have built : Cfg.build 0 body = .ok graph := rfl
  exact ⟨built, (Cfg.mirrored_but_stranded built [astray, back, astray, back]).1, by decide⟩

/-- A call that fails does change a list of edges, and the edge it leaves has no counterpart at its other end. -/
theorem astray_lingers : ∃ h, Cfg.build 0 body = .ok graph ∧ graph.addEdge astray = (.error astray.target, h) ∧
    h.outEdges astray.source ≠ graph.outEdges astray.source ∧
    (h.outEdges astray.source).count astray ≠ (h.inEdges astray.target).count astray ∧
    astray ∈ h.edges ∧ astray.target ∉ h.nodes ∧
    astray.target ∈ h.succs astray.source ∧ astray.source ∉ h.preds astray.target :=
  ⟨(graph.addEdge astray).2, rfl, rfl, by decide, by decide, by decide, by decide, by decide, by decide⟩

end Idle

end Dataflow
