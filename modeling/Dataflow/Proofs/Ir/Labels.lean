import Dataflow.Proofs.Cfg.Edges
import Dataflow.Proofs.Data.Maps
import Dataflow.Proofs.Ir.Scripts
import Dataflow.Workspace.Building

/-!
Finishing drafts. A draft that follows a script can be finished exactly if each label of the script stands before some
statement and each label that a jump waits for is there (`Follows.finish_ok_iff`); the body then has the statements of the
script, and each jump leads to the first statement behind its label (`Follows.resolves`). That leaves no choice, so
attempts that failed before make no difference (`finish_resolves_labels`).
-/

namespace Dataflow

namespace Stmt

theorem slots_nodup (s : Stmt) : s.slots.Nodup := by
  cases s with
  | switch v cases otherwise =>
      refine List.nodup_append.mpr ⟨List.Pairwise.map _ ?_ List.nodup_range, List.nodup_singleton _, ?_⟩
      · exact fun a b ne same => ne (Slot.case.inj same)
      · simp
  | _ => simp [slots]

theorem aimed_of_targets {s : Stmt} (each : ∀ slot ∈ s.slots, (s.target? slot).isSome = true) : s.aimed = true := by
  cases s with
  | switch v cases otherwise =>
      simp only [aimed, Bool.and_eq_true, List.all_eq_true]
      refine ⟨fun c member => ?_, each .otherwise (by simp [slots])⟩
      obtain ⟨k, bound, rfl⟩ := List.getElem_of_mem member
      simpa [target?, bound] using each (.case k) (by simp [slots, bound])
  | branch | goto => exact each .target (by simp [slots])
  | _ => rfl

end Stmt

namespace Line

structure Settled (lines : List Line) : Prop where
  ahead : ∀ before name after, lines = before ++ .label name :: after → appended after ≠ []
  there : ∀ a ∈ appended lines, ∀ w ∈ a.2, .label w.2 ∈ lines

/-- The statements are those of the lines, in order, and the targets are the first statements behind the labels that they
waited for. -/
structure Resolves (lines : List Line) (method : MethodRef) (stmts : List Stmt) : Prop where
  inOrder : stmts.map Stmt.blank = (appended lines).map Prod.fst
  targets : ∀ (i : Nat) slot node, stmts[i]?.bind (Stmt.target? slot) = some node ↔
    ∃ a name before after, (appended lines)[i]? = some a ∧ (slot, name) ∈ a.2 ∧
      lines = before ++ .label name :: after ∧ node = .stmt (appended before).length method

variable {lines : List Line} {name : String}

theorem label_mem_iff : .label name ∈ lines ↔ ∃ n, (name, n) ∈ placed lines := by
  constructor
  · intro member
    obtain ⟨before, after, rfl⟩ := List.append_of_mem member
    exact ⟨_, mem_placed_iff.mpr ⟨before, after, rfl, rfl⟩⟩
  · rintro ⟨n, member⟩
    obtain ⟨before, after, rfl, -⟩ := mem_placed_iff.mp member
    simp

theorem Resolves.unique {method : MethodRef} {stmts stmts' : List Stmt} (one : Resolves lines method stmts)
    (other : Resolves lines method stmts') : stmts = stmts' := by
  refine List.ext_getElem? fun i => ?_
  have blank : stmts[i]?.map Stmt.blank = stmts'[i]?.map Stmt.blank := by
    rw [← List.getElem?_map, ← List.getElem?_map, one.inOrder, other.inOrder]
  have targets (slot : Slot) : stmts[i]?.bind (Stmt.target? slot) = stmts'[i]?.bind (Stmt.target? slot) :=
    Option.ext fun node => (one.targets i slot node).trans (other.targets i slot node).symm
  match here : stmts[i]?, there : stmts'[i]? with
  | none, none => rfl
  | none, some t => simp [here, there] at blank
  | some s, none => simp [here, there] at blank
  | some s, some t =>
      simp only [here, there, Option.map_some, Option.some.injEq, Option.bind_some] at blank targets ⊢
      exact Stmt.eq_of_targets blank targets

end Line

namespace Draft
variable {d t : Draft} {i pos : Nat} {slot slot' : Slot} {node : Node}

def targetAt (d : Draft) (i : Nat) (slot : Slot) : Option Node := d.stmts[i]?.bind (Stmt.target? slot)

def slotsAt (d : Draft) (i : Nat) : List Slot := (d.stmts[i]?.map Stmt.slots).getD []

theorem targetAt_retarget : (d.retarget pos slot node).targetAt i slot' =
    if pos = i ∧ slot = slot' ∧ slot ∈ d.slotsAt i then some node else d.targetAt i slot' := by
  unfold targetAt retarget slotsAt
  by_cases here : pos = i
  · subst here
    cases found : d.stmts[pos]? <;> simp [found, Stmt.target?_retarget]
  · cases found : d.stmts[i]? <;> simp [found, here]

theorem slotsAt_of_blank (same : t.blank = d.blank) (i : Nat) : t.slotsAt i = d.slotsAt i := by
  have stmts : t.stmts.map Stmt.blank = d.stmts.map Stmt.blank := congrArg Draft.stmts same
  have slots (stmts : List Stmt) : stmts[i]?.map Stmt.slots = (stmts.map Stmt.blank)[i]?.map Stmt.slots := by
    cases found : stmts[i]? <;> simp [found]
  rw [slotsAt, slotsAt, slots, stmts, ← slots]

theorem targetAt_of_not_mem (absent : slot ∉ d.slotsAt i) : d.targetAt i slot = none := by
  unfold targetAt slotsAt at *
  cases found : d.stmts[i]? with
  | none => rfl
  | some s =>
      rw [found] at absent
      exact Stmt.target?_of_not_mem absent

theorem labelPos?_eq_some_iff (distinct : (d.labels.map Prod.fst).Nodup) {name : String} :
    d.labelPos? name = some pos ↔ (name, pos) ∈ d.labels := by
  have same (labels : List (String × Nat)) :
      (labels.find? (·.1 = name)).map Prod.snd = OrderedMap.lookup name labels := by
    induction labels with
    | nil => rfl
    | cons head tail ih => by_cases here : head.1 = name <;> simp [OrderedMap.lookup, here, ih]
  rw [labelPos?, same, OrderedMap.lookup_eq_some_iff distinct]

end Draft

namespace Drafting
variable {fs : List Fixup} {d t : Draft} {i : Nat} {slot : Slot}

theorem on_forM_cons (f : Fixup) (fs : List Fixup) (d : Draft) :
    Steps.on ((f :: fs).forM resolve) d = match d.labelPos? f.label with
      | none => (.error (.undefinedLabel d.method f.label), d)
      | some pos => Steps.on (fs.forM resolve) (d.retarget f.pos f.slot (.stmt pos d.method)) := by
  rw [List.forM_eq_forM, List.forM_cons, Steps.on_bind, on_resolve]
  cases d.labelPos? f.label <;> rfl

theorem forM_resolve_ok_iff : (∃ t, Steps.on (fs.forM resolve) d = (.ok (), t)) ↔
    ∀ f ∈ fs, ∃ pos, d.labelPos? f.label = some pos := by
  induction fs generalizing d with
  | nil => exact ⟨fun _ => by simp, fun _ => ⟨d, rfl⟩⟩
  | cons f fs ih =>
      rw [on_forM_cons]
      cases placed : d.labelPos? f.label with
      | none => simp [placed]
      | some pos =>
          rw [List.forall_mem_cons, ih]
          exact ⟨fun rest => ⟨⟨pos, placed⟩, rest⟩, And.right⟩

theorem targetAt_kept (ran : Steps.on (fs.forM resolve) d = (.ok (), t))
    (apart : ∀ f ∈ fs, f.pos = i → f.slot ≠ slot) : t.targetAt i slot = d.targetAt i slot := by
  induction fs generalizing d with
  | nil => cases ran; rfl
  | cons f fs ih =>
      rw [on_forM_cons] at ran
      cases placed : d.labelPos? f.label with
      | none => simp [placed] at ran
      | some pos =>
          rw [placed] at ran
          rw [ih ran fun g member => apart g (List.mem_cons_of_mem _ member), Draft.targetAt_retarget, if_neg]
          exact fun ⟨here, same, _⟩ => apart f List.mem_cons_self here same

theorem targetAt_set (ran : Steps.on (fs.forM resolve) d = (.ok (), t)) {f : Fixup} (member : f ∈ fs)
    (alone : ∀ g ∈ fs, g.pos = f.pos → g.slot = f.slot → g = f) (has : f.slot ∈ d.slotsAt f.pos) {pos : Nat}
    (placed : d.labelPos? f.label = some pos) : t.targetAt f.pos f.slot = some (.stmt pos d.method) := by
  induction fs generalizing d with
  | nil => cases member
  | cons g fs ih =>
      rw [on_forM_cons] at ran
      cases found : d.labelPos? g.label with
      | none => simp [found] at ran
      | some there =>
          rw [found] at ran
          by_cases later : f ∈ fs
          · refine ih (d := d.retarget g.pos g.slot (.stmt there d.method)) ran later
              (fun g member => alone g (List.mem_cons_of_mem _ member)) ?_ placed
            rw [Draft.slotsAt_of_blank (d.blank_retarget ..)]
            exact has
          · -- the one at hand is resolved last, and nothing sets the target again
            obtain rfl : f = g := (List.mem_cons.mp member).resolve_right later
            obtain rfl : pos = there := Option.some.inj (placed.symm.trans found)
            have last (g : Fixup) (member : g ∈ fs) (same : g.pos = f.pos) : g.slot ≠ f.slot := fun slot =>
              later (alone g (List.mem_cons_of_mem _ member) same slot ▸ member)
            rw [targetAt_kept ran last, Draft.targetAt_retarget, if_pos ⟨rfl, rfl, has⟩]

theorem finish_eq_ok_iff {b : Body} : (finish.on d).1 = .ok b ↔
    d.pending = [] ∧ ∃ t, Steps.on (d.fixups.forM resolve) d = (.ok (), t) ∧ t.body = b := by
  rw [on_finish]
  split
  · next nothing => rcases Steps.on (d.fixups.forM resolve) d with ⟨_ | _, t⟩ <;> simp [nothing]
  · next some => simp [some]

end Drafting

namespace Follows
variable {lines : List Line} {d t : Draft}

theorem pending_eq_nil_iff (follows : Follows lines d) :
    d.pending = [] ↔ ∀ before name after, lines = before ++ .label name :: after → Line.appended after ≠ [] := by
  have count (before after : List Line) (name : String) (split : lines = before ++ .label name :: after) :
      d.stmts.length = (Line.appended before).length + (Line.appended after).length := by
    simp [follows.length_eq, split, Line.appended]
  constructor
  · intro nothing before name after split last
    have placed : (name, (Line.appended before).length) ∈ d.labels := by
      have member := Line.mem_placed_iff.mpr ⟨before, after, split, rfl⟩
      simpa [← follows.labels, nothing] using member
    have early := follows.early _ placed
    simp [count before after name split, last] at early
  · intro ahead
    refine List.eq_nil_iff_forall_not_mem.mpr fun name waits => ?_
    have placed : (name, d.stmts.length) ∈ Line.placed lines := by
      rw [← follows.labels]
      exact List.mem_append_right _ (List.mem_map.mpr ⟨name, waits, rfl⟩)
    obtain ⟨before, after, split, length⟩ := Line.mem_placed_iff.mp placed
    refine ahead before name after split (List.length_eq_zero_iff.mp ?_)
    have := count before after name split
    omega

theorem labelPos?_iff (follows : Follows lines d) (nothing : d.pending = []) {name : String} {pos : Nat} :
    d.labelPos? name = some pos ↔ (name, pos) ∈ Line.placed lines := by
  have labels : d.labels = Line.placed lines := by simpa [nothing] using follows.labels
  rw [← labels]
  exact Draft.labelPos?_eq_some_iff (labels ▸ follows.distinct)

theorem finish_ok_iff (follows : Follows lines d) :
    (∃ b, (Drafting.finish.on d).1 = .ok b) ↔ Line.Settled lines := by
  have each (nothing : d.pending = []) : (∀ f ∈ d.fixups, ∃ pos, d.labelPos? f.label = some pos) ↔
      ∀ a ∈ Line.appended lines, ∀ w ∈ a.2, .label w.2 ∈ lines := by
    simp only [follows.labelPos?_iff nothing, follows.fixups, ← Line.label_mem_iff]
    constructor
    · intro all a member w waits
      obtain ⟨i, found⟩ := List.mem_iff_getElem?.mp member
      exact all ⟨i, w.1, w.2⟩ (Line.mem_fixups_iff.mpr ⟨a, found, waits⟩)
    · intro all f member
      obtain ⟨a, found, waits⟩ := Line.mem_fixups_iff.mp member
      exact all a (List.mem_of_getElem? found) _ waits
  simp only [Drafting.finish_eq_ok_iff]
  constructor
  · rintro ⟨b, nothing, t, ran, -⟩
    exact ⟨follows.pending_eq_nil_iff.mp nothing, (each nothing).mp (Drafting.forM_resolve_ok_iff.mp ⟨t, ran⟩)⟩
  · rintro ⟨ahead, there⟩
    have nothing := follows.pending_eq_nil_iff.mpr ahead
    obtain ⟨t, ran⟩ := Drafting.forM_resolve_ok_iff.mpr ((each nothing).mpr there)
    exact ⟨t.body, nothing, t, ran, rfl⟩

theorem slotsAt_eq (follows : Follows lines d) {i : Nat} {a : Stmt × List (Slot × String)}
    (found : (Line.appended lines)[i]? = some a) : d.slotsAt i = a.2.map Prod.fst := by
  have blank : d.stmts[i]?.map Stmt.blank = some a.1 := by
    rw [← List.getElem?_map, follows.stmts, List.getElem?_map, found, Option.map_some]
  obtain ⟨s, there, same⟩ := Option.map_eq_some_iff.mp blank
  rw [follows.waiting a (List.mem_of_getElem? found), Draft.slotsAt, there, ← same]
  simp

theorem exists_appended (follows : Follows lines d) {i : Nat} {slot : Slot} (has : slot ∈ d.slotsAt i) :
    ∃ a, (Line.appended lines)[i]? = some a := by
  cases there : d.stmts[i]? with
  | none => simp [Draft.slotsAt, there] at has
  | some s =>
      have bound : i < (Line.appended lines).length := follows.length_eq ▸ (List.getElem?_eq_some_iff.mp there).1
      exact ⟨_, List.getElem?_eq_getElem bound⟩

/-- A target comes to be the statement behind its label. It has one label only, since the slots of a statement are
distinct. -/
theorem targetAt_of_waiting (follows : Follows lines d) (nothing : d.pending = [])
    (ran : Steps.on (d.fixups.forM Drafting.resolve) d = (.ok (), t)) {i pos : Nat} {slot : Slot} {name : String}
    {a : Stmt × List (Slot × String)} (found : (Line.appended lines)[i]? = some a) (waits : (slot, name) ∈ a.2)
    (placed : (name, pos) ∈ Line.placed lines) : t.targetAt i slot = some (.stmt pos d.method) := by
  have waiting : (⟨i, slot, name⟩ : Fixup) ∈ d.fixups := by
    rw [follows.fixups]
    exact Line.mem_fixups_iff.mpr ⟨a, found, waits⟩
  have distinct : (a.2.map Prod.fst).Nodup := by
    rw [follows.waiting a (List.mem_of_getElem? found)]
    exact a.1.slots_nodup
  refine Drafting.targetAt_set ran waiting ?_ ?_ ((follows.labelPos?_iff nothing).mpr placed)
  · rintro ⟨i', slot', name'⟩ member rfl rfl
    rw [follows.fixups] at member
    obtain ⟨a', found', waits'⟩ := Line.mem_fixups_iff.mp member
    obtain rfl := Option.some.inj (found.symm.trans found')
    cases List.inj_on_of_nodup_map distinct waits waits' rfl
    rfl
  · rw [follows.slotsAt_eq found]
    exact List.mem_map.mpr ⟨_, waits, rfl⟩

theorem resolves (follows : Follows lines d) {b : Body} (done : (Drafting.finish.on d).1 = .ok b) :
    Line.Resolves lines d.method b.stmts := by
  obtain ⟨nothing, t, ran, rfl⟩ := Drafting.finish_eq_ok_iff.mp done
  have same := Drafting.blank_forM_resolve d.fixups d
  rw [ran] at same
  refine ⟨(congrArg Draft.stmts same :).trans follows.stmts, fun i slot node => ⟨fun leads => ?_, ?_⟩⟩
  · -- what has a target has its slot, so it waited for a label, which is placed since nothing failed
    have has : slot ∈ d.slotsAt i := by
      by_contra absent
      rw [← Draft.slotsAt_of_blank same] at absent
      have nowhere : t.targetAt i slot = none := Draft.targetAt_of_not_mem absent
      cases leads.symm.trans nowhere
    obtain ⟨a, found⟩ := follows.exists_appended has
    rw [follows.slotsAt_eq found] at has
    obtain ⟨⟨_, name⟩, waits, rfl⟩ := List.mem_map.mp has
    obtain ⟨pos, placed⟩ : ∃ pos, (name, pos) ∈ Line.placed lines := by
      have all := Drafting.forM_resolve_ok_iff.mp ⟨t, ran⟩
      simp only [follows.labelPos?_iff nothing, follows.fixups] at all
      exact all ⟨i, _, name⟩ (Line.mem_fixups_iff.mpr ⟨a, found, waits⟩)
    obtain ⟨before, after, split, rfl⟩ := Line.mem_placed_iff.mp placed
    have set := follows.targetAt_of_waiting nothing ran found waits placed
    exact ⟨a, name, before, after, found, waits, split, Option.some.inj (leads.symm.trans set)⟩
  · rintro ⟨a, name, before, after, found, waits, split, rfl⟩
    exact follows.targetAt_of_waiting nothing ran found waits (Line.mem_placed_iff.mpr ⟨before, after, split, rfl⟩)

end Follows

/-! ## Bodies in a workspace -/

theorem Program.method?_updateMethod (p : Program) (m : MethodRef) {f : MethodDecl → MethodDecl}
    (kept : ∀ decl, (f decl).sig = decl.sig) : (p.updateMethod m f).method? m = (p.method? m).map f := by
  have methods (ds : List MethodDecl) :
      (ds.map fun d => if d.sig = m.sig then f d else d).find? (·.sig = m.sig) = (ds.find? (·.sig = m.sig)).map f := by
    induction ds with
    | nil => rfl
    | cons head tail ih => by_cases here : head.sig = m.sig <;> simp [here, kept, ih]
  rw [method?, method?, updateMethod, updateClass, class?, class?]
  induction p.classes with
  | nil => rfl
  | cons head tail ih =>
      by_cases here : head.id = m.owner
      · simp [here, ClassDecl.method?, methods]
      · simpa [here] using ih

namespace Session

theorem on_instruct_finish {w : Workspace} {m : MethodRef} {decl : MethodDecl} {d t : Draft} {b : Body}
    (found : w.program.method? m = some decl) (draft : decl.draft = some d)
    (done : Drafting.finish.on d = (.ok b, t)) (own : b.method = m) :
    ∃ w', (instruct m .finish).on w = (.ok (.body b), w') ∧
      w'.program.method? m = some { decl with draft := some t, body := some b } := by
  have drafted : (draftOf m).on w = (.ok d, w) := by
    simp [draftOf, Steps.on_bind, found, draft]
  have written : (drafting m Instr.finish.exec).on w = (.ok (.body b), { w with
      program := w.program.updateMethod m fun decl => { decl with draft := some t } }) := by
    rw [drafting, Steps.on_bind, drafted]
    simp only [Instr.exec_finish, done, Except.map]
    rfl
  refine ⟨((instruct m .finish).on w).2, Prod.ext ?_ rfl, ?_⟩ <;> rw [instruct, Steps.on_bind, written]
  · rfl
  · show ((w.program.updateMethod m _).updateMethod b.method _).method? m = _
    rw [own, Program.method?_updateMethod, Program.method?_updateMethod, found]
    · rfl
    · exact fun _ => rfl
    · exact fun _ => rfl

end Session

theorem Workspace.numbered_of_body {w : Workspace} {m : MethodRef} {decl : MethodDecl} {t : Draft}
    (found : w.program.method? m = some { decl with draft := some t, body := some t.body }) {i : Nat} {s : Stmt}
    (here : t.stmts[i]? = some s) :
    w.stmt? (.stmt i m) = some s ∧ w.index (.stmt i m) = i ∧ w.methodOf? (.stmt i m) = some m := by
  have has : w.program.hasBody m = true := by simp [Program.hasBody, Program.body?, found]
  simp [stmt?, index, methodOf?, found, has, here]

theorem Draft.method_after (d : Draft) (is : List Instr) : (d.after is).method = d.method := by
  have kept : Drafting.Invariant fun t => t.method = d.method :=
    ⟨fun _ _ => id, fun _ _ _ _ => id, fun _ _ _ _ => id, fun _ _ => id, fun _ _ _ _ => id, fun _ => id⟩
  have after (is : List Instr) (t : Draft) (same : t.method = d.method) : (t.after is).method = d.method := by
    induction is generalizing t with
    | nil => exact same
    | cons i is ih => exact ih _ (i.exec_keeps kept t same)
  exact after is d rfl

theorem Draft.start_blank (method : MethodRef) (isStatic : Bool) (names : List String) :
    (Draft.start method isStatic names).blank = Draft.start method isStatic names :=
  rfl

theorem Drafting.body_eq {d : Draft} {b : Body} (done : (finish.on d).1 = .ok b) :
    b = { d.body with stmts := b.stmts } := by
  have whole : b = (finish.on d).2.body := body_of_finish (Prod.ext done rfl)
  obtain ⟨finished, same, -⟩ := blank_finish d
  have method : b.method = d.method := whole ▸ (congrArg Draft.method same :)
  have this : b.this = d.this := whole ▸ (congrArg Draft.this same :)
  have params : b.params = d.params := whole ▸ (congrArg Draft.params same :)
  have vars : b.vars = d.scope.vars := whole ▸ (congrArg (·.scope.vars) same :)
  rw [Draft.body, ← method, ← this, ← params, ← vars]

theorem Line.Resolves.aimed {lines : List Line} {method : MethodRef} {stmts : List Stmt}
    (resolves : Resolves lines method stmts) (settled : Settled lines)
    (waiting : ∀ a ∈ appended lines, a.2.map Prod.fst = a.1.slots) : ∀ s ∈ stmts, s.aimed = true := by
  intro s member
  refine Stmt.aimed_of_targets fun slot has => ?_
  obtain ⟨i, here⟩ := List.mem_iff_getElem?.mp member
  have blank : (appended lines)[i]?.map Prod.fst = some s.blank := by
    rw [← List.getElem?_map, ← resolves.inOrder, List.getElem?_map, here, Option.map_some]
  obtain ⟨a, found, same⟩ := Option.map_eq_some_iff.mp blank
  rw [← s.slots_blank, ← same, ← waiting a (List.mem_of_getElem? found)] at has
  obtain ⟨w, waits, rfl⟩ := List.mem_map.mp has
  obtain ⟨before, after, split⟩ := List.append_of_mem (settled.there a (List.mem_of_getElem? found) w waits)
  have leads := (resolves.targets i w.1 _).mpr ⟨a, w.2, before, after, found, waits, split, rfl⟩
  rw [here, Option.bind_some] at leads
  rw [leads, Option.isSome_some]

/-- Whatever instructions are given, with attempts to finish in between that fail: finishing then succeeds exactly if the
script is settled. It gives the statements of the script, in order and under their numbers, with targets at the first
statements behind their labels; it gives the same as without the earlier attempts; and the body has a graph. -/
theorem finish_resolves_labels (method : MethodRef) (isStatic : Bool) (names : List String) (is : List Instr)
    (closed : ∀ i ∈ is, i.isOpen = false)
    (failing : ∀ e ∈ (Draft.start method isStatic names).transcript is, e.1.isFinish = true → ∃ error, e.2 = .error error) :
    ((∃ b, (Drafting.finish.on ((Draft.start method isStatic names).after is)).1 = .ok b) ↔
      Line.Settled ((Draft.start method isStatic names).script is)) ∧
    ∀ b, (Drafting.finish.on ((Draft.start method isStatic names).after is)).1 = .ok b →
      Line.Resolves ((Draft.start method isStatic names).script is) method b.stmts ∧
      (Drafting.finish.on ((Draft.start method isStatic names).after (is.filter fun i => !i.isFinish))).1 = .ok b ∧
      (∀ id, ∃ g, Cfg.build id b = .ok g) ∧
      ∀ (w : Workspace) decl, w.program.method? method = some decl →
        decl.draft = some ((Draft.start method isStatic names).after is) →
        ∃ w', (Session.instruct method .finish).on w = (.ok (.body b), w') ∧ w'.program.body? method = some b ∧
          ∀ (i : Nat) s, b.stmts[i]? = some s → w'.stmt? (.stmt i method) = some s ∧
            w'.index (.stmt i method) = i ∧ w'.methodOf? (.stmt i method) = some method := by
  have follows := (Follows.start method isStatic names).run closed
  rw [List.nil_append] at follows
  have own : ((Draft.start method isStatic names).after is).method = method := Draft.method_after ..
  refine ⟨follows.finish_ok_iff, fun b done => ?_⟩
  have settled := follows.finish_ok_iff.mp ⟨b, done⟩
  have resolves := follows.resolves done
  rw [own] at resolves
  refine ⟨resolves, ?_, ?_, fun w decl found draft => ?_⟩
  · -- without the attempts, the draft is the same but for targets, and the script is the same
    obtain ⟨blank, script⟩ := Draft.run_blank closed failing
    rw [Draft.start_blank] at blank script
    have still : ∀ i ∈ is.filter fun i => !i.isFinish, i.isOpen = false := fun i member =>
      closed i (List.mem_filter.mp member).1
    have follows' := (Follows.start method isStatic names).run still
    rw [List.nil_append, ← script] at follows'
    obtain ⟨b', done'⟩ := follows'.finish_ok_iff.mpr settled
    have resolves' := follows'.resolves done'
    rw [Draft.method_after] at resolves'
    have stmts : b.stmts = b'.stmts := resolves.unique resolves'
    rw [done', Drafting.body_eq done, Drafting.body_eq done', stmts]
    exact congrArg (fun d : Draft => Except.ok { d.body with stmts := b'.stmts }) blank.symm
  · exact Cfg.exists_build (resolves.aimed settled follows.waiting) (Body.finished_of_instrs done).jumps_inside
  · have same := Drafting.body_of_finish (Prod.ext done rfl)
    have home : b.method = method := by rw [Drafting.body_eq done]; exact own
    obtain ⟨w', ran, found'⟩ := Session.on_instruct_finish found draft (Prod.ext done rfl) home
    refine ⟨w', ran, by simp [Program.body?, found'], fun i s here => ?_⟩
    rw [same] at here found'
    exact Workspace.numbered_of_body found' here

namespace Detour

def method : MethodRef := ⟨⟨0, "Main"⟩, ⟨"detour", [.int], .int⟩⟩

def instrs : List Instr := [
  .switch "n" [(0, "zero"), (1, "done")] "done",
  .label "zero",
  .nop "zero",
  .finish,
  .label "zero",
  .goto "done",
  .label "done",
  .label "last",
  .finish,
  .ret (some "n")]

def n : Var := ⟨"n", .int, some method, 0⟩

def body : Body where
  method := method
  this := none
  params := [n]
  stmts := [
    .switch n [(0, some (.stmt 1 method)), (1, some (.stmt 3 method))] (some (.stmt 3 method)),
    .nop "zero",
    .goto (some (.stmt 3 method)),
    .ret (some n)]
  vars := [n]

def draft : Draft := (Draft.start method true ["n"]).after instrs

def workspace : Workspace :=
  { Workspace.empty with program := ⟨[⟨⟨0, "Main"⟩, none, [], false, false, [⟨method.sig, true, false, some draft, none⟩]⟩]⟩ }

set_option maxRecDepth 10000 in
theorem detour_resolved :
    (draft.labels.map Prod.fst = ["zero", "done", "last"] ∧
      ((Draft.start method true ["n"]).transcript instrs).map (fun e => e.2.isOk) =
        [true, true, true, false, false, true, true, true, false, true]) ∧
    (Line.Settled ((Draft.start method true ["n"]).script instrs) ∧
      Line.Resolves ((Draft.start method true ["n"]).script instrs) method body.stmts) ∧
    (Drafting.finish.on ((Draft.start method true ["n"]).after (instrs.filter fun i => !i.isFinish))).1 = .ok body ∧
    (∃ g, Cfg.build 0 body = .ok g) ∧
    ∃ w', (Session.instruct method .finish).on workspace = (.ok (.body body), w') ∧ w'.index (.stmt 3 method) = 3 := by
  have results : ((Draft.start method true ["n"]).transcript instrs).map (fun e => e.2.isOk) =
      [true, true, true, false, false, true, true, true, false, true] := rfl
  have failing : ∀ e ∈ (Draft.start method true ["n"]).transcript instrs, e.1.isFinish = true → e.2.isOk = false := by
    decide
  have done : (Drafting.finish.on draft).1 = .ok body := rfl
  obtain ⟨settled, each⟩ := finish_resolves_labels method true ["n"] instrs (by decide) fun e member isFinish => by
    have failed := failing e member isFinish
    cases same : e.2 with
    | error error => exact ⟨error, rfl⟩
    | ok given => rw [same] at failed; cases failed
  obtain ⟨resolves, without, graph, finishes⟩ := each body done
  obtain ⟨w', ran, -, numbered⟩ := finishes workspace _ rfl rfl
  exact ⟨⟨rfl, results⟩, ⟨settled.mp ⟨body, done⟩, resolves⟩, without, graph 0, w', ran, (numbered 3 _ rfl).2.1⟩

end Detour

end Dataflow
