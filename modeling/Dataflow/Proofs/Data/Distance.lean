import Dataflow.Proofs.Data.Search
import Mathlib.Order.Lattice.Nat

/-!
Breadth-first search works outward. While it visits what is `depth` steps away from its start, the front of the queue
holds what is that far away, the rest of it what is one step further, and nothing nearer is left to visit
(`Levelled`). So elements are visited in the order of their distances (`Visits.pairwise_distance`).
-/

namespace Dataflow

namespace Search
variable {α : Type} {next : α → List α} {start : α}

inductive Walk (next : α → List α) (start : α) : Nat → α → Prop where
  | stay : Walk next start 0 start
  | step {n : Nat} {a b : α} : Walk next start n a → b ∈ next a → Walk next start (n + 1) b

theorem Walk.zero_iff {a : α} : Walk next start 0 a ↔ a = start := by
  constructor
  · rintro ⟨⟩
    rfl
  · rintro rfl
    exact .stay

theorem Walk.succ_iff {n : Nat} {b : α} : Walk next start (n + 1) b ↔ ∃ a, Walk next start n a ∧ b ∈ next a := by
  constructor
  · rintro (_ | ⟨walk, after⟩)
    exact ⟨_, walk, after⟩
  · rintro ⟨a, walk, after⟩
    exact .step walk after

theorem reaches_iff_walk {a : α} : Reaches next start a ↔ ∃ n, Walk next start n a := by
  constructor
  · intro reaches
    induction reaches with
    | refl => exact ⟨0, .stay⟩
    | tail _ after ih =>
        obtain ⟨n, walk⟩ := ih
        exact ⟨n + 1, .step walk after⟩
  · rintro ⟨n, walk⟩
    induction walk with
    | stay => exact .refl
    | step _ after ih => exact ih.tail after

noncomputable def distance (next : α → List α) (start a : α) : Nat := sInf {n | Walk next start n a}

theorem distance_eq {n : Nat} {a : α} (walk : Walk next start n a) (least : ∀ m < n, ¬ Walk next start m a) :
    distance next start a = n := by
  apply le_antisymm
  · exact Nat.sInf_le walk
  · apply le_csInf ⟨n, walk⟩
    intro m shorter
    exact not_lt.mp fun less => least m less shorter

/-- The state of the search while it visits what is `depth` steps away: `now` is that far away and `soon` one step
further; what is nearer is visited, and what is next to something visited is visited or queued. -/
structure Levelled (next : α → List α) (start : α) (depth : Nat) (visited now soon : List α) : Prop where
  here : ∀ a ∈ now, Walk next start depth a
  ahead : ∀ a ∈ soon, Walk next start (depth + 1) a
  nearer : ∀ n < depth, ∀ a, Walk next start n a → a ∈ visited
  level : ∀ a, Walk next start depth a → a ∈ visited ∨ a ∈ now
  closed : ∀ a ∈ visited, ∀ b ∈ next a, b ∈ visited ∨ b ∈ now ∨ b ∈ soon

namespace Levelled
variable {depth : Nat} {visited now soon : List α}

theorem initial : Levelled next start 0 [] [start] [] where
  here a front := by
    rw [List.mem_singleton.mp front]
    exact .stay
  ahead := by simp
  nearer := by simp
  level a walk := by simp [Walk.zero_iff.mp walk]
  closed := by simp

theorem deepen (levelled : Levelled next start depth visited [] soon) :
    Levelled next start (depth + 1) visited soon [] where
  here := levelled.ahead
  ahead := by simp
  nearer n less a walk := by
    rcases Nat.lt_succ_iff_lt_or_eq.mp less with nearer | rfl
    · exact levelled.nearer n nearer a walk
    · simpa using levelled.level a walk
  -- All that is one step nearer is visited by now, so what is next to it is visited or queued.
  level b walk := by
    obtain ⟨a, before, after⟩ := Walk.succ_iff.mp walk
    have known : a ∈ visited := by simpa using levelled.level a before
    simpa using levelled.closed a known b after
  closed a known b after := by simpa using levelled.closed a known b after

variable {a : α} {queue : List α}

theorem front (levelled : Levelled next start depth visited now soon) (queued : a :: queue = now ++ soon) :
    ∃ depth' now' soon', depth ≤ depth' ∧ Levelled next start depth' visited (a :: now') soon' ∧
      queue = now' ++ soon' := by
  cases now with
  | cons first now =>
      rw [List.cons_append, List.cons.injEq] at queued
      obtain ⟨rfl, rest⟩ := queued
      exact ⟨depth, now, soon, le_refl depth, levelled, rest⟩
  | nil =>
      rw [List.nil_append] at queued
      subst queued
      exact ⟨depth + 1, queue, [], Nat.le_succ depth, levelled.deepen, (List.append_nil queue).symm⟩

theorem skip (known : a ∈ visited) (levelled : Levelled next start depth visited (a :: now) soon) :
    Levelled next start depth visited now soon where
  here b front := levelled.here b (List.mem_cons_of_mem _ front)
  ahead := levelled.ahead
  nearer := levelled.nearer
  level b walk := by
    rcases levelled.level b walk with before | front
    · exact .inl before
    · rcases List.mem_cons.mp front with rfl | later
      · exact .inl known
      · exact .inr later
  closed b before c after := by
    rcases levelled.closed b before c after with done | front | back
    · exact .inl done
    · rcases List.mem_cons.mp front with rfl | later
      · exact .inl known
      · exact .inr (.inl later)
    · exact .inr (.inr back)

theorem visit (levelled : Levelled next start depth visited (a :: now) soon) :
    Levelled next start depth (visited ++ [a]) now (soon ++ next a) where
  here b front := levelled.here b (List.mem_cons_of_mem _ front)
  ahead b queued := by
    rcases List.mem_append.mp queued with before | after
    · exact levelled.ahead b before
    · exact .step (levelled.here a List.mem_cons_self) after
  nearer n less b walk := List.mem_append_left _ (levelled.nearer n less b walk)
  level b walk := by
    have known := levelled.level b walk
    simp only [List.mem_cons, List.mem_append, List.not_mem_nil, or_false] at known ⊢
    tauto
  closed b member c after := by
    rcases List.mem_append.mp member with before | here
    · have known := levelled.closed b before c after
      simp only [List.mem_cons, List.mem_append, List.not_mem_nil, or_false] at known ⊢
      tauto
    · rw [List.mem_singleton.mp here] at after
      exact .inr (.inr (List.mem_append_right _ after))

theorem distance_eq (levelled : Levelled next start depth visited (a :: now) soon) (fresh : a ∉ visited) :
    distance next start a = depth :=
  Search.distance_eq (levelled.here a List.mem_cons_self) fun n less walk => fresh (levelled.nearer n less a walk)

end Levelled

theorem Visits.levels {depth : Nat} {queue visited later now soon : List α} (visits : Visits next queue visited later)
    (levelled : Levelled next start depth visited now soon) (queued : queue = now ++ soon) :
    later.Pairwise (fun a b => distance next start a ≤ distance next start b) ∧
      ∀ a ∈ later, depth ≤ distance next start a := by
  -- What comes first may begin the next level, so the depth is taken anew at every step.
  induction visits generalizing depth now soon with
  | done => simp
  | again known _ ih =>
      obtain ⟨depth', now', soon', deeper, here, rest⟩ := levelled.front queued
      obtain ⟨sorted, beyond⟩ := ih (here.skip known) rest
      exact ⟨sorted, fun b member => deeper.trans (beyond b member)⟩
  | @visit a queue visited later fresh _ ih =>
      obtain ⟨depth', now', soon', deeper, here, rest⟩ := levelled.front queued
      obtain ⟨sorted, beyond⟩ := ih here.visit (by rw [rest, List.append_assoc])
      have exactly : distance next start a = depth' := here.distance_eq fresh
      constructor
      · apply List.Pairwise.cons _ sorted
        intro b member
        rw [exactly]
        exact beyond b member
      · intro b member
        rcases List.mem_cons.mp member with rfl | later
        · exact deeper.trans exactly.ge
        · exact deeper.trans (beyond b later)

theorem Visits.pairwise_distance {order : List α} (visits : Visits next [start] [] order) :
    order.Pairwise fun a b => distance next start a ≤ distance next start b :=
  (visits.levels .initial rfl).1

theorem Visits.head?_eq {order : List α} (visits : Visits next [start] [] order) : order.head? = some start := by
  cases visits with
  | again known _ => simp at known
  | visit _ _ => rfl

end Search

end Dataflow
