import Dataflow.Data.Components
import Dataflow.Proofs.Data.Maps
import Dataflow.Proofs.Data.Search
import Mathlib.Data.List.Nodup

/-!
The depth-first pass finds the strongly connected components. An element is active while the search is within it;
the active elements are a path. The invariant (`Sound`) says of the stack that active elements reach whatever lies
above them and that everything on it reaches back to an active element, and of the groups found so far that they are
strongly connected and lead only to themselves and to groups found before (`Layered`). What is said of `low` is local
to the search of one element (`Scanned`): it bounds the edges that lead below that element on the stack, and if it is
less than the number of the element, it is the number of something that the element reaches. So an element whose `low`
is its own number is left by no edge that goes below it, and what lies above it is its component.
-/

namespace Dataflow

namespace Components
open Search (Reaches)
variable {α : Type} {next : α → List α} {found earlier later : List (List α)} {group : List α} {a b : α}

/-! ## Groups in layers -/

structure Layer (next : α → List α) (before : List (List α)) (group : List α) : Prop where
  nonempty : group ≠ []
  connected : ∀ a ∈ group, ∀ b ∈ group, Reaches next a b
  closed : ∀ a ∈ group, ∀ b ∈ next a, b ∈ group ∨ b ∈ before.flatten

def Layered (next : α → List α) (found : List (List α)) : Prop :=
  ∀ before group after, found = before ++ group :: after → Layer next before group

theorem Layered.snoc (layered : Layered next found) (layer : Layer next found group) :
    Layered next (found ++ [group]) := by
  intro before other after split
  rcases List.eq_nil_or_concat after with rfl | ⟨init, last, rfl⟩
  · obtain ⟨rfl, same⟩ := List.append_inj' split rfl
    rwa [← List.singleton_inj.mp same]
  · have split : found ++ [group] = (before ++ other :: init) ++ [last] := by simpa using split
    exact layered before other init (List.append_inj' split rfl).1

theorem Layered.initial (layered : Layered next (found ++ later)) : Layered next found :=
  fun before group after split => layered before group (after ++ later) (by simp [split])

theorem Layered.next_mem (layered : Layered next found) (member : a ∈ found.flatten) (step : b ∈ next a) :
    b ∈ found.flatten := by
  obtain ⟨group, grouped, inside⟩ := List.mem_flatten.mp member
  obtain ⟨before, after, rfl⟩ := List.append_of_mem grouped
  rw [List.flatten_append, List.flatten_cons, List.mem_append, List.mem_append]
  rcases (layered before group after rfl).closed a inside b step with here | earlier
  · exact .inr (.inl here)
  · exact .inl earlier

theorem Layered.reaches_mem (layered : Layered next found) (member : a ∈ found.flatten) (reaches : Reaches next a b) :
    b ∈ found.flatten := by
  induction reaches with
  | refl => exact member
  | tail _ after ih => exact layered.next_mem ih after

theorem Layered.mem_or_earlier (layered : Layered next (earlier ++ group :: later)) (member : a ∈ group)
    (reaches : Reaches next a b) : b ∈ group ∨ b ∈ earlier.flatten := by
  induction reaches with
  | refl => exact .inl member
  | tail _ step ih =>
      rcases ih with here | before
      · exact (layered earlier group later rfl).closed _ here _ step
      · exact .inr (layered.initial.next_mem before step)

theorem Layered.mem_group_iff (layered : Layered next found) (distinct : found.flatten.Nodup) (grouped : group ∈ found)
    (member : a ∈ group) : b ∈ group ↔ Reaches next a b ∧ Reaches next b a := by
  obtain ⟨before, after, rfl⟩ := List.append_of_mem grouped
  constructor
  · intro other
    have layer := layered before group after rfl
    exact ⟨layer.connected a member b other, layer.connected b other a member⟩
  · rintro ⟨forth, back⟩
    rcases layered.mem_or_earlier member forth with here | earlier
    · exact here
    · -- what leads back to `a` from an earlier group would put `a` in that group
      have again : a ∈ before.flatten := layered.initial.reaches_mem earlier back
      rw [List.flatten_append, List.flatten_cons] at distinct
      exact absurd rfl ((List.nodup_append.mp distinct).2.2 a again a (List.mem_append_left _ member))

/-! ## States of the pass -/

variable [DecidableEq α] {roots path seen new : List α} {c d e : Components α}

def number (c : Components α) (a : α) : Nat := c.index.getD a 0

def lowest (c : Components α) (a : α) : Nat := c.low.getD a 0

def Met (c : Components α) (a : α) : Prop := c.index.contains a = true

theorem met_meet : (c.meet a).Met b ↔ b = a ∨ c.Met b := by
  by_cases here : a = b
  · simp [Met, meet, OrderedMap.contains, here]
  · simp [Met, meet, OrderedMap.contains, here, Ne.symm here]

theorem number_meet : (c.meet a).number b = if a = b then c.index.size else c.number b := by
  by_cases here : a = b <;> simp [number, meet, OrderedMap.getD, here]

theorem lowest_meet : (c.meet a).lowest b = if a = b then c.index.size else c.lowest b := by
  by_cases here : a = b <;> simp [lowest, meet, OrderedMap.getD, here]

theorem size_meet (fresh : ¬ c.Met a) : (c.meet a).index.size = c.index.size + 1 := by
  have absent : a ∉ c.index.keys := by
    intro member
    obtain ⟨n, found⟩ := OrderedMap.mem_keys_iff.mp member
    exact fresh (by simp [Met, OrderedMap.contains, found])
  have keys : (c.meet a).index.keys = c.index.keys ++ [a] := by
    rw [meet, OrderedMap.keys_insert, if_neg absent]
  simpa [OrderedMap.keys, OrderedMap.size] using congrArg List.length keys

theorem lowest_lower {n : Nat} : (c.lower a n).lowest b = if a = b then min (c.lowest a) n else c.lowest b := by
  by_cases here : a = b <;> simp [lowest, lower, OrderedMap.getD, here]

theorem close_eq {rest : List α} (split : c.stack = new ++ a :: rest) (apart : a ∉ new) :
    c.close a = { c with stack := rest, found := c.found ++ [new ++ [a]] } := by
  have others : ∀ b ∈ new, decide (b ≠ a) = true := by
    intro b member
    exact decide_eq_true fun same => apart (same ▸ member)
  rw [close, split, List.takeWhile_append_of_pos others, List.dropWhile_append_of_pos others]
  simp

def Keeps (c d : Components α) : Prop :=
  ∀ a, c.Met a → d.Met a ∧ d.number a = c.number a ∧ d.lowest a = c.lowest a

theorem Keeps.trans (first : c.Keeps d) (second : d.Keeps e) : c.Keeps e := by
  intro a met
  obtain ⟨met, number, lowest⟩ := first a met
  obtain ⟨met, number', lowest'⟩ := second a met
  exact ⟨met, number'.trans number, lowest'.trans lowest⟩

theorem Keeps.lower (keeps : c.Keeps d) (fresh : ¬ c.Met a) (n : Nat) : c.Keeps (d.lower a n) := by
  intro b met
  obtain ⟨met', number, lowest⟩ := keeps b met
  have other : a ≠ b := fun same => fresh (same ▸ met)
  exact ⟨met', number, by rw [lowest_lower, if_neg other, lowest]⟩

/-- The invariant of the pass, with the active elements from the last one on. -/
structure Sound (next : α → List α) (roots : List α) (c : Components α) (path : List α) : Prop where
  below : ∀ a, c.Met a → c.number a < c.index.size
  split : ∀ a, c.Met a ↔ a ∈ c.stack ∨ a ∈ c.found.flatten
  distinct : (c.stack ++ c.found.flatten).Nodup
  descending : c.stack.Pairwise fun a b => c.number b < c.number a
  simple : path.Nodup
  active : ∀ a ∈ path, a ∈ c.stack
  down : ∀ a ∈ path, ∀ b ∈ c.stack, c.number a ≤ c.number b → Reaches next a b
  up : ∀ b ∈ c.stack, ∃ a ∈ path, c.number a ≤ c.number b ∧ Reaches next b a
  explored : ∀ a, c.Met a → a ∉ path → ∀ b ∈ next a, c.Met b
  origin : ∀ a, c.Met a → ∃ r ∈ roots, Reaches next r a
  layered : Layered next c.found

theorem Sound.met_of_stack (sound : Sound next roots c path) (member : a ∈ c.stack) : c.Met a :=
  (sound.split a).mpr (.inl member)

theorem Sound.lower (sound : Sound next roots c path) (a : α) (n : Nat) : Sound next roots (c.lower a n) path where
  below := sound.below
  split := sound.split
  distinct := sound.distinct
  descending := sound.descending
  simple := sound.simple
  active := sound.active
  down := sound.down
  up := sound.up
  explored := sound.explored
  origin := sound.origin
  layered := sound.layered

theorem sound_start : Sound next roots (start : Components α) [] := by
  constructor <;> simp [start, Met, OrderedMap.contains, Layered]

theorem Sound.meet (sound : Sound next roots c path) (fresh : ¬ c.Met a) (origin : ∃ r ∈ roots, Reaches next r a)
    (reaching : ∀ b ∈ path, Reaches next b a) : Sound next roots (c.meet a) (a :: path) := by
  have other {b : α} (met : c.Met b) : a ≠ b := fun same => fresh (same ▸ met)
  have old {b : α} (met : c.Met b) : (c.meet a).number b = c.number b := by rw [number_meet, if_neg (other met)]
  have own : (c.meet a).number a = c.index.size := by rw [number_meet, if_pos rfl]
  have onStack {b : α} (member : b ∈ c.stack) : c.Met b := sound.met_of_stack member
  have onPath {b : α} (member : b ∈ path) : c.Met b := onStack (sound.active b member)
  constructor
  · intro b met
    rw [size_meet fresh]
    rcases met_meet.mp met with rfl | met
    · rw [own]
      exact Nat.lt_succ_self _
    · rw [old met]
      exact Nat.lt_succ_of_lt (sound.below b met)
  · intro b
    rw [met_meet, sound.split]
    simp [Components.meet, or_assoc]
  · have absent : a ∉ c.stack ++ c.found.flatten := fun member =>
      fresh ((sound.split a).mpr (List.mem_append.mp member))
    exact List.nodup_cons.mpr ⟨absent, sound.distinct⟩
  · refine List.pairwise_cons.mpr ⟨fun b member => ?_, ?_⟩
    · rw [own, old (onStack member)]
      exact sound.below b (onStack member)
    · refine sound.descending.imp_of_mem fun left right less => ?_
      rwa [old (onStack left), old (onStack right)]
  · exact List.nodup_cons.mpr ⟨fun member => fresh (onPath member), sound.simple⟩
  · intro b member
    rcases List.mem_cons.mp member with rfl | member
    · exact List.mem_cons_self
    · exact List.mem_cons_of_mem _ (sound.active b member)
  · intro b member x above le
    rcases List.mem_cons.mp member with rfl | active <;> rcases List.mem_cons.mp above with rfl | lower
    · exact .refl
    · rw [own, old (onStack lower)] at le
      exact absurd (sound.below x (onStack lower)) (Nat.not_lt.mpr le)
    · exact reaching b active
    · rw [old (onPath active), old (onStack lower)] at le
      exact sound.down b active x lower le
  · intro b member
    rcases List.mem_cons.mp member with rfl | member
    · exact ⟨b, List.mem_cons_self, Nat.le_refl _, .refl⟩
    · obtain ⟨x, active, le, reaches⟩ := sound.up b member
      refine ⟨x, List.mem_cons_of_mem _ active, ?_, reaches⟩
      rwa [old (onPath active), old (onStack member)]
  · intro b met idle x after
    rcases met_meet.mp met with rfl | met
    · exact absurd List.mem_cons_self idle
    · exact met_meet.mpr (.inr (sound.explored b met (fun member => idle (List.mem_cons_of_mem _ member)) x after))
  · intro b met
    rcases met_meet.mp met with rfl | met
    · exact origin
    · exact sound.origin b met
  · exact sound.layered

/-! ## The search of one element -/

/-- What a search of `a` that began in state `c` has come to when the successors `seen` have been looked at. `new` lies
above `a` on the stack. -/
structure Scanned (next : α → List α) (roots : List α) (c d : Components α) (path : List α) (a : α)
    (seen new : List α) : Prop where
  fresh : ¬ c.Met a
  sound : Sound next roots d (a :: path)
  keeps : c.Keeps d
  number : d.number a = c.index.size
  stack : d.stack = new ++ a :: c.stack
  low : d.lowest a ≤ c.index.size
  back : d.lowest a < c.index.size → ∃ x ∈ c.stack, c.number x = d.lowest a ∧ Reaches next a x
  bounded : ∀ x ∈ new, ∀ y ∈ next x, y ∈ c.stack → d.lowest a ≤ c.number y
  seen : ∀ b ∈ seen, d.Met b ∧ (b ∈ c.stack → d.lowest a ≤ c.number b)

structure Searched (next : α → List α) (roots : List α) (c d : Components α) (path : List α) (a : α) : Prop where
  sound : Sound next roots d path
  met : d.Met a
  keeps : c.Keeps d
  bounded : ∃ new, d.stack = new ++ c.stack ∧ ∀ x ∈ new, ∀ y ∈ next x, y ∈ c.stack → d.lowest a ≤ c.number y
  back : d.lowest a < c.index.size → ∃ x ∈ c.stack, c.number x = d.lowest a ∧ Reaches next a x

theorem Sound.scanned (sound : Sound next roots c path) (fresh : ¬ c.Met a) (origin : ∃ r ∈ roots, Reaches next r a)
    (reaching : ∀ b ∈ path, Reaches next b a) : Scanned next roots c (c.meet a) path a [] [] where
  fresh := fresh
  sound := sound.meet fresh origin reaching
  keeps b met := by
    have other : a ≠ b := fun same => fresh (same ▸ met)
    exact ⟨met_meet.mpr (.inr met), by rw [number_meet, if_neg other], by rw [lowest_meet, if_neg other]⟩
  number := by rw [number_meet, if_pos rfl]
  stack := rfl
  low := Nat.le_of_eq (by rw [lowest_meet, if_pos rfl])
  back less := by
    rw [lowest_meet, if_pos rfl] at less
    exact absurd less (Nat.lt_irrefl _)
  bounded := by simp
  seen := by simp

namespace Scanned

theorem mem_below (scanned : Scanned next roots c d path a seen new) {x : α} (member : x ∈ d.stack)
    (less : d.number x < c.index.size) : x ∈ c.stack := by
  rw [scanned.stack] at member
  rcases List.mem_append.mp member with above | member
  · have ordered := scanned.sound.descending
    rw [scanned.stack] at ordered
    have later := (List.pairwise_append.mp ordered).2.2 x above a List.mem_cons_self
    rw [scanned.number] at later
    omega
  · rcases List.mem_cons.mp member with rfl | below
    · rw [scanned.number] at less
      exact absurd less (Nat.lt_irrefl _)
    · exact below

theorem mem_stack (scanned : Scanned next roots c d path a seen new) {x : α} (member : x ∈ c.stack) : x ∈ d.stack := by
  simp [scanned.stack, member]

theorem lower (scanned : Scanned next roots c d path a seen new) {n : Nat}
    (back : n < c.index.size → ∃ x ∈ c.stack, c.number x = n ∧ Reaches next a x) :
    Scanned next roots c (d.lower a n) path a seen new := by
  have own : (d.lower a n).lowest a = min (d.lowest a) n := by rw [lowest_lower, if_pos rfl]
  have le : (d.lower a n).lowest a ≤ d.lowest a := own ▸ Nat.min_le_left _ _
  exact {
    fresh := scanned.fresh
    sound := scanned.sound.lower a n
    keeps := scanned.keeps.lower scanned.fresh n
    number := scanned.number
    stack := scanned.stack
    low := Nat.le_trans le scanned.low
    back := by
      intro less
      rw [own] at less ⊢
      rcases Nat.le_total (d.lowest a) n with first | second
      · rw [Nat.min_eq_left first] at less ⊢
        exact scanned.back less
      · rw [Nat.min_eq_right second] at less ⊢
        exact back less
    bounded := fun x above y after below => Nat.le_trans le (scanned.bounded x above y after below)
    seen := fun b member =>
      ⟨(scanned.seen b member).1, fun below => Nat.le_trans le ((scanned.seen b member).2 below)⟩ }

theorem snoc (scanned : Scanned next roots c d path a seen new) (met : d.Met b)
    (low : b ∈ c.stack → d.lowest a ≤ c.number b) : Scanned next roots c d path a (seen ++ [b]) new :=
  { scanned with
    seen := by
      intro x member
      rcases List.mem_append.mp member with before | last
      · exact scanned.seen x before
      · rw [List.mem_singleton.mp last]
        exact ⟨met, low⟩ }

theorem onStack (sound : Sound next roots c path) (scanned : Scanned next roots c d path a seen new)
    (after : b ∈ next a) (member : b ∈ d.stack) :
    Scanned next roots c (d.lower a (d.number b)) path a (seen ++ [b]) new := by
  have lowered : Scanned next roots c (d.lower a (d.number b)) path a seen new := by
    refine scanned.lower fun less => ?_
    have below := scanned.mem_below member less
    exact ⟨b, below, (scanned.keeps b (sound.met_of_stack below)).2.1.symm, .single after⟩
  refine lowered.snoc (scanned.sound.met_of_stack member) fun below => ?_
  rw [lowest_lower, if_pos rfl, ← (scanned.keeps b (sound.met_of_stack below)).2.1]
  exact Nat.min_le_right _ _

theorem searched (sound : Sound next roots c path) (scanned : Scanned next roots c d path a seen new)
    (after : b ∈ next a) (fresh : ¬ d.Met b) (searched : Searched next roots d e (a :: path) b) :
    ∃ new, Scanned next roots c (e.lower a (e.lowest b)) path a (seen ++ [b]) new := by
  obtain ⟨newer, stack, bounded⟩ := searched.bounded
  have active : d.Met a := scanned.sound.met_of_stack (by simp [scanned.stack])
  obtain ⟨-, number, lowest⟩ := searched.keeps a active
  have own : (e.lower a (e.lowest b)).lowest a = min (d.lowest a) (e.lowest b) := by
    rw [lowest_lower, if_pos rfl, lowest]
  have old {x : α} (member : x ∈ c.stack) : d.number x = c.number x :=
    (scanned.keeps x (sound.met_of_stack member)).2.1
  refine ⟨newer ++ new, ?_⟩
  exact {
    fresh := scanned.fresh
    sound := searched.sound.lower a (e.lowest b)
    keeps := (scanned.keeps.trans searched.keeps).lower scanned.fresh _
    number := number.trans scanned.number
    stack := by
      show e.stack = newer ++ new ++ a :: c.stack
      rw [stack, scanned.stack, List.append_assoc]
    low := by
      rw [own]
      exact Nat.le_trans (Nat.min_le_left _ _) scanned.low
    back := by
      intro less
      rw [own] at less ⊢
      rcases Nat.le_total (d.lowest a) (e.lowest b) with first | second
      · rw [Nat.min_eq_left first] at less ⊢
        exact scanned.back less
      · rw [Nat.min_eq_right second] at less ⊢
        -- it is the number of something on the stack that has one less than `a`
        have early : e.lowest b < d.index.size :=
          Nat.lt_trans less (scanned.number ▸ scanned.sound.below a active)
        obtain ⟨x, member, same, reaches⟩ := searched.back early
        have below : x ∈ c.stack := scanned.mem_below member (same ▸ less)
        exact ⟨x, below, (old below).symm.trans same, .head after reaches⟩
    bounded := by
      intro x above y step below
      rw [own]
      rcases List.mem_append.mp above with newly | earlier
      · have le := bounded x newly y step (scanned.mem_stack below)
        rw [old below] at le
        exact Nat.le_trans (Nat.min_le_right _ _) le
      · exact Nat.le_trans (Nat.min_le_left _ _) (scanned.bounded x earlier y step below)
    seen := by
      intro x member
      rw [own]
      rcases List.mem_append.mp member with earlier | last
      · obtain ⟨met, low⟩ := scanned.seen x earlier
        exact ⟨(searched.keeps x met).1, fun below => Nat.le_trans (Nat.min_le_left _ _) (low below)⟩
      · rw [List.mem_singleton.mp last]
        exact ⟨searched.met, fun below => absurd (scanned.sound.met_of_stack (scanned.mem_stack below)) fresh⟩ }

/-! ### When all successors have been looked at -/

theorem apart (scanned : Scanned next roots c d path a seen new) :
    a ∉ new ∧ (∀ x ∈ new ++ [a], x ∉ c.stack) ∧ ∀ x ∈ c.stack, x ∉ d.found.flatten := by
  have distinct := scanned.sound.distinct
  rw [scanned.stack, List.append_assoc, List.cons_append, List.nodup_append, List.nodup_cons] at distinct
  obtain ⟨-, ⟨own, distinct⟩, across⟩ := distinct
  refine ⟨fun above => across a above a List.mem_cons_self rfl, fun x member below => ?_, fun x below grouped => ?_⟩
  · rcases List.mem_append.mp member with above | here
    · exact across x above x (by simp [below]) rfl
    · exact own (by simp [← List.mem_singleton.mp here, below])
  · exact (List.nodup_append.mp distinct).2.2 x below x grouped rfl

theorem next_met (sound : Sound next roots c path) (scanned : Scanned next roots c d path a (next a) new) {x y : α}
    (member : x ∈ new ++ [a]) (step : y ∈ next x) : d.Met y := by
  obtain ⟨own, above, -⟩ := scanned.apart
  rcases List.mem_append.mp member with higher | here
  · have idle : x ∉ a :: path := by
      intro active
      rcases List.mem_cons.mp active with rfl | active
      · exact own higher
      · exact above x member (sound.active x active)
    exact scanned.sound.explored x (scanned.sound.met_of_stack (by simp [scanned.stack, higher])) idle y step
  · rw [List.mem_singleton.mp here] at step
    exact (scanned.seen y step).1

theorem next_cases (sound : Sound next roots c path) (scanned : Scanned next roots c d path a (next a) new) {x y : α}
    (member : x ∈ new ++ [a]) (step : y ∈ next x) :
    y ∈ new ++ [a] ∨ y ∈ d.found.flatten ∨ y ∈ c.stack ∧ d.lowest a ≤ c.number y := by
  rcases (scanned.sound.split y).mp (scanned.next_met sound member step) with stacked | grouped
  · rw [scanned.stack, List.append_cons] at stacked
    rcases List.mem_append.mp stacked with inside | below
    · exact .inl inside
    · refine .inr (.inr ⟨below, ?_⟩)
      rcases List.mem_append.mp member with above | here
      · exact scanned.bounded x above y step below
      · rw [List.mem_singleton.mp here] at step
        exact (scanned.seen y step).2 below
  · exact .inr (.inl grouped)

/-- If an element reaches back no further than itself, what lies above it on the stack is a group with it. -/
theorem layer (sound : Sound next roots c path) (scanned : Scanned next roots c d path a (next a) new)
    (least : d.lowest a = c.index.size) : Layer next d.found (new ++ [a]) := by
  have stays {x y : α} (member : x ∈ new ++ [a]) (step : y ∈ next x) : y ∈ new ++ [a] ∨ y ∈ d.found.flatten := by
    rcases scanned.next_cases sound member step with inside | grouped | ⟨below, le⟩
    · exact .inl inside
    · exact .inr grouped
    · exact absurd (sound.below y (sound.met_of_stack below)) (by omega)
  have remains {x y : α} (member : x ∈ new ++ [a]) (reaches : Reaches next x y) :
      y ∈ new ++ [a] ∨ y ∈ d.found.flatten := by
    induction reaches with
    | refl => exact .inl member
    | tail _ step ih =>
        rcases ih with inside | grouped
        · exact stays inside step
        · exact .inr (scanned.sound.layered.next_mem grouped step)
  obtain ⟨-, above, groups⟩ := scanned.apart
  have onStack {x : α} (member : x ∈ new ++ [a]) : x ∈ d.stack := by
    rw [scanned.stack, List.append_cons]
    exact List.mem_append_left _ member
  -- whatever lies above reaches back to an active element, which can only be this one
  have back {x : α} (member : x ∈ new ++ [a]) : Reaches next x a := by
    obtain ⟨y, active, -, reaches⟩ := scanned.sound.up x (onStack member)
    rcases List.mem_cons.mp active with rfl | active
    · exact reaches
    · have below := sound.active y active
      rcases remains member reaches with inside | grouped
      · exact absurd below (above y inside)
      · exact absurd grouped (groups y below)
  have forth {x : α} (member : x ∈ new ++ [a]) : Reaches next a x := by
    refine scanned.sound.down a List.mem_cons_self x (onStack member) ?_
    rcases List.mem_append.mp member with higher | here
    · have ordered := scanned.sound.descending
      rw [scanned.stack] at ordered
      exact Nat.le_of_lt ((List.pairwise_append.mp ordered).2.2 x higher a List.mem_cons_self)
    · obtain rfl := List.mem_singleton.mp here
      exact Nat.le_refl _
  exact ⟨by simp, fun x member y other => (back member).trans (forth other), fun x member y step => stays member step⟩

theorem explored (scanned : Scanned next roots c d path a (next a) new) {x : α} (met : d.Met x) (idle : x ∉ path) :
    ∀ y ∈ next x, d.Met y := by
  by_cases here : x = a
  · rw [here]
    exact fun y step => (scanned.seen y step).1
  · exact scanned.sound.explored x met (by simp [here, idle])

theorem close (sound : Sound next roots c path) (scanned : Scanned next roots c d path a (next a) new)
    (least : d.lowest a = c.index.size) : Searched next roots c (d.close a) path a := by
  have old {x : α} (member : x ∈ c.stack) : d.number x = c.number x :=
    (scanned.keeps x (sound.met_of_stack member)).2.1
  have grouped : (d.found ++ [new ++ [a]]).flatten = d.found.flatten ++ (new ++ [a]) := by simp
  have moved : (d.stack ++ d.found.flatten).Perm (c.stack ++ (d.found ++ [new ++ [a]]).flatten) := by
    rw [scanned.stack, List.append_cons, grouped, List.append_assoc, ← List.append_assoc c.stack]
    exact List.perm_append_comm
  rw [close_eq scanned.stack scanned.apart.1]
  refine ⟨?_, scanned.sound.met_of_stack (by simp [scanned.stack]), scanned.keeps, ⟨[], rfl, by simp⟩, fun less => ?_⟩
  · constructor
    · exact scanned.sound.below
    · intro x
      have split : d.Met x ↔ x ∈ d.stack ++ d.found.flatten :=
        (scanned.sound.split x).trans List.mem_append.symm
      exact split.trans (moved.mem_iff.trans List.mem_append)
    · exact moved.nodup_iff.mp scanned.sound.distinct
    · exact (List.pairwise_cons.mp (List.pairwise_append.mp (scanned.stack ▸ scanned.sound.descending)).2.1).2
    · exact sound.simple
    · exact sound.active
    · intro x active y below
      exact scanned.sound.down x (List.mem_cons_of_mem _ active) y (scanned.mem_stack below)
    · intro x below
      obtain ⟨y, active, le, reaches⟩ := sound.up x below
      have le : d.number y ≤ d.number x := by rwa [old (sound.active y active), old below]
      exact ⟨y, active, le, reaches⟩
    · exact fun x met idle => scanned.explored met idle
    · exact scanned.sound.origin
    · exact scanned.sound.layered.snoc (scanned.layer sound least)
  · have less : d.lowest a < c.index.size := less
    exact absurd less (by omega)

theorem stay (sound : Sound next roots c path) (scanned : Scanned next roots c d path a (next a) new)
    (less : d.lowest a < c.index.size) : Searched next roots c d path a := by
  have old {x : α} (member : x ∈ c.stack) : d.number x = c.number x :=
    (scanned.keeps x (sound.met_of_stack member)).2.1
  have tail {x : α} (active : x ∈ path) : x ∈ a :: path := List.mem_cons_of_mem _ active
  -- it reaches something below it, which in turn reaches an element that stays active
  obtain ⟨y, active, le, reaches⟩ : ∃ y ∈ path, c.number y ≤ d.lowest a ∧ Reaches next a y := by
    obtain ⟨x, below, same, forth⟩ := scanned.back less
    obtain ⟨y, active, le, back⟩ := sound.up x below
    exact ⟨y, active, same ▸ le, forth.trans back⟩
  refine ⟨?_, scanned.sound.met_of_stack (by simp [scanned.stack]), scanned.keeps, ⟨new ++ [a], ?_, ?_⟩, scanned.back⟩
  · exact { scanned.sound with
      simple := sound.simple
      active := fun x active => scanned.sound.active x (tail active)
      down := fun x active => scanned.sound.down x (tail active)
      up := by
        intro x member
        obtain ⟨z, onPath, above, back⟩ := scanned.sound.up x member
        rcases List.mem_cons.mp onPath with rfl | onPath
        · refine ⟨y, active, ?_, back.trans reaches⟩
          rw [old (sound.active y active)]
          rw [scanned.number] at above
          omega
        · exact ⟨z, onPath, above, back⟩
      explored := fun x met idle => scanned.explored met idle }
  · rw [scanned.stack, List.append_cons]
  · intro x member y step below
    rcases List.mem_append.mp member with above | here
    · exact scanned.bounded x above y step below
    · rw [List.mem_singleton.mp here] at step
      exact (scanned.seen y step).2 below

end Scanned

/-! ## The whole pass -/

def look (next : α → List α) (depth : Nat) (a : α) (c : Components α) (b : α) : Components α :=
  if !c.index.contains b then
    let c := connect next depth b c
    c.lower a (c.lowest b)
  else if b ∈ c.stack then c.lower a (c.number b)
  else c

theorem connect_succ (depth : Nat) (a : α) (c : Components α) :
    connect next (depth + 1) a c =
      let d := (next a).foldl (look next depth a) (c.meet a)
      if d.lowest a = d.number a then d.close a else d := rfl

theorem Scanned.reaching (sound : Sound next roots c path) (scanned : Scanned next roots c d path a seen new)
    (step : b ∈ next a) : ∀ x ∈ a :: path, Reaches next x b := by
  intro x active
  have stacked : a ∈ d.stack := by simp [scanned.stack]
  refine (scanned.sound.down x active a stacked ?_).tail step
  rcases List.mem_cons.mp active with rfl | active
  · exact Nat.le_refl _
  · have met := sound.met_of_stack (sound.active x active)
    rw [(scanned.keeps x met).2.1, scanned.number]
    exact Nat.le_of_lt (sound.below x met)

theorem Scanned.look {depth : Nat} (sound : Sound next roots c path) (scanned : Scanned next roots c d path a seen new)
    (step : b ∈ next a) (searches : ¬ d.Met b → Searched next roots d (connect next depth b d) (a :: path) b) :
    ∃ new, Scanned next roots c (look next depth a d b) path a (seen ++ [b]) new := by
  unfold Components.look
  by_cases met : d.Met b
  · rw [if_neg (by simpa [Met] using met)]
    split
    · next member => exact ⟨new, scanned.onStack sound step member⟩
    · next absent => exact ⟨new, scanned.snoc met fun below => absurd (scanned.mem_stack below) absent⟩
  · rw [if_pos (by simpa [Met] using met)]
    exact scanned.searched sound step met (searches met)

theorem Scanned.foldl {depth : Nat} (sound : Sound next roots c path)
    (searches : ∀ d b, b ∈ next a → Sound next roots d (a :: path) → ¬ d.Met b →
      (∀ x ∈ a :: path, Reaches next x b) → Searched next roots d (connect next depth b d) (a :: path) b)
    {succs : List α} (steps : ∀ b ∈ succs, b ∈ next a) (scanned : Scanned next roots c d path a seen new) :
    ∃ new, Scanned next roots c (succs.foldl (Components.look next depth a) d) path a (seen ++ succs) new := by
  induction succs generalizing seen new d with
  | nil => exact ⟨new, by simpa using scanned⟩
  | cons head tail ih =>
      obtain ⟨first, others⟩ := List.forall_mem_cons.mp steps
      obtain ⟨newer, looked⟩ := scanned.look sound first fun fresh =>
        searches d head first scanned.sound fresh (scanned.reaching sound first)
      simpa using ih others looked

/-- The path of active elements is never longer than all that can be reached, so that the depth is enough. -/
theorem connect_searched {domain : List α} (covers : ∀ r ∈ roots, ∀ x, Reaches next r x → x ∈ domain) {depth : Nat}
    (enough : domain.length ≤ depth + path.length) (sound : Sound next roots c path) (fresh : ¬ c.Met a)
    (origin : ∃ r ∈ roots, Reaches next r a) (reaching : ∀ b ∈ path, Reaches next b a) :
    Searched next roots c (connect next depth a c) path a := by
  induction depth generalizing a c path with
  | zero =>
      have entered : Sound next roots (c.meet a) (a :: path) := sound.meet fresh origin reaching
      have within (x : α) (active : x ∈ a :: path) : x ∈ domain := by
        obtain ⟨r, root, reaches⟩ := entered.origin x (entered.met_of_stack (entered.active x active))
        exact covers r root x reaches
      have shorter := entered.simple.length_le_of_subset within
      simp only [List.length_cons] at shorter
      omega
  | succ depth ih =>
      have enough : domain.length ≤ depth + (a :: path).length := by
        simp only [List.length_cons]
        omega
      obtain ⟨new, scanned⟩ : ∃ new,
          Scanned next roots c ((next a).foldl (look next depth a) (c.meet a)) path a (next a) new := by
        refine Scanned.foldl sound (fun d b step entered fresh reaching => ?_) (fun b step => step)
          (sound.scanned fresh origin reaching)
        obtain ⟨r, root, reaches⟩ := origin
        exact ih enough entered fresh ⟨r, root, reaches.tail step⟩ reaching
      rw [connect_succ]
      dsimp only
      rw [scanned.number]
      split
      · next least => exact scanned.close sound least
      · next further => exact scanned.stay sound (Nat.lt_of_le_of_ne scanned.low further)

theorem foldl_sound {domain : List α} (covers : ∀ r ∈ roots, ∀ x, Reaches next r x → x ∈ domain) {depth : Nat}
    (enough : domain.length ≤ depth) {rest : List α} (inside : ∀ r ∈ rest, r ∈ roots)
    (sound : Sound next roots c []) (met : ∀ r ∈ roots, r ∈ rest ∨ c.Met r) :
    ∃ d : Components α, rest.foldl (fun c a => if c.index.contains a then c else connect next depth a c) c = d ∧
      Sound next roots d [] ∧ ∀ r ∈ roots, d.Met r := by
  induction rest generalizing c with
  | nil => exact ⟨c, rfl, sound, by simpa using met⟩
  | cons head tail ih =>
      obtain ⟨root, others⟩ := List.forall_mem_cons.mp inside
      obtain ⟨now, ran, sound, keeps, known⟩ : ∃ now : Components α,
          (if c.index.contains head then c else connect next depth head c) = now ∧ Sound next roots now [] ∧
            (∀ r, c.Met r → now.Met r) ∧ now.Met head := by
        by_cases known : c.Met head
        · exact ⟨c, if_pos known, sound, fun _ => id, known⟩
        · have searched : Searched next roots c (connect next depth head c) [] head :=
            connect_searched covers enough sound known ⟨head, root, .refl⟩ (by simp)
          exact ⟨_, if_neg known, searched.sound, fun r met => (searched.keeps r met).1, searched.met⟩
      rw [List.foldl_cons, ran]
      refine ih others sound fun r member => ?_
      rcases met r member with listed | met
      · rcases List.mem_cons.mp listed with rfl | later
        · exact .inr known
        · exact .inl later
      · exact .inr (keeps r met)

/-- All that the roots reach is found once, in groups of elements that reach each other, and groups lead only to
themselves and to groups before them. -/
theorem of_layered {domain : List α} (covers : ∀ r ∈ roots, ∀ x, Reaches next r x → x ∈ domain) {depth : Nat}
    (enough : domain.length ≤ depth) :
    (of next depth roots).flatten.Nodup ∧ (∀ a, a ∈ (of next depth roots).flatten ↔ ∃ r ∈ roots, Reaches next r a) ∧
      Layered next (of next depth roots) := by
  obtain ⟨d, ran, sound, met⟩ :=
    foldl_sound covers enough (fun r root => root) sound_start fun r root => .inl root
  have empty : d.stack = [] := by
    refine List.eq_nil_iff_forall_not_mem.mpr fun a member => ?_
    obtain ⟨b, active, -⟩ := sound.up a member
    cases active
  have found : of next depth roots = d.found := congrArg Components.found ran
  have split (a : α) : a ∈ d.found.flatten ↔ d.Met a := by simp [sound.split, empty]
  rw [found]
  refine ⟨(List.nodup_append.mp sound.distinct).2.1, fun a => ?_, sound.layered⟩
  rw [split]
  constructor
  · exact sound.origin a
  · rintro ⟨r, root, reaches⟩
    induction reaches with
    | refl => exact met r root
    | tail _ step ih => exact sound.explored _ ih (by simp) _ step

end Components

end Dataflow
