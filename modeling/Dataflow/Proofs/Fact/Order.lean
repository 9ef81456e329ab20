import Dataflow.Fact.Constants
import Dataflow.Proofs.Data.Maps
import Mathlib.Algebra.Order.BigOperators.Group.List
import Mathlib.Algebra.Order.Ring.Nat

/-!
The order of facts about constants. Values are ordered from undefined over the constants to no constant, and the
meet of two values is the least one above both. A fact is below another when it is so at every key (`le_iff`).
Facts in normal form, in which nothing is written undefined, are the same when each is below the other
(`same_iff_equiv`); all facts that meets and writes make of such facts are in normal form.
-/

namespace Dataflow

namespace Value

@[simp] theorem undefined_meet (x : Value) : undefined.meet x = x := by cases x <;> rfl

theorem meet_comm (x y : Value) : x.meet y = y.meet x := by
  cases x <;> cases y <;> simp only [meet]
  next m n => by_cases same : m = n <;> simp [same, eq_comm]

theorem le_eq_true_iff {x y : Value} : x.le y = true ↔ x = .undefined ∨ y = .nac ∨ x = y := by
  simp [le, or_assoc]

theorem le_meet_left (x y : Value) : x.le (x.meet y) = true := by
  rw [le_eq_true_iff]
  cases x with
  | undefined => exact .inl rfl
  | nac => exact .inr (.inl rfl)
  | const m =>
      cases y with
      | undefined => exact .inr (.inr rfl)
      | nac => exact .inr (.inl rfl)
      | const n =>
          by_cases same : m = n
          · exact .inr (.inr (by simp [meet, same]))
          · exact .inr (.inl (if_neg same))

theorem meet_le {x y z : Value} (left : x.le z = true) (right : y.le z = true) : (x.meet y).le z = true := by
  rw [le_eq_true_iff] at *
  rcases left with rfl | rfl | rfl
  · rwa [undefined_meet]
  · exact .inr (.inl rfl)
  · rcases right with rfl | rfl | rfl
    · rw [meet_comm, undefined_meet]
      exact .inr (.inr rfl)
    · exact .inr (.inl rfl)
    · cases y <;> simp [meet]

instance : SemilatticeSup Value where
  le x y := x.le y = true
  le_refl x := le_eq_true_iff.mpr (.inr (.inr rfl))
  le_trans x y z below above := by
    rw [le_eq_true_iff] at *
    rcases below with rfl | rfl | rfl
    · exact .inl rfl
    · rcases above with impossible | rfl | rfl
      · cases impossible
      · exact .inr (.inl rfl)
      · exact .inr (.inl rfl)
    · exact above
  le_antisymm x y below above := by
    rw [le_eq_true_iff] at *
    rcases below with rfl | rfl | same
    · rcases above with rfl | impossible | same
      · rfl
      · cases impossible
      · exact same.symm
    · rcases above with impossible | rfl | same
      · cases impossible
      · rfl
      · exact same.symm
    · exact same
  sup := meet
  le_sup_left := le_meet_left
  le_sup_right x y := meet_comm y x ▸ le_meet_left y x
  sup_le _ _ _ := meet_le

instance : OrderBot Value where
  bot := .undefined
  bot_le _ := le_eq_true_iff.mpr (.inl rfl)

theorem le_iff {x y : Value} : x ≤ y ↔ x = .undefined ∨ y = .nac ∨ x = y := le_eq_true_iff

def rank : Value → Nat
  | .undefined => 0
  | .const _ => 1
  | .nac => 2

theorem rank_strictMono : StrictMono rank := by
  intro x y less
  rcases le_iff.mp less.le with rfl | rfl | rfl
  · cases y with
    | undefined => exact absurd less (lt_irrefl _)
    | _ => simp [rank]
  · cases x with
    | nac => exact absurd less (lt_irrefl _)
    | _ => simp [rank]
  · exact absurd less (lt_irrefl _)

end Value

namespace Constants
variable {κ : Type} [DecidableEq κ]

instance : Preorder (Constants κ) := Preorder.lift value

@[simp] theorem value_empty (k : κ) : value (OrderedMap.empty : Constants κ) k = .undefined := rfl

theorem empty_le (f : Constants κ) : OrderedMap.empty ≤ f := fun _ => bot_le

theorem value_of_not_mem_keys {f : Constants κ} {k : κ} (absent : k ∉ f.keys) : f.value k = .undefined := by
  have nothing : f.get? k = none := OrderedMap.lookup_eq_none.mpr absent
  rw [value, OrderedMap.getD, nothing, Option.getD_none]

theorem le_iff {f g : Constants κ} : Constants.le f g = true ↔ f ≤ g := by
  simp only [Constants.le, List.all_eq_true]
  constructor
  · intro below k
    -- what is not written in the lower fact is undefined there
    by_cases written : k ∈ f.keys
    · exact below k written
    · rw [value_of_not_mem_keys written]
      exact bot_le
  · exact fun below k _ => below k

theorem set_mono {f g : Constants κ} (below : f ≤ g) (k : κ) {x y : Value} (le : x ≤ y) :
    f.set k x ≤ g.set k y := by
  intro j
  rw [value_set, value_set]
  split
  · exact le
  · exact below j

theorem set_le {f g : Constants κ} (below : f ≤ g) {k : κ} {x : Value} (le : x ≤ g.value k) : f.set k x ≤ g := by
  intro j
  rw [value_set]
  split
  · next here => exact here ▸ le
  · exact below j

theorem value_erase (f : Constants κ) (k j : κ) :
    Constants.value (f.erase k) j = if k = j then .undefined else f.value j := by
  unfold value OrderedMap.getD
  rw [OrderedMap.get?_erase]
  split <;> rfl

theorem erase_mono {f g : Constants κ} (below : f ≤ g) (k : κ) :
    (f.erase k : Constants κ) ≤ (g.erase k : Constants κ) := by
  intro j
  rw [value_erase, value_erase]
  split
  · exact le_rfl
  · exact below j

theorem erase_le (f : Constants κ) (k : κ) : (f.erase k : Constants κ) ≤ f := by
  intro j
  rw [value_erase]
  split
  · exact bot_le
  · exact le_rfl

/-! ## Heights -/

def height (ks : List κ) (f : Constants κ) : Nat := (ks.map fun k => (f.value k).rank).sum

theorem height_mono (ks : List κ) : Monotone (height ks) := fun _ _ below =>
  List.sum_le_sum fun k _ => Value.rank_strictMono.monotone (below k)

/-- A fact that knows nothing of other keys cannot rise without rising in height. -/
theorem height_lt {ks : List κ} {f g : Constants κ} (less : f < g) (within : ∀ k, g.value k ≠ .undefined → k ∈ ks) :
    f.height ks < g.height ks := by
  obtain ⟨below, differ⟩ := lt_iff_le_not_ge.mp less
  obtain ⟨k, higher⟩ : ∃ k, ¬ g.value k ≤ f.value k := not_forall.mp differ
  have known : g.value k ≠ .undefined := fun unknown => higher (unknown ▸ bot_le)
  exact List.sum_lt_sum _ _ (fun j _ => Value.rank_strictMono.monotone (below j))
    ⟨k, within k known, Value.rank_strictMono (lt_of_le_not_ge (below k) higher)⟩

/-! ## Meets -/

theorem value_foldl_set (ks : List κ) (new : κ → Value) (f : Constants κ) (j : κ) :
    (ks.foldl (fun acc k => acc.set k (new k)) f).value j = if j ∈ ks then new j else f.value j := by
  induction ks generalizing f with
  | nil => simp
  | cons head tail ih =>
      rw [List.foldl_cons, ih, value_set]
      by_cases here : head = j
      · simp [here]
      · simp [here, Ne.symm here]

theorem value_meet (f g : Constants κ) (k : κ) : (f.meet g).value k = (f.value k).meet (g.value k) := by
  rw [meet, meetOver, value_foldl_set]
  split
  · rfl
  · next absent => rw [value_of_not_mem_keys absent, Value.meet_comm, Value.undefined_meet]

/-- Meeting in place writes one entry after the other, and no later entry is for a key that is written already. -/
theorem meetInto_eq_meet (f target : Constants κ) : f.meetInto target = target.meet f := by
  obtain ⟨entries, distinct⟩ := f
  have from_any (acc : Constants κ) (seen : ∀ e ∈ entries, acc.value e.1 = target.value e.1) (found : κ → Value)
      (finds : ∀ e ∈ entries, found e.1 = e.2) :
      entries.foldl (fun acc e => acc.set e.1 (e.2.meet (acc.value e.1))) acc =
        (entries.map Prod.fst).foldl (fun acc k => acc.set k ((target.value k).meet (found k))) acc := by
    induction entries generalizing acc with
    | nil => rfl
    | cons head tail ih =>
        obtain ⟨absent, distinct⟩ := List.nodup_cons.mp distinct
        rw [List.map_cons, List.foldl_cons, List.foldl_cons, seen head List.mem_cons_self, finds head List.mem_cons_self,
          Value.meet_comm]
        refine ih distinct _ (fun e member => ?_) fun e member => finds e (List.mem_cons_of_mem _ member)
        have other : head.1 ≠ e.1 := fun same => absent (same ▸ List.mem_map_of_mem member)
        rw [value_set, if_neg other, seen e (List.mem_cons_of_mem _ member)]
  refine from_any target (fun _ _ => rfl) _ fun e member => ?_
  rw [value, OrderedMap.getD, OrderedMap.get?_eq_some_iff.mpr member, Option.getD_some]

theorem value_meetInto (f target : Constants κ) (k : κ) :
    (f.meetInto target).value k = (f.value k).meet (target.value k) := by
  rw [meetInto_eq_meet, value_meet, Value.meet_comm]

def gather {ι : Type} (start : Constants κ) (sources : List ι) (sent : ι → Constants κ) : Constants κ :=
  sources.foldl (fun acc i => (sent i).meetInto acc) start

section Gather
variable {ι : Type} {sources : List ι} {sent sent' : ι → Constants κ} {start start' : Constants κ}

theorem gather_mono (first : start ≤ start') (below : ∀ i ∈ sources, sent i ≤ sent' i) :
    gather start sources sent ≤ gather start' sources sent' := by
  induction sources generalizing start start' with
  | nil => exact first
  | cons head tail ih =>
      refine ih (fun k => ?_) fun i member => below i (List.mem_cons_of_mem _ member)
      rw [value_meetInto, value_meetInto]
      exact sup_le_sup (below head List.mem_cons_self k) (first k)

theorem start_le_gather : start ≤ gather start sources sent := by
  induction sources generalizing start with
  | nil => exact le_refl start
  | cons head tail ih =>
      refine le_trans (fun k => ?_) ih
      rw [value_meetInto]
      exact le_sup_right

theorem le_gather {i : ι} (member : i ∈ sources) : sent i ≤ gather start sources sent := by
  induction sources generalizing start with
  | nil => cases member
  | cons head tail ih =>
      rcases List.mem_cons.mp member with rfl | later
      · have met : sent i ≤ (sent i).meetInto start := fun k => by
          rw [value_meetInto]
          exact le_sup_left
        exact le_trans met start_le_gather
      · exact ih later

theorem gather_le {f : Constants κ} (first : start ≤ f) (below : ∀ i ∈ sources, sent i ≤ f) :
    gather start sources sent ≤ f := by
  induction sources generalizing start with
  | nil => exact first
  | cons head tail ih =>
      refine ih (fun k => ?_) fun i member => below i (List.mem_cons_of_mem _ member)
      rw [value_meetInto]
      exact sup_le (below head List.mem_cons_self k) (first k)

theorem gather_eq_foldl (start : Constants κ) (sources : List ι) (sent : ι → Constants κ) :
    gather start sources sent = (sources.map sent).foldl meet start := by
  rw [List.foldl_map]
  exact List.foldl_ext _ _ _ fun acc i _ => meetInto_eq_meet (sent i) acc

theorem gather_eq_meetAll (sources : List ι) (sent : ι → Constants κ) :
    gather OrderedMap.empty sources sent = lattice.meetAll (sources.map sent) := gather_eq_foldl _ sources sent

theorem value_gather (agree : start.value = start'.value) :
    (gather start sources sent).value = (gather start' sources sent).value :=
  le_antisymm (gather_mono agree.le fun _ _ => le_rfl) (gather_mono agree.ge fun _ _ => le_rfl)

theorem value_meetAll_given (given : Option (Constants κ)) (sources : List ι) (sent : ι → Constants κ) :
    (lattice.meetAll (given.toList ++ sources.map sent)).value =
      (gather (given.getD OrderedMap.empty) sources sent).value := by
  cases given with
  | none => rw [Option.getD_none, gather_eq_meetAll, Option.toList_none, List.nil_append]
  | some first =>
      have met : (meet OrderedMap.empty first).value = first.value := funext fun k =>
        (value_meet OrderedMap.empty first k).trans (Value.undefined_meet _)
      calc (lattice.meetAll (first :: sources.map sent)).value
        _ = (gather (meet OrderedMap.empty first) sources sent).value := by rw [gather_eq_foldl]; rfl
        _ = (gather first sources sent).value := value_gather met

end Gather

/-! ## Normal form -/

def Normal (f : Constants κ) : Prop := ∀ k, f.get? k ≠ some .undefined

theorem Normal.empty : Normal (OrderedMap.empty : Constants κ) := fun _ => by simp

theorem Normal.set {f : Constants κ} (normal : f.Normal) (k : κ) (x : Value) : (f.set k x).Normal := by
  intro j
  unfold Constants.set update
  split
  · rw [OrderedMap.get?_erase]
    split
    · simp
    · exact normal j
  · split
    · exact normal j
    · rw [OrderedMap.get?_insert]
      split
      · simpa
      · exact normal j

theorem Normal.foldl_set {f : Constants κ} (normal : f.Normal) (ks : List κ) (new : κ → Value) :
    (ks.foldl (fun acc k => acc.set k (new k)) f).Normal := by
  induction ks generalizing f with
  | nil => exact normal
  | cons head tail ih => exact ih (normal.set _ _)

theorem Normal.meetInto {f target : Constants κ} (normal : target.Normal) : (f.meetInto target).Normal := by
  rw [meetInto_eq_meet]
  exact normal.foldl_set _ _

theorem Normal.gather {ι : Type} {sources : List ι} {sent : ι → Constants κ} {start : Constants κ}
    (normal : start.Normal) : (gather start sources sent).Normal := by
  induction sources generalizing start with
  | nil => exact normal
  | cons head tail ih => exact ih normal.meetInto

theorem Normal.meetAll (fs : List (Constants κ)) : (lattice.meetAll fs).Normal := by
  have from_any (start : Constants κ) (normal : start.Normal) : (fs.foldl meet start).Normal := by
    induction fs generalizing start with
    | nil => exact normal
    | cons head tail ih => exact ih _ (normal.foldl_set _ _)
  exact from_any _ .empty

theorem Normal.get?_eq {f : Constants κ} (normal : f.Normal) (k : κ) :
    f.get? k = if f.value k = .undefined then none else some (f.value k) := by
  unfold value OrderedMap.getD
  cases found : f.get? k with
  | none => simp
  | some x =>
      have defined : x ≠ .undefined := fun undefined => normal k (undefined ▸ found)
      simp [defined]

theorem value_eq_of_same {f g : Constants κ} (same : f.same g = true) : f.value = g.value := by
  funext k
  rw [value, value, OrderedMap.getD, OrderedMap.getD, OrderedMap.same_iff.mp same k]

theorem same_iff_equiv {f g : Constants κ} (normal : f.Normal) (normal' : g.Normal) :
    f.same g = true ↔ f ≤ g ∧ g ≤ f := by
  constructor
  · intro same
    have values := value_eq_of_same same
    exact ⟨fun k => (congrFun values k).le, fun k => (congrFun values k).ge⟩
  · rintro ⟨below, above⟩
    refine OrderedMap.same_iff.mpr fun k => ?_
    have values : f.value k = g.value k := le_antisymm (below k) (above k)
    rw [normal.get?_eq, normal'.get?_eq, values]

theorem same_iff_value {f g : Constants κ} (normal : f.Normal) (normal' : g.Normal) :
    f.same g = true ↔ f.value = g.value := by
  refine ⟨value_eq_of_same, fun values => (same_iff_equiv normal normal').mpr ⟨?_, ?_⟩⟩
  · exact fun k => (congrFun values k).le
  · exact fun k => (congrFun values k).ge

end Constants

end Dataflow
