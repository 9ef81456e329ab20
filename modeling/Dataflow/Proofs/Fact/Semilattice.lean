import Dataflow.Fact.Table
import Dataflow.Proofs.Fact.Order

/-!
Facts about constants as a join semilattice. A fact is what its values are: as long as nothing is written undefined, and
no operation writes that (`Obtained.normal`), facts are the same when they have the same values. Order, meet and meet in
place then follow from those of the values key by key (`PointwiseJoin.of_values`), for facts and for the tables of
constants alike (`form_semilattice`).
-/

namespace Dataflow

namespace Lattice
variable {α κ : Type} {l : Lattice α} {get : α → κ → Value} {P : α → Prop}

/-- Facts that form a join semilattice, as far as sameness goes, and key by key the one of values. The order is a
partial one and the one that the meet determines, and the meet is the least upper bound. -/
structure PointwiseJoin (l : Lattice α) (get : α → κ → Value) (P : α → Prop) : Prop where
  same : ∀ a b, P a → P b → (l.same a b = true ↔ ∀ k, get a k = get b k)
  pointwise : ∀ a b, P a → P b → ∀ k, get (l.meet a b) k = Value.lattice.meet (get a k) (get b k)
  comm : ∀ a b, P a → P b → l.same (l.meet a b) (l.meet b a) = true
  assoc : ∀ a b c, P a → P b → P c → l.same (l.meet (l.meet a b) c) (l.meet a (l.meet b c)) = true
  idem : ∀ a, P a → l.same (l.meet a a) a = true
  identity : ∀ a, P a → l.same (l.meet l.bottom a) a = true ∧ l.same (l.meet a l.bottom) a = true
  refl : ∀ a, P a → l.le a a = true
  trans : ∀ a b c, P a → P b → P c → l.le a b = true → l.le b c = true → l.le a c = true
  antisymm : ∀ a b, P a → P b → l.le a b = true → l.le b a = true → l.same a b = true
  byMeet : ∀ a b, P a → P b → l.le a b = l.leByMeet a b
  upper : ∀ a b, P a → P b → l.le a (l.meet a b) = true ∧ l.le b (l.meet a b) = true
  least : ∀ a b c, P a → P b → P c → l.le a c = true → l.le b c = true → l.le (l.meet a b) c = true
  anyOrder : ∀ as bs, (∀ a ∈ as, P a) → as.Perm bs → l.same (l.meetAll as) (l.meetAll bs) = true

theorem get_meetAll (bottom : P l.bottom) (closed : ∀ a b, P a → P b → P (l.meet a b))
    (meet : ∀ a b, P a → P b → get (l.meet a b) = get a ⊔ get b) {as : List α} (each : ∀ a ∈ as, P a) :
    P (l.meetAll as) ∧ get (l.meetAll as) = (as.map get).foldl (· ⊔ ·) (get l.bottom) := by
  have from_any (start : α) (first : P start) :
      P (as.foldl l.meet start) ∧ get (as.foldl l.meet start) = (as.map get).foldl (· ⊔ ·) (get start) := by
    induction as generalizing start with
    | nil => exact ⟨first, rfl⟩
    | cons head tail ih =>
        obtain ⟨here, later⟩ := List.forall_mem_cons.mp each
        have rest := ih later _ (closed start head first here)
        rwa [meet start head first here] at rest
  exact from_any l.bottom bottom

theorem PointwiseJoin.of_values (bottom : P l.bottom) (closed : ∀ a b, P a → P b → P (l.meet a b))
    (nothing : get l.bottom = ⊥) (same : ∀ a b, P a → P b → (l.same a b = true ↔ get a = get b))
    (meet : ∀ a b, P a → P b → get (l.meet a b) = get a ⊔ get b)
    (le : ∀ a b, P a → P b → (l.le a b = true ↔ get a ≤ get b)) : l.PointwiseJoin get P where
  same a b left right := (same a b left right).trans funext_iff
  pointwise a b left right k := congrFun (meet a b left right) k
  comm a b left right := by
    rw [same _ _ (closed a b left right) (closed b a right left), meet a b left right, meet b a right left, sup_comm]
  assoc a b c first second third := by
    have left := closed a b first second
    have right := closed b c second third
    rw [same _ _ (closed _ c left third) (closed a _ first right), meet _ c left third, meet a _ first right,
      meet a b first second, meet b c second third, sup_assoc]
  idem a own := by rw [same _ _ (closed a a own own) own, meet a a own own, sup_idem]
  identity a own := by
    rw [same _ _ (closed _ a bottom own) own, same _ _ (closed a _ own bottom) own, meet _ a bottom own,
      meet a _ own bottom, nothing, bot_sup_eq, sup_bot_eq]
    exact ⟨rfl, rfl⟩
  refl a own := (le a a own own).mpr le_rfl
  trans a b c first second third below above :=
    (le a c first third).mpr (((le a b first second).mp below).trans ((le b c second third).mp above))
  antisymm a b left right below above :=
    (same a b left right).mpr (le_antisymm ((le a b left right).mp below) ((le b a right left).mp above))
  byMeet a b left right := by
    rw [Bool.eq_iff_iff, leByMeet, le a b left right, same _ b (closed a b left right) right, meet a b left right,
      sup_eq_right]
  upper a b left right := by
    rw [le a _ left (closed a b left right), le b _ right (closed a b left right), meet a b left right]
    exact ⟨le_sup_left, le_sup_right⟩
  least a b c first second third below above := by
    rw [le _ c (closed a b first second) third, meet a b first second]
    exact sup_le ((le a c first third).mp below) ((le b c second third).mp above)
  anyOrder as bs each perm := by
    obtain ⟨left, valuesLeft⟩ := get_meetAll bottom closed meet each
    obtain ⟨right, valuesRight⟩ := get_meetAll bottom closed meet fun b member => each b (perm.mem_iff.mpr member)
    rw [same _ _ left right, valuesLeft, valuesRight]
    exact (perm.map get).foldl_eq _

end Lattice

namespace Constants
variable {κ : Type} [DecidableEq κ] {f g : Constants κ}

inductive Obtained : Constants κ → Prop where
  | empty : Obtained OrderedMap.empty
  | update {f : Constants κ} (k : κ) (v : Value) : Obtained f → Obtained (f.update k v).1
  | remove {f : Constants κ} (k : κ) : Obtained f → Obtained (f.erase k)
  | replace {f g : Constants κ} : Obtained f → Obtained g → Obtained (f.replace g).1
  | meet {f g : Constants κ} : Obtained f → Obtained g → Obtained (f.meet g)
  | meetInto {f g : Constants κ} : Obtained f → Obtained g → Obtained (f.meetInto g)

theorem Normal.erase (normal : f.Normal) (k : κ) : Normal (f.erase k : Constants κ) := by
  intro j
  rw [OrderedMap.get?_erase]
  split
  · simp
  · exact normal j

theorem Obtained.normal (obtained : f.Obtained) : f.Normal := by
  induction obtained with
  | empty => exact .empty
  | update k v _ ih => exact ih.set k v
  | remove k _ ih => exact ih.erase k
  | replace _ _ left right =>
      unfold Constants.replace
      split
      · exact left
      · exact right
  | meet _ _ left _ => exact left.foldl_set _ _
  | meetInto _ _ _ right => exact right.meetInto

theorem pointwiseJoin_obtained : (lattice : Lattice (Constants κ)).PointwiseJoin value Obtained :=
  .of_values .empty (fun _ _ left right => left.meet right) rfl
    (fun _ _ left right => same_iff_value left.normal right.normal) (fun f g _ _ => funext (value_meet f g))
    fun _ _ _ _ => le_iff

theorem Obtained.same_meetInto (left : f.Obtained) (right : g.Obtained) : (g.meetInto f).same (f.meet g) = true := by
  rw [same_iff_value (right.meetInto left).normal (left.meet right).normal]
  funext k
  rw [value_meetInto, value_meet, Value.meet_comm]

end Constants

/-! ## Tables of constants -/

namespace OrderedMap
variable {κ ν μ : Type} [DecidableEq κ]

theorem mapValues_insert (h : κ → ν → μ) (m : OrderedMap κ ν) (k : κ) (v : ν) :
    (m.insert k v).mapValues h = (m.mapValues h).insert k (h k v) := by
  refine eq_of_entries ?_
  show (write k v m.entries).map _ = write k (h k v) (m.entries.map _)
  generalize m.entries = entries
  induction entries with
  | nil => rfl
  | cons head tail ih =>
      by_cases here : head.1 = k
      · simp [write, here]
      · simp [write, here, ih]

theorem mapValues_erase (h : κ → ν → μ) (m : OrderedMap κ ν) (k : κ) :
    (m.erase k).mapValues h = (m.mapValues h).erase k := by
  refine eq_of_entries ?_
  show (m.entries.filter _).map _ = (m.entries.map _).filter _
  rw [List.filter_map]
  rfl

end OrderedMap

namespace Table
variable {κ : Type}

theorem ofConstants_injective : Function.Injective (ofConstants : Constants κ → Table κ) := by
  intro f g equal
  have entries := congrArg (fun t => t.entries.entries) equal
  refine OrderedMap.eq_of_entries (List.map_injective_iff.mpr ?_ entries)
  intro e d equal
  have pairs : (e.1, some e.2) = (d.1, some d.2) := equal
  obtain ⟨keys, values⟩ := Prod.mk.inj pairs
  exact Prod.ext keys (Option.some.inj values)

theorem keys_ofConstants (f : Constants κ) : (ofConstants f).entries.keys = f.keys := by
  simp [ofConstants, OrderedMap.keys, OrderedMap.mapValues]

variable [DecidableEq κ] {t : Table κ}

inductive Obtained : Table κ → Prop where
  | empty : Obtained (.empty .constants)
  | update {t : Table κ} (k : κ) (v : Value) : Obtained t → Obtained (t.update k (some v)).1
  | remove {t : Table κ} (k : κ) : Obtained t → Obtained (t.remove k).1
  | replace {t u : Table κ} : Obtained t → Obtained u → Obtained (t.replace u).1
  | meet {t u : Table κ} : Obtained t → Obtained u → Obtained (t.meet u)
  | meetInto {f g : Constants κ} :
      Obtained (ofConstants f) → Obtained (ofConstants g) → Obtained (ofConstants (f.meetInto g))

section OfConstants
variable (f g : Constants κ) (k : κ)

theorem get?_ofConstants : (ofConstants f).entries.get? k = (f.get? k).map some := OrderedMap.get?_mapValues _ f k

theorem value_ofConstants : (ofConstants f).value = f.value := by
  funext k
  rw [value, get, get?_ofConstants, Constants.value, OrderedMap.getD]
  cases f.get? k <;> rfl

theorem remove_ofConstants : ((ofConstants f).remove k).1 = ofConstants (f.erase k) :=
  congrArg (Table.mk .constants) (OrderedMap.mapValues_erase _ f k).symm

theorem update_ofConstants (v : Value) :
    (ofConstants f).update k (some v) = (ofConstants (f.update k v).1, (f.update k v).2) := by
  rw [update, Constants.update, get?_ofConstants]
  by_cases undefined : v = .undefined
  · have told : ((ofConstants f).remove k).2.isSome = f.contains k := by
      rw [remove, get?_ofConstants, OrderedMap.contains]
      cases f.get? k <;> rfl
    rw [if_pos undefined, if_pos ⟨rfl, congrArg some undefined⟩]
    exact Prod.ext (remove_ofConstants f k) told
  · rw [if_neg undefined, if_neg fun both => undefined (Option.some.inj both.2)]
    by_cases there : f.get? k = some v
    · simp [there]
    · have other : (f.get? k).map some ≠ some (some v) := by simpa using there
      rw [if_neg there, if_neg other]
      exact Prod.ext (congrArg (Table.mk .constants) (OrderedMap.mapValues_insert (fun _ => some) f k v).symm) rfl

theorem same_ofConstants : (ofConstants f).same (ofConstants g) = OrderedMap.same f g := by
  rw [Bool.eq_iff_iff, same, OrderedMap.same_iff, OrderedMap.same_iff]
  refine forall_congr' fun k => ?_
  rw [get?_ofConstants, get?_ofConstants]
  exact (Option.map_injective (Option.some_injective _)).eq_iff

theorem replace_ofConstants :
    (ofConstants f).replace (ofConstants g) = (ofConstants (f.replace g).1, (f.replace g).2) := by
  rw [replace, Constants.replace, same_ofConstants]
  split <;> rfl

theorem le_ofConstants : (ofConstants f).le (ofConstants g) = f.le g := by
  simp only [le, Constants.le, keys_ofConstants, value_ofConstants]

theorem meet_ofConstants : (ofConstants f).meet (ofConstants g) = ofConstants (f.meet g) := by
  -- what is written is read off the two tables before the fold, so it may start at any table
  have from_any (ks : List κ) (new : κ → Value) (acc : Constants κ) :
      ks.foldl (fun acc k => (acc.update k (some (new k))).1) (ofConstants acc) =
        ofConstants (ks.foldl (fun acc k => acc.set k (new k)) acc) := by
    induction ks generalizing acc with
    | nil => rfl
    | cons head tail ih =>
        rw [List.foldl_cons, List.foldl_cons, update_ofConstants]
        exact ih _
  simp only [meet, Constants.meet, Constants.meetOver, keys_ofConstants, value_ofConstants]
  exact from_any _ _ _

end OfConstants

theorem Obtained.exists_constants (obtained : t.Obtained) : ∃ f : Constants κ, f.Obtained ∧ t = ofConstants f := by
  induction obtained with
  | empty => exact ⟨_, .empty, rfl⟩
  | update k v _ ih =>
      obtain ⟨f, made, rfl⟩ := ih
      exact ⟨_, made.update k v, congrArg Prod.fst (update_ofConstants f k v)⟩
  | remove k _ ih =>
      obtain ⟨f, made, rfl⟩ := ih
      exact ⟨_, made.remove k, remove_ofConstants f k⟩
  | replace _ _ left right =>
      obtain ⟨f, madeLeft, rfl⟩ := left
      obtain ⟨g, madeRight, rfl⟩ := right
      exact ⟨_, madeLeft.replace madeRight, congrArg Prod.fst (replace_ofConstants f g)⟩
  | meet _ _ left right =>
      obtain ⟨f, madeLeft, rfl⟩ := left
      obtain ⟨g, madeRight, rfl⟩ := right
      exact ⟨_, madeLeft.meet madeRight, meet_ofConstants f g⟩
  | meetInto _ _ left right =>
      obtain ⟨f, madeLeft, equalLeft⟩ := left
      obtain ⟨g, madeRight, equalRight⟩ := right
      -- the facts met are the ones found, since a table is made of one fact only
      rw [ofConstants_injective equalLeft, ofConstants_injective equalRight]
      exact ⟨_, madeLeft.meetInto madeRight, rfl⟩

theorem pointwiseJoin_obtained : (lattice .constants : Lattice (Table κ)).PointwiseJoin value Obtained := by
  refine .of_values .empty (fun _ _ left right => left.meet right) rfl ?_ ?_ ?_
  · intro t u left right
    obtain ⟨f, madeLeft, rfl⟩ := left.exists_constants
    obtain ⟨g, madeRight, rfl⟩ := right.exists_constants
    show (ofConstants f).same (ofConstants g) = true ↔ _
    rw [same_ofConstants, value_ofConstants, value_ofConstants]
    exact Constants.same_iff_value madeLeft.normal madeRight.normal
  · intro t u left right
    obtain ⟨f, -, rfl⟩ := left.exists_constants
    obtain ⟨g, -, rfl⟩ := right.exists_constants
    show ((ofConstants f).meet (ofConstants g)).value = _
    rw [meet_ofConstants, value_ofConstants, value_ofConstants, value_ofConstants]
    exact funext (Constants.value_meet f g)
  · intro t u left right
    obtain ⟨f, -, rfl⟩ := left.exists_constants
    obtain ⟨g, -, rfl⟩ := right.exists_constants
    show (ofConstants f).le (ofConstants g) = true ↔ _
    rw [le_ofConstants, value_ofConstants, value_ofConstants]
    exact Constants.le_iff

end Table

/-- Facts about constants form a join semilattice, as tables too, and nothing in them is written undefined. Meeting a
fact into another leaves their meet there. -/
theorem Constants.form_semilattice {κ : Type} [DecidableEq κ] :
    (∀ f : Constants κ, f.Obtained → ∀ k, f.get? k ≠ some .undefined) ∧
      (Constants.lattice : Lattice (Constants κ)).PointwiseJoin Constants.value Constants.Obtained ∧
      (∀ f g : Constants κ, f.Obtained → g.Obtained → Constants.lattice.same (g.meetInto f) (f.meet g) = true) ∧
      (∀ t : Table κ, t.Obtained → ∃ f : Constants κ, f.Obtained ∧ t = .ofConstants f) ∧
      (Table.lattice .constants : Lattice (Table κ)).PointwiseJoin Table.value Table.Obtained ∧
      ∀ f g : Constants κ, Table.Obtained (.ofConstants f) → Table.Obtained (.ofConstants g) →
        (Table.ofConstants (g.meetInto f)).same ((Table.ofConstants f).meet (.ofConstants g)) = true := by
  refine ⟨fun f obtained => obtained.normal, pointwiseJoin_obtained, fun f g left right => left.same_meetInto right,
    fun t obtained => obtained.exists_constants, Table.pointwiseJoin_obtained, ?_⟩
  intro f g left right
  obtain ⟨f', madeLeft, equalLeft⟩ := left.exists_constants
  obtain ⟨g', madeRight, equalRight⟩ := right.exists_constants
  rw [Table.meet_ofConstants, Table.same_ofConstants, Table.ofConstants_injective equalLeft,
    Table.ofConstants_injective equalRight]
  exact madeLeft.same_meetInto madeRight

namespace Branches

def taken : Constants String :=
  (((Constants.update OrderedMap.empty "x" (.const 1)).1.update "y" (.const 2)).1.update "y" .undefined).1

def skipped : Constants String := ((Constants.update OrderedMap.empty "y" (.const 3)).1.update "x" (.const 4)).1

def table (n : Int) : Table String := ((Table.empty .constants).update "x" (some (.const n))).1

theorem obtained_taken : taken.Obtained := ((Constants.Obtained.empty.update "x" _).update "y" _).update "y" _

theorem obtained_skipped : skipped.Obtained := (Constants.Obtained.empty.update "y" _).update "x" _

theorem obtained_table (n : Int) : (table n).Obtained := Table.Obtained.empty.update "x" _

theorem branches_form_semilattice : (taken.Obtained ∧ skipped.Obtained ∧ (table 1).Obtained ∧ (table 4).Obtained) ∧
    taken.get? "y" ≠ some .undefined ∧
      (Constants.lattice.meet taken skipped).value "x" = .nac ∧
      Constants.lattice.same (skipped.meetInto taken) (taken.meet skipped) = true ∧
      Constants.lattice.same (Constants.lattice.meetAll [taken, skipped])
        (Constants.lattice.meetAll [skipped, taken]) = true ∧
      ((table 1).meet (table 4)).same ((table 4).meet (table 1)) = true := by
  obtain ⟨normal, joins, inPlace, -, tables, -⟩ := Constants.form_semilattice (κ := String)
  have pointwise := joins.pointwise taken skipped obtained_taken obtained_skipped "x"
  refine ⟨⟨obtained_taken, obtained_skipped, obtained_table 1, obtained_table 4⟩, normal taken obtained_taken "y",
    pointwise.trans (by decide), inPlace taken skipped obtained_taken obtained_skipped,
    joins.anyOrder _ _ ?_ (.swap _ _ _), tables.comm _ _ (obtained_table 1) (obtained_table 4)⟩
  intro f listed
  rcases List.mem_pair.mp listed with rfl | rfl
  · exact obtained_taken
  · exact obtained_skipped

end Branches

end Dataflow
