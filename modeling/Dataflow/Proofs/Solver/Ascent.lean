import Dataflow.Proofs.Solver.Runs
import Mathlib.Algebra.Order.BigOperators.Group.List
import Mathlib.Algebra.Order.Ring.Nat
import Mathlib.Order.Antisymmetrization

/-!
Solving by ascent. Let each update put a monotone function of the facts at all nodes in place of the fact at one.
Facts that are nowhere above what an update makes of them then only rise, in whatever order the agenda takes the
nodes. They stay below all facts that no update raises (`Ascending.after`), so that the order does not matter for
where a run ends; and it does end if facts below some such bound cannot rise for ever (`Ascending.exists_end`).
-/

namespace Dataflow

namespace System
variable {ν σ φ : Type} [Preorder φ]

/-- Updates of the nodes `us` put the `next` fact, a monotone function of all facts, in place of the fact at the
node, in states that fit. -/
structure Ascending (s : System ν σ) (us : List ν) (Fits : σ → Prop) (fact : σ → ν → φ)
    (next : ν → (ν → φ) → φ) : Prop where
  mono : ∀ n ∈ us, Monotone (next n)
  ready : ∀ n ∈ us, s.ready n = true
  dependents : ∀ n, ∀ m ∈ s.dependents n, m ∈ us
  fits : ∀ n ∈ us, ∀ state, Fits state → Fits (s.update n state).1
  here : ∀ n ∈ us, ∀ state, Fits state →
    AntisymmRel (· ≤ ·) (fact (s.update n state).1 n) (next n (fact state))
  elsewhere : ∀ n m state, n ≠ m → fact (s.update n state).1 m = fact state m
  changed : ∀ n ∈ us, ∀ state, Fits state → (s.update n state).2 = true →
    ¬ AntisymmRel (· ≤ ·) (fact state n) (next n (fact state))

structure Rising (us : List ν) (Fits : σ → Prop) (fact : σ → ν → φ) (next : ν → (ν → φ) → φ) (state : σ) :
    Prop where
  fits : Fits state
  below : ∀ n ∈ us, fact state n ≤ next n (fact state)

def Closed (us : List ν) (next : ν → (ν → φ) → φ) (x : ν → φ) : Prop := ∀ n ∈ us, next n x ≤ x n

def room (us : List ν) (top : ν → φ) (height : φ → Nat) (x : ν → φ) : Nat :=
  (us.map fun n => height (top n) - height (x n)).sum

section Room
variable {us : List ν} {top x y : ν → φ} {height : φ → Nat}

theorem room_le (mono : Monotone height) (grows : x ≤ y) : room us top height y ≤ room us top height x :=
  List.sum_le_sum fun n _ => Nat.sub_le_sub_left (mono (grows n)) _

theorem room_lt (mono : Monotone height) (grows : x ≤ y) {n : ν} (member : n ∈ us)
    (higher : height (x n) < height (y n)) (below : height (y n) ≤ height (top n)) :
    room us top height y < room us top height x :=
  List.sum_lt_sum _ _ (fun m _ => Nat.sub_le_sub_left (mono (grows m)) _) ⟨n, member, by omega⟩

end Room

namespace Ascending
variable [DecidableEq ν] {s : System ν σ} {us : List ν} {Fits : σ → Prop} {fact : σ → ν → φ} {next : ν → (ν → φ) → φ}
  {state : σ} {n : ν}

theorem le_update (ascending : s.Ascending us Fits fact next) (rising : Rising us Fits fact next state)
    (member : n ∈ us) : fact state ≤ fact (s.update n state).1 := by
  intro m
  by_cases here : n = m
  · subst here
    exact (rising.below n member).trans (ascending.here n member state rising.fits).2
  · exact (ascending.elsewhere n m state here).ge

theorem rising_update (ascending : s.Ascending us Fits fact next) (rising : Rising us Fits fact next state)
    (member : n ∈ us) : Rising us Fits fact next (s.update n state).1 := by
  have grows := ascending.le_update rising member
  refine ⟨ascending.fits n member state rising.fits, fun m inside => ?_⟩
  -- the facts have risen, so what an update makes of them has risen too
  by_cases here : n = m
  · subst here
    exact (ascending.here n member state rising.fits).1.trans (ascending.mono n member grows)
  · rw [ascending.elsewhere n m state here]
    exact (rising.below m inside).trans (ascending.mono m inside grows)

theorem update_le (ascending : s.Ascending us Fits fact next) (fits : Fits state) {x : ν → φ}
    (closed : Closed us next x) (below : fact state ≤ x) (member : n ∈ us) : fact (s.update n state).1 ≤ x := by
  intro m
  by_cases here : n = m
  · subst here
    calc fact (s.update n state).1 n
      _ ≤ next n (fact state) := (ascending.here n member state fits).1
      _ ≤ next n x := ascending.mono n member below
      _ ≤ x n := closed n member
  · rw [ascending.elsewhere n m state here]
    exact below m

theorem after (ascending : s.Ascending us Fits fact next) {agenda a : Agenda ν} {k : Nat} {t : σ}
    (ranges : agenda.Over us) (rising : Rising us Fits fact next state) (run : s.After agenda state k a t) :
    a.Over us ∧ Rising us Fits fact next t ∧ ∀ x, Closed us next x → fact state ≤ x → fact t ≤ x := by
  induction run with
  | start => exact ⟨ranges, rising, fun x _ below => below⟩
  | next _ front _ ih =>
      obtain ⟨ranges, rising, least⟩ := ih
      obtain ⟨member, ranges⟩ := ranges.next? front
      exact ⟨over_advance ascending.dependents ranges, ascending.rising_update rising member,
        fun x closed below => ascending.update_le rising.fits closed (least x closed below) member⟩

theorem exists_end (ascending : s.Ascending us Fits fact next) {agenda : Agenda ν} (ranges : agenda.Over us)
    (rising : Rising us Fits fact next state) {top : ν → φ} (closed : Closed us next top)
    (below : fact state ≤ top) {height : φ → Nat} (mono : Monotone height)
    (strict : ∀ n ∈ us, ∀ x y, x < y → y ≤ top n → height x < height y) :
    ∃ k final, s.Ends agenda state k final := by
  refine System.exists_end s
    (fun agenda t => agenda.Over us ∧ Rising us Fits fact next t ∧ fact t ≤ top)
    (fun t => room us top height (fact t)) ?_ agenda state ⟨ranges, rising, below⟩
  rintro a t n rest ⟨ranges, rising, below⟩ front
  obtain ⟨member, ranges⟩ := ranges.next? front
  have grows := ascending.le_update rising member
  have bounded := ascending.update_le rising.fits closed below member
  refine ⟨ascending.ready n member,
    ⟨over_advance ascending.dependents ranges, ascending.rising_update rising member, bounded⟩, ?_⟩
  split
  · next changed =>
      -- a rising fact that changes gets higher, and cannot get higher than the bound
      have differ := ascending.changed n member t rising.fits changed
      have higher : fact t n < fact (s.update n t).1 n := by
        refine lt_of_le_not_ge (grows n) fun same => differ ⟨rising.below n member, ?_⟩
        exact (ascending.here n member t rising.fits).2.trans same
      exact room_lt mono grows member (strict n member _ _ higher (bounded n)) (mono (bounded n))
  · exact room_le mono grows

end Ascending

end System

end Dataflow
