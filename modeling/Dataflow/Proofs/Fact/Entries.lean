import Dataflow.Analysis.Evaluation
import Dataflow.Proofs.Fact.Order
import Dataflow.Proofs.Semantics.Words

/-!
What holds of every entry of a fact. Writes add an entry only for a value that is defined, so something that holds of
every entry has to hold of what is written, and under meets it has to be closed (`All.gather`). Constants that are
evaluated from signed words are signed words (`Exp.fits_evaluate`).
-/

namespace Dataflow

namespace Value

def Fits : Value → Prop
  | .const c => Word32.InRange c
  | .undefined | .nac => True

theorem Fits.meet {x y : Value} (left : x.Fits) (right : y.Fits) : (x.meet y).Fits := by
  cases x with
  | undefined => rwa [undefined_meet]
  | nac => exact trivial
  | const m =>
      cases y with
      | undefined => exact left
      | nac => exact trivial
      | const n =>
          simp only [Value.meet]
          split
          · exact left
          · exact trivial

theorem Fits.binary {x y : Value} (op : BinOp) (left : x.Fits) (right : y.Fits) : (binary op x y).Fits := by
  unfold Value.binary
  split
  · exact trivial
  · split
    · exact op.apply_inRange left right
    all_goals exact trivial

def Bound (x : Value) : Prop := x ≠ .undefined ∧ x.Fits

theorem Bound.meet {x y : Value} (left : x.Bound) (right : y.Bound) : (x.meet y).Bound :=
  ⟨fun unknown => left.1 (sup_eq_bot_iff.mp unknown).1, left.2.meet right.2⟩

end Value

namespace Constants
variable {κ : Type} [DecidableEq κ] {P : κ → Value → Prop} {f target : Constants κ} {k : κ} {x : Value}

def All (P : κ → Value → Prop) (f : Constants κ) : Prop := ∀ k x, f.get? k = some x → P k x

theorem All.empty : All P (OrderedMap.empty : Constants κ) := fun _ _ found => nomatch found

theorem All.value (all : f.All P) (defined : f.value k ≠ .undefined) : P k (f.value k) := by
  unfold Constants.value OrderedMap.getD at *
  cases found : f.get? k with
  | none => simp [found] at defined
  | some x => exact all k x found

theorem All.erase (all : f.All P) (k : κ) : All P (f.erase k : Constants κ) := by
  intro j y found
  rw [OrderedMap.get?_erase] at found
  split at found
  · cases found
  · exact all j y found

theorem All.set (all : f.All P) (new : x ≠ .undefined → P k x) : (f.set k x).All P := by
  unfold Constants.set update
  split
  · exact all.erase k
  · next defined =>
      split
      · exact all
      · intro j y found
        rw [OrderedMap.get?_insert] at found
        split at found
        · next here =>
            obtain rfl := Option.some.inj found
            exact here ▸ new defined
        · exact all j y found

theorem get?_set_self (f : Constants κ) (k : κ) (x : Value) :
    (f.set k x).get? k = if x = .undefined then none else some x := by
  unfold set update
  split
  · simp
  · split <;> simp [*]

theorem All.foldl_set {ι : Type} {items : List ι} {key : ι → κ} {new : Constants κ → ι → Value} (all : f.All P)
    (each : ∀ acc : Constants κ, acc.All P → ∀ i ∈ items, new acc i ≠ .undefined → P (key i) (new acc i)) :
    (items.foldl (fun acc i => acc.set (key i) (new acc i)) f).All P := by
  induction items generalizing f with
  | nil => exact all
  | cons head tail ih =>
      refine ih (all.set (each f all head List.mem_cons_self)) fun acc all i member => ?_
      exact each acc all i (List.mem_cons_of_mem _ member)

theorem All.met (meets : ∀ k x y, P k x → P k y → P k (x.meet y)) (all : f.All P) (new : x ≠ .undefined → P k x)
    (defined : x.meet (f.value k) ≠ .undefined) : P k (x.meet (f.value k)) := by
  by_cases unknown : f.value k = .undefined
  · rw [unknown, Value.meet_comm, Value.undefined_meet] at defined ⊢
    exact new defined
  · by_cases missing : x = .undefined
    · rw [missing, Value.undefined_meet]
      exact all.value unknown
    · exact meets k _ _ (new missing) (all.value unknown)

theorem All.meetInto (meets : ∀ k x y, P k x → P k y → P k (x.meet y)) (all : f.All P) (all' : target.All P) :
    (f.meetInto target).All P := by
  refine all'.foldl_set fun acc known e member => known.met meets fun _ => ?_
  exact all e.1 e.2 (OrderedMap.get?_eq_some_iff.mpr member)

theorem All.gather {ι : Type} {sources : List ι} {sent : ι → Constants κ} {start : Constants κ}
    (meets : ∀ k x y, P k x → P k y → P k (x.meet y)) (first : start.All P) (each : ∀ i ∈ sources, (sent i).All P) :
    (gather start sources sent).All P := by
  induction sources generalizing start with
  | nil => exact first
  | cons head tail ih =>
      refine ih (.meetInto meets (each head List.mem_cons_self) first) fun i member => ?_
      exact each i (List.mem_cons_of_mem _ member)

end Constants

theorem Exp.fits_evaluate {f : Constants Var} (fits : f.All fun _ x => x.Fits) (e : Exp) : (e.evaluate f).Fits := by
  induction e with
  | var v =>
      by_cases unknown : f.value v = .undefined
      · rw [evaluate, unknown]
        exact trivial
      · exact fits.value unknown
  | lit n => exact Word32.wrap_inRange n
  | bin op left right ihLeft ihRight => exact ihLeft.binary op ihRight
  | _ => exact trivial

theorem Exp.bound_evaluate {f : Constants Var} (bound : f.All fun _ x => x.Bound) {e : Exp}
    (defined : e.evaluate f ≠ .undefined) : (e.evaluate f).Bound :=
  ⟨defined, fits_evaluate (fun u x entry => (bound u x entry).2) e⟩

end Dataflow
