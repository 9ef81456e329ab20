import Dataflow.Proofs.Analysis.Constants

/-!
Transfers and the order of facts. A statement is monotone if its transfer keeps the order; a body is steady if all
its statements are. Evaluation is monotone except where it divides: a quotient of no constant is no constant while
nothing is known of the divisor, and has no value once the divisor is known to be zero. Bodies that do not divide
are therefore steady (`DivisionFree.steady`), and on two facts a statement loses the order in this way only
(`le_transfer_iff`).
-/

namespace Dataflow

namespace Value

theorem binary_zero {op : BinOp} (divides : op.divides = true) (x : Value) : binary op x (.const 0) = .undefined := by
  simp [binary, divides]

theorem binary_eq_nac_iff {op : BinOp} {x y : Value} :
    binary op x y = .nac ↔ ¬ (op.divides = true ∧ y = .const 0) ∧ (x = .nac ∨ y = .nac) := by
  unfold binary
  by_cases zero : op.divides = true ∧ y = .const 0
  · simp [zero]
  · rw [if_neg (by simpa using zero), iff_true_intro zero, true_and]
    cases x <;> cases y <;> simp

theorem binary_undefined {op : BinOp} {x y : Value} (left : x ≠ .nac) (right : y ≠ .nac)
    (unknown : x = .undefined ∨ y = .undefined) : binary op x y = .undefined := by
  unfold binary
  cases x <;> cases y <;> simp_all

/-- An operator keeps the order of its operands but for one fall: a quotient of no constant, by a divisor that turns
from undefined to zero. -/
theorem binary_le_iff {op : BinOp} {x x' y y' : Value} (left : x ≤ x') (right : y ≤ y') :
    binary op x y ≤ binary op x' y' ↔ ¬ (op.divides = true ∧ x = .nac ∧ y = .undefined ∧ y' = .const 0) := by
  by_cases zero : op.divides = true ∧ y' = .const 0
  · obtain ⟨divides, rfl⟩ := zero
    have bottom : binary op x y ≤ .undefined ↔ binary op x y = .undefined := le_bot_iff
    rw [binary_zero divides, bottom]
    rcases le_iff.mp right with rfl | impossible | rfl
    · cases x <;> simp [binary, divides]
    · cases impossible
    · simp [binary_zero divides]
  · refine iff_of_true ?_ fun falls => zero ⟨falls.1, falls.2.2.2⟩
    by_cases nac : x' = .nac ∨ y' = .nac
    · exact le_iff.mpr (.inr (.inl (binary_eq_nac_iff.mpr ⟨zero, nac⟩)))
    · obtain ⟨const, const'⟩ := not_or.mp nac
      have lower : x = .undefined ∨ x = x' := (le_iff.mp left).imp_right fun high => high.resolve_left const
      have lower' : y = .undefined ∨ y = y' := (le_iff.mp right).imp_right fun high => high.resolve_left const'
      by_cases unknown : x = .undefined ∨ y = .undefined
      · have below : x ≠ .nac := by rcases lower with rfl | rfl <;> simp_all
        have below' : y ≠ .nac := by rcases lower' with rfl | rfl <;> simp_all
        rw [binary_undefined below below' unknown]
        exact bot_le
      · obtain ⟨known, known'⟩ := not_or.mp unknown
        rw [lower.resolve_left known, lower'.resolve_left known']

theorem binary_mono {op : BinOp} (free : op.divides = false) {x x' y y' : Value} (left : x ≤ x') (right : y ≤ y') :
    binary op x y ≤ binary op x' y' :=
  (binary_le_iff left right).mpr fun falls => by simp [free] at falls

end Value

namespace Exp

def divides : Exp → Bool
  | .bin op left right => op.divides || left.divides || right.divides
  | _ => false

theorem evaluate_mono {e : Exp} (free : e.divides = false) : Monotone fun f : Constants Var => e.evaluate f := by
  intro f g below
  induction e with
  | var v => exact below v
  | bin op left right ihLeft ihRight =>
      simp only [divides, Bool.or_eq_false_iff] at free
      exact Value.binary_mono free.1.1 (ihLeft free.1.2) (ihRight free.2)
  | _ => exact le_rfl

theorem evaluate_mono_of_atom {e : Exp} (atom : e.isAtom = true) :
    Monotone fun f : Constants Var => e.evaluate f := by
  refine evaluate_mono ?_
  cases e <;> first | rfl | cases atom

end Exp

namespace Propagation

def Steady (b : Body) : Prop := ∀ s ∈ b.stmts, ∀ samples, analysis.monotoneOn (some s) samples = true

theorem monotone_transfer_iff {s : Option Stmt} :
    (∀ samples, analysis.monotoneOn s samples = true) ↔ Monotone (transfer s) := by
  have kept_iff (f g : Constants Var) : (!analysis.lattice.le f g ||
      analysis.lattice.le (analysis.transfer s f) (analysis.transfer s g)) = true ↔
        (f ≤ g → transfer s f ≤ transfer s g) := by
    rw [Bool.or_eq_true, Bool.not_eq_true', ← Constants.le_iff, ← Constants.le_iff, imp_iff_not_or,
      Bool.not_eq_true]
    rfl
  simp only [Analysis.monotoneOn, List.all_eq_true, kept_iff]
  constructor
  · intro kept f g below
    exact kept [f, g] f (by simp) g (by simp) below
  · intro mono samples f _ g _ below
    exact mono below

theorem Steady.monotone {b : Body} (steady : Steady b) (n : Node) : Monotone (transfer (b.stmt? n)) := by
  cases stands : b.stmt? n with
  | none => exact monotone_id
  | some s => exact monotone_transfer_iff.mp (steady s (Body.mem_of_stmt? stands))

theorem transfer_cases (s : Stmt) : transfer (some s) = id ∨ ∃ v e, s.defVar? = some v ∧ s.rvalue? = some e ∧
    v.holdsInt = true ∧ transfer (some s) = fun f => f.set v (e.evaluate f) := by
  cases written : s.defVar? with
  | none => exact .inl (funext fun f => by simp [transfer, written])
  | some v =>
      cases assigned : s.rvalue? with
      | none => exact .inl (funext fun f => by simp [transfer, written, assigned])
      | some e =>
          cases int : v.holdsInt with
          | false => exact .inl (funext fun f => by simp [transfer, written, assigned, int])
          | true => exact .inr ⟨v, e, rfl, rfl, int, funext fun f => by simp [transfer, written, assigned, int]⟩

def DivisionFree (b : Body) : Prop :=
  ∀ v e, Stmt.assign (.var v) e ∈ b.stmts → v.holdsInt = true → e.divides = false

theorem assign_or_call {s : Stmt} {v : Var} {e : Exp} (written : s.defVar? = some v) (assigned : s.rvalue? = some e) :
    s = .assign (.var v) e ∨ ∃ call, e = .call call := by
  cases s with
  | assign lhs rhs =>
      obtain rfl : rhs = e := Option.some.inj assigned
      cases lhs <;> simp only [Stmt.defVar?, Stmt.def?, Option.bind_some, Exp.var?, reduceCtorEq] at written
      obtain rfl := Option.some.inj written
      exact .inl rfl
  | invoke call result => exact .inr ⟨call, (Option.some.inj assigned).symm⟩
  | _ => cases assigned

theorem DivisionFree.steady {b : Body} (free : DivisionFree b) : Steady b := by
  intro s member
  refine monotone_transfer_iff.mpr ?_
  rcases transfer_cases s with same | ⟨v, e, written, assigned, int, writes⟩
  · rw [same]
    exact monotone_id
  · have whole : e.divides = false := by
      rcases assign_or_call written assigned with rfl | ⟨call, rfl⟩
      · exact free v e member int
      · rfl
    intro f g below
    rw [writes]
    exact Constants.set_mono below v (Exp.evaluate_mono whole below)

/-! ## Where the order is lost -/

/-- A statement assigns to a variable that holds an integer a quotient or remainder of no constant, by a divisor of
which nothing is known in one fact and which is zero in the other. -/
def Falls (s : Stmt) (f g : Constants Var) : Prop :=
  ∃ v op left right, s = .assign (.var v) (.bin op left right) ∧ v.holdsInt = true ∧ op.divides = true ∧
    left.evaluate f = .nac ∧ right.evaluate f = .undefined ∧ right.evaluate g = .const 0

theorem Falls.not_le {s : Stmt} {f g : Constants Var} (falls : Falls s f g) :
    ¬ transfer (some s) f ≤ transfer (some s) g := by
  obtain ⟨v, op, left, right, rfl, int, divides, nac, unknown, zero⟩ := falls
  intro kept
  have high : Value.binary op .nac .undefined = .nac := Value.binary_eq_nac_iff.mpr ⟨by simp, .inl rfl⟩
  have order := kept v
  simp only [transfer, Stmt.defVar?, Stmt.def?, Stmt.rvalue?, Option.bind_some, Exp.var?, int, if_true,
    Constants.value_set, Exp.evaluate, nac, unknown, zero, Value.binary_zero divides, high] at order
  simp [Value.le_iff] at order

/-- Where the operands of operators are variables and literals, a transfer keeps the order of two facts exactly if
no divisor turns from undefined to zero under a dividend that is no constant. -/
theorem le_transfer_iff {s : Stmt} (flat : ∀ e, s.rvalue? = some e → e.isFlat = true) {f g : Constants Var}
    (below : Constants.lattice.le f g = true) :
    Constants.lattice.le (transfer (some s) f) (transfer (some s) g) = true ↔ ¬ Falls s f g := by
  have below : f ≤ g := Constants.le_iff.mp below
  have order_iff := Constants.le_iff (f := transfer (some s) f) (g := transfer (some s) g)
  refine order_iff.trans ⟨fun kept falls => falls.not_le kept, fun level => ?_⟩
  rcases transfer_cases s with same | ⟨v, e, written, assigned, int, writes⟩
  · rw [same]
    exact below
  · rw [writes]
    refine Constants.set_mono below v ?_
    cases e with
    | var u => exact below u
    | bin op left right =>
        have atoms := flat _ assigned
        simp only [Exp.isFlat, Bool.and_eq_true] at atoms
        refine (Value.binary_le_iff (Exp.evaluate_mono_of_atom atoms.1 below)
          (Exp.evaluate_mono_of_atom atoms.2 below)).mpr ?_
        rintro ⟨divides, nac, unknown, zero⟩
        rcases assign_or_call written assigned with rfl | ⟨call, impossible⟩
        · exact level ⟨v, op, left, right, rfl, int, divides, nac, unknown, zero⟩
        · cases impossible
    | _ => exact le_rfl

end Propagation

namespace Loop

theorem divisionFree : Propagation.DivisionFree body := by
  intro v e member _
  simp only [body, List.mem_cons, Stmt.assign.injEq, reduceCtorEq, List.not_mem_nil, or_false, false_or] at member
  rcases member with ⟨-, rfl⟩ | ⟨-, rfl⟩ <;> rfl

def quotient : Stmt := .assign (.var x) (.bin .div (.var p) (.var x))

def counting (n : Int) : Constants Var := OrderedMap.ofList [(p, .nac), (x, .const n)]

theorem quotient_order :
    let first : Constants Var := OrderedMap.ofList [(p, .nac)]
    (Constants.lattice.le first (counting 0) = true ∧ Constants.lattice.le first (counting 2) = true) ∧
      Propagation.Falls quotient first (counting 0) ∧
      (Constants.lattice.le (Propagation.transfer (some quotient) first)
        (Propagation.transfer (some quotient) (counting 0)) = true ↔
          ¬ Propagation.Falls quotient first (counting 0)) ∧
      Constants.lattice.le (Propagation.transfer (some quotient) first)
        (Propagation.transfer (some quotient) (counting 2)) = true := by
  intro first
  have flat (e : Exp) (assigned : quotient.rvalue? = some e) : e.isFlat = true := by
    obtain rfl := Option.some.inj assigned
    rfl
  have below : Constants.lattice.le first (counting 0) = true := by decide
  have below' : Constants.lattice.le first (counting 2) = true := by decide
  have falls : Propagation.Falls quotient first (counting 0) :=
    ⟨x, .div, .var p, .var x, rfl, rfl, rfl, by decide, by decide, by decide⟩
  refine ⟨⟨below, below'⟩, falls, Propagation.le_transfer_iff flat below,
    (Propagation.le_transfer_iff flat below').mpr ?_⟩
  rintro ⟨v, op, left, right, same, -, -, -, -, zero⟩
  obtain ⟨-, same⟩ := Stmt.assign.inj same
  obtain ⟨-, -, rfl⟩ := Exp.bin.inj same
  exact absurd zero (by decide)

end Loop

end Dataflow
