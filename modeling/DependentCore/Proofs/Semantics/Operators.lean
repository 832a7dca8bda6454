import DependentCore.Proofs.Integers
import DependentCore.Reduction.Fold

/-!
# The meaning of operators

What operators stand for, said without computing anything: connectives of propositions, the order of
numbers and booleans, the sum, difference, product and quotient of integers, and the value of an
integer type that a number is congruent to. Folding computes what is meant.

* `BoolOp.Holds`, `RelOp.Holds`: what an operator says of its operands,
* `ArithOp.Yields`: the number that an operator gives before it is stored,
* `IntType.Stores`: the value that a number has in a type,
* `BoolOp.eval_eq_iff`, `RelOp.eval_compare_int_eq_iff`, `RelOp.eval_compare_bool_eq_iff`,
  `ArithOp.eval?_eq_some_iff`, `IntType.wrap_eq_iff`, `position?_eq_some_iff`: folding agrees.
-/

namespace DependentCore

/-! ## Booleans -/

/-- What an operator on booleans says of its operands. -/
def BoolOp.Holds : BoolOp → Bool → Bool → Prop
  | .and, a, b => a ∧ b
  | .or, a, b => a ∨ b
  | .xor, a, b => ¬(a ↔ b)

instance (op : BoolOp) (a b : Bool) : Decidable (op.Holds a b) :=
  match op with
  | .and => inferInstanceAs (Decidable (_ ∧ _))
  | .or => inferInstanceAs (Decidable (_ ∨ _))
  | .xor => inferInstanceAs (Decidable ¬_)

/-- Folding computes the operators on booleans. -/
theorem BoolOp.eval_eq_iff {op : BoolOp} {a b c : Bool} :
    op.eval a b = c ↔ (c ↔ op.Holds a b) := by
  cases op <;> cases a <;> cases b <;> cases c <;> decide

/-! ## Comparisons -/

/-- What a comparison says of its operands. -/
def RelOp.Holds {α : Type} [LT α] [LE α] : RelOp → α → α → Prop
  | .eq, a, b => a = b
  | .neq, a, b => a ≠ b
  | .lt, a, b => a < b
  | .lte, a, b => a ≤ b
  | .gt, a, b => b < a
  | .gte, a, b => b ≤ a

/-- Folding computes the comparisons of numbers. -/
theorem RelOp.eval_compare_int_eq_iff {op : RelOp} {a b : Int} {c : Bool} :
    op.eval (compare a b) = c ↔ (c ↔ op.Holds a b) := by
  have hholds : op.eval (compare a b) ↔ op.Holds a b := by
    rcases Int.lt_trichotomy a b with h | h | h
    · have hlt : compare a b = .lt := Std.compare_eq_lt.mpr h
      cases op <;> simp only [RelOp.eval, RelOp.Holds, hlt] <;> simp <;> omega
    · have heq : compare a b = .eq := Std.compare_eq_iff_eq.mpr h
      cases op <;> simp only [RelOp.eval, RelOp.Holds, heq] <;> simp <;> omega
    · have hgt : compare a b = .gt := Std.compare_eq_gt.mpr h
      cases op <;> simp only [RelOp.eval, RelOp.Holds, hgt] <;> simp <;> omega
  rw [← hholds, Bool.eq_iff_iff]
  exact Iff.comm

/-- Folding computes the comparisons of booleans, where `false` comes before `true`. -/
theorem RelOp.eval_compare_bool_eq_iff {op : RelOp} {a b c : Bool} :
    op.eval (compare a b) = c ↔ (c ↔ op.Holds a b) := by
  cases op <;> cases a <;> cases b <;> cases c <;> simp [RelOp.eval, RelOp.Holds] <;> decide

/-! ## Arithmetic -/

/-- The number that an operator gives. A quotient leaves a rest that is smaller than the divisor and
has the sign of the dividend; so it is rounded towards zero, and there is none by zero. -/
def ArithOp.Yields : ArithOp → Int → Int → Int → Prop
  | .plus, a, b, n => a + b = n
  | .minus, a, b, n => a - b = n
  | .times, a, b, n => a * b = n
  | .div, a, b, n => ∃ rest, rest + b * n = a ∧ rest.natAbs < b.natAbs ∧
    (0 ≤ a → 0 ≤ rest) ∧ (a ≤ 0 → rest ≤ 0)

/-- A quotient that is rounded towards zero. -/
theorem ArithOp.yields_div_iff {a b n : Int} :
    ArithOp.div.Yields a b n ↔ b ≠ 0 ∧ a.tdiv b = n := by
  constructor
  · rintro ⟨rest, hsum, hrest, hpos, hneg⟩
    have hb : b ≠ 0 := by
      rintro rfl
      exact absurd hrest (Nat.not_lt_zero _)
    refine ⟨hb, ?_⟩
    rcases Int.le_total 0 a with ha | ha
    · exact ((Int.tdiv_tmod_unique ha hb).mpr ⟨hsum, hpos ha, by have := hpos ha; omega⟩).1
    · exact ((Int.tdiv_tmod_unique' ha hb).mpr ⟨hsum, by have := hneg ha; omega, hneg ha⟩).1
  · rintro ⟨hb, rfl⟩
    refine ⟨a.tmod b, Int.tmod_add_mul_tdiv a b, ?_, fun ha => Int.tmod_nonneg b ha, fun ha => ?_⟩
    · rw [Int.natAbs_tmod]
      exact Nat.mod_lt _ (Int.natAbs_pos.mpr hb)
    · have hneg := Int.tmod_nonneg b (Int.neg_nonneg_of_nonpos ha)
      rw [Int.neg_tmod] at hneg
      exact Int.nonpos_of_neg_nonneg hneg

/-- Folding computes the operators on numbers. -/
theorem ArithOp.eval?_eq_some_iff {op : ArithOp} {a b n : Int} :
    op.eval? a b = some n ↔ op.Yields a b n := by
  cases op with
  | plus | minus | times => exact Option.some_inj
  | div =>
    rw [yields_div_iff, ArithOp.eval?]
    by_cases hb : b = 0
    · simp [hb]
    · simp [hb]

/-- There is one such number. -/
theorem ArithOp.Yields.unique {op : ArithOp} {a b n m : Int} (h : op.Yields a b n)
    (h' : op.Yields a b m) : n = m :=
  Option.some_inj.mp ((eval?_eq_some_iff.mpr h).symm.trans (eval?_eq_some_iff.mpr h'))

/-! ## Storing -/

/-- The value that a number has in a type: the one that is congruent to it. -/
def IntType.Stores (t : IntType) (n m : Int) : Prop :=
  t.contains m ∧ m ≡ n [ZMOD t.modulus]

theorem IntType.Stores.unique {t : IntType} {n m m' : Int} (h : t.Stores n m)
    (h' : t.Stores n m') : m = m' :=
  (wrap_eq_iff.mpr h).symm.trans (wrap_eq_iff.mpr h')

/-- Positions are the numbers that can be stored in `u64`. -/
theorem position?_eq_some_iff {n : Int} {i : Nat} :
    position? n = some i ↔ n = i ∧ IntType.u64.contains n := by
  unfold position?
  by_cases hn : IntType.u64.contains n
  · have hnonneg : 0 ≤ n := (IntType.contains_iff.mp hn).1
    rw [if_pos hn, Option.some_inj]
    exact ⟨fun h => ⟨by omega, hn⟩, fun h => by omega⟩
  · simp [hn]

end DependentCore
