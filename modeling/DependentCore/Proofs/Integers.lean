import DependentCore.Typing.Elaborate
import Mathlib.Data.Int.ModEq

/-!
# Wrapping around

A type of width `w` has `2 ^ w` values, which are consecutive integers. So every integer is
congruent modulo `2 ^ w` to exactly one value of the type, and this is the one that it is wrapped
to. All other laws follow: sums, differences and products of congruent numbers are congruent.

* `IntType.max_eq`: the largest value, counted from the smallest one,
* `IntType.contains_wrap`, `IntType.wrap_modEq`: a number that is wrapped around is in range, and
  congruent to what it was,
* `IntType.wrap_eq_iff`: there is no other such number,
* `IntType.wrap_eq_self_iff`: the values of a type are the numbers that are left as they are,
* `Env.check_numeral`: these are the literals that are accepted.
-/

namespace DependentCore

namespace IntType

/-! ## The values of a type -/

theorem half_pos (t : IntType) : 0 < t.half :=
  Int.pow_pos (by decide)

theorem modulus_eq (t : IntType) : t.modulus = 2 * t.half := by
  have hbits : t.width.bits = t.width.bits - 1 + 1 := by cases t.width <;> rfl
  calc t.modulus = 2 ^ (t.width.bits - 1 + 1) := congrArg (Int.pow 2) hbits
    _ = 2 * t.half := Int.pow_succ' ..

/-- The values of a type are as many consecutive integers as its modulus says. -/
theorem max_eq (t : IntType) : t.max = t.min + t.modulus - 1 := by
  have hmodulus := t.modulus_eq
  rw [IntType.max, IntType.min]
  cases t.sign with
  | unsigned =>
    dsimp only
    omega
  | signed =>
    dsimp only
    omega

theorem contains_iff {t : IntType} {n : Int} : t.contains n ↔ t.min ≤ n ∧ n ≤ t.max := by
  rw [IntType.contains, Bool.and_eq_true, decide_eq_true_eq, decide_eq_true_eq]

/-- Values of a type that are congruent are the same. -/
theorem eq_of_modEq {t : IntType} {n m : Int} (hn : t.contains n) (hm : t.contains m)
    (h : n ≡ m [ZMOD t.modulus]) : n = m := by
  have hmax := t.max_eq
  obtain ⟨hn₁, hn₂⟩ := contains_iff.mp hn
  obtain ⟨hm₁, hm₂⟩ := contains_iff.mp hm
  -- counted from the smallest value, both are their own remainders
  have hshift : (n - t.min) % t.modulus = (m - t.min) % t.modulus := h.sub_right t.min
  rw [Int.emod_eq_of_lt (by omega) (by omega), Int.emod_eq_of_lt (by omega) (by omega)] at hshift
  omega

/-! ## Wrapping -/

/-- The first correction makes a remainder that has the sign of the number a natural number below
the modulus. -/
theorem tmod_shifted_range (t : IntType) (n : Int) :
    let r := n.tmod t.modulus
    let r := if r < 0 then r + t.modulus else r
    0 ≤ r ∧ r < t.modulus := by
  intro r
  have hpos : 0 < t.modulus := by
    have hhalf := t.half_pos
    have hmodulus := t.modulus_eq
    omega
  have hlt : r < t.modulus := Int.tmod_lt_of_pos n hpos
  have hgt : -t.modulus < r := Int.lt_tmod_of_pos n hpos
  dsimp only
  split <;> omega

/-- A number that is wrapped around is a value of the type: the first correction ends below the
modulus, and the second one moves the upper half of that range below zero. -/
theorem contains_wrap (t : IntType) (n : Int) : t.contains (t.wrap n) := by
  have hmodulus := t.modulus_eq
  obtain ⟨hnonneg, hlt⟩ := t.tmod_shifted_range n
  rw [contains_iff, IntType.wrap, IntType.min, IntType.max]
  generalize (if n.tmod t.modulus < 0 then n.tmod t.modulus + t.modulus else n.tmod t.modulus) = r
    at hnonneg hlt ⊢
  cases t.sign with
  | unsigned =>
    rw [if_neg (by simp)]
    dsimp only
    omega
  | signed =>
    dsimp only
    split
    · omega
    · next hlower =>
      have hhalf : r < t.half := by simpa using hlower
      omega

/-- A number that is wrapped around is congruent to what it was: the remainder is, and each
correction adds or subtracts the modulus. -/
theorem wrap_modEq (t : IntType) (n : Int) : t.wrap n ≡ n [ZMOD t.modulus] := by
  have hremainder : n.tmod t.modulus ≡ n [ZMOD t.modulus] := by
    rw [Int.tmod_def]
    exact Int.sub_modulus_mul_modEq_iff.mpr rfl
  have hshifted : (if n.tmod t.modulus < 0 then n.tmod t.modulus + t.modulus
      else n.tmod t.modulus) ≡ n [ZMOD t.modulus] := by
    split
    · exact Int.add_modulus_modEq_iff.mpr hremainder
    · exact hremainder
  rw [IntType.wrap]
  generalize (if n.tmod t.modulus < 0 then n.tmod t.modulus + t.modulus else n.tmod t.modulus) = r
    at hshifted ⊢
  split
  · exact Int.sub_modulus_modEq_iff.mpr hshifted
  · exact hshifted

/-- A number is wrapped to the value of the type that is congruent to it. -/
theorem wrap_eq_iff {t : IntType} {n m : Int} :
    t.wrap n = m ↔ t.contains m ∧ m ≡ n [ZMOD t.modulus] := by
  constructor
  · rintro rfl
    exact ⟨t.contains_wrap n, t.wrap_modEq n⟩
  · rintro ⟨hm, hmod⟩
    exact eq_of_modEq (t.contains_wrap n) hm ((t.wrap_modEq n).trans hmod.symm)

/-- Numbers are wrapped to the same value just if they are congruent. -/
theorem wrap_eq_wrap_iff {t : IntType} {n m : Int} :
    t.wrap n = t.wrap m ↔ n ≡ m [ZMOD t.modulus] := by
  rw [wrap_eq_iff]
  refine ⟨fun h => (h.2.symm.trans (t.wrap_modEq m)), fun h => ?_⟩
  exact ⟨t.contains_wrap m, (t.wrap_modEq m).trans h.symm⟩

/-- The values of a type are left as they are, and only they. -/
theorem wrap_eq_self_iff {t : IntType} {n : Int} : t.wrap n = n ↔ t.contains n := by
  rw [wrap_eq_iff]
  exact and_iff_left rfl

end IntType

/-! ## Literals -/

/-- A literal is accepted for an integer type just if wrapping leaves it as it is, and then it is
checked to itself. -/
theorem Env.check_numeral {env : Env} {ty : Checked} {t : IntType} (hty : env.intType? ty = some t)
    (fuel : Nat) (ctx : Context) (loc : Location) (n : Int) :
    env.check fuel ctx (.mk (.place loc rfl) (.atom (.num n))) ty =
      if t.wrap n = n then .ok (Checked.term ty (.atom (.num n)))
      else reject (.numeralRange ty) loc ctx (some ty) := by
  show elaborateNumeral env ctx loc n ty = _
  rw [elaborateNumeral, hty]
  exact if_congr IntType.wrap_eq_self_iff.symm rfl rfl

/-- Wrapping around is reduction in two's complement. Every integer is wrapped to the one integer
within the bounds of the type that is congruent to it modulo `2 ^ width`. So wrapping twice is
wrapping once, operands may be wrapped before they are added, subtracted or multiplied, and a
literal is accepted for the type just if wrapping leaves it as it is. -/
theorem wrap_is_twos_complement (t : IntType) :
    (∀ n m : Int, t.wrap n = m ↔ (t.min ≤ m ∧ m ≤ t.max) ∧ m ≡ n [ZMOD 2 ^ t.width.bits]) ∧
    (∀ n : Int, t.wrap (t.wrap n) = t.wrap n) ∧
    (∀ a b : Int, t.wrap (a + b) = t.wrap (t.wrap a + t.wrap b) ∧
      t.wrap (a - b) = t.wrap (t.wrap a - t.wrap b) ∧
      t.wrap (a * b) = t.wrap (t.wrap a * t.wrap b)) ∧
    (∀ (env : Env) (ty : Checked), env.intType? ty = some t →
      ∀ (fuel : Nat) (ctx : Context) (loc : Location) (n : Int),
        env.check fuel ctx (.mk (.place loc rfl) (.atom (.num n))) ty =
          if t.wrap n = n then .ok (Checked.term ty (.atom (.num n)))
          else reject (.numeralRange ty) loc ctx (some ty)) := by
  refine ⟨fun n m => ?_, fun n => ?_, fun a b => ?_, fun env ty hty => Env.check_numeral hty⟩
  · rw [← IntType.contains_iff]
    exact IntType.wrap_eq_iff
  · exact IntType.wrap_eq_wrap_iff.mpr (t.wrap_modEq n)
  · have ha := (t.wrap_modEq a).symm
    have hb := (t.wrap_modEq b).symm
    simp only [IntType.wrap_eq_wrap_iff]
    exact ⟨ha.add hb, ha.sub hb, ha.mul hb⟩

/-- In `i8`, 100 and 100 add up to -56, which is in range. The literal -56 is accepted, and 200 is
not. -/
theorem wrap_is_twos_complement_at_i8 :
    let t : IntType := ⟨.signed, .w8⟩
    let ty : Checked := Checked.type (.atom (.int t))
    let literal (n : Int) : Written := .mk (.place {} rfl) (.atom (.num n))
    ({} : Env).intType? ty = some t ∧ t.wrap (100 + 100) = -56 ∧
      (t.min ≤ -56 ∧ -56 ≤ t.max) ∧ (-56 ≡ 100 + 100 [ZMOD 2 ^ 8]) ∧
      ({} : Env).check 0 {} (literal (-56)) ty = .ok (Checked.term ty (.atom (.num (-56)))) ∧
      ({} : Env).check 0 {} (literal 200) ty = reject (.numeralRange ty) {} {} (some ty) := by
  intro t ty literal
  obtain ⟨hwrap, -, -, hcheck⟩ := wrap_is_twos_complement t
  have hsum : t.wrap (100 + 100) = -56 := by decide
  obtain ⟨hrange, hmod⟩ := (hwrap _ _).mp hsum
  refine ⟨rfl, hsum, hrange, hmod, ?_, ?_⟩
  · exact (hcheck {} ty rfl 0 {} {} (-56)).trans (if_pos (by decide))
  · exact (hcheck {} ty rfl 0 {} {} 200).trans (if_neg (by decide))

end DependentCore
