import Mathlib.Data.Int.NatAbs
import Mathlib.Tactic.Linarith
import Mathlib.Tactic.Ring

/-!
# Dividing by multiplying

A number is divided by `a` by multiplying it with a reciprocal and dropping the fraction: with `m / P` instead of
`1 / a`, for a `P` that is easy to divide by.  `m` is rounded up, so that `m * a = P + e`; the error of the product grows
with the number, and where it gets too large the quotient is too large by one.

Let the numbers be less than `T` in absolute value, and `N` be the last multiple of `a` up to `T`.  It is enough that the
quotient of `N - 1` is right, as this is the largest of the numbers that are most sensitive (`trunc_iff`).  For negative
numbers the quotient is one more than what is rounded down.
-/

namespace Reciprocal

variable {a P m e x T N c : Nat}

/-- `N` is the last multiple of `a` up to `T`. -/
structure LastMultiple (a T N : Nat) : Prop where
  pos : 0 < N
  dvd : a ∣ N
  le : N ≤ T
  lt : T < N + a

/-! ## One quotient -/

/-- How far the product is above one quotient, and below the next. -/
theorem product_eq (ha : 0 < a) (hm : m * a = P + e) : x * m * a = x / a * P * a + (x % a * P + x * e) ∧
    x * m * a + (a - x % a) * P = (x / a + 1) * P * a + x * e := by
  have hmod : x % a < a := Nat.mod_lt x ha
  have hprod : x * m * a = x * P + x * e := by rw [Nat.mul_assoc, hm, Nat.mul_add]
  have hdiv : x * P = x / a * P * a + x % a * P := by
    calc x * P = (a * (x / a) + x % a) * P := by rw [Nat.div_add_mod]
      _ = x / a * P * a + x % a * P := by ring
  have hroom : x % a * P + (a - x % a) * P = P * a := by
    rw [← Nat.add_mul, Nat.add_sub_cancel' hmod.le, Nat.mul_comm]
  have hnext : (x / a + 1) * P * a = x / a * P * a + P * a := by ring
  omega

/-- As long as the error is less than what is missing to the next multiple, the quotient is right. -/
theorem mul_div_eq (ha : 0 < a) (hm : m * a = P + e) (hx : x * e < (a - x % a) * P) : x * m / P = x / a := by
  obtain ⟨hlow, hhigh⟩ := product_eq (x := x) ha hm
  refine Nat.div_eq_of_lt_le (Nat.le_of_mul_le_mul_right ?_ ha) (Nat.lt_of_mul_lt_mul_right (a := a) ?_)
  · omega
  · omega

/-- The same for a negative number, which is rounded down. -/
theorem neg_mul_div_eq (ha : 0 < a) (hP : 0 < P) (he : 0 < e) (hm : m * a = P + e) (hx0 : 0 < x)
    (hx : x * e ≤ (a - x % a) * P) : -(x : Int) * m / P = -((x / a : Nat) : Int) - 1 := by
  obtain ⟨hlow, hhigh⟩ := product_eq (x := x) ha hm
  have hpos : 0 < x * e := Nat.mul_pos hx0 he
  have hlow : x / a * P < x * m := Nat.lt_of_mul_lt_mul_right (a := a) (by omega)
  have hhigh : x * m ≤ (x / a + 1) * P := Nat.le_of_mul_le_mul_right (by omega) ha
  have hP' : (0 : Int) < P := Int.natCast_pos.2 hP
  zify at hlow hhigh
  refine le_antisymm (Int.le_sub_one_of_lt (Int.ediv_lt_of_lt_mul hP' ?_)) ((Int.le_ediv_iff_mul_le hP').2 ?_)
  · push_cast
    linarith
  · push_cast
    linarith

/-! ## All quotients -/

section
variable (hN : LastMultiple a T N) (ha : 0 < a) (hfit : (N - 1) * e < P)
include hN ha hfit

/-- A number that is not the last one before a multiple, or is before `N`, leaves enough room. -/
theorem error_lt (hx : x ≤ T) (hroom : x < N ∨ x % a + 1 < a) : x * e < (a - x % a) * P := by
  have hmod : x % a < a := Nat.mod_lt x ha
  rcases Nat.lt_or_ge x N with hlt | hge
  · calc x * e ≤ (N - 1) * e := Nat.mul_le_mul_right e (by omega)
      _ < P := hfit
      _ ≤ (a - x % a) * P := Nat.le_mul_of_pos_left P (by omega)
  · -- what comes behind `N` is less than `N` again
    have hrest : x = N + x % a := by
      obtain ⟨k, rfl⟩ := hN.dvd
      have hlt := hN.lt
      have hsub : x % a = x - a * k := by
        rw [← Nat.sub_mul_mod (k := k) hge]
        exact Nat.mod_eq_of_lt (by omega)
      omega
    have haN : a ≤ N := Nat.le_of_dvd hN.pos hN.dvd
    calc x * e ≤ (N - 1 + (N - 1)) * e := Nat.mul_le_mul_right e (by omega)
      _ = (N - 1) * e + (N - 1) * e := Nat.add_mul _ _ _
      _ < 2 * P := by omega
      _ ≤ (a - x % a) * P := Nat.mul_le_mul_right P (by omega)

theorem error_lt_of_lt (hx : x < T) : x * e < (a - x % a) * P := by
  refine error_lt hN ha hfit (Nat.le_of_lt hx) ?_
  refine or_iff_not_imp_right.2 fun hlast => ?_
  have hmod : x % a < a := Nat.mod_lt x ha
  have hdvd : a ∣ x + 1 := by
    rw [Nat.dvd_iff_mod_eq_zero, Nat.add_mod]
    have : x % a = a - 1 := by omega
    rw [this]
    rcases Nat.eq_or_lt_of_le (Nat.succ_le_of_lt ha) with h1 | h1
    · rw [← h1]
    · rw [Nat.mod_eq_of_lt h1, Nat.sub_add_cancel (Nat.le_of_lt h1), Nat.mod_self]
  -- the next number is a multiple, and `N` is the last one up to `T`
  obtain ⟨k, hk⟩ := hN.dvd
  obtain ⟨l, hl⟩ := hdvd
  have hlt := hN.lt
  have hlk : l < k + 1 := by
    refine Nat.lt_of_mul_lt_mul_left (a := a) ?_
    rw [Nat.mul_add, Nat.mul_one]
    omega
  have : a * l ≤ a * k := Nat.mul_le_mul_left a (by omega)
  omega

/-- At the limit itself, the error of the reciprocal is no more than it may be, as `P` is a multiple of it. -/
theorem error_le_limit (hP : P = T * c) (hc : 0 < c) (hm : m * a = P + e) (he : e ≤ a) : T * e ≤ (a - T % a) * P := by
  have hmod : T % a < a := Nat.mod_lt T ha
  by_cases hlast : T % a + 1 < a
  · exact Nat.le_of_lt (error_lt hN ha hfit (Nat.le_refl T) (.inr hlast))
  · have hec : e ≤ c := by
      by_contra hlt
      have hT : a ∣ T + 1 := by
        have hdiv := Nat.div_add_mod T a
        exact ⟨T / a + 1, by rw [Nat.mul_add]; omega⟩
      have hdvd : a ∣ e - c := by
        have h1 : a ∣ P + e := ⟨m, by rw [← hm, Nat.mul_comm]⟩
        have h2 : a ∣ (T + 1) * c := Nat.dvd_mul_right_of_dvd hT c
        have h3 : P + e - (T + 1) * c = e - c := by
          rw [hP, Nat.add_mul]
          omega
        exact h3 ▸ Nat.dvd_sub h1 h2
      have := Nat.le_of_dvd (by omega) hdvd
      omega
    calc T * e ≤ T * c := Nat.mul_le_mul_left T hec
      _ = P := hP.symm
      _ ≤ (a - T % a) * P := Nat.le_mul_of_pos_left P (by omega)

end

/-- The quotient of the number before `N` is too large if the error is. -/
theorem lt_mul_div_of_le (hN : LastMultiple a T N) (ha : 0 < a) (hP : 0 < P) (hm : m * a = P + e)
    (hbad : P ≤ (N - 1) * e) : (N - 1) / a < (N - 1) * m / P := by
  obtain ⟨k, rfl⟩ := hN.dvd
  have hlow : (a * k - 1) / a < k := by
    refine (Nat.div_lt_iff_lt_mul ha).2 ?_
    have := hN.pos
    rw [Nat.mul_comm k a]
    omega
  refine hlow.trans_le ((Nat.le_div_iff_mul_le hP).2 (Nat.le_of_mul_le_mul_right ?_ ha))
  have hpos := hN.pos
  calc k * P * a = (a * k - 1) * P + P := by rw [← Nat.succ_mul, Nat.succ_eq_add_one, Nat.sub_add_cancel hpos]; ring
    _ ≤ (a * k - 1) * P + (a * k - 1) * e := Nat.add_le_add_left hbad _
    _ = (a * k - 1) * m * a := by rw [Nat.mul_assoc, hm, Nat.mul_add]

/-- **All quotients are right**, those of the negative numbers with one added, if and only if that of `N - 1` is. -/
theorem trunc_iff (hN : LastMultiple a T N) (ha : 0 < a) (hP : P = T * c) (hc : 0 < c) (hm : m * a = P + e)
    (he : 0 < e) (hea : e ≤ a) :
    (∀ x : Int, -(T : Int) ≤ x → x < T → x * m / P + (if x < 0 then 1 else 0) = x.tdiv a) ↔ (N - 1) * e < P := by
  have hT : 0 < T := hN.pos.trans_le hN.le
  have hpos : 0 < P := hP ▸ Nat.mul_pos hT hc
  constructor
  · intro h
    by_contra hbad
    have hlt := lt_mul_div_of_le hN ha hpos hm (Nat.le_of_not_lt hbad)
    have hle := hN.le
    have hx := h ((N - 1 : Nat) : Int) (by omega) (by have := hN.pos; omega)
    rw [if_neg (by omega), Int.add_zero, ← Int.natCast_mul, ← Int.natCast_ediv, ← Int.ofNat_tdiv] at hx
    omega
  · intro hfit x hlo hhi
    rcases Int.lt_or_le x 0 with hneg | hnonneg
    · obtain ⟨y, rfl⟩ : ∃ y : Nat, x = -(y : Int) := ⟨x.natAbs, by omega⟩
      have hy : y * e ≤ (a - y % a) * P := by
        rcases Nat.lt_or_ge y T with hlt | hge
        · exact Nat.le_of_lt (error_lt_of_lt hN ha hfit hlt)
        · obtain rfl : y = T := by omega
          exact error_le_limit hN ha hfit hP hc hm hea
      rw [if_pos hneg, neg_mul_div_eq ha hpos he hm (by omega) hy, Int.neg_tdiv, ← Int.ofNat_tdiv]
      omega
    · obtain ⟨y, rfl⟩ := Int.eq_ofNat_of_zero_le hnonneg
      have hy := error_lt_of_lt hN ha hfit (show y < T by omega)
      rw [if_neg (by omega), Int.add_zero, ← Int.natCast_mul, ← Int.natCast_ediv, mul_div_eq ha hm hy, ← Int.ofNat_tdiv]

end Reciprocal
