import Mathlib.Data.Int.Bitwise
import Mathlib.Tactic.Positivity
import Mathlib.Tactic.Ring

/-!
# Alignment by masking

Low-level code aligns an address with bit masks: `x & (h - 1)` is the offset of `x` in its word
of `h` bytes and `x & ~(h - 1)` the start of that word, for `h` a power of two. Integers are
two's complement numbers of unbounded width to `Int.land`, so the masks are stated here for all
integers, and each is shown to be the arithmetic it stands for. Nothing after this file looks at
a bit of an address again: the second half is about `a % h` and `a - a % h`, for any word size.

## Main results

* `land_two_pow_sub_one` — the low bits are a remainder
* `land_not_two_pow_sub_one` — clearing the low bits rounds down
* `land_two_pow_ne_zero_iff` — testing one bit of a number whose lower bits are clear
* `eq_sub_emod`, `le_sub_emod` — the word of an address
-/

namespace WordAccess

theorem land_zero (x : ℤ) : Int.land x 0 = 0 := by
  cases x with
  | ofNat m => exact congrArg Int.ofNat (Nat.and_zero m)
  | negSucc m =>
    refine congrArg Int.ofNat (Nat.eq_of_testBit_eq fun i => ?_)
    simp [Nat.testBit_ldiff]

theorem land_neg_one (x : ℤ) : Int.land x (-1) = x := by
  cases x with
  | ofNat m =>
    refine congrArg Int.ofNat (Nat.eq_of_testBit_eq fun i => ?_)
    simp [Nat.testBit_ldiff]
  | negSucc m => exact congrArg Int.negSucc (Nat.or_zero m)

theorem not_eq_neg_sub_one (x : ℤ) : ~~~x = -x - 1 := by
  cases x with
  | ofNat m => change Int.negSucc m = -(m : ℤ) - 1; omega
  | negSucc m => change (m : ℤ) = -Int.negSucc m - 1; omega

theorem emod_mul_eq (x m : ℤ) : x % (2 * m) = x % 2 + 2 * (x / 2 % m) := by
  rw [Int.emod_def, Int.emod_def, Int.emod_def, ← Int.ediv_ediv_of_nonneg (by norm_num)]
  ring

/-- One bit at a time: the low bit, and the mask of the rest. -/
theorem land_bit_true (x y : ℤ) : Int.land x (2 * y + 1) = x % 2 + 2 * Int.land (x / 2) y := by
  have hx : x = Int.bit x.bodd (x / 2) := by rw [← Int.div2_val, Int.bit_decomp]
  have hy : 2 * y + 1 = Int.bit true y := by simp [Int.bit_val]
  have hlow : x % 2 = cond x.bodd 1 0 := by
    have := Int.bodd_add_div2 x
    rw [Int.div2_val] at this
    omega
  conv_lhs => rw [hx, hy, Int.land_bit, Bool.and_true, Int.bit_val]
  rw [hlow, add_comm]

theorem land_bit_false (x y : ℤ) : Int.land x (2 * y) = 2 * Int.land (x / 2) y := by
  have hx : x = Int.bit x.bodd (x / 2) := by rw [← Int.div2_val, Int.bit_decomp]
  have hy : 2 * y = Int.bit false y := by simp [Int.bit_val]
  conv_lhs => rw [hx, hy, Int.land_bit, Bool.and_false, Int.bit_val]
  simp

/-- **The low bits are a remainder.** -/
theorem land_two_pow_sub_one (e : ℕ) : ∀ x : ℤ, Int.land x (2 ^ e - 1) = x % 2 ^ e := by
  induction e with
  | zero => intro x; rw [pow_zero, sub_self, land_zero, Int.emod_one]
  | succ e ih =>
    intro x
    rw [show (2 : ℤ) ^ (e + 1) - 1 = 2 * (2 ^ e - 1) + 1 by ring, land_bit_true, ih,
      pow_succ', emod_mul_eq]

/-- **Clearing the low bits rounds down.** -/
theorem land_not_two_pow_sub_one (e : ℕ) :
    ∀ x : ℤ, Int.land x (~~~(2 ^ e - 1 : ℤ)) = x - x % 2 ^ e := by
  have hnot : (~~~(2 ^ e - 1 : ℤ)) = -2 ^ e := by rw [not_eq_neg_sub_one]; ring
  rw [hnot]
  clear hnot
  induction e with
  | zero => intro x; rw [pow_zero, land_neg_one, Int.emod_one, sub_zero]
  | succ e ih =>
    intro x
    rw [show -(2 : ℤ) ^ (e + 1) = 2 * -2 ^ e by ring, land_bit_false, ih, pow_succ', emod_mul_eq]
    omega

theorem land_two_pow (e : ℕ) : ∀ x : ℤ, Int.land x (2 ^ e) = 2 ^ e * (x / 2 ^ e % 2) := by
  induction e with
  | zero =>
    intro x
    rw [pow_zero, show (1 : ℤ) = 2 * 0 + 1 by norm_num, land_bit_true, land_zero]
    simp
  | succ e ih =>
    intro x
    rw [pow_succ', land_bit_false, ih, Int.ediv_ediv_of_nonneg (by norm_num)]
    ring

/-- **Testing one bit** of a number whose lower bits are clear asks for the next alignment. -/
theorem land_two_pow_ne_zero_iff {e : ℕ} {x : ℤ} (hx : (2 : ℤ) ^ e ∣ x) :
    Int.land x (2 ^ e) ≠ 0 ↔ ¬(2 : ℤ) ^ (e + 1) ∣ x := by
  obtain ⟨y, rfl⟩ := hx
  have hpos : (0 : ℤ) < 2 ^ e := by positivity
  rw [land_two_pow, Int.mul_ediv_cancel_left _ hpos.ne', pow_succ,
    Int.mul_dvd_mul_iff_left hpos.ne', mul_ne_zero_iff]
  omega

/-! ### Rounding down -/

section Rounding

variable (h : ℕ) [NeZero h]

theorem emod_lt_natCast (a : ℤ) : a % (h : ℤ) < h :=
  Int.emod_lt_of_pos a (by exact_mod_cast Nat.pos_of_neZero h)

theorem emod_nonneg_natCast (a : ℤ) : 0 ≤ a % (h : ℤ) :=
  Int.emod_nonneg a (by exact_mod_cast NeZero.ne h)

variable {h}

/-- Moving on inside a word adds to the offset. -/
theorem add_emod_of_lt {a : ℤ} {n : ℕ} (hn : a % h + n < h) : (a + n) % (h : ℤ) = a % h + n := by
  have hnonneg := emod_nonneg_natCast h a
  have hsplit := Int.mul_ediv_add_emod a h
  conv_lhs => rw [show a + n = a % h + n + h * (a / h) by omega, Int.add_mul_emod_self_left]
  exact Int.emod_eq_of_lt (by omega) hn

omit [NeZero h] in
/-- A multiple of `h` whose word holds `y` is `y` rounded down. -/
theorem eq_sub_emod {x y : ℤ} (hx : (h : ℤ) ∣ x) (hxy : x ≤ y) (hyx : y < x + h) :
    x = y - y % h := by
  obtain ⟨p, rfl⟩ := hx
  have hmod : y % h = y - h * p := by
    conv_lhs => rw [show y = (y - h * p) + h * p by ring, Int.add_mul_emod_self_left]
    exact Int.emod_eq_of_lt (by omega) (by omega)
  omega

/-- Rounding down does not pass a multiple of `h`. -/
theorem le_sub_emod {x y : ℤ} (hx : (h : ℤ) ∣ x) (hxy : x ≤ y) : x ≤ y - y % h := by
  have hlt := emod_lt_natCast h y
  rcases lt_or_ge y (x + h) with hyx | hyx
  · exact (eq_sub_emod hx hxy hyx).le
  · omega

omit [NeZero h] in
theorem dvd_sub_emod (y : ℤ) : (h : ℤ) ∣ y - y % h := Int.dvd_self_sub_emod

end Rounding

end WordAccess
