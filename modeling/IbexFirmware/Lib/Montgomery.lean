/-
Montgomery multiplication.

For a modulus `n` and a radix `R` that is a unit modulo `n`, a Montgomery product of `x`
and `y` is any number that is `x * y * R⁻¹` modulo `n`. It is computed digit by digit: a step
adds a digit of `x` times `y`, adds the multiple of `n` that clears the last digit, and
drops that digit (`dvd_add_mul`, `step_lt`), and `foldl_mul_pow` is what all digits
together compute. Numbers in Montgomery form, `a * R`, are closed under the product
(`Product.form`), which is how a power is computed.
-/
import Mathlib.Data.ZMod.Basic
import Mathlib.Data.ZMod.Units
import IbexFirmware.Lib.Limbs

set_option autoImplicit false

namespace IbexFirmware.Montgomery

/-! ## Products and Montgomery form -/

/-- `r` is `x * y * R⁻¹` modulo `n`. -/
def Product (n R x y r : ℕ) : Prop := (r : ZMod n) * R = x * y

/-- `x` is `a * R` modulo `n`. -/
def Form (n R x : ℕ) (a : ZMod n) : Prop := (x : ZMod n) = a * R

section form

variable {n R x y r : ℕ} {a b : ZMod n}

/-- The radix cancels. -/
theorem mul_radix_cancel (hR : R.Coprime n) (h : a * R = b * R) : a = b :=
  ((ZMod.isUnit_iff_coprime R n).mpr hR).mul_right_cancel h

/-- The product of two numbers in Montgomery form is the form of their product. -/
theorem Product.form (hR : R.Coprime n) (h : Product n R x y r) (hx : Form n R x a)
    (hy : Form n R y b) : Form n R r (a * b) := by
  apply mul_radix_cancel hR
  rw [h, hx, hy]
  ring

/-- The product with the square of the radix enters the form. -/
theorem Product.enter (hR : R.Coprime n) (h : Product n R x y r) (hy : Form n R y (R : ZMod n)) :
    Form n R r (x : ZMod n) := by
  apply mul_radix_cancel hR
  rw [h, hy]
  ring

/-- The product with an ordinary number leaves the form. -/
theorem Product.leave (hR : R.Coprime n) (h : Product n R x y r) (hx : Form n R x a) :
    (r : ZMod n) = a * y := by
  apply mul_radix_cancel hR
  rw [h, hx]
  ring

end form

/-! ## One digit -/

/-- The multiple of the modulus that is added clears the last digit. -/
theorem dvd_add_mul {b n ninv t u : ℕ} (hinv : b ∣ n * ninv + 1) (hu : u % b = t * ninv % b) :
    b ∣ t + u * n := by
  have hmod : t + u * n ≡ t * (n * ninv + 1) [MOD b] := by
    have hun : u * n ≡ t * ninv * n [MOD b] := Nat.ModEq.mul_right n hu
    calc t + u * n ≡ t + t * ninv * n [MOD b] := Nat.ModEq.add_left t hun
      _ = t * (n * ninv + 1) := by ring
  exact (Nat.modEq_zero_iff_dvd.mp
    (hmod.trans (Nat.modEq_zero_iff_dvd.mpr (hinv.mul_left t))))

/-- The running sum of a step stays below the radix plus the modulus. -/
theorem step_lt {b n R s s' x y u : ℕ} (hs : s < R) (hx : x < b) (hy : y < R) (hu : u < b)
    (h : b * s' = s + x * y + u * n) : s' < R + n := by
  have hxy : x * y ≤ (b - 1) * R := Nat.mul_le_mul (by omega) hy.le
  have hun : u * n ≤ (b - 1) * n := Nat.mul_le_mul_right n (by omega)
  have hb : b - 1 + 1 = b := by omega
  apply Nat.lt_of_mul_lt_mul_left (a := b)
  calc b * s' = s + x * y + u * n := h
    _ < R + (b - 1) * R + (b - 1) * n := by omega
    _ ≤ R + (b - 1) * R + (n + (b - 1) * n) := by omega
    _ = (b - 1 + 1) * (R + n) := by ring
    _ = b * (R + n) := by rw [hb]

/-! ## All digits -/

/-- Steps that each divide by the base after adding a digit of `x` times `y` compute
`x * y` divided by the base to the number of digits. -/
theorem foldl_mul_pow {α : Type} {n w : ℕ} {y : ZMod n} {val : α → ℕ} {f : α → BitVec w → α}
    (hstep : ∀ r x, (val (f r x) : ZMod n) * (2 ^ w : ℕ) = val r + x.toNat * y)
    (xs : List (BitVec w)) (r : α) :
    (val (xs.foldl f r) : ZMod n) * ((2 ^ w) ^ xs.length : ℕ) =
      val r + (Limbs.value xs : ℕ) * y := by
  induction xs generalizing r with
  | nil => simp
  | cons x xs ih =>
      have hrest := ih (f r x)
      have hfirst := hstep r x
      rw [List.foldl_cons, List.length_cons, pow_succ, Limbs.value_cons]
      push_cast at hrest hfirst ⊢
      rw [← mul_assoc, hrest, add_mul, hfirst]
      ring

end IbexFirmware.Montgomery
