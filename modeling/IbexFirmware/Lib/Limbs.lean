/-
Lists of machine words as numbers.

`value` reads a list of words, least significant first, as the number it is the digits
of. Mathlib's `Nat.ofDigits` is that number; what is added here is that a word of `w` bits
is a digit to the base `2 ^ w`, so that a list has its bound and its order without a
hypothesis on its elements. A comparison that starts at the top word is right by
`value_append_singleton_lt`.
-/
import Mathlib.Data.Nat.Digits.Lemmas
import Mathlib.Tactic

set_option autoImplicit false

namespace IbexFirmware.Limbs

variable {w : ℕ}

/-- The number whose digits to the base `2 ^ w` are `ws`, least significant first. -/
def value (ws : List (BitVec w)) : ℕ := Nat.ofDigits (2 ^ w) (ws.map BitVec.toNat)

@[simp] theorem value_nil : value ([] : List (BitVec w)) = 0 := rfl

@[simp] theorem value_cons (x : BitVec w) (xs : List (BitVec w)) :
    value (x :: xs) = x.toNat + 2 ^ w * value xs := by
  simp [value, Nat.ofDigits_cons]

theorem value_append (xs ys : List (BitVec w)) :
    value (xs ++ ys) = value xs + (2 ^ w) ^ xs.length * value ys := by
  simp [value, Nat.ofDigits_append]

theorem value_append_singleton (xs : List (BitVec w)) (y : BitVec w) :
    value (xs ++ [y]) = value xs + (2 ^ w) ^ xs.length * y.toNat := by
  simp [value_append]

@[simp] theorem value_replicate_zero (n : ℕ) : value (List.replicate n 0#w) = 0 := by
  induction n with
  | zero => rfl
  | succ n ih => simp [List.replicate_succ, ih]

/-- A number of `n` words is below the base to the power `n`. -/
theorem value_lt (ws : List (BitVec w)) : value ws < (2 ^ w) ^ ws.length := by
  induction ws with
  | nil => simp
  | cons x xs ih =>
      have hx : x.toNat < 2 ^ w := x.isLt
      calc value (x :: xs) = x.toNat + 2 ^ w * value xs := value_cons x xs
        _ < 2 ^ w + 2 ^ w * value xs := by omega
        _ = 2 ^ w * (value xs + 1) := by ring
        _ ≤ 2 ^ w * (2 ^ w) ^ xs.length := Nat.mul_le_mul_left _ ih
        _ = (2 ^ w) ^ (x :: xs).length := by rw [List.length_cons, pow_succ']

/-- The words of all ones are the largest number of their length. -/
theorem value_replicate_allOnes (n : ℕ) :
    value (List.replicate n (BitVec.allOnes w)) + 1 = (2 ^ w) ^ n := by
  induction n with
  | zero => simp
  | succ n ih =>
      have hpos : 0 < 2 ^ w := Nat.two_pow_pos w
      rw [List.replicate_succ, value_cons, BitVec.toNat_allOnes, pow_succ', ← ih]
      rw [Nat.mul_add]
      omega

/-- Where the top words differ, the words below do not matter. -/
theorem value_append_singleton_lt {xs ys : List (BitVec w)} {x y : BitVec w}
    (hlen : xs.length = ys.length) (hxy : x < y) : value (xs ++ [x]) < value (ys ++ [y]) := by
  have hlt : x.toNat + 1 ≤ y.toNat := hxy
  calc value (xs ++ [x]) = value xs + (2 ^ w) ^ xs.length * x.toNat := value_append_singleton xs x
    _ < (2 ^ w) ^ xs.length + (2 ^ w) ^ xs.length * x.toNat :=
        Nat.add_lt_add_right (value_lt xs) _
    _ = (2 ^ w) ^ xs.length * (x.toNat + 1) := by ring
    _ ≤ (2 ^ w) ^ xs.length * y.toNat := Nat.mul_le_mul_left _ hlt
    _ = (2 ^ w) ^ ys.length * y.toNat := by rw [hlen]
    _ ≤ value (ys ++ [y]) := by
        rw [value_append_singleton]
        exact Nat.le_add_left _ _

/-- Two numbers of one length with the same top word compare by the words below. -/
theorem value_append_singleton_le_iff {xs ys : List (BitVec w)} (x : BitVec w)
    (hlen : xs.length = ys.length) :
    value (xs ++ [x]) ≤ value (ys ++ [x]) ↔ value xs ≤ value ys := by
  rw [value_append_singleton, value_append_singleton, hlen]
  omega

/-- Words of one length with the same number are the same. -/
theorem value_injective {xs ys : List (BitVec w)} (hlen : xs.length = ys.length)
    (h : value xs = value ys) : xs = ys := by
  induction xs generalizing ys with
  | nil => exact (List.length_eq_zero_iff.mp hlen.symm).symm
  | cons x xs ih =>
      cases ys with
      | nil => exact absurd hlen (by simp)
      | cons y ys =>
          rw [value_cons, value_cons] at h
          have hdigit : x.toNat = y.toNat := by
            have hmod := congrArg (· % 2 ^ w) h
            simpa [Nat.add_mul_mod_self_left, Nat.mod_eq_of_lt x.isLt,
              Nat.mod_eq_of_lt y.isLt] using hmod
          rw [hdigit] at h
          have hrest : value xs = value ys :=
            Nat.eq_of_mul_eq_mul_left (Nat.two_pow_pos w) (Nat.add_left_cancel h)
          rw [BitVec.eq_of_toNat_eq hdigit, ih (by simpa using hlen) hrest]

/-! ## One column of a multiplication

A word times a word, a word and a carry fit two words together, whatever they are. -/

/-- The sum of a product of two words and two more words fits a double word. -/
theorem mul_add_add_lt {b x y r c : ℕ} (hx : x < b) (hy : y < b) (hr : r < b) (hc : c < b) :
    x * y + r + c < b * b := by
  have hprod : x * y ≤ (b - 1) * (b - 1) := Nat.mul_le_mul (by omega) (by omega)
  obtain ⟨k, rfl⟩ : ∃ k, b = k + 1 := ⟨b - 1, by omega⟩
  simp only [Nat.add_sub_cancel] at hprod
  calc x * y + r + c ≤ k * k + k + k := by omega
    _ < (k + 1) * (k + 1) := by ring_nf; omega

end IbexFirmware.Limbs
