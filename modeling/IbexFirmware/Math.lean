/-
64-bit arithmetic in software (`math.c`, `math_builtins.c`).

The compiler leaves 64-bit shifts to functions that work on the halves of a value. Bit `i` of a
value in halves is bit `i` of the lower or bit `i - 32` of the upper half (`getLsbD_full`), so a
shift is right when each half takes its bits from where the shift has them, and the three cases
of the source are three cases of that.

`udiv64_slow` brings the digits of the dividend down one by one. What it has after `k` of them is
the quotient and the remainder of the first `k` digits (`Divided`), and the remainder is less
than `2 ^ k`: so it can be doubled 64 times without losing its highest bit, however large the
divisor is.
-/
import IbexFirmware.Lib.Bytes

set_option autoImplicit false

namespace IbexFirmware.Math

open Bytes

/-! ## Shifts -/

/-- `u32x2_t`. -/
structure U32x2 where
  lo : u32
  hi : u32

def U32x2.ofFull (val : u64) : U32x2 := ⟨lo32 val, hi32 val⟩

def U32x2.full (word : U32x2) : u64 := dword word.lo word.hi

/-- `_ot_builtin_lshift_i64`. -/
def ot_builtin_lshift_i64 (val : u64) (shift : u32) : u64 :=
  if shift = 0 then val
  else
    let word := U32x2.ofFull val
    if (32 : u32).sle shift then
      U32x2.full ⟨0, word.lo <<< (shift - 32).toNat⟩
    else
      let hi := word.hi <<< shift.toNat
      let hi := hi ||| word.lo >>> (32 - shift).toNat
      U32x2.full ⟨word.lo <<< shift.toNat, hi⟩

/-- `_ot_builtin_rshift_i64`. -/
def ot_builtin_rshift_i64 (val : u64) (shift : u32) : u64 :=
  if shift = 0 then val
  else
    let word := U32x2.ofFull val
    if (32 : u32).sle shift then
      U32x2.full ⟨word.hi >>> (shift - 32).toNat, 0⟩
    else
      let lo := word.lo >>> shift.toNat
      let lo := lo ||| word.hi <<< (32 - shift).toNat
      U32x2.full ⟨lo, word.hi >>> shift.toNat⟩

/-- `_ot_builtin_ashift_i64`. -/
def ot_builtin_ashift_i64 (val : u64) (shift : u32) : u64 :=
  if shift = 0 then val
  else
    let word := U32x2.ofFull val
    if (32 : u32).sle shift then
      U32x2.full ⟨word.hi.sshiftRight (shift - 32).toNat, word.hi.sshiftRight 31⟩
    else
      let lo := word.lo >>> shift.toNat
      let lo := lo ||| word.hi <<< (32 - shift).toNat
      U32x2.full ⟨lo, word.hi.sshiftRight shift.toNat⟩

/-! ### The halves of a value -/

theorem getLsbD_full (word : U32x2) (i : ℕ) :
    word.full.getLsbD i = if i < 32 then word.lo.getLsbD i else word.hi.getLsbD (i - 32) := by
  simp only [U32x2.full, dword, BitVec.getLsbD_or, BitVec.getLsbD_shiftLeft,
    BitVec.getLsbD_setWidth]
  split_ifs with h
  · simp [h, show i < 64 by omega]
  · by_cases h64 : i < 64
    · simp [h, h64, BitVec.getLsbD_of_ge word.lo i (by omega), show i - 32 < 64 by omega]
    · simp [h64, BitVec.getLsbD_of_ge word.hi (i - 32) (by omega)]

theorem getLsbD_lo32 (val : u64) (i : ℕ) :
    (lo32 val).getLsbD i = (decide (i < 32) && val.getLsbD i) := by
  simp [lo32, BitVec.getLsbD_setWidth]

theorem getLsbD_hi32 (val : u64) (i : ℕ) :
    (hi32 val).getLsbD i = val.getLsbD (32 + i) := by
  simp only [hi32, BitVec.getLsbD_setWidth, BitVec.getLsbD_ushiftRight]
  by_cases h : i < 32
  · simp [h]
  · simp [h, BitVec.getLsbD_of_ge val (32 + i) (by omega)]

theorem msb_hi32 (val : u64) : (hi32 val).msb = val.msb := by
  rw [BitVec.msb_eq_getLsbD_last, BitVec.msb_eq_getLsbD_last, getLsbD_hi32]

/-- What is left of the upper half is its sign. -/
theorem getLsbD_sign (val : u64) {i : ℕ} (h : i < 32) :
    ((hi32 val).sshiftRight 31).getLsbD i = val.msb := by
  rw [BitVec.getLsbD_sshiftRight, msb_hi32, getLsbD_hi32]
  by_cases hzero : i = 0
  · subst hzero
    exact (BitVec.msb_eq_getLsbD_last val).symm
  · simp [show ¬32 ≤ i by omega, show ¬31 + i < 32 by omega]

/-- A shift that the source compares as a signed number. -/
theorem sle_shift {shift : u32} (h : shift.toNat < 64) :
    (32 : u32).sle shift = true ↔ 32 ≤ shift.toNat := by
  have hmsb : shift.msb = false := BitVec.msb_eq_false_iff_two_mul_lt.mpr (by omega)
  have hint : shift.toInt = shift.toNat := BitVec.toInt_eq_toNat_of_msb hmsb
  have h32 : (32 : u32).toInt = 32 := by decide
  rw [BitVec.sle, hint, h32, decide_eq_true_eq]
  omega

/-- The shift of the other half, for a shift by 32 or more. -/
theorem toNat_shift_sub {shift : u32} (h : 32 ≤ shift.toNat) : (shift - 32).toNat = shift.toNat - 32 :=
  BitVec.toNat_sub_of_le (BitVec.le_def.mpr h)

/-- The bits that change halves, for a shift by less. -/
theorem toNat_sub_shift {shift : u32} (h : shift.toNat < 32) : (32 - shift).toNat = 32 - shift.toNat :=
  BitVec.toNat_sub_of_le (BitVec.le_def.mpr h.le)

/-- The lower half after a shift to the right by less, with the lowest bits of the upper one. -/
theorem getLsbD_shift_lo (val : u64) {shift i : ℕ} (hshift : shift < 32) (hi : i < 32) :
    (lo32 val >>> shift ||| hi32 val <<< (32 - shift)).getLsbD i = val.getLsbD (shift + i) := by
  simp only [BitVec.getLsbD_or, BitVec.getLsbD_shiftLeft, BitVec.getLsbD_ushiftRight, getLsbD_lo32,
    getLsbD_hi32]
  by_cases hin : shift + i < 32
  · simp [hin, show i < 32 - shift by omega]
  · simp [hin, hi, show ¬i < 32 - shift by omega, show 32 + (i - (32 - shift)) = shift + i by omega]

/-! ### Each shift is the one of 64-bit values -/

section

variable (val : u64) {shift : u32} (h : shift.toNat < 64)
include h

/-- Two words shifted by halves, with the cases of the half, of more and of nothing. -/
theorem ot_builtin_lshift_i64_eq : ot_builtin_lshift_i64 val shift = val <<< shift.toNat := by
  unfold ot_builtin_lshift_i64
  split_ifs with hzero hbig
  · subst hzero
    exact (BitVec.shiftLeft_zero val).symm
  · -- the lower half moves up into the upper one
    rw [sle_shift h] at hbig
    apply BitVec.eq_of_getLsbD_eq
    intro i hi
    rw [getLsbD_full, toNat_shift_sub hbig, BitVec.getLsbD_shiftLeft]
    by_cases hlow : i < 32
    · simp [hlow, show i < shift.toNat by omega]
    · simp only [hlow, if_false, BitVec.getLsbD_shiftLeft, U32x2.ofFull, getLsbD_lo32,
        show i - 32 < 32 by omega, show i - 32 < shift.toNat - 32 ↔ i < shift.toNat by omega,
        show i - 32 - (shift.toNat - 32) = i - shift.toNat by omega, hi,
        show i - shift.toNat < 32 by omega, decide_true, Bool.true_and]
  · -- the highest bits of the lower half become the lowest ones of the upper half
    rw [sle_shift h] at hbig
    apply BitVec.eq_of_getLsbD_eq
    intro i hi
    rw [getLsbD_full, toNat_sub_shift (by omega), BitVec.getLsbD_shiftLeft]
    by_cases hlow : i < 32
    · simp only [hlow, if_true, BitVec.getLsbD_shiftLeft, U32x2.ofFull, getLsbD_lo32, hi,
        show i - shift.toNat < 32 by omega, decide_true, Bool.true_and]
    · simp only [hlow, if_false, BitVec.getLsbD_or, BitVec.getLsbD_shiftLeft,
        BitVec.getLsbD_ushiftRight, U32x2.ofFull, getLsbD_lo32, getLsbD_hi32, hi,
        show i - 32 < 32 by omega, show ¬i < shift.toNat by omega]
      by_cases hin : i - 32 < shift.toNat
      · simp [hin, show 32 - shift.toNat + (i - 32) = i - shift.toNat by omega,
          show i - shift.toNat < 32 by omega]
      · simp [hin, show 32 + (i - 32 - shift.toNat) = i - shift.toNat by omega,
          show ¬32 - shift.toNat + (i - 32) < 32 by omega]

theorem ot_builtin_rshift_i64_eq : ot_builtin_rshift_i64 val shift = val >>> shift.toNat := by
  unfold ot_builtin_rshift_i64
  split_ifs with hzero hbig
  · subst hzero
    exact (BitVec.ushiftRight_zero val).symm
  · -- the upper half moves down into the lower one
    rw [sle_shift h] at hbig
    apply BitVec.eq_of_getLsbD_eq
    intro i hi
    rw [getLsbD_full, toNat_shift_sub hbig, BitVec.getLsbD_ushiftRight]
    by_cases hlow : i < 32
    · simp [hlow, U32x2.ofFull, getLsbD_hi32,
        show 32 + (shift.toNat - 32 + i) = shift.toNat + i by omega]
    · simp [hlow, BitVec.getLsbD_of_ge val (shift.toNat + i) (by omega)]
  · rw [sle_shift h] at hbig
    apply BitVec.eq_of_getLsbD_eq
    intro i hi
    rw [getLsbD_full, toNat_sub_shift (by omega), BitVec.getLsbD_ushiftRight]
    by_cases hlow : i < 32
    · rw [if_pos hlow, BitVec.getLsbD_ushiftRight]
      exact getLsbD_shift_lo val (by omega) hlow
    · simp [hlow, U32x2.ofFull, getLsbD_hi32,
        show 32 + (shift.toNat + (i - 32)) = shift.toNat + i by omega]

/-- The same with the sign moved in. -/
theorem ot_builtin_ashift_i64_eq :
    ot_builtin_ashift_i64 val shift = val.sshiftRight shift.toNat := by
  unfold ot_builtin_ashift_i64
  split_ifs with hzero hbig
  · subst hzero
    exact BitVec.sshiftRight_zero.symm
  · -- the upper half is all sign
    rw [sle_shift h] at hbig
    apply BitVec.eq_of_getLsbD_eq
    intro i hi
    rw [getLsbD_full, toNat_shift_sub hbig, BitVec.getLsbD_sshiftRight val]
    by_cases hlow : i < 32
    · simp only [hlow, if_true, BitVec.getLsbD_sshiftRight, U32x2.ofFull, getLsbD_hi32, msb_hi32,
        show 32 + (shift.toNat - 32 + i) = shift.toNat + i by omega, show ¬32 ≤ i by omega,
        show ¬64 ≤ i by omega, show shift.toNat - 32 + i < 32 ↔ shift.toNat + i < 64 by omega]
    · rw [if_neg hlow]
      refine (getLsbD_sign val (by omega)).trans ?_
      simp [show ¬64 ≤ i by omega, show ¬shift.toNat + i < 64 by omega]
  · rw [sle_shift h] at hbig
    apply BitVec.eq_of_getLsbD_eq
    intro i hi
    rw [getLsbD_full, toNat_sub_shift (by omega), BitVec.getLsbD_sshiftRight val]
    by_cases hlow : i < 32
    · rw [if_pos hlow]
      refine (getLsbD_shift_lo val (by omega) hlow).trans ?_
      simp [show ¬64 ≤ i by omega, show shift.toNat + i < 64 by omega]
    · simp only [hlow, if_false, BitVec.getLsbD_sshiftRight, U32x2.ofFull, getLsbD_hi32, msb_hi32,
        show ¬32 ≤ i - 32 by omega, show ¬64 ≤ i by omega,
        show 32 + (shift.toNat + (i - 32)) = shift.toNat + i by omega,
        show shift.toNat + (i - 32) < 32 ↔ shift.toNat + i < 64 by omega]

end

/-- The three shifts of the source, as numbers. -/
theorem shifts_exact (val : u64) (shift : u32) (h : 0 ≤ shift.toInt ∧ shift.toInt < 64) :
    (ot_builtin_lshift_i64 val shift).toNat = val.toNat * 2 ^ shift.toNat % 2 ^ 64 ∧
      (ot_builtin_rshift_i64 val shift).toNat = val.toNat / 2 ^ shift.toNat ∧
      (ot_builtin_ashift_i64 val shift).toInt = Int.fdiv val.toInt (2 ^ shift.toNat) := by
  have hmsb : shift.msb = false := by
    by_contra hneg
    have hlt := BitVec.toInt_neg_of_msb_true (by simpa using hneg : shift.msb = true)
    omega
  have hint : shift.toInt = shift.toNat := BitVec.toInt_eq_toNat_of_msb hmsb
  have hlt : shift.toNat < 64 := by omega
  rw [ot_builtin_lshift_i64_eq val hlt, ot_builtin_rshift_i64_eq val hlt,
    ot_builtin_ashift_i64_eq val hlt]
  refine ⟨?_, ?_, ?_⟩
  · rw [BitVec.toNat_shiftLeft, Nat.shiftLeft_eq]
  · rw [BitVec.toNat_ushiftRight, Nat.shiftRight_eq_div_pow]
  · rw [BitVec.toInt_sshiftRight, Int.shiftRight_eq_div_pow, Int.fdiv_eq_ediv_of_nonneg]
    · norm_cast
    · positivity

/-- A shift by 31 of a negative value. -/
theorem shifts_exact_31 :
    (ot_builtin_lshift_i64 (-5) 31).toNat = (-5 : u64).toNat * 2 ^ 31 % 2 ^ 64 ∧
      (ot_builtin_rshift_i64 (-5) 31).toNat = (-5 : u64).toNat / 2 ^ 31 ∧
      (ot_builtin_ashift_i64 (-5) 31).toInt = Int.fdiv (-5 : u64).toInt (2 ^ 31) :=
  shifts_exact (-5) 31 (by decide)

/-! ## Division -/

/-- The rest of the loop, with `n` digits of the dividend still to come. -/
def udiv64_loop (b : u64) : ℕ → u64 → u64 → u64 → u64 × u64
  | 0, _, quot, rem => (quot, rem)
  | n + 1, a, quot, rem =>
      let rem := rem <<< 1
      let quot := quot <<< 1
      let rem := if (a >>> 63) &&& 1 ≠ 0 then rem ||| 1 else rem
      let a := a <<< 1
      if b ≤ rem then udiv64_loop b n a (quot ||| 1) (rem - b) else udiv64_loop b n a quot rem

/-- The quotient, and what `rem_out` points to afterwards. -/
def udiv64_slow (a b : u64) (rem_out : Option u64) : u64 × Option u64 :=
  let (quot, rem) := udiv64_loop b 64 a 0 0
  (quot, rem_out.map fun _ => rem)

/-- What the loop holds with `n` digits of `a` still to come: they stand at the top of what is left of
the dividend, and the digits before them have been divided. -/
structure Divided (a b : u64) (n : ℕ) (left quot rem : u64) : Prop where
  le : n ≤ 64
  left : left.toNat = a.toNat * 2 ^ (64 - n) % 2 ^ 64
  digits : quot.toNat * b.toNat + rem.toNat = a.toNat / 2 ^ n
  rem_lt : rem.toNat < b.toNat

/-- The next digit of a dividend is the top bit of what is left of it. -/
theorem top_bit {a : u64} {n : ℕ} {left : u64} (h : left.toNat = a.toNat * 2 ^ (64 - (n + 1)) % 2 ^ 64)
    (hn : n + 1 ≤ 64) : left.getLsbD 63 = a.getLsbD n := by
  rw [← BitVec.testBit_toNat, h, Nat.testBit_mod_two_pow, ← Nat.shiftLeft_eq, Nat.testBit_shiftLeft,
    show 63 - (64 - (n + 1)) = n by omega, BitVec.testBit_toNat]
  simp

theorem digits_succ (a : u64) (n : ℕ) :
    a.toNat / 2 ^ n = 2 * (a.toNat / 2 ^ (n + 1)) + (a.getLsbD n).toNat := by
  rw [pow_succ, ← Nat.div_div_eq_div_mul, ← BitVec.testBit_toNat, Nat.testBit_eq_decide_div_mod_eq]
  by_cases hone : a.toNat / 2 ^ n % 2 = 1
  · simp [hone]
    omega
  · simp [hone]
    omega

theorem toNat_double {x : u64} (h : x.toNat < 2 ^ 63) : (x <<< 1).toNat = 2 * x.toNat := by
  rw [BitVec.toNat_shiftLeft, Nat.shiftLeft_eq, Nat.mod_eq_of_lt (by omega)]
  omega

theorem toNat_double_or_one {x : u64} (h : x.toNat < 2 ^ 63) :
    (x <<< 1 ||| 1).toNat = 2 * x.toNat + 1 := by
  rw [BitVec.toNat_or, toNat_double h]
  exact (Nat.two_pow_add_eq_or_of_lt (show 1 < 2 ^ 1 by decide) x.toNat).symm

/-- The digit that is brought down. -/
theorem toNat_brought_down {left rem : u64} (h : rem.toNat < 2 ^ 63) :
    (if (left >>> 63) &&& 1 ≠ 0 then rem <<< 1 ||| 1 else rem <<< 1).toNat =
      2 * rem.toNat + (left.getLsbD 63).toNat := by
  have hbit : (left >>> 63) &&& (1 : u64) = (BitVec.ofBool ((left >>> 63).getLsbD 0)).setWidth 64 :=
    BitVec.and_one_eq_setWidth_ofBool_getLsbD
  rw [hbit, BitVec.getLsbD_ushiftRight]
  cases left.getLsbD 63 with
  | false => exact toNat_double h
  | true => exact toNat_double_or_one h

section

variable {a b left quot rem : u64} {n : ℕ}

/-- There is room for one more digit. -/
theorem Divided.lt (h : Divided a b (n + 1) left quot rem) :
    rem.toNat < 2 ^ 63 ∧ quot.toNat < 2 ^ 63 := by
  have hdigits := h.digits
  have hb : 0 < b.toNat := Nat.zero_lt_of_lt h.rem_lt
  have hlt : a.toNat / 2 ^ (n + 1) < 2 ^ 63 := by
    calc a.toNat / 2 ^ (n + 1) ≤ a.toNat / 2 ^ 1 :=
          Nat.div_le_div_left (Nat.pow_le_pow_right (by omega) (by omega)) (by omega)
      _ < 2 ^ 63 := by omega
  have hquot : quot.toNat ≤ quot.toNat * b.toNat := Nat.le_mul_of_pos_right _ hb
  omega

/-- One digit. -/
theorem Divided.step (h : Divided a b (n + 1) left quot rem) {rem' : u64}
    (hrem' : rem'.toNat = 2 * rem.toNat + (left.getLsbD 63).toNat) :
    if b ≤ rem' then Divided a b n (left <<< 1) (quot <<< 1 ||| 1) (rem' - b)
    else Divided a b n (left <<< 1) (quot <<< 1) rem' := by
  obtain ⟨hrem, hquot⟩ := h.lt
  have hdigits := h.digits
  have hlt := h.rem_lt
  have hn := h.le
  have hbit : (left.getLsbD 63).toNat ≤ 1 := Bool.toNat_le _
  have hbrought : 2 * (quot.toNat * b.toNat) + rem'.toNat = a.toNat / 2 ^ n := by
    rw [digits_succ, ← hdigits, hrem', top_bit h.left hn]
    omega
  have hleft : (left <<< 1).toNat = a.toNat * 2 ^ (64 - n) % 2 ^ 64 := by
    rw [BitVec.toNat_shiftLeft, Nat.shiftLeft_eq, h.left, Nat.mod_mul_mod, Nat.mul_assoc, ← pow_succ,
      show 64 - (n + 1) + 1 = 64 - n by omega]
  by_cases hle : b ≤ rem'
  · -- the divisor goes into what has been brought down once more
    rw [if_pos hle]
    have hle' := BitVec.le_def.mp hle
    have hsub : (rem' - b).toNat = rem'.toNat - b.toNat := BitVec.toNat_sub_of_le hle
    refine ⟨by omega, hleft, ?_, by omega⟩
    rw [toNat_double_or_one hquot, hsub, Nat.add_mul, Nat.one_mul, Nat.mul_assoc]
    omega
  · rw [if_neg hle]
    have hlt' := BitVec.lt_def.mp (BitVec.not_le.mp hle)
    refine ⟨by omega, hleft, ?_, hlt'⟩
    rw [toNat_double hquot, Nat.mul_assoc]
    exact hbrought

theorem udiv64_loop_exact (h : Divided a b n left quot rem) :
    (udiv64_loop b n left quot rem).1.toNat = a.toNat / b.toNat ∧
      (udiv64_loop b n left quot rem).2.toNat = a.toNat % b.toNat := by
  induction n generalizing left quot rem with
  | zero =>
      have hdigits := h.digits
      rw [pow_zero, Nat.div_one, Nat.mul_comm] at hdigits
      have hdiv := Nat.div_mod_unique (Nat.zero_lt_of_lt h.rem_lt)
        |>.mpr ⟨(Nat.add_comm _ _).trans hdigits, h.rem_lt⟩
      exact ⟨hdiv.1.symm, hdiv.2.symm⟩
  | succ n ih =>
      have hstep := h.step (toNat_brought_down h.lt.1)
      rw [udiv64_loop]
      generalize (if (left >>> 63) &&& 1 ≠ 0 then rem <<< 1 ||| 1 else rem <<< 1) = rem' at hstep ⊢
      split_ifs at hstep ⊢
      · exact ih hstep
      · exact ih hstep

end

/-- Quotient and remainder, with a place for the remainder and without. -/
theorem udiv64_slow_exact (a b : u64) (rem_out : Option u64) (h : 0 < b) :
    (udiv64_slow a b rem_out).1.toNat = a.toNat / b.toNat ∧
      (udiv64_slow a b rem_out).2 =
        rem_out.map fun _ => BitVec.ofNat 64 (a.toNat % b.toNat) := by
  have hpos : 0 < b.toNat := BitVec.lt_def.mp h
  have hstart : Divided a b 64 a 0 0 := by
    refine ⟨le_refl 64, ?_, ?_, hpos⟩
    · rw [Nat.sub_self, pow_zero, Nat.mul_one, Nat.mod_eq_of_lt a.isLt]
    · rw [Nat.div_eq_of_lt a.isLt]
      exact Nat.zero_mul _
  obtain ⟨hquot, hrem⟩ := udiv64_loop_exact hstart
  refine ⟨hquot, ?_⟩
  have heq : (udiv64_loop b 64 a 0 0).2 = BitVec.ofNat 64 (a.toNat % b.toNat) := by
    rw [← hrem, BitVec.ofNat_toNat, BitVec.setWidth_eq]
  exact congrArg (fun r => rem_out.map fun _ => r) heq

/-- A divisor above `2 ^ 63`. -/
theorem udiv64_slow_exact_large :
    (udiv64_slow 0xffffffffffffffff 0x8000000000000001 (some 0)).1.toNat =
        (0xffffffffffffffff : u64).toNat / (0x8000000000000001 : u64).toNat ∧
      (udiv64_slow 0xffffffffffffffff 0x8000000000000001 (some 0)).2 = (some 0).map fun _ : u64 =>
        BitVec.ofNat 64 ((0xffffffffffffffff : u64).toNat % (0x8000000000000001 : u64).toNat) :=
  udiv64_slow_exact _ _ _ (by decide)

end IbexFirmware.Math
