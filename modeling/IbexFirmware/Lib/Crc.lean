/-
Reflected cyclic redundancy checks: the bit-by-bit definition and the table walk.

Everything is over an arbitrary width `w` and an arbitrary reflected polynomial.
One shift of the remainder is linear in exclusive or (`step_xor`), and a
remainder whose low `k` bits are clear only moves down through `k` shifts
(`steps_of_low_zero`). Together they split `k` shifts of any remainder into the
part that moves down and the part its low `k` bits select (`steps_split`), which
is what makes one table lookup worth `k` shifts.
-/
import IbexFirmware.Lib.Bytes

set_option autoImplicit false

namespace IbexFirmware.Crc

section Shifts

variable {w : ℕ} (poly : BitVec w)

/-- One shift of the remainder: the bit that falls out selects the polynomial. -/
def step (c : BitVec w) : BitVec w := if c.getLsbD 0 then (c >>> 1) ^^^ poly else c >>> 1

/-- `n` shifts of the remainder. -/
def steps (n : ℕ) (c : BitVec w) : BitVec w := (step poly)^[n] c

@[simp] theorem steps_zero (c : BitVec w) : steps poly 0 c = c := rfl

theorem steps_succ' (n : ℕ) (c : BitVec w) : steps poly (n + 1) c = step poly (steps poly n c) :=
  Function.iterate_succ_apply' (step poly) n c

/-- A shift is linear: the two polynomials cancel when both low bits are set. -/
theorem step_xor (a b : BitVec w) : step poly (a ^^^ b) = step poly a ^^^ step poly b := by
  have hcancel : ∀ x y : BitVec w, (x ^^^ poly) ^^^ (y ^^^ poly) = x ^^^ y := by
    intro x y
    rw [BitVec.xor_comm y poly, BitVec.xor_assoc, ← BitVec.xor_assoc poly poly y,
      BitVec.xor_self, BitVec.zero_xor]
  simp only [step, BitVec.getLsbD_xor, BitVec.ushiftRight_xor_distrib]
  cases a.getLsbD 0 <;> cases b.getLsbD 0
  · simp
  · simp [BitVec.xor_assoc]
  · simp only [Bool.xor_false, if_true, Bool.false_eq_true, if_false]
    rw [BitVec.xor_assoc, BitVec.xor_comm (b >>> 1) poly, ← BitVec.xor_assoc]
  · simp [hcancel]

theorem steps_xor (n : ℕ) (a b : BitVec w) :
    steps poly n (a ^^^ b) = steps poly n a ^^^ steps poly n b := by
  induction n with
  | zero => rfl
  | succ n ih => rw [steps_succ', ih, step_xor, ← steps_succ', ← steps_succ']

/-- A remainder whose low `k` bits are clear only moves down through `k` shifts. -/
theorem steps_of_low_zero (c : BitVec w) (k : ℕ) (hc : ∀ i < k, c.getLsbD i = false) :
    steps poly k c = c >>> k := by
  induction k with
  | zero => simp
  | succ k ih =>
      have hbit : (c >>> k).getLsbD 0 = false := by
        rw [BitVec.getLsbD_ushiftRight]
        exact hc k (by omega)
      rw [steps_succ', ih (fun i hi => hc i (by omega)), step, if_neg (by simp [hbit]),
        BitVec.shiftRight_add]

/-- The low `k` bits of a remainder, the rest cleared. -/
def low (k : ℕ) (c : BitVec w) : BitVec w := (c.setWidth k).setWidth w

theorem getLsbD_low (k : ℕ) (c : BitVec w) (i : ℕ) :
    (low k c).getLsbD i = (decide (i < k) && c.getLsbD i) := by
  simp only [low, BitVec.getLsbD_setWidth]
  by_cases hw : i < w
  · simp [hw]
  · simp [hw, BitVec.getLsbD_of_ge c i (by omega)]

/-- `k` shifts split: the high part moves down, the low `k` bits select what is
added to it. -/
theorem steps_split (k : ℕ) (c : BitVec w) :
    steps poly k c = (c >>> k) ^^^ steps poly k (low k c) := by
  have hhigh : ∀ i < k, (c ^^^ low k c).getLsbD i = false := by
    intro i hi
    simp [BitVec.getLsbD_xor, getLsbD_low, hi]
  have hlow : low k c >>> k = 0#w := by
    apply BitVec.eq_of_getLsbD_eq
    intro i _
    simp [BitVec.getLsbD_ushiftRight, getLsbD_low]
  have hsplit : c = (c ^^^ low k c) ^^^ low k c := by
    rw [BitVec.xor_assoc, BitVec.xor_self, BitVec.xor_zero]
  conv_lhs => rw [hsplit]
  rw [steps_xor, steps_of_low_zero poly _ k hhigh, BitVec.ushiftRight_xor_distrib, hlow,
    BitVec.xor_zero]

end Shifts

/-! ## Bytes -/

section ByteWise

open Bytes

variable {w : ℕ} (poly : BitVec w)

/-- A byte enters the remainder at its low end and is shifted through. -/
def byte (c : BitVec w) (b : u8) : BitVec w := steps poly 8 (c ^^^ b.setWidth w)

/-- The remainder of a byte string, bit by bit, from the remainder `c`. -/
def bytes (c : BitVec w) (bs : List u8) : BitVec w := bs.foldl (byte poly) c

/-- The check value of a byte string: initial value and final exclusive or all ones. -/
def check (bs : List u8) : BitVec w := bytes poly (BitVec.allOnes w) bs ^^^ BitVec.allOnes w

/-- One table lookup does the work of eight shifts, for any table that holds the
eight shifts of each index. -/
theorem byte_eq_table (table : u8 → BitVec w) (ht : ∀ i, table i = steps poly 8 (i.setWidth w))
    (c : BitVec w) (b : u8) :
    byte poly c b = (c >>> 8) ^^^ table ((c ^^^ b.setWidth w).setWidth 8) := by
  have hb : (b.setWidth w) >>> 8 = 0#w := by
    apply BitVec.eq_of_getLsbD_eq
    intro i _
    simp [BitVec.getLsbD_ushiftRight, BitVec.getLsbD_setWidth]
  rw [byte, steps_split, ht, low, BitVec.ushiftRight_xor_distrib, hb, BitVec.xor_zero]

end ByteWise

end IbexFirmware.Crc
