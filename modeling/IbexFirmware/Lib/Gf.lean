/-
Multiplication in a binary field whose elements are bit strings.

The first bit of a string is the coefficient of 1, so multiplication by `x` shifts to the
right and adds the reduction string `R` if a bit falls out. `gf_mul` adds up the multiples
of one factor bit by bit, as the standards write it. `horner` is the other order, from the
last bit to the first, and `horner_window` takes four bits at a time, as an implementation
with tables does. The product is linear in both factors.
-/
import Mathlib.Tactic

set_option autoImplicit false

namespace IbexFirmware.Gf

variable {w : ℕ} (R : BitVec w)

/-! ## Multiplication by `x` -/

def mulx (v : BitVec w) : BitVec w := v >>> 1 ^^^ (if v.getLsbD 0 then R else 0#w)

/-- A string if a bit is set. -/
def bit_mul (b : Bool) (v : BitVec w) : BitVec w := if b then v else 0#w

@[simp] theorem bit_mul_true (v : BitVec w) : bit_mul true v = v := rfl

@[simp] theorem bit_mul_false (v : BitVec w) : bit_mul false v = 0#w := rfl

theorem bit_mul_xor (b : Bool) (u v : BitVec w) :
    bit_mul b (u ^^^ v) = bit_mul b u ^^^ bit_mul b v := by
  cases b <;> simp

theorem bit_mul_bxor (a b : Bool) (v : BitVec w) :
    bit_mul (a ^^ b) v = bit_mul a v ^^^ bit_mul b v := by
  cases a <;> cases b <;> simp

@[simp] theorem mulx_zero : mulx R 0#w = 0#w := by
  simp [mulx]

theorem mulx_eq (v : BitVec w) : mulx R v = v >>> 1 ^^^ bit_mul (v.getLsbD 0) R := rfl

theorem mulx_xor (u v : BitVec w) : mulx R (u ^^^ v) = mulx R u ^^^ mulx R v := by
  rw [mulx_eq, mulx_eq, mulx_eq, BitVec.ushiftRight_xor_distrib, BitVec.getLsbD_xor, bit_mul_bxor]
  ac_rfl

theorem mulx_bit_mul (b : Bool) (v : BitVec w) : mulx R (bit_mul b v) = bit_mul b (mulx R v) := by
  cases b <;> simp

theorem mulx_iterate_zero (n : ℕ) : (mulx R)^[n] 0#w = 0#w :=
  Function.iterate_fixed (mulx_zero R) n

/-- What is added back after `k` shifts: the reduction string for each bit that has fallen
out, shifted on since. -/
def fallout (v : BitVec w) : ℕ → BitVec w
  | 0 => 0#w
  | k + 1 => fallout v k >>> 1 ^^^ bit_mul (v.getLsbD k) R

theorem getLsbD_fallout {n : ℕ} (hR : ∀ t < n, R.getLsbD t = false) (v : BitVec w) (k j : ℕ)
    (h : j + k ≤ n) : (fallout R v k).getLsbD j = false := by
  induction k generalizing j with
  | zero => simp [fallout]
  | succ k ih =>
      rw [fallout, BitVec.getLsbD_xor, BitVec.getLsbD_ushiftRight, ih (1 + j) (by omega)]
      cases v.getLsbD k
      · simp
      · simpa using hR j (by omega)

/-- Several shifts at once, as long as the reduction string loses no bit in them. -/
theorem mulx_iterate {n : ℕ} (hR : ∀ t < n, R.getLsbD t = false) (v : BitVec w) (k : ℕ)
    (hk : k ≤ n + 1) : (mulx R)^[k] v = v >>> k ^^^ fallout R v k := by
  induction k with
  | zero => simp [fallout]
  | succ k ih =>
      have hlow : (fallout R v k).getLsbD 0 = false := getLsbD_fallout R hR v k 0 (by omega)
      rw [Function.iterate_succ_apply', ih (by omega), mulx_eq, BitVec.ushiftRight_xor_distrib,
        BitVec.getLsbD_xor, BitVec.getLsbD_ushiftRight, hlow, ← BitVec.shiftRight_add, fallout,
        BitVec.xor_assoc]
      simp

/-! ## Products -/

/-- The bits of a string, the first one first. -/
def bits (X : BitVec w) : List Bool := (List.range w).map X.getMsbD

/-- The product loop: `Z` collects, and `V` runs through the multiples of one factor. -/
def gf_mul_loop (Z V : BitVec w) : List Bool → BitVec w
  | [] => Z
  | b :: bs => gf_mul_loop (Z ^^^ bit_mul b V) (mulx R V) bs

def gf_mul (X Y : BitVec w) : BitVec w := gf_mul_loop R 0#w Y (bits X)

/-- The product from the last bit to the first. -/
def horner (V : BitVec w) (bs : List Bool) : BitVec w :=
  bs.foldr (fun b acc => bit_mul b V ^^^ mulx R acc) 0#w

@[simp] theorem horner_nil (V : BitVec w) : horner R V [] = 0#w := rfl

@[simp] theorem horner_cons (V : BitVec w) (b : Bool) (bs : List Bool) :
    horner R V (b :: bs) = bit_mul b V ^^^ mulx R (horner R V bs) := rfl

theorem horner_mulx (V : BitVec w) (bs : List Bool) :
    horner R (mulx R V) bs = mulx R (horner R V bs) := by
  induction bs with
  | nil => simp
  | cons b bs ih => rw [horner_cons, horner_cons, ih, mulx_xor, mulx_bit_mul]

theorem gf_mul_loop_eq (Z V : BitVec w) (bs : List Bool) :
    gf_mul_loop R Z V bs = Z ^^^ horner R V bs := by
  induction bs generalizing Z V with
  | nil => simp [gf_mul_loop]
  | cons b bs ih => rw [gf_mul_loop, ih, horner_mulx, horner_cons, BitVec.xor_assoc]

theorem gf_mul_eq_horner (X Y : BitVec w) : gf_mul R X Y = horner R Y (bits X) := by
  rw [gf_mul, gf_mul_loop_eq, BitVec.zero_xor]

theorem horner_xor (U V : BitVec w) (bs : List Bool) :
    horner R (U ^^^ V) bs = horner R U bs ^^^ horner R V bs := by
  induction bs with
  | nil => simp
  | cons b bs ih =>
      rw [horner_cons, horner_cons, horner_cons, ih, bit_mul_xor, mulx_xor]
      ac_rfl

theorem horner_map_xor (V : BitVec w) (f g : ℕ → Bool) (is : List ℕ) :
    horner R V (is.map fun i => f i ^^ g i) =
      horner R V (is.map f) ^^^ horner R V (is.map g) := by
  induction is with
  | nil => simp
  | cons i is ih =>
      rw [List.map_cons, List.map_cons, List.map_cons, horner_cons, horner_cons, horner_cons, ih,
        bit_mul_bxor, mulx_xor]
      ac_rfl

/-- The product is linear in its second factor. -/
theorem gf_mul_xor_right (X Y Y' : BitVec w) :
    gf_mul R X (Y ^^^ Y') = gf_mul R X Y ^^^ gf_mul R X Y' := by
  rw [gf_mul_eq_horner, gf_mul_eq_horner, gf_mul_eq_horner, horner_xor]

/-- The product is linear in its first factor. -/
theorem gf_mul_xor_left (X X' Y : BitVec w) :
    gf_mul R (X ^^^ X') Y = gf_mul R X Y ^^^ gf_mul R X' Y := by
  rw [gf_mul_eq_horner, gf_mul_eq_horner, gf_mul_eq_horner]
  unfold bits
  rw [← horner_map_xor]
  exact congrArg (horner R Y) (List.map_congr_left fun _ _ => BitVec.getMsbD_xor)

/-! ## Windows -/

/-- The product of a string and the four bits of a window. -/
def window_mul (V : BitVec w) (b0 b1 b2 b3 : Bool) : BitVec w := horner R V [b0, b1, b2, b3]

theorem horner_window (V : BitVec w) (b0 b1 b2 b3 : Bool) (bs : List Bool) :
    horner R V (b0 :: b1 :: b2 :: b3 :: bs) =
      window_mul R V b0 b1 b2 b3 ^^^ (mulx R)^[4] (horner R V bs) := by
  have hiter : (mulx R)^[4] (horner R V bs) =
      mulx R (mulx R (mulx R (mulx R (horner R V bs)))) := rfl
  rw [hiter, window_mul]
  simp only [horner_cons, horner_nil, mulx_xor, mulx_zero, BitVec.xor_zero, BitVec.xor_assoc]

/-- The bits of a string of `n` windows. -/
def window_bits (f : ℕ → Bool) (n : ℕ) : List Bool := (List.range (4 * n)).map f

theorem window_bits_succ (f : ℕ → Bool) (n : ℕ) :
    window_bits f (n + 1) = f 0 :: f 1 :: f 2 :: f 3 :: window_bits (fun i => f (i + 4)) n := by
  have hrange : List.range (4 * (n + 1)) = [0, 1, 2, 3] ++ (List.range (4 * n)).map (4 + ·) := by
    rw [show 4 * (n + 1) = 4 + 4 * n by omega, List.range_add]
    rfl
  rw [window_bits, hrange, List.map_append, List.map_map]
  simp only [List.map_cons, List.map_nil, List.cons_append, List.nil_append, window_bits]
  congr 4
  apply List.map_congr_left
  intro i _
  simp only [Function.comp_apply, Nat.add_comm 4 i]

/-- One window after the other, the last one first. -/
theorem horner_windows (V : BitVec w) (f : ℕ → Bool) (n : ℕ) :
    horner R V (window_bits f n) = (List.range n).foldr (fun k acc =>
      window_mul R V (f (4 * k)) (f (4 * k + 1)) (f (4 * k + 2)) (f (4 * k + 3)) ^^^
        (mulx R)^[4] acc) 0#w := by
  induction n generalizing f with
  | zero => rfl
  | succ n ih =>
      rw [window_bits_succ, horner_window, ih, List.range_succ_eq_map, List.foldr_cons,
        List.foldr_map]
      congr 2

end IbexFirmware.Gf
