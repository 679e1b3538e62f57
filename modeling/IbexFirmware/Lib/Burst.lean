/-
What a cyclic redundancy check detects.

Where the polynomial has its highest bit set a shift of the remainder loses nothing: the bit that
comes in at the top tells whether the polynomial was added (`step_injective`). So remainders that
differ stay different whatever bytes follow (`bytes_injective`). Bytes that fit into the remainder
can be added all at once before the shifts instead of one by one (`bytes_eq_steps`), so two
strings that differ within that many consecutive bytes have different checks (`check_ne_of_burst`).
-/
import IbexFirmware.Lib.Crc

set_option autoImplicit false

namespace IbexFirmware.Crc

open Bytes

variable {w : ℕ} {poly : BitVec w}

/-! ## Shifts lose nothing -/

/-- The bit that was shifted out, from the bit that came in. -/
theorem msb_step (hpoly : poly.msb = true) (c : BitVec w) : (step poly c).msb = c.getLsbD 0 := by
  have hw : 0 < w := by
    apply Nat.pos_of_ne_zero
    rintro rfl
    simp [BitVec.msb, BitVec.getMsbD] at hpoly
  have hshift : (c >>> 1).msb = false := by
    rw [BitVec.msb_eq_getLsbD_last, BitVec.getLsbD_ushiftRight]
    exact BitVec.getLsbD_of_ge c _ (by omega)
  rw [step]
  split_ifs with h
  · rw [BitVec.msb_xor, hshift, hpoly, h]
    rfl
  · rw [hshift]
    simpa using h

theorem step_injective (hpoly : poly.msb = true) : Function.Injective (step poly) := by
  intro c d h
  have hlow : c.getLsbD 0 = d.getLsbD 0 := by
    rw [← msb_step hpoly c, ← msb_step hpoly d, h]
  have hhigh : c >>> 1 = d >>> 1 := by
    unfold step at h
    rw [hlow] at h
    split_ifs at h
    · exact (BitVec.xor_left_inj poly).mp h
    · exact h
  apply BitVec.eq_of_getLsbD_eq
  intro i hi
  rcases Nat.eq_zero_or_pos i with rfl | hpos
  · exact hlow
  · have hbit := congrArg (fun b : BitVec w => b.getLsbD (i - 1)) hhigh
    simp only [BitVec.getLsbD_ushiftRight, show 1 + (i - 1) = i by omega] at hbit
    exact hbit

theorem steps_injective (hpoly : poly.msb = true) (n : ℕ) : Function.Injective (steps poly n) :=
  (step_injective hpoly).iterate n

/-- Different remainders stay different. -/
theorem bytes_injective (hpoly : poly.msb = true) (bs : List u8) :
    Function.Injective fun c => bytes poly c bs := by
  induction bs with
  | nil => exact Function.injective_id
  | cons b bs ih =>
      intro c d h
      exact (BitVec.xor_left_inj (b.setWidth w)).mp (steps_injective hpoly 8 (ih h))

theorem bytes_append (c : BitVec w) (xs ys : List u8) :
    bytes poly c (xs ++ ys) = bytes poly (bytes poly c xs) ys := List.foldl_append

/-! ## Bytes that enter at once -/

/-- The bytes one above the other, the first at the low end. -/
def pack (w : ℕ) : List u8 → BitVec w
  | [] => 0#w
  | b :: bs => b.setWidth w ^^^ pack w bs <<< 8

theorem getLsbD_pack (bs : List u8) {i : ℕ} (hi : i < w) :
    (pack w bs).getLsbD i = (bs.getD (i / 8) 0).getLsbD (i % 8) := by
  induction bs generalizing i with
  | nil => simp [pack]
  | cons b bs ih =>
      rw [pack, BitVec.getLsbD_xor, BitVec.getLsbD_setWidth, BitVec.getLsbD_shiftLeft]
      by_cases hlow : i < 8
      · simp [hi, hlow, Nat.div_eq_of_lt hlow, Nat.mod_eq_of_lt hlow]
      · have hdiv : i / 8 = (i - 8) / 8 + 1 := by omega
        have hmod : i % 8 = (i - 8) % 8 := by omega
        rw [ih (by omega), hdiv, hmod, List.getD_cons_succ, BitVec.getLsbD_of_ge b i (by omega)]
        simp [hi, hlow]

/-- Nothing above the bytes. -/
theorem getLsbD_pack_of_ge (bs : List u8) {i : ℕ} (h : 8 * bs.length ≤ i) :
    (pack w bs).getLsbD i = false := by
  by_cases hi : i < w
  · rw [getLsbD_pack bs hi, List.getD_eq_default _ _ (by omega)]
    simp
  · exact BitVec.getLsbD_of_ge _ _ (by omega)

theorem pack_injective {xs ys : List u8} (hlen : xs.length = ys.length) (hw : 8 * xs.length ≤ w)
    (h : pack w xs = pack w ys) : xs = ys := by
  apply List.ext_getElem hlen
  intro k hx hy
  apply BitVec.eq_of_getLsbD_eq
  intro j hj
  have hbit := congrArg (fun c : BitVec w => c.getLsbD (8 * k + j)) h
  simp only [getLsbD_pack _ (show 8 * k + j < w by omega), show (8 * k + j) / 8 = k by omega,
    show (8 * k + j) % 8 = j by omega, List.getD_eq_getElem _ _ hx, List.getD_eq_getElem _ _ hy] at hbit
  exact hbit

/-- Bytes that fit into the remainder may all enter before the first shift. -/
theorem bytes_eq_steps (c : BitVec w) (bs : List u8) (hw : 8 * bs.length ≤ w) :
    bytes poly c bs = steps poly (8 * bs.length) (c ^^^ pack w bs) := by
  induction bs generalizing c with
  | nil => simp [bytes, pack]
  | cons b bs ih =>
      rw [List.length_cons] at hw
      have hlow : ∀ i < 8, (pack w bs <<< 8).getLsbD i = false := by
        intro i hi
        simp [BitVec.getLsbD_shiftLeft, hi]
      have hback : (pack w bs <<< 8) >>> 8 = pack w bs := by
        apply BitVec.eq_of_getLsbD_eq
        intro i hi
        rw [BitVec.getLsbD_ushiftRight, BitVec.getLsbD_shiftLeft]
        by_cases hin : 8 + i < w
        · simp [hin]
        · simp [hin, getLsbD_pack_of_ge bs (show 8 * bs.length ≤ i by omega)]
      -- the first eight shifts bring the bytes that follow to where they would enter
      have height : steps poly 8 (c ^^^ pack w (b :: bs)) = byte poly c b ^^^ pack w bs := by
        rw [pack, ← BitVec.xor_assoc, steps_xor, steps_of_low_zero _ _ 8 hlow, hback, byte]
      have hadd : steps poly (8 * (b :: bs).length) (c ^^^ pack w (b :: bs)) =
          steps poly (8 * bs.length) (steps poly 8 (c ^^^ pack w (b :: bs))) := by
        rw [List.length_cons, Nat.mul_succ]
        exact Function.iterate_add_apply _ _ 8 _
      rw [hadd, height, ← ih _ (by omega)]
      rfl

/-! ## Bursts -/

/-- Two strings that differ in consecutive bytes only, no more of them than the remainder has. -/
theorem bytes_ne_of_burst (hpoly : poly.msb = true) (c : BitVec w) {pre xs ys post : List u8}
    (hlen : xs.length = ys.length) (hw : 8 * xs.length ≤ w) (hne : xs ≠ ys) :
    bytes poly c (pre ++ xs ++ post) ≠ bytes poly c (pre ++ ys ++ post) := by
  intro h
  rw [bytes_append, bytes_append, bytes_append, bytes_append] at h
  have hburst := bytes_injective hpoly post h
  rw [bytes_eq_steps _ xs hw, bytes_eq_steps _ ys (hlen ▸ hw), hlen] at hburst
  have hpack := (BitVec.xor_right_inj _).mp (steps_injective hpoly _ hburst)
  exact hne (pack_injective hlen hw hpack)

/-- So their check values differ. -/
theorem check_ne_of_burst (hpoly : poly.msb = true) {pre xs ys post : List u8}
    (hlen : xs.length = ys.length) (hw : 8 * xs.length ≤ w) (hne : xs ≠ ys) :
    check poly (pre ++ xs ++ post) ≠ check poly (pre ++ ys ++ post) := by
  intro h
  exact bytes_ne_of_burst hpoly _ hlen hw hne ((BitVec.xor_left_inj _).mp h)

end IbexFirmware.Crc
