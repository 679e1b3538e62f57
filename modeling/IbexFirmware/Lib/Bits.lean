/-
Words byte by byte, and blocks of addresses.

The bitwise operations act on the bytes of a word one by one, so an update of one byte of
a register by a mask and a shift is read off its four bytes. A block is a range of `2 ^ n`
addresses that starts at a multiple of `2 ^ n`: the addresses in it are those whose bits
from `n` on are the bits of its start. `block_mask` is the comparison mask that a word
encodes by the number of ones it ends in.
-/
import IbexFirmware.Lib.Bytes

set_option autoImplicit false

namespace IbexFirmware.Bits

open Bytes

/-! ## Bytes -/

theorem byteOf_and (a b : u32) (i : ℕ) : byteOf (a &&& b) i = byteOf a i &&& byteOf b i := by
  apply BitVec.eq_of_getLsbD_eq
  intro j hj
  simp [byteOf, hj]

theorem byteOf_or (a b : u32) (i : ℕ) : byteOf (a ||| b) i = byteOf a i ||| byteOf b i := by
  apply BitVec.eq_of_getLsbD_eq
  intro j hj
  simp [byteOf, hj]

theorem byteOf_xor (a b : u32) (i : ℕ) : byteOf (a ^^^ b) i = byteOf a i ^^^ byteOf b i := by
  apply BitVec.eq_of_getLsbD_eq
  intro j hj
  simp [byteOf, hj]

theorem byteOf_not (a : u32) {i : ℕ} (hi : i < 4) : byteOf (~~~a) i = ~~~byteOf a i := by
  apply BitVec.eq_of_getLsbD_eq
  intro j hj
  simp [byteOf, hj, show 8 * i + j < 32 by omega]

/-- A byte that is shifted into place. -/
theorem byteOf_shiftLeft (b : u8) {i m : ℕ} (hi : i < 4) :
    byteOf (b.setWidth 32 <<< (8 * m)) i = if i = m then b else 0 := by
  apply BitVec.eq_of_getLsbD_eq
  intro j hj
  have hbit : (byteOf (b.setWidth 32 <<< (8 * m)) i).getLsbD j =
      (!decide (8 * i + j < 8 * m) && b.getLsbD (8 * i + j - 8 * m)) := by
    simp [byteOf, hj, show 8 * i + j < 32 by omega]
  rw [hbit]
  by_cases him : i = m
  · subst him
    rw [if_pos rfl]
    simp
  · rw [if_neg him]
    by_cases hlt : i < m
    · simp [show 8 * i + j < 8 * m by omega]
    · have hge : b.getLsbD (8 * i + j - 8 * m) = false := BitVec.getLsbD_of_ge b _ (by omega)
      simp [hge]

/-- Words with the same bytes are the same. -/
theorem word_ext {a b : u32} (h : ∀ i < 4, byteOf a i = byteOf b i) : a = b := by
  rw [← word_byteOf a, ← word_byteOf b, h 0 (by omega), h 1 (by omega), h 2 (by omega),
    h 3 (by omega)]

/-- A word as a number. -/
theorem toNat_eq_bytes (w : u32) :
    w.toNat = (byteOf w 0).toNat + 256 * ((byteOf w 1).toNat +
      256 * ((byteOf w 2).toNat + 256 * (byteOf w 3).toNat)) := by
  have hbyte : ∀ i, (byteOf w i).toNat = w.toNat / 2 ^ (8 * i) % 2 ^ 8 := by
    intro i
    rw [byteOf, BitVec.extractLsb'_toNat, Nat.shiftRight_eq_div_pow]
  rw [hbyte, hbyte, hbyte, hbyte]
  omega

/-! ## Loads and stores of words -/

theorem le32_xor (a b : u32) : le32 (a ^^^ b) = List.zipWith (· ^^^ ·) (le32 a) (le32 b) := by
  simp only [le32, byteOf_xor, List.zipWith_cons_cons, List.zipWith_nil_left]

theorem le32_readWord (m : Mem) (a : ℕ) : le32 (readWord m a) = readBytes m a 4 := by
  rw [le32, byteOf_readWord m a 0 (by omega), byteOf_readWord m a 1 (by omega),
    byteOf_readWord m a 2 (by omega), byteOf_readWord m a 3 (by omega)]
  rfl

theorem writeWord_eq_writeBytes (m : Mem) (a : ℕ) (w : u32) :
    writeWord m a w = writeBytes m a (le32 w) := by
  funext x
  by_cases hx : a ≤ x ∧ x < a + 4
  · obtain ⟨i, rfl⟩ : ∃ i, x = a + i := ⟨x - a, by omega⟩
    have hi : i < 4 := by omega
    rw [writeWord_of_mem _ _ _ _ hx, writeBytes, length_le32, if_pos hx, Nat.add_sub_cancel_left]
    interval_cases i <;> rfl
  · rw [writeWord_of_not_mem _ _ _ _ hx, writeBytes_of_not_mem _ _ _ _ (by rwa [length_le32])]

theorem readWord_writeWord (m : Mem) (a : ℕ) (w : u32) : readWord (writeWord m a w) a = w := by
  apply readWord_of_readBytes
  rw [writeWord_eq_writeBytes]
  exact readBytes_writeBytes m a (le32 w)

theorem readWord_writeWord_of_apart (m : Mem) {a b : ℕ} (w : u32) (h : a + 4 ≤ b ∨ b + 4 ≤ a) :
    readWord (writeWord m a w) b = readWord m b := by
  apply readWord_of_readBytes
  rw [le32_readWord, readBytes_eq_iff]
  intro i hi
  exact writeWord_of_not_mem _ _ _ _ (by omega)

theorem writeWord_writeWord (m : Mem) (a : ℕ) (v w : u32) :
    writeWord (writeWord m a v) a w = writeWord m a w := by
  funext x
  by_cases hx : a ≤ x ∧ x < a + 4
  · rw [writeWord_of_mem _ _ _ _ hx, writeWord_of_mem _ _ _ _ hx]
  · rw [writeWord_of_not_mem _ _ _ _ hx, writeWord_of_not_mem _ _ _ _ hx,
      writeWord_of_not_mem _ _ _ _ hx]

/-! ## Rounding -/

/-- With its lowest `k` bits cleared, a word is the multiple of `2 ^ k` at or below it. -/
theorem toNat_and_not_mask {w k : ℕ} (x : BitVec w) (hk : k ≤ w) :
    (x &&& ~~~BitVec.ofNat w (2 ^ k - 1)).toNat = x.toNat / 2 ^ k * 2 ^ k := by
  apply Nat.eq_of_testBit_eq
  intro i
  rw [← Nat.shiftRight_eq_div_pow, ← Nat.shiftLeft_eq, Nat.testBit_shiftLeft]
  have hmask : (BitVec.ofNat w (2 ^ k - 1)).getLsbD i = (decide (i < w) && decide (i < k)) := by
    rw [BitVec.getLsbD_ofNat, Nat.testBit_two_pow_sub_one]
  have hbit : (x &&& ~~~BitVec.ofNat w (2 ^ k - 1)).toNat.testBit i =
      (x.getLsbD i && (decide (i < w) && !(decide (i < w) && decide (i < k)))) := by
    rw [← hmask, ← BitVec.getLsbD_not, ← BitVec.getLsbD_and]
    rfl
  rw [hbit]
  by_cases hik : k ≤ i
  · rw [Nat.testBit_shiftRight, Nat.add_sub_of_le hik, decide_eq_true hik,
      decide_eq_false (show ¬i < k by omega), Bool.and_false, Bool.not_false, Bool.and_true,
      Bool.true_and]
    by_cases hiw : i < w
    · rw [decide_eq_true hiw, Bool.and_true]
      rfl
    · rw [decide_eq_false hiw, Bool.and_false]
      exact (BitVec.getLsbD_of_ge x i (by omega)).symm
  · rw [decide_eq_false hik, decide_eq_true (show i < k by omega),
      decide_eq_true (show i < w by omega)]
    simp

/-! ## One bit set -/

section cpop

variable {w : ℕ} {x : BitVec w}

theorem getLsbD_of_cpopNatRec_zero {n : ℕ} (h : x.cpopNatRec n 0 = 0) :
    ∀ i < n, x.getLsbD i = false := by
  induction n with
  | zero => nofun
  | succ n ih =>
      rw [BitVec.cpopNatRec_succ, BitVec.cpopNatRec_eq] at h
      intro i hi
      by_cases hin : i = n
      · subst hin
        cases hb : x.getLsbD i with
        | false => rfl
        | true => simp [hb] at h
      · exact ih (by omega) i (by omega)

theorem getLsbD_of_cpopNatRec_one {n : ℕ} (h : x.cpopNatRec n 0 = 1) :
    ∃ k < n, ∀ i < n, x.getLsbD i = decide (i = k) := by
  induction n with
  | zero => exact absurd h (by simp)
  | succ n ih =>
      rw [BitVec.cpopNatRec_succ, BitVec.cpopNatRec_eq] at h
      cases hb : x.getLsbD n with
      | true =>
          -- the bit is the last one, so there is none in front of it
          have hzero : x.cpopNatRec n 0 = 0 := by
            rw [hb] at h
            simpa using h
          refine ⟨n, by omega, fun i hi => ?_⟩
          by_cases hin : i = n
          · rw [hin, hb, decide_eq_true rfl]
          · rw [getLsbD_of_cpopNatRec_zero hzero i (by omega), decide_eq_false hin]
      | false =>
          have hone : x.cpopNatRec n 0 = 1 := by
            rw [hb] at h
            simpa using h
          obtain ⟨k, hk, hbits⟩ := ih hone
          refine ⟨k, by omega, fun i hi => ?_⟩
          by_cases hin : i = n
          · rw [hin, hb, decide_eq_false (by omega)]
          · exact hbits i (by omega)

/-- A word with one bit set is a power of two. -/
theorem eq_two_pow_of_cpop (h : x.cpop.toNat = 1) : ∃ k < w, x.toNat = 2 ^ k := by
  rw [BitVec.toNat_cpop] at h
  obtain ⟨k, hk, hbits⟩ := getLsbD_of_cpopNatRec_one h
  refine ⟨k, hk, ?_⟩
  have hx : x = BitVec.twoPow w k := by
    apply BitVec.eq_of_getLsbD_eq
    intro i hi
    rw [hbits i hi, BitVec.getLsbD_twoPow]
    simp [hk, eq_comm]
  rw [hx, BitVec.toNat_twoPow_of_lt hk]

end cpop

/-! ## Blocks -/

/-- The addresses of a block. -/
theorem mem_block_iff {s x n : ℕ} (h : s % 2 ^ n = 0) :
    x / 2 ^ n = s / 2 ^ n ↔ s ≤ x ∧ x < s + 2 ^ n := by
  have hpos : 0 < 2 ^ n := Nat.two_pow_pos n
  have hs : s / 2 ^ n * 2 ^ n = s := Nat.div_mul_cancel (Nat.dvd_of_mod_eq_zero h)
  constructor
  · intro hx
    have hle := Nat.div_mul_le_self x (2 ^ n)
    have hlt := Nat.lt_div_mul_add (a := x) hpos
    rw [hx, hs] at hle hlt
    exact ⟨hle, hlt⟩
  · rintro ⟨hle, hlt⟩
    rw [Nat.div_eq_iff hpos, hs]
    omega

/-- The bits from `n` on. -/
theorem div_two_pow_eq_iff {x s n : ℕ} :
    x / 2 ^ n = s / 2 ^ n ↔ ∀ k, n ≤ k → x.testBit k = s.testBit k := by
  constructor
  · intro h k hk
    have hbit : ∀ y : ℕ, (y / 2 ^ n).testBit (k - n) = y.testBit k := fun y => by
      rw [Nat.testBit_div_two_pow, Nat.sub_add_cancel hk]
    rw [← hbit x, ← hbit s, h]
  · intro h
    apply Nat.eq_of_testBit_eq
    intro k
    rw [Nat.testBit_div_two_pow, Nat.testBit_div_two_pow]
    exact h (k + n) (by omega)

/-- Bit `k` of the mask of `a`: not all bits of `a` in front of `k` are set. -/
def block_mask (a : u32) (k : ℕ) : Bool := !(List.range k).all a.getLsbD

/-- With `m` ones at its end, a word masks those bits and the next one. -/
theorem block_mask_eq {a : u32} {m : ℕ} (hones : ∀ j < m, a.getLsbD j = true)
    (hzero : a.getLsbD m = false) (k : ℕ) : block_mask a k = decide (m < k) := by
  by_cases hk : m < k
  · have hall : (List.range k).all a.getLsbD = false :=
      List.all_eq_false.mpr ⟨m, List.mem_range.mpr hk, by simp [hzero]⟩
    rw [block_mask, hall, decide_eq_true hk]
    rfl
  · have hall : (List.range k).all a.getLsbD = true :=
      List.all_eq_true.mpr fun j hj => hones j (by have := List.mem_range.mp hj; omega)
    rw [block_mask, hall, decide_eq_false hk]
    rfl

end IbexFirmware.Bits
