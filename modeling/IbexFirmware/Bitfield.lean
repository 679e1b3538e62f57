/-
Bit fields (`bitfield.h`): what a field of a register holds after a write.

A field of `n` bits is a mask of `n` ones and the index of its lowest bit. A write of it
replaces these bits and no others (`getLsbD_field32_write`), so a read of the same field
gives the value back and a read of a field beside it gives what was there.
-/
import IbexFirmware.Status

set_option autoImplicit false

namespace IbexFirmware.Json

open Bytes

/-- The bit with index `bit_index`, as a field. -/
def bitfield_bit32_to_field32 (bit_index : ℕ) : BitfieldField32 := ⟨0x1, bit_index⟩

def bitfield_bit32_read (bitfield : u32) (bit_index : ℕ) : Bool :=
  bitfield_field32_read bitfield (bitfield_bit32_to_field32 bit_index) == 0x1

/-- One more than the index of the lowest bit that is set, and zero for zero. -/
def bitfield_find_first_set32 (bitfield : u32) : ℕ :=
  match (List.range 32).find? fun i => bitfield.getLsbD i with
  | some i => i + 1
  | none => 0

namespace BitfieldField32

/-- The field is `n` bits wide and inside of the word. -/
structure Wide (field : BitfieldField32) (n : ℕ) : Prop where
  mask : field.mask = BitVec.ofNat 32 (2 ^ n - 1)
  fits : field.index + n ≤ 32

/-- The two fields share no bit. -/
def Beside (f : BitfieldField32) (n : ℕ) (g : BitfieldField32) (k : ℕ) : Prop :=
  f.index + n ≤ g.index ∨ g.index + k ≤ f.index

variable {f g : BitfieldField32} {n k : ℕ}

theorem Beside.symm (h : f.Beside n g k) : g.Beside k f n := Or.symm h

theorem Wide.getLsbD_mask (h : f.Wide n) (i : ℕ) : f.mask.getLsbD i = decide (i < n) := by
  rw [h.mask, BitVec.getLsbD_ofNat, Nat.testBit_two_pow_sub_one]
  have hfits := h.fits
  by_cases hi : i < n
  · simp [hi, show i < 32 by omega]
  · simp [hi]

end BitfieldField32

open BitfieldField32

theorem wide_bit {bit_index : ℕ} (h : bit_index < 32) :
    (bitfield_bit32_to_field32 bit_index).Wide 1 := ⟨rfl, h⟩

variable {f g : BitfieldField32} {n k : ℕ}

/-! ## Bits of a field -/

theorem getLsbD_field32_read (hf : f.Wide n) (b : u32) (i : ℕ) :
    (bitfield_field32_read b f).getLsbD i = (decide (i < n) && b.getLsbD (f.index + i)) := by
  rw [bitfield_field32_read, BitVec.getLsbD_and, BitVec.getLsbD_ushiftRight, hf.getLsbD_mask,
    Bool.and_comm]

theorem getLsbD_field32_write (hf : f.Wide n) (b v : u32) {i : ℕ} (hi : i < 32) :
    (bitfield_field32_write b f v).getLsbD i =
      if f.index ≤ i ∧ i < f.index + n then v.getLsbD (i - f.index) else b.getLsbD i := by
  simp only [bitfield_field32_write, BitVec.getLsbD_or, BitVec.getLsbD_and, BitVec.getLsbD_not,
    BitVec.getLsbD_shiftLeft, hf.getLsbD_mask, hi, decide_true, Bool.true_and]
  by_cases hlow : i < f.index
  · simp [hlow, show ¬f.index ≤ i by omega]
  · by_cases hin : i < f.index + n
    · simp [hlow, show f.index ≤ i by omega, hin, show i - f.index < n by omega]
    · simp [hin, show ¬i - f.index < n by omega]

/-! ## Reading back -/

theorem field32_read_write (hf : f.Wide n) (b v : u32) :
    bitfield_field32_read (bitfield_field32_write b f v) f = v &&& f.mask := by
  have hfits := hf.fits
  apply BitVec.eq_of_getLsbD_eq
  intro i hi
  rw [getLsbD_field32_read hf, BitVec.getLsbD_and, hf.getLsbD_mask]
  by_cases hin : i < n
  · rw [getLsbD_field32_write hf _ _ (by omega), if_pos ⟨by omega, by omega⟩,
      Nat.add_sub_cancel_left, Bool.and_comm]
  · simp [hin]

/-- A value that the field has room for comes back as it is. -/
theorem field32_read_write_of_lt (hf : f.Wide n) (b v : u32) (hv : v.toNat < 2 ^ n) :
    bitfield_field32_read (bitfield_field32_write b f v) f = v := by
  rw [field32_read_write hf]
  apply BitVec.eq_of_getLsbD_eq
  intro i hi
  rw [BitVec.getLsbD_and, hf.getLsbD_mask]
  by_cases hin : i < n
  · simp [hin]
  · -- the value has no bit above the field
    have hzero : v.getLsbD i = false :=
      Nat.testBit_lt_two_pow (lt_of_lt_of_le hv (Nat.pow_le_pow_right (by omega) (by omega)))
    rw [hzero, Bool.false_and]

theorem field32_read_write_of_beside (hf : f.Wide n) (hg : g.Wide k) (h : f.Beside n g k)
    (b v : u32) :
    bitfield_field32_read (bitfield_field32_write b f v) g = bitfield_field32_read b g := by
  have hfits := hg.fits
  apply BitVec.eq_of_getLsbD_eq
  intro i hi
  rw [getLsbD_field32_read hg, getLsbD_field32_read hg]
  by_cases hin : i < k
  · have hout : ¬(f.index ≤ g.index + i ∧ g.index + i < f.index + n) := by
      rcases h with h | h <;> omega
    rw [getLsbD_field32_write hf _ _ (by omega), if_neg hout]
  · simp [hin]

/-! ## Single bits -/

theorem bit32_read_eq {bit_index : ℕ} (h : bit_index < 32) (b : u32) :
    bitfield_bit32_read b bit_index = b.getLsbD bit_index := by
  have hword : bitfield_field32_read b (bitfield_bit32_to_field32 bit_index) =
      if b.getLsbD bit_index then 1 else 0 := by
    apply BitVec.eq_of_getLsbD_eq
    intro i hi
    rw [getLsbD_field32_read (wide_bit h)]
    -- only the lowest bit of a field of one bit can be set
    cases i with
    | zero => cases hb : b.getLsbD bit_index <;> simp [bitfield_bit32_to_field32, hb]
    | succ i =>
        have hone : (1 : u32).getLsbD (i + 1) = false := by simp
        rw [decide_eq_false (by omega), Bool.false_and]
        split_ifs
        · exact hone.symm
        · simp
  rw [bitfield_bit32_read, hword]
  cases b.getLsbD bit_index <;> rfl

theorem getLsbD_bit32_write {bit_index : ℕ} (h : bit_index < 32) (b : u32) (v : Bool) {i : ℕ}
    (hi : i < 32) :
    (bitfield_bit32_write b bit_index v).getLsbD i = if i = bit_index then v else b.getLsbD i := by
  have hwrite := getLsbD_field32_write (wide_bit h) b (if v then 1 else 0) hi
  rw [show bitfield_bit32_write b bit_index v = bitfield_field32_write b
    (bitfield_bit32_to_field32 bit_index) (if v then 1 else 0) from rfl, hwrite]
  by_cases heq : i = bit_index
  · subst heq
    cases v <;> simp [bitfield_bit32_to_field32]
  · have hout : ¬(bit_index ≤ i ∧ i < bit_index + 1) := by omega
    rw [if_neg heq]
    exact if_neg hout

/-- A test of one bit by a mask. -/
theorem and_one_shiftLeft_eq_zero {i : ℕ} (h : i < 32) (b : u32) :
    b &&& (1 : u32) <<< i = 0 ↔ b.getLsbD i = false := by
  have hmask : b &&& (1 : u32) <<< i = b &&& BitVec.twoPow 32 i := by rw [BitVec.twoPow_eq]; rfl
  rw [hmask, BitVec.and_twoPow]
  cases b.getLsbD i with
  | false => simp
  | true =>
      have hbit : (BitVec.twoPow 32 i).getLsbD i = true := by simp [h]
      refine iff_of_false (fun hzero => ?_) nofun
      rw [if_pos rfl] at hzero
      rw [hzero] at hbit
      simp at hbit

theorem getLsbD_one_shiftLeft {i j : ℕ} (h : j < 32) :
    ((1 : u32) <<< i).getLsbD j = decide (j = i) := by
  rw [show ((1 : u32) <<< i) = BitVec.twoPow 32 i from (BitVec.twoPow_eq 32 i).symm,
    BitVec.getLsbD_twoPow]
  by_cases hij : i = j
  · subst hij
    simp [h]
  · simp [hij, Ne.symm hij]

/-! ## The lowest bit set -/

theorem find_first_set32_of_ne_zero {b : u32} (h : b ≠ 0) :
    ∃ i < 32, b.getLsbD i = true ∧ bitfield_find_first_set32 b = i + 1 := by
  cases hfind : (List.range 32).find? fun i => b.getLsbD i with
  | some i =>
      refine ⟨i, ?_, ?_, ?_⟩
      · exact List.mem_range.mp (List.mem_of_find?_eq_some hfind)
      · simpa using List.find?_some hfind
      · rw [bitfield_find_first_set32, hfind]
  | none =>
      exfalso
      apply h
      apply BitVec.eq_of_getLsbD_eq
      intro i hi
      have hclear := List.find?_eq_none.mp hfind i (List.mem_range.mpr hi)
      simpa using hclear

end IbexFirmware.Json
