/-
Galois/Counter Mode (NIST SP 800-38D) over bytes.

The block cipher is a function `E` on blocks of 128 bits. `encrypt` and `decrypt` follow
the algorithms of the standard, for texts and initialization vectors of whole bytes. What
an implementation that takes a text in pieces needs to know is said by `blocks_append`
(a text is padded at its end only) and `gctr_from_append` (the keystream goes on where it
was left).
-/
import IbexFirmware.Lib.Bytes
import IbexFirmware.Lib.Gf

set_option autoImplicit false

namespace IbexFirmware.Gcm

open Bytes Gf

/-! ## Blocks and bytes -/

/-- Four bytes one behind the other, and four words. -/
def quad (b0 b1 b2 b3 : u8) : u32 := b0 ++ b1 ++ b2 ++ b3

def join (a b c d : u32) : BitVec 128 := a ++ b ++ c ++ d

/-- The block that begins with the bytes of `xs`, filled up with zeros. -/
def of_bytes (xs : List u8) : BitVec 128 :=
  join (quad (xs.getD 0 0) (xs.getD 1 0) (xs.getD 2 0) (xs.getD 3 0))
    (quad (xs.getD 4 0) (xs.getD 5 0) (xs.getD 6 0) (xs.getD 7 0))
    (quad (xs.getD 8 0) (xs.getD 9 0) (xs.getD 10 0) (xs.getD 11 0))
    (quad (xs.getD 12 0) (xs.getD 13 0) (xs.getD 14 0) (xs.getD 15 0))

/-- Byte `i` of a block, the first one first. -/
def byte (v : BitVec 128) (i : ℕ) : u8 := v.extractLsb' (8 * (15 - i)) 8

def bytes (v : BitVec 128) : List u8 := (List.range 16).map (byte v)

@[simp] theorem length_bytes (v : BitVec 128) : (bytes v).length = 16 := by
  simp [bytes]

/-- A piece of one of four equal parts. -/
theorem extractLsb'_four {w : ℕ} (a b c d : BitVec w) (i r n : ℕ) (hi : i < 4) (hr : r + n ≤ w) :
    (a ++ b ++ c ++ d).extractLsb' (w * (3 - i) + r) n =
      ([a, b, c, d].getD i 0).extractLsb' r n := by
  interval_cases i
  · rw [BitVec.extractLsb'_append_eq_of_le (by omega), BitVec.extractLsb'_append_eq_of_le (by omega),
      BitVec.extractLsb'_append_eq_of_le (by omega)]
    simp
    congr 1
    omega
  · rw [BitVec.extractLsb'_append_eq_of_le (by omega), BitVec.extractLsb'_append_eq_of_le (by omega),
      BitVec.extractLsb'_append_eq_of_add_le (by omega)]
    simp
    congr 1
    omega
  · rw [BitVec.extractLsb'_append_eq_of_le (by omega),
      BitVec.extractLsb'_append_eq_of_add_le (by omega)]
    simp
  · rw [BitVec.extractLsb'_append_eq_of_add_le (by omega)]
    simp

theorem extractLsb'_quad (b0 b1 b2 b3 : u8) (j : ℕ) (hj : j < 4) :
    (quad b0 b1 b2 b3).extractLsb' (8 * (3 - j)) 8 = [b0, b1, b2, b3].getD j 0 := by
  have h := extractLsb'_four b0 b1 b2 b3 j 0 8 hj (by omega)
  rw [BitVec.extractLsb'_eq_self] at h
  exact h

theorem byte_join (a b c d : u32) (i j : ℕ) (hi : i < 4) (hj : j < 4) :
    byte (join a b c d) (4 * i + j) = ([a, b, c, d].getD i 0).extractLsb' (8 * (3 - j)) 8 := by
  rw [← extractLsb'_four a b c d i (8 * (3 - j)) 8 hi (by omega)]
  unfold byte join
  congr 1
  omega

theorem byte_of_bytes (xs : List u8) (i : ℕ) (hi : i < 16) :
    byte (of_bytes xs) i = xs.getD i 0 := by
  obtain ⟨k, j, hk, hj, rfl⟩ : ∃ k j, k < 4 ∧ j < 4 ∧ i = 4 * k + j :=
    ⟨i / 4, i % 4, by omega, by omega, by omega⟩
  rw [of_bytes, byte_join _ _ _ _ k j hk hj]
  interval_cases k <;> interval_cases j <;> exact extractLsb'_quad _ _ _ _ _ (by omega)

/-- A block is its sixteen bytes. -/
theorem ext_byte {u v : BitVec 128} (h : ∀ i < 16, byte u i = byte v i) : u = v := by
  apply BitVec.eq_of_getLsbD_eq
  intro k hk
  have hbit := congrArg (fun b => b.getLsbD (k % 8)) (h (15 - k / 8) (by omega))
  have hpos : 8 * (15 - (15 - k / 8)) + k % 8 = k := by omega
  simpa [byte, BitVec.getLsbD_extractLsb', Nat.mod_lt, hpos] using hbit

/-- Two lists with the same first sixteen bytes make the same block. -/
theorem of_bytes_congr {xs ys : List u8} (h : ∀ i < 16, xs.getD i 0 = ys.getD i 0) :
    of_bytes xs = of_bytes ys := by
  apply ext_byte
  intro i hi
  rw [byte_of_bytes xs i hi, byte_of_bytes ys i hi, h i hi]

theorem bytes_of_bytes {xs : List u8} (h : xs.length = 16) : bytes (of_bytes xs) = xs := by
  apply List.ext_getElem
  · simp [h]
  · intro i hi hxs
    rw [length_bytes] at hi
    simp only [bytes, List.getElem_map, List.getElem_range]
    rw [byte_of_bytes xs i hi, List.getD_eq_getElem?_getD, List.getElem?_eq_getElem hxs,
      Option.getD_some]

theorem getD_bytes (v : BitVec 128) (i : ℕ) (hi : i < 16) : (bytes v).getD i 0 = byte v i := by
  simp [bytes, List.getD_eq_getElem?_getD, hi]

theorem of_bytes_bytes (v : BitVec 128) : of_bytes (bytes v) = v := by
  apply ext_byte
  intro i hi
  rw [byte_of_bytes _ i hi, getD_bytes v i hi]

theorem byte_xor (u v : BitVec 128) (i : ℕ) : byte (u ^^^ v) i = byte u i ^^^ byte v i :=
  BitVec.extractLsb'_xor

/-- A text as blocks, the last one filled up with zeros. -/
def blocks (xs : List u8) : List (BitVec 128) :=
  (List.range ((xs.length + 15) / 16)).map fun i => of_bytes (xs.drop (16 * i))

@[simp] theorem blocks_nil : blocks [] = [] := rfl

@[simp] theorem length_blocks (xs : List u8) : (blocks xs).length = (xs.length + 15) / 16 := by
  simp [blocks]

/-- A text is padded at its end only. -/
theorem blocks_append {xs : List u8} (h : xs.length % 16 = 0) (ys : List u8) :
    blocks (xs ++ ys) = blocks xs ++ blocks ys := by
  have hcount : ((xs ++ ys).length + 15) / 16 = (xs.length + 15) / 16 + (ys.length + 15) / 16 := by
    rw [List.length_append]
    omega
  rw [blocks, hcount, List.range_add, List.map_append, List.map_map]
  refine congrArg₂ (· ++ ·) ?_ ?_
  · apply List.map_congr_left
    intro i hi
    have hlt := List.mem_range.mp hi
    apply of_bytes_congr
    intro j hj
    rw [List.drop_append_of_le_length (by omega), List.getD_append]
    rw [List.length_drop]
    omega
  · apply List.map_congr_left
    intro i _
    have hdrop : 16 * ((xs.length + 15) / 16 + i) = xs.length + 16 * i := by omega
    rw [Function.comp_apply, hdrop, List.drop_append, List.drop_eq_nil_of_le (by omega)]
    simp

/-- A text that fits into a block. -/
theorem blocks_of_le {xs : List u8} (hpos : 0 < xs.length) (h : xs.length ≤ 16) :
    blocks xs = [of_bytes xs] := by
  have hcount : (xs.length + 15) / 16 = 1 := by omega
  simp [blocks, hcount]

theorem blocks_bytes (v : BitVec 128) : blocks (bytes v) = [v] := by
  rw [blocks_of_le (by simp) (by simp), of_bytes_bytes]

/-! ## The hash -/

/-- `11100001` followed by zeros. -/
def reduction : BitVec 128 := 0xe1#128 <<< 120

def mul (X Y : BitVec 128) : BitVec 128 := gf_mul reduction X Y

def ghash_step (H Y X : BitVec 128) : BitVec 128 := mul (Y ^^^ X) H

/-- `GHASH` of a row of blocks, from what the blocks before them gave. -/
def ghash_from (H Y : BitVec 128) (Xs : List (BitVec 128)) : BitVec 128 :=
  Xs.foldl (ghash_step H) Y

def ghash (H : BitVec 128) (Xs : List (BitVec 128)) : BitVec 128 := ghash_from H 0#128 Xs

theorem ghash_from_append (H Y : BitVec 128) (Xs Xs' : List (BitVec 128)) :
    ghash_from H Y (Xs ++ Xs') = ghash_from H (ghash_from H Y Xs) Xs' :=
  List.foldl_append

theorem ghash_append (H : BitVec 128) (Xs Xs' : List (BitVec 128)) :
    ghash H (Xs ++ Xs') = ghash_from H (ghash H Xs) Xs' :=
  ghash_from_append H 0#128 Xs Xs'

/-! ## Counter mode -/

/-- The last 32 bits go up by one. -/
def inc32 (v : BitVec 128) : BitVec 128 :=
  (v.extractLsb' 32 96 ++ (v.extractLsb' 0 32 + 1#32) : BitVec (96 + 32))

section

variable (E : BitVec 128 → BitVec 128)

/-- Byte `i` of the encrypted counter blocks. -/
def keystream (icb : BitVec 128) (i : ℕ) : u8 := byte (E (inc32^[i / 16] icb)) (i % 16)

/-- A text under the keystream from byte `n` on. -/
def gctr_from (icb : BitVec 128) (n : ℕ) (xs : List u8) : List u8 :=
  xs.mapIdx fun i x => x ^^^ keystream E icb (n + i)

def gctr (icb : BitVec 128) (xs : List u8) : List u8 := gctr_from E icb 0 xs

variable {E} {icb : BitVec 128}

@[simp] theorem length_gctr_from (n : ℕ) (xs : List u8) :
    (gctr_from E icb n xs).length = xs.length := by
  simp [gctr_from]

@[simp] theorem length_gctr (xs : List u8) : (gctr E icb xs).length = xs.length :=
  length_gctr_from 0 xs

@[simp] theorem gctr_from_nil (n : ℕ) : gctr_from E icb n [] = [] := rfl

theorem gctr_from_append (n : ℕ) (xs ys : List u8) :
    gctr_from E icb n (xs ++ ys) = gctr_from E icb n xs ++ gctr_from E icb (n + xs.length) ys := by
  simp only [gctr_from, List.mapIdx_append, Nat.add_assoc, Nat.add_comm xs.length]

theorem gctr_append (xs ys : List u8) :
    gctr E icb (xs ++ ys) = gctr E icb xs ++ gctr_from E icb xs.length ys := by
  rw [gctr, gctr_from_append, Nat.zero_add]
  rfl

/-- Counter mode undoes itself. -/
theorem gctr_gctr (xs : List u8) : gctr E icb (gctr E icb xs) = xs := by
  apply List.ext_getElem
  · simp
  · intro i _ _
    simp only [gctr, gctr_from, zero_add, List.mapIdx_mapIdx, List.getElem_mapIdx,
      Function.comp_apply, BitVec.xor_assoc, BitVec.xor_self, BitVec.xor_zero]

theorem gctr_injective : Function.Injective (gctr E icb) :=
  Function.LeftInverse.injective gctr_gctr

/-- Up to a block of text under one block of the keystream. -/
theorem gctr_from_block (k : ℕ) {xs : List u8} (h : xs.length ≤ 16) :
    gctr_from E icb (16 * k) xs =
      (bytes (of_bytes xs ^^^ E (inc32^[k] icb))).take xs.length := by
  apply List.ext_getElem
  · simp [h]
  · intro i hi hi'
    rw [length_gctr_from] at hi
    have hk : (16 * k + i) / 16 = k := by omega
    have hmod : (16 * k + i) % 16 = i := by omega
    simp only [gctr_from, List.getElem_mapIdx, List.getElem_take, bytes, List.getElem_map,
      List.getElem_range, keystream, hk, hmod, byte_xor]
    rw [byte_of_bytes xs i (by omega), List.getD_eq_getElem?_getD, List.getElem?_eq_getElem hi,
      Option.getD_some]

end

/-! ## Authenticated encryption -/

/-- A number of bytes as 64 bits that count bits. -/
def bit_length (n : ℕ) : u64 := BitVec.ofNat 64 (8 * n)

section

variable (E : BitVec 128 → BitVec 128)

/-- The initial counter block of an initialization vector. -/
def initial_counter (iv : List u8) : BitVec 128 :=
  if iv.length = 12 then of_bytes (iv ++ [0, 0, 0, 1])
  else ghash (E 0#128) (blocks iv ++ [0#64 ++ bit_length iv.length])

/-- The tag before it is cut to length. -/
def full_tag (iv aad ciphertext : List u8) : BitVec 128 :=
  E (initial_counter E iv) ^^^ ghash (E 0#128)
    (blocks aad ++ blocks ciphertext ++ [bit_length aad.length ++ bit_length ciphertext.length])

def tag (tag_len : ℕ) (iv aad ciphertext : List u8) : List u8 :=
  (bytes (full_tag E iv aad ciphertext)).take tag_len

def encrypt (tag_len : ℕ) (iv aad plaintext : List u8) : List u8 × List u8 :=
  let ciphertext := gctr E (inc32 (initial_counter E iv)) plaintext
  (ciphertext, tag E tag_len iv aad ciphertext)

end

end IbexFirmware.Gcm
