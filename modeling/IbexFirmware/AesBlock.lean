/-
Cipher blocks (`aes_block_t`, `ghash_block_t`).

A block is four words in memory, and the processor is little-endian, while the standards
take a block for a string of 128 bits. `Block.val` is that string: the bytes of the words in
the order of their addresses. Every operation of the code on a block is followed by what it
does to the string.
-/
import IbexFirmware.Lib.Gcm
import IbexFirmware.Lib.Bits
import IbexFirmware.CryptoKey

set_option autoImplicit false

namespace IbexFirmware.Crypto

open Bytes Splice HardenedMemory

abbrev kAesBlockNumBytes : ℕ := 16
abbrev kAesBlockNumWords : ℕ := 4

structure Block where
  w0 : u32
  w1 : u32
  w2 : u32
  w3 : u32
  deriving DecidableEq

namespace Block

def zero : Block := ⟨0, 0, 0, 0⟩

def words (b : Block) : List u32 := [b.w0, b.w1, b.w2, b.w3]

def of_words (ws : List u32) : Block := ⟨ws.getD 0 0, ws.getD 1 0, ws.getD 2 0, ws.getD 3 0⟩

/-- The block in memory. -/
def bytes (b : Block) : List u8 := word_bytes b.words

/-- The block that lies at the start of a piece of memory. -/
def of_bytes (xs : List u8) : Block :=
  ⟨word (xs.getD 0 0) (xs.getD 1 0) (xs.getD 2 0) (xs.getD 3 0),
    word (xs.getD 4 0) (xs.getD 5 0) (xs.getD 6 0) (xs.getD 7 0),
    word (xs.getD 8 0) (xs.getD 9 0) (xs.getD 10 0) (xs.getD 11 0),
    word (xs.getD 12 0) (xs.getD 13 0) (xs.getD 14 0) (xs.getD 15 0)⟩

/-- The block with `src` copied into it from byte `off` on. -/
def bytecopy (b : Block) (off : ℕ) (src : List u8) : Block := of_bytes (splice b.bytes off src)

/-- The block with its bytes from `off` on set to zero. -/
def clear_from (b : Block) (off : ℕ) : Block :=
  b.bytecopy off (List.replicate (kAesBlockNumBytes - off) 0)

end Block

/-- `__builtin_bswap32`. -/
def bswap32 (w : u32) : u32 := Gcm.quad (byteOf w 0) (byteOf w 1) (byteOf w 2) (byteOf w 3)

/-- The string that a block stands for. -/
def Block.val (b : Block) : BitVec 128 :=
  Gcm.join (bswap32 b.w0) (bswap32 b.w1) (bswap32 b.w2) (bswap32 b.w3)

theorem extractLsb'_bswap32 (w : u32) (j : ℕ) (hj : j < 4) :
    (bswap32 w).extractLsb' (8 * (3 - j)) 8 = byteOf w j := by
  rw [bswap32, Gcm.extractLsb'_quad _ _ _ _ j hj]
  interval_cases j <;> rfl

theorem byteOf_bswap32 (w : u32) (j : ℕ) (hj : j < 4) : byteOf (bswap32 w) j = byteOf w (3 - j) := by
  have h := extractLsb'_bswap32 w (3 - j) (by omega)
  have hsub : 3 - (3 - j) = j := by omega
  rwa [hsub] at h

@[simp] theorem bswap32_bswap32 (w : u32) : bswap32 (bswap32 w) = w := by
  apply Bits.word_ext
  intro j hj
  have hsub : 3 - (3 - j) = j := by omega
  rw [byteOf_bswap32 _ j hj, byteOf_bswap32 _ (3 - j) (by omega), hsub]

namespace Block

theorem byte_val (b : Block) (i j : ℕ) (hi : i < 4) (hj : j < 4) :
    Gcm.byte b.val (4 * i + j) = byteOf (b.words.getD i 0) j := by
  rw [val, Gcm.byte_join _ _ _ _ i j hi hj]
  interval_cases i <;> exact extractLsb'_bswap32 _ j hj

/-- The bytes of the string are those of the memory. -/
theorem bytes_val (b : Block) : Gcm.bytes b.val = b.bytes := by
  have hrange : List.range 16 = [4 * 0 + 0, 4 * 0 + 1, 4 * 0 + 2, 4 * 0 + 3, 4 * 1 + 0, 4 * 1 + 1,
    4 * 1 + 2, 4 * 1 + 3, 4 * 2 + 0, 4 * 2 + 1, 4 * 2 + 2, 4 * 2 + 3, 4 * 3 + 0, 4 * 3 + 1,
    4 * 3 + 2, 4 * 3 + 3] := rfl
  rw [Gcm.bytes, hrange]
  simp only [List.map_cons, List.map_nil]
  repeat rw [byte_val _ _ _ (by omega) (by omega)]
  rfl

@[simp] theorem length_bytes (b : Block) : b.bytes.length = 16 := by
  simp [bytes, words]

theorem val_injective : Function.Injective val := by
  intro a b h
  have hword : ∀ i < 4, a.words.getD i 0 = b.words.getD i 0 := by
    intro i hi
    apply Bits.word_ext
    intro j hj
    rw [← byte_val a i j hi hj, ← byte_val b i j hi hj, h]
  obtain ⟨a0, a1, a2, a3⟩ := a
  obtain ⟨b0, b1, b2, b3⟩ := b
  have h0 : a0 = b0 := hword 0 (by decide)
  have h1 : a1 = b1 := hword 1 (by decide)
  have h2 : a2 = b2 := hword 2 (by decide)
  have h3 : a3 = b3 := hword 3 (by decide)
  rw [h0, h1, h2, h3]

theorem bswap32_word (b0 b1 b2 b3 : u8) : bswap32 (word b0 b1 b2 b3) = Gcm.quad b0 b1 b2 b3 := by
  rw [bswap32, byteOf_word _ _ _ _ 0 (by omega), byteOf_word _ _ _ _ 1 (by omega),
    byteOf_word _ _ _ _ 2 (by omega), byteOf_word _ _ _ _ 3 (by omega)]
  rfl

theorem val_of_bytes (xs : List u8) : (of_bytes xs).val = Gcm.of_bytes xs := by
  simp only [val, of_bytes, bswap32_word]
  rfl

theorem of_bytes_bytes (b : Block) : of_bytes b.bytes = b := by
  apply val_injective
  rw [val_of_bytes, ← bytes_val, Gcm.of_bytes_bytes]

theorem bytes_of_bytes {xs : List u8} (h : xs.length = 16) : (of_bytes xs).bytes = xs := by
  rw [← bytes_val, val_of_bytes, Gcm.bytes_of_bytes h]

/-- The block of a string. -/
def of_val (v : BitVec 128) : Block := of_bytes (Gcm.bytes v)

@[simp] theorem val_of_val (v : BitVec 128) : (of_val v).val = v := by
  rw [of_val, val_of_bytes, Gcm.of_bytes_bytes]

@[simp] theorem val_zero : zero.val = 0#128 := by decide

/-! ### Copies -/

/-- What is copied into a block. -/
theorem bytes_bytecopy (b : Block) {off : ℕ} {src : List u8} (h : off + src.length ≤ 16) :
    (b.bytecopy off src).bytes = splice b.bytes off src := by
  rw [bytecopy, bytes_of_bytes]
  rw [length_splice (by rwa [length_bytes]), length_bytes]

theorem take_bytecopy (b : Block) {off : ℕ} {src : List u8} (h : off + src.length ≤ 16) :
    (b.bytecopy off src).bytes.take (off + src.length) = b.bytes.take off ++ src := by
  have hlen : (b.bytes.take off ++ src).length = off + src.length := by
    rw [List.length_append, List.length_take, length_bytes]
    omega
  rw [bytes_bytecopy b h, splice, List.take_append_of_le_length (by omega), ← hlen,
    List.take_length]

/-- A block that is filled up to its end. -/
theorem bytecopy_full (b : Block) {off : ℕ} {src : List u8} (h : off + src.length = 16) :
    (b.bytecopy off src).val = Gcm.of_bytes (b.bytes.take off ++ src) := by
  rw [← take_bytecopy b h.le, h, ← val_of_bytes]
  have hall : (b.bytecopy off src).bytes.take 16 = (b.bytecopy off src).bytes :=
    List.take_of_length_le (by simp)
  rw [hall, of_bytes_bytes]

/-- The first block of what was held and the input behind it. -/
theorem bytecopy_held {part : Block} {held input : List u8}
    (hpart : part.bytes.take held.length = held) (hheld : held.length < 16)
    (hlong : ¬input.length < 16 - held.length) :
    ∃ first : List u8, first.length = 16 ∧ held ++ input = first ++ input.drop (16 - held.length) ∧
      (part.bytecopy held.length (input.take (16 - held.length))).val = Gcm.of_bytes first := by
  have htake : (input.take (16 - held.length)).length = 16 - held.length := by
    rw [List.length_take]
    omega
  refine ⟨held ++ input.take (16 - held.length), ?_, ?_, ?_⟩
  · rw [List.length_append, htake]
    omega
  · rw [List.append_assoc, List.take_append_drop]
  · rw [bytecopy_full _ (by rw [htake]; omega), hpart]

/-- Clearing the rest of a block is padding with zeros. -/
theorem val_clear_from (b : Block) {off : ℕ} (h : off ≤ 16) :
    (b.clear_from off).val = Gcm.of_bytes (b.bytes.take off) := by
  rw [clear_from, bytecopy_full b (by simp [kAesBlockNumBytes]; omega)]
  apply Gcm.of_bytes_congr
  intro i hi
  by_cases hlt : i < (b.bytes.take off).length
  · rw [List.getD_append _ _ _ _ hlt]
  · have hge := Nat.le_of_not_lt hlt
    rw [List.getD_append_right _ _ _ _ hge, List.getD_eq_getElem?_getD,
      List.getElem?_getD_replicate_default_eq,
      List.getD_eq_default _ _ hge]

end Block

/-! ## Sums -/

/-- `block_xor`. -/
def block_xor (x y : Block) : Block :=
  ⟨x.w0 ^^^ y.w0, x.w1 ^^^ y.w1, x.w2 ^^^ y.w2, x.w3 ^^^ y.w3⟩

/-- `hardened_xor` and `hardened_xor_in_place` of the words of a block. -/
def hardened_xor_block (x y : Block) : Block := Block.of_words (hardened_xor x.words y.words)

@[simp] theorem hardened_xor_block_eq (x y : Block) : hardened_xor_block x y = block_xor x y := rfl

@[simp] theorem val_block_xor (x y : Block) : (block_xor x y).val = x.val ^^^ y.val := by
  apply Gcm.ext_byte
  intro i hi
  obtain ⟨k, j, hk, hj, rfl⟩ : ∃ k j, k < 4 ∧ j < 4 ∧ i = 4 * k + j :=
    ⟨i / 4, i % 4, by omega, by omega, by omega⟩
  rw [Gcm.byte_xor, Block.byte_val _ k j hk hj, Block.byte_val _ k j hk hj,
    Block.byte_val _ k j hk hj, ← Bits.byteOf_xor]
  interval_cases k <;> rfl

end IbexFirmware.Crypto
