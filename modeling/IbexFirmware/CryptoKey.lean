/-
Key structures of the cryptography library and their integrity (`datatypes.h`,
`integrity.c`).

A blinded key is a configuration, a length and a buffer of words that the caller
provides, and the checksum over all of these. An unblinded key is the same without the
configuration. A pointer is an `Option`, `none` for NULL. `launder32` and the checks that
repeat a comparison that has just been made are left out.
-/
import IbexFirmware.HardenedMemory
import IbexFirmware.Crc32
import IbexFirmware.Lib.Splice

set_option autoImplicit false

namespace IbexFirmware.Crypto

open Bytes Crc32 HardenedMemory Splice

/-- The status values that stand for an error. `OTCRYPTO_OK` is a return. -/
inductive CryptoError where
  | OTCRYPTO_BAD_ARGS
  | OTCRYPTO_RECOV_ERR
  | OTCRYPTO_FATAL_ERR
  | OTCRYPTO_ASYNC_INCOMPLETE
  | OTCRYPTO_NOT_IMPLEMENTED
  deriving DecidableEq

/-! ## Buffers of the caller -/

/-- A pointer to words and how many there are. -/
structure Word32Buf where
  data : Option (List u32)
  len : u32
  fits : ∀ ws ∈ data, ws.length = len.toNat

/-- The words the buffer holds. -/
def Word32Buf.words (b : Word32Buf) : List u32 := b.data.getD []

theorem Word32Buf.length_words {b : Word32Buf} (h : b.data ≠ none) :
    b.words.length = b.len.toNat := by
  obtain ⟨data, len, fits⟩ := b
  cases data with
  | none => exact absurd rfl h
  | some ws => exact fits ws rfl

/-- The buffer with other words in the same place. -/
def Word32Buf.set (b : Word32Buf) (f : List u32 → List u32)
    (hf : ∀ ws, (f ws).length = ws.length) : Word32Buf where
  data := b.data.map f
  len := b.len
  fits := by
    intro ws hws
    obtain ⟨ws₀, h₀, rfl⟩ := Option.map_eq_some_iff.mp hws
    rw [hf]
    exact b.fits ws₀ h₀

/-- A pointer to bytes and how many there are. -/
structure ByteBuf where
  data : Option (List u8)
  len : u32
  fits : ∀ xs ∈ data, xs.length = len.toNat

/-- The bytes the buffer holds. -/
def ByteBuf.bytes (b : ByteBuf) : List u8 := b.data.getD []

/-- Only a buffer without bytes may be missing. -/
def ByteBuf.dangling (b : ByteBuf) : Prop := b.len ≠ 0 ∧ b.data = none

instance (b : ByteBuf) : Decidable b.dangling := instDecidableAnd

theorem ByteBuf.length_bytes {b : ByteBuf} (h : ¬ b.dangling) : b.bytes.length = b.len.toNat := by
  obtain ⟨data, len, fits⟩ := b
  cases data with
  | none =>
    obtain rfl : len = 0 := not_not.mp fun hne => h ⟨hne, rfl⟩
    rfl
  | some xs => exact fits xs rfl

/-- The bytes of a row of words as they lie in memory. -/
def word_bytes (ws : List u32) : List u8 := ws.flatMap le32

@[simp] theorem length_word_bytes (ws : List u32) : (word_bytes ws).length = 4 * ws.length :=
  length_flatMap_le32 ws

@[simp] theorem word_bytes_cons (w : u32) (ws : List u32) :
    word_bytes (w :: ws) = le32 w ++ word_bytes ws := rfl

theorem word_bytes_injective : Function.Injective word_bytes := fun _ _ => flatMap_le32_injective

theorem take_word_bytes (ws : List u32) (n : ℕ) :
    word_bytes (ws.take n) = (word_bytes ws).take (4 * n) := by
  induction ws generalizing n with
  | nil => simp [word_bytes]
  | cons w ws ih =>
    cases n with
    | zero => rfl
    | succ n =>
      have hsplit : 4 * (n + 1) = (le32 w).length + 4 * n := by rw [length_le32]; omega
      rw [List.take_succ_cons, word_bytes_cons, word_bytes_cons, ih, hsplit,
        List.take_length_add_append]

def ceil_div (a b : u32) : u32 := if a % b ≠ 0 then a / b + 1 else a / b

/-- No sum is formed, so that nothing can overflow. -/
theorem toNat_ceil_div (a b : u32) (hb : 0 < b.toNat) :
    (ceil_div a b).toNat = (a.toNat + b.toNat - 1) / b.toNat := by
  have hmod : (a % b).toNat = a.toNat % b.toNat := BitVec.toNat_umod
  have hdiv : (a / b).toNat = a.toNat / b.toNat := BitVec.toNat_udiv
  have hsplit := Nat.div_add_mod a.toNat b.toNat
  have hrest := Nat.mod_lt a.toNat hb
  rw [ceil_div]
  split_ifs with h
  · have hne : a.toNat % b.toNat ≠ 0 := fun h0 => h (BitVec.eq_of_toNat_eq (hmod.trans h0))
    have hsmall : a.toNat / b.toNat + 1 < 2 ^ 32 := by
      have htwo : 2 ≤ b.toNat := by omega
      have hhalf : a.toNat / b.toNat ≤ a.toNat / 2 := Nat.div_le_div_left htwo (by omega)
      omega
    rw [BitVec.toNat_add, hdiv, show (1 : u32).toNat = 1 from rfl, Nat.mod_eq_of_lt hsmall]
    symm
    apply Nat.div_eq_of_lt_le
    · rw [Nat.add_mul, Nat.mul_comm, Nat.one_mul]
      omega
    · rw [Nat.add_mul, Nat.add_mul, Nat.mul_comm (a.toNat / b.toNat), Nat.one_mul]
      omega
  · have heq : a.toNat % b.toNat = 0 := by rw [← hmod, not_not.mp h]; rfl
    rw [hdiv]
    symm
    apply Nat.div_eq_of_lt_le
    · rw [Nat.mul_comm]
      omega
    · rw [Nat.add_mul, Nat.mul_comm, Nat.one_mul]
      omega

/-! ## Bytes as words -/

/-- `n` words that hold `bytes`, with zeros behind them. -/
def zero_padded (n : ℕ) (bytes : List u8) : List u32 :=
  (List.range n).map fun i =>
    word (bytes.getD (4 * i) 0) (bytes.getD (4 * i + 1) 0) (bytes.getD (4 * i + 2) 0)
      (bytes.getD (4 * i + 3) 0)

@[simp] theorem length_zero_padded (n : ℕ) (bytes : List u8) :
    (zero_padded n bytes).length = n := by simp [zero_padded]

/-- Words behind the bytes are zero. -/
theorem zero_padded_add {k : ℕ} {bytes : List u8} (h : bytes.length ≤ 4 * k) (j : ℕ) :
    zero_padded (k + j) bytes = zero_padded k bytes ++ List.replicate j 0 := by
  rw [zero_padded, List.range_add, List.map_append, List.map_map]
  congr 1
  rw [List.eq_replicate_iff]
  refine ⟨by simp, ?_⟩
  intro w hw
  obtain ⟨i, -, rfl⟩ := List.mem_map.mp hw
  rw [Function.comp_apply, List.getD_eq_default _ _ (by omega), List.getD_eq_default _ _ (by omega),
    List.getD_eq_default _ _ (by omega), List.getD_eq_default _ _ (by omega)]
  rfl

theorem word_bytes_append (xs ys : List u32) :
    word_bytes (xs ++ ys) = word_bytes xs ++ word_bytes ys := List.flatMap_append

theorem word_bytes_replicate_zero (n : ℕ) :
    word_bytes (List.replicate n 0) = List.replicate (4 * n) 0 := by
  induction n with
  | zero => rfl
  | succ n ih =>
      rw [List.replicate_succ, word_bytes_cons, ih, show 4 * (n + 1) = 4 + 4 * n by omega,
        List.replicate_add]
      rfl

theorem le32_word (b0 b1 b2 b3 : u8) : le32 (word b0 b1 b2 b3) = [b0, b1, b2, b3] := by
  rw [le32, byteOf_word _ _ _ _ 0 (by omega), byteOf_word _ _ _ _ 1 (by omega),
    byteOf_word _ _ _ _ 2 (by omega), byteOf_word _ _ _ _ 3 (by omega)]
  rfl

theorem zero_padded_succ (n : ℕ) (bytes : List u8) :
    zero_padded (n + 1) bytes =
      word (bytes.getD 0 0) (bytes.getD 1 0) (bytes.getD 2 0) (bytes.getD 3 0) ::
        zero_padded n (bytes.drop 4) := by
  rw [zero_padded, zero_padded, List.range_succ_eq_map, List.map_cons, List.map_map]
  congr 1
  apply List.map_congr_left
  intro i _
  simp only [Function.comp_apply, List.getD_eq_getElem?_getD, List.getElem?_drop]
  rw [show 4 * Nat.succ i = 4 + 4 * i by omega, Nat.add_assoc, Nat.add_assoc, Nat.add_assoc]

/-- The bytes come back, with the zeros behind them. -/
theorem word_bytes_zero_padded {n : ℕ} {bytes : List u8} (h : bytes.length ≤ 4 * n) :
    word_bytes (zero_padded n bytes) = bytes ++ List.replicate (4 * n - bytes.length) 0 := by
  induction n generalizing bytes with
  | zero =>
      obtain rfl := List.eq_nil_of_length_eq_zero (Nat.le_zero.mp h)
      rfl
  | succ n ih =>
      have hrest : (bytes.drop 4).length ≤ 4 * n := by rw [List.length_drop]; omega
      rw [zero_padded_succ, word_bytes_cons, le32_word, ih hrest, List.length_drop]
      match bytes with
      | [] => simp [show 4 * (n + 1) = 4 * n + 4 by omega, List.replicate_succ]
      | [_] => simp [show 4 * (n + 1) - 1 = 4 * n + 3 by omega, List.replicate_succ]
      | [_, _] => simp [show 4 * (n + 1) - 2 = 4 * n + 2 by omega, List.replicate_succ]
      | [_, _, _] => simp [show 4 * (n + 1) - 3 = 4 * n + 1 by omega, List.replicate_succ]
      | _ :: _ :: _ :: _ :: rest =>
          simp [show 4 * (n + 1) - (rest.length + 4) = 4 * n - rest.length by omega]

/-! ## Keys -/

def kOtcryptoLibVersion1 : u32 := 0x7f4

def kOtcryptoKeySecurityLevelLow : u32 := 0x1e9
def kOtcryptoKeySecurityLevelMedium : u32 := 0xeab
def kOtcryptoKeySecurityLevelHigh : u32 := 0xa7e

def kOtcryptoKeyTypeAes : u32 := 0x8e9
def kOtcryptoKeyTypeHmac : u32 := 0xe3f
def kOtcryptoKeyTypeKmac : u32 := 0xb74
def kOtcryptoKeyTypeRsa : u32 := 0x7ee
def kOtcryptoKeyTypeEcc : u32 := 0x15b
def kOtcryptoKeyTypeKdf : u32 := 0xb87

structure KeyConfig where
  version : u32
  key_mode : u32
  key_length : u32
  hw_backed : u32
  exportable : u32
  security_level : u32
  deriving DecidableEq

structure UnblindedKey where
  key_mode : u32
  key_length : u32
  key : Option (List u32)
  checksum : u32
  deriving DecidableEq

structure BlindedKey where
  config : KeyConfig
  keyblob_length : u32
  keyblob : Option (List u32)
  checksum : u32
  deriving DecidableEq

def UnblindedKey.words (k : UnblindedKey) : List u32 := k.key.getD []

def BlindedKey.words (k : BlindedKey) : List u32 := k.keyblob.getD []

/-- The key with `ws` written to the start of its buffer. -/
def UnblindedKey.write (k : UnblindedKey) (ws : List u32) : UnblindedKey :=
  { k with key := k.key.map fun old => splice old 0 ws }

/-- The key with `ws` written to its keyblob from word `off` on. -/
def BlindedKey.write (k : BlindedKey) (off : ℕ) (ws : List u32) : BlindedKey :=
  { k with keyblob := k.keyblob.map fun old => splice old off ws }

theorem UnblindedKey.words_write {k : UnblindedKey} (h : k.key ≠ none) (ws : List u32) :
    (k.write ws).words = splice k.words 0 ws := by
  obtain ⟨old, hold⟩ := Option.ne_none_iff_exists'.mp h
  simp [UnblindedKey.words, UnblindedKey.write, hold]

theorem UnblindedKey.key_write {k : UnblindedKey} (h : k.key ≠ none) (ws : List u32) :
    (k.write ws).key ≠ none := by
  obtain ⟨old, hold⟩ := Option.ne_none_iff_exists'.mp h
  simp [UnblindedKey.write, hold]

theorem BlindedKey.words_write {k : BlindedKey} (h : k.keyblob ≠ none) (off : ℕ) (ws : List u32) :
    (k.write off ws).words = splice k.words off ws := by
  obtain ⟨old, hold⟩ := Option.ne_none_iff_exists'.mp h
  simp [BlindedKey.words, BlindedKey.write, hold]

theorem BlindedKey.keyblob_write {k : BlindedKey} (h : k.keyblob ≠ none) (off : ℕ)
    (ws : List u32) : (k.write off ws).keyblob ≠ none := by
  obtain ⟨old, hold⟩ := Option.ne_none_iff_exists'.mp h
  simp [BlindedKey.write, hold]

/-! ## Integrity -/

/-- The key lies on a word boundary. -/
def integrity_unblinded_checksum (key : UnblindedKey) : u32 :=
  let ctx := crc32_add32 crc32_init key.key_mode
  let ctx := crc32_add32 ctx key.key_length
  crc32_finish (crc32_add ctx 0 ((word_bytes key.words).take key.key_length.toNat))

def integrity_blinded_checksum (key : BlindedKey) : u32 :=
  let ctx := crc32_add32 crc32_init key.config.version
  let ctx := crc32_add32 ctx key.config.key_mode
  let ctx := crc32_add32 ctx key.config.key_length
  let ctx := crc32_add32 ctx key.config.hw_backed
  let ctx := crc32_add32 ctx key.config.exportable
  let ctx := crc32_add32 ctx key.config.security_level
  let ctx := crc32_add32 ctx key.keyblob_length
  crc32_finish (crc32_add ctx 0 ((word_bytes key.words).take key.keyblob_length.toNat))

def integrity_unblinded_key_check (key : UnblindedKey) : u32 :=
  if key.checksum = integrity_unblinded_checksum key then kHardenedBoolTrue
  else kHardenedBoolFalse

/-- A key of another version of the library is rejected before its checksum is looked at. -/
def integrity_blinded_key_check (key : BlindedKey) : u32 :=
  if key.config.version ≠ kOtcryptoLibVersion1 then kHardenedBoolFalse
  else if key.checksum = integrity_blinded_checksum key then kHardenedBoolTrue
  else kHardenedBoolFalse

theorem integrity_unblinded_key_check_iff (key : UnblindedKey) :
    integrity_unblinded_key_check key = kHardenedBoolTrue ↔
      key.checksum = integrity_unblinded_checksum key := by
  unfold integrity_unblinded_key_check
  split_ifs with h
  · exact iff_of_true rfl h
  · exact iff_of_false (by decide) h

theorem integrity_blinded_key_check_iff (key : BlindedKey) :
    integrity_blinded_key_check key = kHardenedBoolTrue ↔
      key.config.version = kOtcryptoLibVersion1 ∧ key.checksum = integrity_blinded_checksum key := by
  unfold integrity_blinded_key_check
  split_ifs with hversion hsum
  · exact iff_of_false (by decide) fun h => hversion h.1
  · exact iff_of_true rfl ⟨not_not.mp hversion, hsum⟩
  · exact iff_of_false (by decide) fun h => hsum h.2

end IbexFirmware.Crypto
