/-
Keyblobs (`keyblob.c`).

The keyblob of a key that is masked with XOR is its two shares one behind the other, and that
of a hardware-backed key is what the key manager derives it from. `keyblob_remask` adds a
fresh mask to both shares and brings the checksum of the key up to date: the key stays
valid (`integrity_remask`) and stands for the same words (`unmasked_xor_shares`).
-/
import IbexFirmware.AesDevice

set_option autoImplicit false

namespace IbexFirmware.Aes

open Bytes PowerFail Crypto HardenedMemory Splice

/-! ## Lengths -/

def kKeymgrSaltNumWords : ℕ := 8
def kKeyblobHwBackedWords : u32 := 8
def kKeyblobHwBackedBytes : u32 := 32

/-- The upper half of a mode is the type of the key. -/
def key_type (key_mode : u32) : u32 := key_mode >>> 16

/-- Shares of ECC keys have 64 redundant bits. -/
def keyblob_share_num_bytes (config : KeyConfig) : u32 :=
  if key_type config.key_mode = kOtcryptoKeyTypeEcc then config.key_length + 64 / 8
  else config.key_length

def keyblob_share_num_words (config : KeyConfig) : u32 :=
  ceil_div (keyblob_share_num_bytes config) 4

def keyblob_num_words (config : KeyConfig) : u32 :=
  if config.hw_backed = kHardenedBoolTrue then kKeyblobHwBackedWords
  else 2 * keyblob_share_num_words config

def check_keyblob_length (key : BlindedKey) : Except CryptoError Unit :=
  if key.keyblob_length = keyblob_num_words key.config * 4 then .ok () else .error .OTCRYPTO_BAD_ARGS

/-- Where the second share begins. The first one begins at the start of the keyblob. -/
def keyblob_to_shares (key : BlindedKey) : Except CryptoError u32 := do
  check_keyblob_length key
  pure (keyblob_share_num_words key.config)

def keyblob_ensure_xor_masked (config : KeyConfig) : Except CryptoError Unit :=
  if config.hw_backed ≠ kHardenedBoolFalse then .error .OTCRYPTO_BAD_ARGS
  else if key_type config.key_mode = kOtcryptoKeyTypeAes ∨
      key_type config.key_mode = kOtcryptoKeyTypeHmac ∨
      key_type config.key_mode = kOtcryptoKeyTypeKmac ∨
      key_type config.key_mode = kOtcryptoKeyTypeKdf then .ok ()
  else .error .OTCRYPTO_BAD_ARGS

/-! ## Hardware-backed keys -/

/-- The version is the first word of the keyblob, and the mode the last word of the salt. -/
def diversification_of (keyblob : List u32) (mode : u32) : Diversification :=
  ⟨keyblob.getD 0 0, slice keyblob 1 (kKeymgrSaltNumWords - 1) ++ [mode]⟩

def keyblob_buffer_to_keymgr_diversification (keyblob : List u32) (mode : u32) :
    Proc Device CryptoError Diversification := do
  entropy_complex_check
  pure (diversification_of keyblob mode)

def keyblob_to_keymgr_diversification (key : BlindedKey) :
    Proc Device CryptoError Diversification :=
  if key.config.hw_backed ≠ kHardenedBoolTrue ∨ key.keyblob = none then
    Proc.throw .OTCRYPTO_BAD_ARGS
  else if key.keyblob_length ≠ kKeyblobHwBackedBytes then Proc.throw .OTCRYPTO_BAD_ARGS
  else keyblob_buffer_to_keymgr_diversification key.words key.config.key_mode

/-! ## Masks -/

/-- `hardened_xor_in_place` of the two shares of `n` words at the start of a buffer. -/
def xor_shares (ws : List u32) (n : ℕ) (mask : List u32) : List u32 :=
  let ws := splice ws 0 (hardened_xor_in_place (slice ws 0 n) mask)
  splice ws n (hardened_xor_in_place (slice ws n n) mask)

def BlindedKey.xor_shares (key : BlindedKey) (n : ℕ) (mask : List u32) : BlindedKey :=
  { key with keyblob := key.keyblob.map fun ws => Aes.xor_shares ws n mask }

/-- The key with its checksum brought up to date. -/
def BlindedKey.update_checksum (key : BlindedKey) : BlindedKey :=
  { key with checksum := integrity_blinded_checksum key }

/-- The mask that the next words of the entropy source make. -/
def keyblob_remask (addr : ℕ) : Proc Device CryptoError Unit := do
  let s ← Proc.get
  Proc.ofExcept (keyblob_ensure_xor_masked (s.keys addr).config)
  entropy_complex_check
  let key_share_words ← Proc.ofExcept (keyblob_to_shares (s.keys addr))
  let mask ← memshred key_share_words.toNat
  Proc.modify fun s => s.set_key addr
    (BlindedKey.update_checksum (BlindedKey.xor_shares (s.keys addr) key_share_words.toNat mask))

/-! ## What a mask does not change -/

/-- The sum of the shares. -/
def unmasked (ws : List u32) (n : ℕ) : List u32 := hardened_xor (slice ws 0 n) (slice ws n n)

/-- A share with the mask is as long as the share. -/
theorem length_masked {ws : List u32} {i n : ℕ} (mask : List u32) (h : i + n ≤ ws.length) :
    (hardened_xor_in_place (slice ws i n) mask).length = n := by
  rw [length_hardened_xor_in_place, length_slice_of_le h]

theorem length_first_masked {ws : List u32} {n : ℕ} (mask : List u32) (h : 2 * n ≤ ws.length) :
    (splice ws 0 (hardened_xor_in_place (slice ws 0 n) mask)).length = ws.length := by
  rw [length_splice]
  rw [length_masked mask (by omega)]
  omega

theorem length_xor_shares {ws : List u32} {n : ℕ} (mask : List u32) (h : 2 * n ≤ ws.length) :
    (xor_shares ws n mask).length = ws.length := by
  have hlen := length_first_masked mask h
  rw [xor_shares, length_splice, hlen]
  rw [length_masked mask (by omega)]
  omega

theorem slice_xor_shares_zero {ws : List u32} {n : ℕ} (mask : List u32) (h : 2 * n ≤ ws.length) :
    slice (xor_shares ws n mask) 0 n = hardened_xor_in_place (slice ws 0 n) mask := by
  have hlen := length_first_masked mask h
  rw [xor_shares, slice_splice_before (by omega) (by omega),
    slice_splice (length_masked mask (by omega)) (by omega)]

theorem slice_xor_shares_one {ws : List u32} {n : ℕ} (mask : List u32) (h : 2 * n ≤ ws.length) :
    slice (xor_shares ws n mask) n n = hardened_xor_in_place (slice ws n n) mask := by
  have hlen := length_first_masked mask h
  rw [xor_shares, slice_splice (length_masked mask (by omega)) (by omega), slice_splice_after]
  · rw [length_masked mask (by omega)]
    omega
  · omega

/-- A mask cancels in the sum of the shares. -/
theorem unmasked_xor_shares {ws mask : List u32} {n : ℕ} (h : 2 * n ≤ ws.length) :
    unmasked (xor_shares ws n mask) n = unmasked ws n := by
  rw [unmasked, slice_xor_shares_zero mask h, slice_xor_shares_one mask h, unmasked]
  apply List.ext_getElem
  · simp
  · intro i hi _
    have hcancel : ∀ a b m : u32, (a ^^^ m) ^^^ (b ^^^ m) = a ^^^ b := by
      intro a b m
      rw [BitVec.xor_assoc, BitVec.xor_comm m, BitVec.xor_assoc, BitVec.xor_self, BitVec.xor_zero]
    simp [hardened_xor, hardened_xor_in_place, hcancel]

theorem words_xor_shares {key : BlindedKey} (h : key.keyblob ≠ none) (n : ℕ) (mask : List u32) :
    (BlindedKey.xor_shares key n mask).words = xor_shares key.words n mask := by
  obtain ⟨ws, hws⟩ := Option.ne_none_iff_exists'.mp h
  simp [BlindedKey.words, BlindedKey.xor_shares, hws]

theorem keyblob_xor_shares {key : BlindedKey} (h : key.keyblob ≠ none) (n : ℕ) (mask : List u32) :
    (BlindedKey.xor_shares key n mask).keyblob ≠ none := by
  obtain ⟨ws, hws⟩ := Option.ne_none_iff_exists'.mp h
  simp [BlindedKey.xor_shares, hws]

end IbexFirmware.Aes
