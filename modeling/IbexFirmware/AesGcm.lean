/-
AES-GCM for callers (`impl/aes_gcm.c`).

A message goes through in one call, or through a context of the caller in many. Keys and
contexts are in memory and are named by their addresses, `none` for NULL; a buffer that is
written to is a result, and what lies in it after an error is not modelled. What a function
does not initialise is a parameter (`local_ctx`), and so is how the words of a context that
has been overwritten are read (`Layout`).

A key that the caller holds in shares is masked afresh by every call that uses it. The calls
that get the key structure bring its checksum up to date; those that get a context reach the
shares through it, and bring the checksum in the context up to date.
-/
import IbexFirmware.AesGcmMessage
import IbexFirmware.AesGcmFrame
import IbexFirmware.Lib.Zoom

set_option autoImplicit false

namespace IbexFirmware.Aes

open Bytes PowerFail Crypto HardenedMemory Splice Chunks

def kOtcryptoKeyModeAesGcm : u32 := kOtcryptoKeyTypeAes <<< 16 ||| 0xaa5

/-! ## Tags -/

def kOtcryptoAesGcmTagLen128 : u32 := 0x167
def kOtcryptoAesGcmTagLen96 : u32 := 0x35a
def kOtcryptoAesGcmTagLen64 : u32 := 0x5d4
def kOtcryptoAesGcmTagLen32 : u32 := 0xf06

/-- `bit_len` of `aes_gcm_check_tag_length`. -/
def tag_bit_len (tag_len : u32) : Option u32 :=
  if tag_len = kOtcryptoAesGcmTagLen128 then some 128
  else if tag_len = kOtcryptoAesGcmTagLen96 then some 96
  else if tag_len = kOtcryptoAesGcmTagLen64 then some 64
  else if tag_len = kOtcryptoAesGcmTagLen32 then some 32
  else none

def aes_gcm_check_tag_length (word_len tag_len : u32) : Except CryptoError Unit :=
  match tag_bit_len tag_len with
  | none => .error .OTCRYPTO_BAD_ARGS
  | some bit_len => if word_len ≠ bit_len / 32 then .error .OTCRYPTO_BAD_ARGS else .ok ()

/-! ## Keys -/

/-- The shares that a context points to get a fresh mask, and the context the new checksum. -/
def gcm_remask_key (internal_ctx : AesGcmContext) : Proc Device CryptoError AesGcmContext :=
  let key := internal_ctx.key
  if key.sideload = kHardenedBoolFalse then do
    let mask ← memshred key.key_len.toNat
    Proc.modify fun s => s.set_key key.blob
      (BlindedKey.xor_shares (s.keys key.blob) key.key_len.toNat mask)
    let s ← Proc.get
    pure { internal_ctx with key := { key with checksum := aes_key_integrity_checksum s key } }
  else do
    hardened_check (key.sideload = kHardenedBoolTrue)
    pure internal_ctx

/-- The part of `aes_gcm_key_construct` that depends on where the key is. -/
def aes_gcm_key_shares (addr : ℕ) (blinded_key : BlindedKey) : Proc Device CryptoError Unit :=
  if blinded_key.config.hw_backed = kHardenedBoolTrue then
    if blinded_key.keyblob_length ≠ kKeyblobHwBackedBytes then Proc.throw .OTCRYPTO_BAD_ARGS
    else pure ()
  else if blinded_key.config.hw_backed = kHardenedBoolFalse then do
    keyblob_remask addr
    let s ← Proc.get
    let _share1 ← Proc.ofExcept (keyblob_to_shares (s.keys addr))
    pure ()
  else Proc.throw .OTCRYPTO_BAD_ARGS

/-- The key for the driver. The checksum is that of the shares as they are now. -/
def aes_key_of (addr : ℕ) (config : KeyConfig) (s : Device) : AesKey :=
  let aes_key : AesKey :=
    ⟨kAesCipherModeCtr, config.hw_backed, keyblob_share_num_words config, addr, 0⟩
  { aes_key with checksum := aes_key_integrity_checksum s aes_key }

/-- The key structure is checked once more when the key has been put together. -/
def aes_gcm_key_finish (addr : ℕ) (config : KeyConfig) : Proc Device CryptoError AesKey := do
  let s ← Proc.get
  let aes_key := aes_key_of addr config s
  hardened_check (integrity_blinded_key_check (s.keys addr) = kHardenedBoolTrue)
  pure aes_key

def aes_gcm_key_construct (addr : ℕ) : Proc Device CryptoError AesKey := do
  let s ← Proc.get
  let blinded_key := s.keys addr
  if integrity_blinded_key_check blinded_key ≠ kHardenedBoolTrue then
    Proc.throw .OTCRYPTO_BAD_ARGS
  else if blinded_key.config.key_mode ≠ kOtcryptoKeyModeAesGcm then
    Proc.throw .OTCRYPTO_BAD_ARGS
  else if blinded_key.keyblob = none then Proc.throw .OTCRYPTO_BAD_ARGS
  else do
    aes_gcm_key_shares addr blinded_key
    aes_gcm_key_finish addr blinded_key.config

section

variable (hw : Hardware)

def load_key_if_sideloaded (key : AesKey) : Proc Device CryptoError Unit :=
  if key.sideload = kHardenedBoolFalse then pure ()
  else if key.sideload ≠ kHardenedBoolTrue then Proc.throw .OTCRYPTO_BAD_ARGS
  else do
    let s ← Proc.get
    let diversification ←
      keyblob_buffer_to_keymgr_diversification (s.keys key.blob).words kOtcryptoKeyModeAesGcm
    keymgr_generate_key_aes hw diversification

def clear_key_if_sideloaded (key : AesKey) : Proc Device CryptoError Unit :=
  if key.sideload = kHardenedBoolFalse then pure ()
  else if key.sideload ≠ kHardenedBoolTrue then Proc.throw .OTCRYPTO_BAD_ARGS
  else keymgr_sideload_clear_aes

/-! ## Messages in one call -/

/-- The cache goes off, and the key is constructed and loaded. -/
def open_key (addr : ℕ) : Proc Device CryptoError (Bool × AesKey) := do
  let icache_saved_state ← ibex_disable_icache
  let aes_key ← aes_gcm_key_construct addr
  load_key_if_sideloaded hw aes_key
  pure (icache_saved_state, aes_key)

/-- What every call ends with. -/
def close_key (icache_saved_state : Bool) (key : AesKey) : Proc Device CryptoError Unit := do
  clear_key_if_sideloaded key
  ibex_restore_icache icache_saved_state

/-- An operation with a key that is loaded for it. -/
def with_key {α : Type} (addr : ℕ) (operation : AesKey → Proc Device CryptoError α) :
    Proc Device CryptoError α := do
  let (icache_saved_state, aes_key) ← open_key hw addr
  let result ← operation aes_key
  close_key icache_saved_state aes_key
  pure result

/-- The ciphertext and the tag. -/
def otcrypto_aes_gcm_encrypt (key : Option ℕ) (plaintext : ByteBuf) (iv : Word32Buf)
    (aad : ByteBuf) (tag_len : u32) (ciphertext : ByteBuf) (auth_tag : Word32Buf)
    (local_ctx : AesGcmContext) : Proc Device CryptoError (List u8 × List u32) :=
  match key with
  | none => Proc.throw .OTCRYPTO_BAD_ARGS
  | some addr =>
    if iv.data = none ∨ auth_tag.data = none then Proc.throw .OTCRYPTO_BAD_ARGS
    else do
      let _random ← memshred auth_tag.len.toNat
      entropy_complex_check
      if aad.dangling ∨ ciphertext.dangling ∨ plaintext.dangling then
        Proc.throw .OTCRYPTO_BAD_ARGS
      else if ciphertext.len ≠ plaintext.len then Proc.throw .OTCRYPTO_BAD_ARGS
      else do
        Proc.ofExcept (aes_gcm_check_tag_length auth_tag.len tag_len)
        with_key hw addr fun aes_key =>
          aes_gcm_encrypt hw aes_key iv.words plaintext.bytes aad.bytes auth_tag.len.toNat local_ctx

/-- The operation of a decryption: the lengths are looked at when the key has been loaded. -/
def decrypt_checked (aes_key : AesKey) (ciphertext : ByteBuf) (iv : Word32Buf) (aad : ByteBuf)
    (tag_len : u32) (auth_tag : Word32Buf) (plaintext : ByteBuf) (local_ctx : AesGcmContext) :
    Proc Device CryptoError (List u8 × u32) :=
  if ciphertext.len ≠ plaintext.len then Proc.throw .OTCRYPTO_BAD_ARGS
  else do
    Proc.ofExcept (aes_gcm_check_tag_length auth_tag.len tag_len)
    aes_gcm_decrypt hw aes_key iv.words ciphertext.bytes aad.bytes auth_tag.words local_ctx

/-- What is in the buffer of the plaintext, and `*success`. -/
def otcrypto_aes_gcm_decrypt (key : Option ℕ) (ciphertext : ByteBuf) (iv : Word32Buf)
    (aad : ByteBuf) (tag_len : u32) (auth_tag : Word32Buf) (plaintext : ByteBuf)
    (local_ctx : AesGcmContext) : Proc Device CryptoError (List u8 × u32) :=
  match key with
  | none => Proc.throw .OTCRYPTO_BAD_ARGS
  | some addr =>
    if iv.data = none ∨ auth_tag.data = none then Proc.throw .OTCRYPTO_BAD_ARGS
    else if aad.dangling ∨ ciphertext.dangling ∨ plaintext.dangling then
      Proc.throw .OTCRYPTO_BAD_ARGS
    else do
      entropy_complex_check
      with_key hw addr fun aes_key =>
        decrypt_checked hw aes_key ciphertext iv aad tag_len auth_tag plaintext local_ctx

end

/-! ## Messages in many calls -/

/-- The device and the contexts of the callers. -/
structure Caller where
  dev : Device
  contexts : ℕ → AesGcmContext

def device : Part Caller Device := ⟨Caller.dev, fun dev s => { s with dev := dev }⟩

def gcm_context_save (internal_ctx : AesGcmContext) (ctx : ℕ) : Proc Caller CryptoError Unit :=
  Proc.modify fun s => { s with contexts := Function.update s.contexts ctx internal_ctx }

def gcm_context_restore (ctx : ℕ) : Proc Caller CryptoError AesGcmContext := do
  let s ← Proc.get
  pure (s.contexts ctx)

def kAesGcmContextNumWords : ℕ := 194

/-- How the words of a context are read. -/
abbrev Layout : Type := List u32 → AesGcmContext

/-- `hardened_memshred` of a context. -/
def gcm_context_shred (layout : Layout) (ctx : ℕ) : Proc Caller CryptoError Unit := do
  let random ← zoom device (memshred kAesGcmContextNumWords)
  gcm_context_save (layout random) ctx

section

variable (hw : Hardware)

/-- The new context, and the state of the cache before. -/
def start_message (init : AesKey → List u32 → AesGcmContext → Proc Device CryptoError AesGcmContext)
    (addr : ℕ) (iv : Word32Buf) (local_ctx : AesGcmContext) :
    Proc Device CryptoError (Bool × AesGcmContext) := do
  entropy_complex_check
  let (icache_saved_state, aes_key) ← open_key hw addr
  let s ← Proc.get
  let internal_ctx ← init aes_key iv.words
    { local_ctx with security_level := (s.keys addr).config.security_level }
  pure (icache_saved_state, internal_ctx)

/-- `otcrypto_aes_gcm_encrypt_init` and `otcrypto_aes_gcm_decrypt_init`. -/
def gcm_init (init : AesKey → List u32 → AesGcmContext → Proc Device CryptoError AesGcmContext)
    (key : Option ℕ) (iv : Word32Buf) (ctx : Option ℕ) (local_ctx : AesGcmContext) :
    Proc Caller CryptoError Unit :=
  match key, ctx with
  | some addr, some ctx => do
      let s ← Proc.get
      if (s.dev.keys addr).keyblob = none ∨ iv.data = none then Proc.throw .OTCRYPTO_BAD_ARGS
      else do
        let (icache_saved_state, internal_ctx) ← zoom device (start_message hw init addr iv local_ctx)
        gcm_context_save internal_ctx ctx
        zoom device (close_key icache_saved_state internal_ctx.key)
  | _, _ => Proc.throw .OTCRYPTO_BAD_ARGS

def otcrypto_aes_gcm_encrypt_init (key : Option ℕ) (iv : Word32Buf) (ctx : Option ℕ)
    (local_ctx : AesGcmContext) : Proc Caller CryptoError Unit :=
  gcm_init hw (aes_gcm_encrypt_init hw) key iv ctx local_ctx

def otcrypto_aes_gcm_decrypt_init (key : Option ℕ) (iv : Word32Buf) (ctx : Option ℕ)
    (local_ctx : AesGcmContext) : Proc Caller CryptoError Unit :=
  gcm_init hw (aes_gcm_decrypt_init hw) key iv ctx local_ctx

/-- The operation of `otcrypto_aes_gcm_update_aad`. -/
def update_aad_loaded (internal_ctx : AesGcmContext) (aad : ByteBuf) :
    Proc Device CryptoError AesGcmContext := do
  load_key_if_sideloaded hw internal_ctx.key
  aes_gcm_update_aad internal_ctx aad.bytes

def otcrypto_aes_gcm_update_aad (ctx : Option ℕ) (aad : ByteBuf) : Proc Caller CryptoError Unit :=
  match ctx with
  | none => Proc.throw .OTCRYPTO_BAD_ARGS
  | some ctx =>
    if aad.data = none then Proc.throw .OTCRYPTO_BAD_ARGS
    else do
      zoom device entropy_complex_check
      if aad.len = 0 then pure ()
      else do
        let icache_saved_state ← zoom device ibex_disable_icache
        let internal_ctx ← gcm_context_restore ctx
        let internal_ctx ← zoom device (update_aad_loaded hw internal_ctx aad)
        gcm_context_save internal_ctx ctx
        zoom device (close_key icache_saved_state internal_ctx.key)

/-- The key of a context is loaded and masked afresh. -/
def load_and_remask (internal_ctx : AesGcmContext) : Proc Device CryptoError AesGcmContext := do
  load_key_if_sideloaded hw internal_ctx.key
  gcm_remask_key internal_ctx

/-- The output must hold the full blocks that there are with the input. -/
def output_fits (internal_ctx : AesGcmContext) (input output : ByteBuf) : Prop :=
  let partial_block_len := internal_ctx.input_len.toNat % kAesBlockNumBytes
  input.len.toNat ≤ 2 ^ 32 - 1 - partial_block_len ∧
    (partial_block_len + input.len.toNat) / kAesBlockNumBytes * kAesBlockNumBytes ≤ output.len.toNat

instance (internal_ctx : AesGcmContext) (input output : ByteBuf) :
    Decidable (output_fits internal_ctx input output) := instDecidableAnd

/-- The operation of `otcrypto_aes_gcm_update_encrypted_data`. -/
def update_encrypted_data_loaded (internal_ctx : AesGcmContext) (input output : ByteBuf) :
    Proc Device CryptoError (AesGcmContext × List u8) := do
  let internal_ctx ← load_and_remask hw internal_ctx
  if ¬ output_fits internal_ctx input output then Proc.throw .OTCRYPTO_BAD_ARGS
  else aes_gcm_update_encrypted_data hw internal_ctx input.bytes

/-- What is written to the output. -/
def otcrypto_aes_gcm_update_encrypted_data (ctx : Option ℕ) (input output : ByteBuf) :
    Proc Caller CryptoError (List u8) :=
  match ctx with
  | none => Proc.throw .OTCRYPTO_BAD_ARGS
  | some ctx =>
    if input.data = none ∨ output.data = none then Proc.throw .OTCRYPTO_BAD_ARGS
    else do
      zoom device entropy_complex_check
      if input.len = 0 then pure []
      else do
        let icache_saved_state ← zoom device ibex_disable_icache
        let internal_ctx ← gcm_context_restore ctx
        let (internal_ctx, written) ←
          zoom device (update_encrypted_data_loaded hw internal_ctx input output)
        gcm_context_save internal_ctx ctx
        zoom device (close_key icache_saved_state internal_ctx.key)
        pure written

/-- The end of a message, for a buffer of a given length. The key in the context is returned
with what the end makes. -/
def final_loaded {α : Type} (final : AesGcmContext → Proc Device CryptoError α)
    (internal_ctx : AesGcmContext) (output : ByteBuf) : Proc Device CryptoError (AesKey × α) := do
  let internal_ctx ← load_and_remask hw internal_ctx
  if output.len.toNat < internal_ctx.input_len.toNat % kAesBlockNumBytes then
    Proc.throw .OTCRYPTO_BAD_ARGS
  else do
    let result ← final internal_ctx
    pure (internal_ctx.key, result)

/-- What the two functions that end a message have in common. -/
def gcm_final {α : Type} (layout : Layout) (final : AesGcmContext → Proc Device CryptoError α)
    (ctx : ℕ) (tag_words tag_len : u32) (output : ByteBuf) : Proc Caller CryptoError α := do
  zoom device entropy_complex_check
  let icache_saved_state ← zoom device ibex_disable_icache
  Proc.ofExcept (aes_gcm_check_tag_length tag_words tag_len)
  let internal_ctx ← gcm_context_restore ctx
  let (key, result) ← zoom device (final_loaded hw final internal_ctx output)
  gcm_context_shred layout ctx
  zoom device (close_key icache_saved_state key)
  pure result

/-- The tag and the last bytes of the ciphertext. -/
def otcrypto_aes_gcm_encrypt_final (layout : Layout) (ctx : Option ℕ) (tag_len : u32)
    (ciphertext : ByteBuf) (auth_tag : Word32Buf) : Proc Caller CryptoError (List u32 × List u8) :=
  match ctx with
  | none => Proc.throw .OTCRYPTO_BAD_ARGS
  | some ctx =>
    if auth_tag.data = none ∨ ciphertext.dangling then Proc.throw .OTCRYPTO_BAD_ARGS
    else do
      let _random ← zoom device (memshred auth_tag.len.toNat)
      gcm_final hw layout (fun internal_ctx =>
        aes_gcm_encrypt_final hw internal_ctx auth_tag.len.toNat) ctx auth_tag.len tag_len ciphertext

/-- `*success` and the last bytes of the plaintext. -/
def otcrypto_aes_gcm_decrypt_final (layout : Layout) (ctx : Option ℕ) (auth_tag : Word32Buf)
    (tag_len : u32) (plaintext : ByteBuf) : Proc Caller CryptoError (u32 × List u8) :=
  match ctx with
  | none => Proc.throw .OTCRYPTO_BAD_ARGS
  | some ctx =>
    if auth_tag.data = none ∨ plaintext.dangling then Proc.throw .OTCRYPTO_BAD_ARGS
    else
      gcm_final hw layout (fun internal_ctx => aes_gcm_decrypt_final hw internal_ctx auth_tag.words)
        ctx auth_tag.len tag_len plaintext

end

/-! ## Keys that a call accepts -/

/-- The length of the keyblob goes with where the key is. -/
def Stored (k : BlindedKey) : Prop :=
  k.config.hw_backed = kHardenedBoolTrue ∧ k.keyblob_length = kKeyblobHwBackedBytes ∨
    k.config.hw_backed = kHardenedBoolFalse ∧
      k.keyblob_length = 2 * keyblob_share_num_words k.config * 4

section

variable {k : BlindedKey}

theorem Stored.length_eq (h : Stored k) (hsoft : k.config.hw_backed = kHardenedBoolFalse) :
    k.keyblob_length = 2 * keyblob_share_num_words k.config * 4 :=
  h.elim (fun hhw => absurd (hsoft.symm.trans hhw.1) (by decide)) And.right

/-- The keyblob of a key in shares holds two of them. -/
theorem Stored.two_shares (h : Stored k) (hsoft : k.config.hw_backed = kHardenedBoolFalse)
    (hkey : keyblob_share_num_words k.config = 4 ∨ keyblob_share_num_words k.config = 6 ∨
      keyblob_share_num_words k.config = 8) (hfits : k.keyblob_length.toNat ≤ 4 * k.words.length) :
    2 * (keyblob_share_num_words k.config).toNat ≤ k.words.length := by
  rw [h.length_eq hsoft] at hfits
  rcases hkey with hlen | hlen | hlen
  all_goals
    rw [hlen] at hfits ⊢
    simp at hfits ⊢
    omega

theorem Stored.to_shares (h : Stored k) (hsoft : k.config.hw_backed = kHardenedBoolFalse) :
    keyblob_to_shares k = .ok (keyblob_share_num_words k.config) := by
  have hne : ¬kHardenedBoolFalse = kHardenedBoolTrue := by decide
  have hcheck : check_keyblob_length k = .ok () := by
    rw [check_keyblob_length, keyblob_num_words, hsoft, if_neg hne, if_pos (h.length_eq hsoft)]
  rw [keyblob_to_shares, hcheck]
  rfl

end

/-- A key structure that a call accepts. -/
structure AcceptedKey (k : BlindedKey) : Prop where
  integrity : integrity_blinded_key_check k = kHardenedBoolTrue
  key_mode : k.config.key_mode = kOtcryptoKeyModeAesGcm
  keyblob : k.keyblob ≠ none
  stored : Stored k
  key_len : keyblob_share_num_words k.config = 4 ∨ keyblob_share_num_words k.config = 6 ∨
    keyblob_share_num_words k.config = 8

/-- The words of the AES key that a key structure stands for. -/
def gcm_words (hw : Hardware) (k : BlindedKey) : List u32 :=
  if k.config.hw_backed = kHardenedBoolTrue then
    (hw.aes_key (diversification_of k.words kOtcryptoKeyModeAesGcm)).take
      (keyblob_share_num_words k.config).toNat
  else unmasked k.words (keyblob_share_num_words k.config).toNat

/-- A key structure that is accepted, lies in memory as long as it says, and stands for `K`. -/
structure Stands (hw : Hardware) (config : KeyConfig) (K : List u32) (k : BlindedKey) : Prop where
  config_eq : k.config = config
  accepted : AcceptedKey k
  fits : k.keyblob_length.toNat ≤ 4 * k.words.length
  words : gcm_words hw k = K

section

variable {hw : Hardware} {config : KeyConfig} {K : List u32} {k : BlindedKey}

theorem AcceptedKey.sideload (h : AcceptedKey k) :
    k.config.hw_backed = kHardenedBoolTrue ∨ k.config.hw_backed = kHardenedBoolFalse :=
  h.stored.imp And.left And.left

theorem AcceptedKey.ensure_xor_masked (h : AcceptedKey k)
    (hsoft : k.config.hw_backed = kHardenedBoolFalse) :
    keyblob_ensure_xor_masked k.config = .ok () := by
  have htype : key_type k.config.key_mode = kOtcryptoKeyTypeAes := by
    rw [h.key_mode]
    decide
  rw [keyblob_ensure_xor_masked, if_neg (not_not.mpr hsoft), if_pos (Or.inl htype)]

/-- A key in shares with a fresh mask and a checksum that goes with it. -/
theorem Stands.remask (h : Stands hw config K k) (hsoft : config.hw_backed = kHardenedBoolFalse)
    (mask : List u32) {k' : BlindedKey}
    (hk : k' = { BlindedKey.xor_shares k (keyblob_share_num_words config).toNat mask with
      checksum := k'.checksum })
    (hsum : k'.checksum = integrity_blinded_checksum k') : Stands hw config K k' := by
  obtain ⟨rfl, haccepted, hfits, rfl⟩ := h
  have hconfig : k'.config = k.config := by rw [hk]; rfl
  have hlength : k'.keyblob_length = k.keyblob_length := by rw [hk]; rfl
  have hwords : k'.words = xor_shares k.words (keyblob_share_num_words k.config).toNat mask := by
    rw [hk]
    exact words_xor_shares haccepted.keyblob _ mask
  have htwo := haccepted.stored.two_shares hsoft haccepted.key_len hfits
  have hne : ¬ k.config.hw_backed = kHardenedBoolTrue := by
    rw [hsoft]
    decide
  refine ⟨hconfig, ⟨?_, ?_, ?_, ?_, ?_⟩, ?_, ?_⟩
  · refine (integrity_blinded_key_check_iff _).mpr ⟨?_, hsum⟩
    rw [hconfig]
    exact ((integrity_blinded_key_check_iff _).mp haccepted.integrity).1
  · rw [hconfig]
    exact haccepted.key_mode
  · rw [hk]
    exact keyblob_xor_shares haccepted.keyblob _ mask
  · rw [Stored, hconfig, hlength]
    exact haccepted.stored
  · rw [hconfig]
    exact haccepted.key_len
  · rw [hlength, hwords, length_xor_shares mask htwo]
    exact hfits
  · rw [gcm_words, gcm_words, hconfig, if_neg hne, if_neg hne, hwords, unmasked_xor_shares htwo]

/-- A key structure that is accepted as soon as its checksum is brought up to date. -/
def Held (hw : Hardware) (config : KeyConfig) (K : List u32) (k : BlindedKey) : Prop :=
  Stands hw config K (BlindedKey.update_checksum k)

theorem update_checksum_eq_self (h : integrity_blinded_key_check k = kHardenedBoolTrue) :
    BlindedKey.update_checksum k = k := by
  have hsum := ((integrity_blinded_key_check_iff k).mp h).2
  rw [BlindedKey.update_checksum, ← hsum]

theorem Stands.held (h : Stands hw config K k) : Held hw config K k := by
  rw [Held, update_checksum_eq_self h.accepted.integrity]
  exact h

theorem Held.stands (h : Held hw config K k)
    (hcheck : integrity_blinded_key_check k = kHardenedBoolTrue) : Stands hw config K k := by
  rw [Held, update_checksum_eq_self hcheck] at h
  exact h

/-- The mask alone, with the checksum left as it was. -/
theorem Held.remask (h : Held hw config K k) (hsoft : config.hw_backed = kHardenedBoolFalse)
    (mask : List u32) :
    Held hw config K (BlindedKey.xor_shares k (keyblob_share_num_words config).toNat mask) :=
  Stands.remask h hsoft mask rfl rfl

/-- The key for the driver is ready when it is in shares. -/
theorem Held.ready {s : Device} {addr : ℕ} (h : Held hw config K (s.keys addr))
    (hsoft : config.hw_backed = kHardenedBoolFalse) :
    KeyReady s (aes_key_of addr config s) K := by
  obtain ⟨rfl, haccepted, hfits, rfl⟩ := h
  have hne : ¬ (BlindedKey.update_checksum (s.keys addr)).config.hw_backed = kHardenedBoolTrue := by
    rw [hsoft]
    decide
  refine ⟨rfl, haccepted.sideload, haccepted.key_len,
    fun _ => haccepted.stored.two_shares hsoft haccepted.key_len hfits,
    rfl, ?_⟩
  have hside : ¬ (aes_key_of addr (BlindedKey.update_checksum (s.keys addr)).config s).sideload =
    kHardenedBoolTrue := hne
  rw [gcm_words, if_neg hne, AesKey.words, if_neg hside]
  rfl

end

end IbexFirmware.Aes
