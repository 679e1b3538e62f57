/-
The AES-GCM operations on an internal context (`aes_gcm/aes_gcm.c`).

A context goes in and comes out as a value, and so does the text: the bytes that a
function writes to its output buffer are its result. What a function does not initialise
is a parameter (`aes_gcm_init` is given the context that was there before it). The pointers
of the text are not NULL; the callers check that where a length is not zero.
-/
import IbexFirmware.Ghash

set_option autoImplicit false

namespace IbexFirmware.Aes

open Bytes PowerFail Crypto HardenedMemory Splice

structure AesGcmContext where
  is_encrypt : u32
  key : AesKey
  security_level : u32
  initial_counter_block : Block
  gctr_iv : Block
  aad_len : u32
  input_len : u32
  partial_ghash_block : Block
  partial_aes_block : Block
  ghash_ctx : GhashContext

def word_inc32 (word : u32) : u32 := bswap32 (bswap32 word + 1)

def block_inc32 (block : Block) : Block := { block with w3 := word_inc32 block.w3 }

section

variable (hw : Hardware)

/-- The encryption that both branches of `aes_encrypt_block` begin with. -/
def aes_encrypt_first (key : AesKey) (iv input : Block) : Proc Device CryptoError Block := do
  aes_encrypt_begin key iv
  aes_update_in hw input
  aes_update_out

/-- The check of the other branch: decrypting the output must give the input back. -/
def aes_decrypt_check (key : AesKey) (iv input output : Block) : Proc Device CryptoError Unit := do
  aes_verify_ctrl_reg key kHardenedBoolTrue
  aes_decrypt_begin key iv
  aes_update_in hw output
  let input_recalculated ← aes_update_out
  aes_end
  hardened_check (hardened_memeq input_recalculated.words input.words = kHardenedBoolTrue)

def aes_encrypt_block (key : AesKey) (iv input : Block) (security_level : u32) :
    Proc Device CryptoError Block := do
  let output ← aes_encrypt_first hw key iv input
  if security_level = kOtcryptoKeySecurityLevelLow then do
    aes_end
    pure output
  else do
    aes_decrypt_check hw key iv input output
    pure output

def gctr_process_block (key : AesKey) (iv input : Block) (security_level : u32) :
    Proc Device CryptoError (Block × Block) := do
  let output ← aes_encrypt_block hw key iv input security_level
  pure (block_inc32 iv, output)

/-- The state of the counter mode: the counter, the partial block, and the output. -/
structure GctrState where
  iv : Block
  part : Block
  output : List u8

/-- The loop over the full blocks of input that are left. -/
def gctr_remaining_blocks (key : AesKey) (security_level : u32) (st : GctrState) (input : List u8) :
    Proc Device CryptoError GctrState :=
  if _h : kAesBlockNumBytes ≤ input.length then do
    let part := st.part.bytecopy 0 (input.take kAesBlockNumBytes)
    let (iv, block_out) ← gctr_process_block hw key st.iv part security_level
    gctr_remaining_blocks key security_level ⟨iv, part, st.output ++ block_out.bytes⟩
      (input.drop kAesBlockNumBytes)
  else pure { st with part := st.part.bytecopy 0 input }
termination_by input.length
decreasing_by
  rw [List.length_drop]
  unfold kAesBlockNumBytes at *
  omega

def aes_gcm_gctr (key : AesKey) (iv : Block) (partial_len : ℕ) (part : Block) (input : List u8)
    (security_level : u32) : Proc Device CryptoError GctrState :=
  if key.mode ≠ kAesCipherModeCtr then Proc.throw .OTCRYPTO_BAD_ARGS
  else if input.length < kAesBlockNumBytes - partial_len then
    pure ⟨iv, part.bytecopy partial_len input, []⟩
  else do
    let part := part.bytecopy partial_len (input.take (kAesBlockNumBytes - partial_len))
    let (iv, block_out) ← gctr_process_block hw key iv part security_level
    gctr_remaining_blocks hw key security_level ⟨iv, part, block_out.bytes⟩
      (input.drop (kAesBlockNumBytes - partial_len))

/-- The subkey is split into two shares before the tables are computed. -/
def aes_gcm_hash_subkey (key : AesKey) (security_level : u32) (ctx : GhashContext) :
    Proc Device CryptoError GhashContext := do
  let hash_subkey ← aes_encrypt_block hw key Block.zero Block.zero security_level
  let hash_subkey_share0 ← memshred_block
  let hash_subkey_share1 := hardened_xor_block hash_subkey_share0 hash_subkey
  pure { ctx with
    tbl0 := ghash_init_subkey hash_subkey_share0 ctx.tbl0
    tbl1 := ghash_init_subkey hash_subkey_share1 ctx.tbl1 }

/-- `buffer` of `aes_gcm_counter`: the length of an IV of 128 bits, in bits. -/
def counter_buffer : List u8 := List.replicate 15 0 ++ [0x80]

/-- The counter block of an IV of 128 bits. The block that it is masked with is random. -/
def aes_gcm_counter_hash (iv : List u32) (ctx : GhashContext) :
    Proc Device CryptoError (Block × GhashContext) := do
  let enc_initial_counter_block ← memshred_block
  let share0 ← memshred_block
  let share1 := hardened_xor_block share0 enc_initial_counter_block
  let ctx := ghash_handle_enc_initial_counter_block share0 share1 ctx
  let ctx ← ghash_init ctx
  let ctx ← ghash_update ctx (word_bytes iv)
  let ctx ← ghash_update ctx counter_buffer
  let j0 ← ghash_final ctx
  pure (hardened_xor_block j0 enc_initial_counter_block, ctx)

def aes_gcm_counter (iv : List u32) (ctx : GhashContext) :
    Proc Device CryptoError (Block × GhashContext) :=
  if iv.length = 3 then
    pure (⟨iv.getD 0 0, iv.getD 1 0, iv.getD 2 0, bswap32 1⟩, ctx)
  else if iv.length = 4 then aes_gcm_counter_hash iv ctx
  else Proc.throw .OTCRYPTO_BAD_ARGS

/-- The hash of the tag, twice at the higher levels of security. -/
def ghash_update_level (security_level : u32) (ctx : GhashContext) (input : List u8) :
    Proc Device CryptoError GhashContext :=
  if security_level ≠ kOtcryptoKeySecurityLevelLow then ghash_update_redundant ctx input
  else ghash_update ctx input

/-- `__builtin_bswap64` of a length in bits, as it lies in memory. -/
def bswap64_bytes (len : u32) : List u8 :=
  let bits : u64 := len.setWidth 64 * 8
  (List.range 8).map fun i => bits.extractLsb' (8 * (7 - i)) 8

def aes_gcm_get_tag (ctx : AesGcmContext) (tag_len : ℕ) : Proc Device CryptoError (List u32) := do
  let last_block := bswap64_bytes ctx.aad_len ++ bswap64_bytes ctx.input_len
  let ghash_ctx ← ghash_update_level ctx.security_level ctx.ghash_ctx last_block
  let full_tag ← ghash_final ghash_ctx
  pure (full_tag.words.take tag_len)

/-- The encrypted initial counter block, its shares, and the start of the hash. -/
def aes_gcm_init_masks (key : AesKey) (ctx : AesGcmContext) :
    Proc Device CryptoError GhashContext := do
  let enc_initial_counter_block ←
    aes_encrypt_block hw key ctx.initial_counter_block Block.zero ctx.security_level
  let share0 ← memshred_block
  let share1 := hardened_xor_block share0 enc_initial_counter_block
  ghash_init (ghash_handle_enc_initial_counter_block share0 share1 ctx.ghash_ctx)

def aes_gcm_init (key : AesKey) (iv : List u32) (ctx : AesGcmContext) :
    Proc Device CryptoError AesGcmContext :=
  if iv.length ≠ 3 ∧ iv.length ≠ 4 then Proc.throw .OTCRYPTO_BAD_ARGS
  else do
    let s ← Proc.get
    hardened_check (key.checksum = aes_key_integrity_checksum s key)
    let ghash_ctx ← aes_gcm_hash_subkey hw key ctx.security_level ctx.ghash_ctx
    let (initial_counter_block, ghash_ctx) ← aes_gcm_counter iv ghash_ctx
    let ctx := { ctx with initial_counter_block := initial_counter_block, ghash_ctx := ghash_ctx }
    let ghash_ctx ← aes_gcm_init_masks hw key ctx
    pure { ctx with
      gctr_iv := block_inc32 ctx.initial_counter_block
      ghash_ctx := ghash_ctx
      key := key
      aad_len := 0
      input_len := 0
      partial_ghash_block := Block.zero
      partial_aes_block := Block.zero }

def aes_gcm_encrypt_init (key : AesKey) (iv : List u32) (ctx : AesGcmContext) :
    Proc Device CryptoError AesGcmContext :=
  aes_gcm_init hw key iv { ctx with is_encrypt := kHardenedBoolTrue }

def aes_gcm_decrypt_init (key : AesKey) (iv : List u32) (ctx : AesGcmContext) :
    Proc Device CryptoError AesGcmContext :=
  aes_gcm_init hw key iv { ctx with is_encrypt := kHardenedBoolFalse }

/-- `len > UINT32_MAX - sofar`. -/
def too_long (len : ℕ) (sofar : u32) : Prop := len > 2 ^ 32 - 1 - sofar.toNat

instance (len : ℕ) (sofar : u32) : Decidable (too_long len sofar) := Nat.decLt _ _

def aes_gcm_update_aad (ctx : AesGcmContext) (aad : List u8) :
    Proc Device CryptoError AesGcmContext :=
  if aad.length = 0 then pure ctx
  else if too_long aad.length ctx.aad_len then Proc.throw .OTCRYPTO_BAD_ARGS
  else if 0 < ctx.input_len.toNat then Proc.throw .OTCRYPTO_BAD_ARGS
  else do
    let partial_ghash_block_len := ctx.aad_len.toNat % kGhashBlockNumBytes
    let (ghash_ctx, part) ← ghash_process_full_blocks ctx.ghash_ctx partial_ghash_block_len
      ctx.partial_ghash_block aad
    pure { ctx with
      ghash_ctx := ghash_ctx
      partial_ghash_block := part
      aad_len := ctx.aad_len + BitVec.ofNat 32 aad.length }

/-- What is left of the associated data is hashed before the first of the text. -/
def finish_aad (ctx : AesGcmContext) : Proc Device CryptoError AesGcmContext :=
  let partial_ghash_block_len := ctx.aad_len.toNat % kGhashBlockNumBytes
  if ctx.input_len = 0 ∧ partial_ghash_block_len ≠ 0 then do
    let ghash_ctx ← ghash_update_level ctx.security_level ctx.ghash_ctx
      (ctx.partial_ghash_block.bytes.take partial_ghash_block_len)
    pure { ctx with ghash_ctx := ghash_ctx }
  else pure ctx

/-- The ciphertext goes to the hash: the output of an encryption or the input of a
decryption. -/
def accumulate (ctx : AesGcmContext) (input output : List u8) :
    Proc Device CryptoError (GhashContext × Block) :=
  if ctx.is_encrypt = kHardenedBoolTrue then
    if output.length % kGhashBlockNumBytes ≠ 0 then Proc.throw .OTCRYPTO_RECOV_ERR
    else ghash_process_full_blocks ctx.ghash_ctx 0 ctx.partial_ghash_block output
  else if ctx.is_encrypt = kHardenedBoolFalse then
    ghash_process_full_blocks ctx.ghash_ctx (ctx.input_len.toNat % kGhashBlockNumBytes)
      ctx.partial_ghash_block input
  else Proc.throw .OTCRYPTO_BAD_ARGS

def aes_gcm_update_encrypted_data (ctx : AesGcmContext) (input : List u8) :
    Proc Device CryptoError (AesGcmContext × List u8) :=
  if input.length = 0 then pure (ctx, [])
  else if too_long input.length ctx.input_len then Proc.throw .OTCRYPTO_BAD_ARGS
  else do
    let ctx ← finish_aad ctx
    let partial_aes_block_len := ctx.input_len.toNat % kAesBlockNumBytes
    let st ← aes_gcm_gctr hw ctx.key ctx.gctr_iv partial_aes_block_len ctx.partial_aes_block input
      ctx.security_level
    let (ghash_ctx, part) ← accumulate ctx input st.output
    pure ({ ctx with
      gctr_iv := st.iv
      partial_aes_block := st.part
      ghash_ctx := ghash_ctx
      partial_ghash_block := part
      input_len := ctx.input_len + BitVec.ofNat 32 input.length }, st.output)

/-- The last block of the text, padded and then cut to its length. -/
def final_block (ctx : AesGcmContext) : Proc Device CryptoError (AesGcmContext × List u8) :=
  let partial_aes_block_len := ctx.input_len.toNat % kAesBlockNumBytes
  if partial_aes_block_len = 0 then pure (ctx, [])
  else do
    let part := ctx.partial_aes_block.clear_from partial_aes_block_len
    let (iv, block_out) ← gctr_process_block hw ctx.key ctx.gctr_iv part ctx.security_level
    pure ({ ctx with gctr_iv := iv, partial_aes_block := part },
      block_out.bytes.take partial_aes_block_len)

/-- The last of the ciphertext goes to the hash. -/
def final_accumulate (ctx : AesGcmContext) (output : List u8) :
    Proc Device CryptoError GhashContext :=
  if ctx.is_encrypt = kHardenedBoolTrue then
    if 0 < output.length then ghash_update_level ctx.security_level ctx.ghash_ctx output
    else pure ctx.ghash_ctx
  else if ctx.is_encrypt = kHardenedBoolFalse then
    ghash_update_level ctx.security_level ctx.ghash_ctx
      (ctx.partial_ghash_block.bytes.take (ctx.input_len.toNat % kGhashBlockNumBytes))
  else Proc.throw .OTCRYPTO_BAD_ARGS

/-- The tag and the last bytes of output. -/
def aes_gcm_final (ctx : AesGcmContext) (tag_len : ℕ) :
    Proc Device CryptoError (List u32 × List u8) := do
  let ctx ← finish_aad ctx
  let (ctx, output) ← final_block hw ctx
  let ghash_ctx ← final_accumulate ctx output
  let tag ← aes_gcm_get_tag { ctx with ghash_ctx := ghash_ctx } tag_len
  pure (tag, output)

def aes_gcm_encrypt_final (ctx : AesGcmContext) (tag_len : ℕ) :
    Proc Device CryptoError (List u32 × List u8) := aes_gcm_final hw ctx tag_len

/-- The result of the comparison of the tags, and the last bytes of output: zeros if the
tags differ. -/
def aes_gcm_decrypt_final (ctx : AesGcmContext) (tag : List u32) :
    Proc Device CryptoError (u32 × List u8) := do
  let (expected_tag, output) ← aes_gcm_final hw ctx tag.length
  let success := hardened_memeq expected_tag tag
  if success ≠ kHardenedBoolTrue then
    pure (kHardenedBoolFalse, List.replicate output.length 0)
  else pure (success, output)

/-- The ciphertext and the tag. `ctx` is the memory that the local context lies in. -/
def aes_gcm_encrypt (key : AesKey) (iv : List u32) (plaintext aad : List u8) (tag_len : ℕ)
    (ctx : AesGcmContext) : Proc Device CryptoError (List u8 × List u32) := do
  let ctx ← aes_gcm_encrypt_init hw key iv ctx
  let ctx ← aes_gcm_update_aad ctx aad
  let (ctx, written) ← aes_gcm_update_encrypted_data hw ctx plaintext
  let (tag, output) ← aes_gcm_encrypt_final hw ctx tag_len
  pure (written ++ output, tag)

/-- The plaintext and whether the tag is right. The full blocks are in the buffer of the
caller before the tag is computed. -/
def aes_gcm_decrypt (key : AesKey) (iv : List u32) (ciphertext aad : List u8) (tag : List u32)
    (ctx : AesGcmContext) : Proc Device CryptoError (List u8 × u32) := do
  let ctx ← aes_gcm_decrypt_init hw key iv ctx
  let ctx ← aes_gcm_update_aad ctx aad
  let (ctx, written) ← aes_gcm_update_encrypted_data hw ctx ciphertext
  let (success, output) ← aes_gcm_decrypt_final hw ctx tag
  pure (written ++ output, success)

end

end IbexFirmware.Aes
