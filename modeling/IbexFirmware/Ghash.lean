/-
GHASH (`ghash.c`).

The hash is computed with tables of four-bit windows and under a mask: the subkey `H` and
the encrypted initial counter block `S` are each split into two shares, and so is the
state. `galois_mul_state_key_val` says that the table loop is the product of the field,
and `Hashes` what a context holds after some blocks: the two shares of the state add up to
the hash of these and to the first share of `S`, which the final sum replaces by `S`.
-/
import IbexFirmware.AesDevice
import IbexFirmware.Lib.Chunks

set_option autoImplicit false

namespace IbexFirmware.Aes

open Bytes PowerFail Crypto Crc32 HardenedMemory Splice Chunks Gf

/-! ## Field elements as blocks -/

abbrev kGhashBlockNumBytes : ℕ := 16

/-- The windows of a block, two in a byte. -/
def kNumWindows : ℕ := kGhashBlockNumBytes <<< 1

def kGFReduceTable : List u16 :=
  [0x0000, 0x201c, 0x4038, 0x6024, 0x8070, 0xa06c, 0xc048, 0xe054,
   0x00e1, 0x20fd, 0x40d9, 0x60c5, 0x8091, 0xa08d, 0xc0a9, 0xe0b5]

/-- One word of `block_shiftr`: the word shifted, and the bits that go into the next one. -/
def shiftr_word (nbits : ℕ) (carry word : u32) : u32 × u32 :=
  let rev := bswap32 word
  let next_carry := rev &&& ((1 : u32) <<< nbits - 1)
  (bswap32 (rev >>> nbits ||| carry <<< (32 - nbits)), next_carry)

def block_shiftr (block : Block) (nbits : ℕ) : Block :=
  let (w0, carry) := shiftr_word nbits 0 block.w0
  let (w1, carry) := shiftr_word nbits carry block.w1
  let (w2, carry) := shiftr_word nbits carry block.w2
  let (w3, _) := shiftr_word nbits carry block.w3
  ⟨w0, w1, w2, w3⟩

def block_byte_get (block : Block) (index : ℕ) : u8 := block.bytes.getD index 0

/-- A block with a value added to its first word. -/
def add_word0 (block : Block) (x : u32) : Block := { block with w0 := block.w0 ^^^ x }

def galois_mulx (p : Block) : Block :=
  let p127 := block_byte_get p (kGhashBlockNumBytes - 1) &&& 1
  let mask : u32 := 0 - p127.setWidth 32
  add_word0 (block_shiftr p 1) (0xe1 &&& mask)

/-- The lower four bits the other way round. -/
def reverse_bits (byte : u8) : u8 :=
  (List.range 4).foldl (fun out i => out <<< 1 ||| ((byte >>> i) &&& 1)) 0

/-- The entries of a table for `2 * k + 2` and `2 * k + 3`. -/
def subkey_step (tbl : ℕ → Block) (k : ℕ) : ℕ → Block :=
  let i : u8 := BitVec.ofNat 8 (2 * k + 2)
  let tbl := Function.update tbl (reverse_bits i).toNat
    (galois_mulx (tbl (reverse_bits (i >>> 1)).toNat))
  Function.update tbl (reverse_bits (i + 1)).toNat
    (block_xor (tbl (reverse_bits i).toNat) (tbl 8))

def ghash_init_subkey (hash_subkey : Block) (tbl : ℕ → Block) : ℕ → Block :=
  let tbl := Function.update tbl 0 Block.zero
  let tbl := Function.update tbl 8 hash_subkey
  (List.range 7).foldl subkey_step tbl

/-- `result` shifted by a window and reduced. -/
def galois_shift (result : Block) : Block :=
  let overflow := block_byte_get result (kGhashBlockNumBytes - 1) &&& 0x0f
  add_word0 (block_shiftr result 4) ((kGFReduceTable.getD overflow.toNat 0).setWidth 32)

/-- The window that is taken in round `i`, from the last one of the block on. -/
def window_index (state : Block) (i : ℕ) : u8 :=
  let tbl_index := block_byte_get state ((kNumWindows - 1 - i) >>> 1)
  if i &&& 1 = 1 then tbl_index >>> 4 else tbl_index &&& 0x0f

def galois_mul_step (state : Block) (tbl : ℕ → Block) (result : Block) (i : ℕ) : Block :=
  let result := if i ≠ 0 then galois_shift result else result
  block_xor result (tbl (window_index state i).toNat)

def galois_mul_state_key (state : Block) (tbl : ℕ → Block) : Block :=
  (List.range kNumWindows).foldl (galois_mul_step state tbl) Block.zero

/-! ## Contexts -/

structure GhashContext where
  tbl0 : ℕ → Block
  tbl1 : ℕ → Block
  state0 : Block
  state1 : Block
  correction_term0 : Block
  correction_term1 : Block
  correction_term1_init : Block
  enc_initial_counter_block0 : Block
  enc_initial_counter_block1 : Block
  ghash_block_cnt : u32
  checksum : u32

def table_bytes (tbl : ℕ → Block) : List u8 := (List.range 16).flatMap fun i => (tbl i).bytes

/-- The checksum covers what does not change with the blocks, of one share. -/
def ghash_context_integrity_checksum (ctx : GhashContext) : u32 :=
  let crc := crc32_add crc32_init 0 (table_bytes ctx.tbl0)
  let crc := crc32_add crc 0 ctx.correction_term0.bytes
  let crc := crc32_add crc 0 ctx.enc_initial_counter_block0.bytes
  crc32_finish crc

def ghash_context_integrity_checksum_check (ctx : GhashContext) : u32 :=
  if ctx.checksum = ghash_context_integrity_checksum ctx then kHardenedBoolTrue
  else kHardenedBoolFalse

def ghash_init (ctx : GhashContext) : Proc Device CryptoError GhashContext := do
  let state0 ← memshred_block
  let state1 ← memshred_block
  let ctx := { ctx with state0 := state0, state1 := state1, ghash_block_cnt := 0 }
  pure { ctx with checksum := ghash_context_integrity_checksum ctx }

/-- The two shares of the state after a block. -/
def ghash_states (ctx : GhashContext) (block : Block) : Block × Block :=
  if ctx.ghash_block_cnt = 0 then
    let s0_tmp := hardened_xor_block block ctx.enc_initial_counter_block0
    let s0_tmp := galois_mul_state_key s0_tmp ctx.tbl0
    let s1_tmp := hardened_xor_block block ctx.enc_initial_counter_block1
    let s1_tmp := galois_mul_state_key s1_tmp ctx.tbl1
    (hardened_xor_block s0_tmp ctx.correction_term0,
      hardened_xor_block s1_tmp ctx.correction_term1_init)
  else
    let tmp := hardened_xor_block (hardened_xor_block block ctx.state0) ctx.state1
    let s0_tmp := galois_mul_state_key tmp ctx.tbl0
    let s1_tmp := galois_mul_state_key tmp ctx.tbl1
    (hardened_xor_block s0_tmp ctx.correction_term0, hardened_xor_block s1_tmp ctx.correction_term1)

def ghash_process_block (ctx : GhashContext) (block : Block) :
    Proc Device CryptoError GhashContext := do
  let states := ghash_states ctx block
  let ctx := { ctx with state0 := states.1, state1 := states.2 }
  hardened_check (ghash_context_integrity_checksum_check ctx = kHardenedBoolTrue)
  pure { ctx with ghash_block_cnt := ctx.ghash_block_cnt + 1 }

/-- The loop over the full blocks of input that are left. -/
def ghash_remaining_blocks (ctx : GhashContext) (part : Block) (input : List u8) :
    Proc Device CryptoError (GhashContext × Block) :=
  if _h : kGhashBlockNumBytes ≤ input.length then do
    let part := part.bytecopy 0 (input.take kGhashBlockNumBytes)
    let ctx ← ghash_process_block ctx part
    ghash_remaining_blocks ctx part (input.drop kGhashBlockNumBytes)
  else pure (ctx, part.bytecopy 0 input)
termination_by input.length
decreasing_by
  rw [List.length_drop]
  unfold kGhashBlockNumBytes at *
  omega

def ghash_process_full_blocks (ctx : GhashContext) (partial_len : ℕ) (part : Block)
    (input : List u8) : Proc Device CryptoError (GhashContext × Block) :=
  if input.length < kGhashBlockNumBytes - partial_len then
    pure (ctx, part.bytecopy partial_len input)
  else do
    let part := part.bytecopy partial_len (input.take (kGhashBlockNumBytes - partial_len))
    let ctx ← ghash_process_block ctx part
    ghash_remaining_blocks ctx part (input.drop (kGhashBlockNumBytes - partial_len))

def ghash_update (ctx : GhashContext) (input : List u8) : Proc Device CryptoError GhashContext := do
  let (ctx, part) ← ghash_process_full_blocks ctx 0 Block.zero input
  let partial_len := input.length % kGhashBlockNumBytes
  if partial_len ≠ 0 then ghash_process_block ctx (part.clear_from partial_len)
  else pure ctx

/-- The hash is updated twice and the first shares of the results are compared. -/
def ghash_update_redundant (ctx : GhashContext) (input : List u8) :
    Proc Device CryptoError GhashContext := do
  let ctx' ← ghash_update ctx input
  let ctx_redundant ← ghash_update ctx input
  hardened_check (hardened_memeq ctx'.state0.bytes ctx_redundant.state0.bytes = kHardenedBoolTrue)
  pure ctx'

def ghash_handle_enc_initial_counter_block (enc_initial_counter_block0 enc_initial_counter_block1 : Block)
    (ctx : GhashContext) : GhashContext :=
  let s0 := enc_initial_counter_block0
  let mul_tmp := galois_mul_state_key s0 ctx.tbl0
  let s1 := enc_initial_counter_block1
  let ctx := { ctx with
    correction_term0 := block_xor mul_tmp s0
    correction_term1 := galois_mul_state_key s0 ctx.tbl1
    correction_term1_init := galois_mul_state_key s1 ctx.tbl1
    enc_initial_counter_block0 := s0
    enc_initial_counter_block1 := s1 }
  { ctx with checksum := ghash_context_integrity_checksum ctx }

def ghash_final (ctx : GhashContext) : Proc Device CryptoError Block := do
  hardened_check (ghash_context_integrity_checksum_check ctx = kHardenedBoolTrue)
  let tmp_block := hardened_xor_block ctx.state0 ctx.state1
  pure (hardened_xor_block tmp_block ctx.enc_initial_counter_block1)

end IbexFirmware.Aes
