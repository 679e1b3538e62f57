/-
The HMAC block and its driver (`drivers/hmac.c`).

The block goes over a message with a hash function of which only the shape is known: an initial
state, a function of a state and a block, and one that pads what is left and gives the digest.
With HMAC enabled the block starts with the block of the inner key and hashes the digest again
behind that of the outer key (`process_hmac`).

An operation that takes its message in pieces stops the block after full blocks and continues it
later from what it saved. `feed_feed` is why this comes out the same: what the block is after two
pieces is what it is after both in one.
-/
import IbexFirmware.KdfCtr

set_option autoImplicit false

namespace IbexFirmware.Hmac

open Bytes PowerFail Crypto HardenedMemory Absorb Chunks Crc32
open Kdf (Device Words entropy_complex_check)

/-! ## The block -/

/-- `hmac_digest_length_t`. -/
inductive DigestLength where
  | kDigestLengthSha256
  | kDigestLengthSha384
  | kDigestLengthSha512
  deriving DecidableEq

/-- `kHmacSha256DigestWords` and its likes. -/
def DigestLength.digest_words : DigestLength → u32
  | .kDigestLengthSha256 => 256 / 32
  | .kDigestLengthSha384 => 384 / 32
  | .kDigestLengthSha512 => 512 / 32

/-- `kHmacSha256BlockWords` and its likes. -/
def DigestLength.block_words : DigestLength → u32
  | .kDigestLengthSha256 => 512 / 32
  | .kDigestLengthSha384 => 1024 / 32
  | .kDigestLengthSha512 => 1024 / 32

def DigestLength.block_bytes (d : DigestLength) : ℕ := 4 * d.block_words.toNat

def kHmacMaxDigestWords : ℕ := 16

/-- The hash functions: the initial state, what a block does to a state, and the digest for a state,
the number of bits of the message, and the bytes that are left of it. -/
structure Sha2 where
  iv : DigestLength → List u32
  compress : DigestLength → List u32 → List u8 → List u32
  finish : DigestLength → List u32 → u64 → List u8 → List u32
  length_finish : ∀ d state bits bytes, (finish d state bits bytes).length = kHmacMaxDigestWords

/-- The bits of a number of bytes, as `MSG_LENGTH` counts them. -/
def bits_of (n : ℕ) : u64 := BitVec.ofNat 64 (8 * n)

/-- The digest registers for a message. -/
def Sha2.digest (hw : Sha2) (d : DigestLength) (msg : List u8) : List u32 :=
  hw.finish d (absorb d.block_bytes (hw.compress d) (hw.iv d) msg) (bits_of msg.length)
    (rest d.block_bytes msg)

/-- The digest of a message. -/
def Sha2.hash (hw : Sha2) (d : DigestLength) (msg : List u8) : List u8 :=
  word_bytes ((hw.digest d msg).take d.digest_words.toNat)

/-- The fields of `CFG` that are not the same for all operations. -/
structure Cfg where
  hmac_en : Bool
  digest_size : DigestLength
  deriving DecidableEq

/-- The block at work: its configuration, the key, the state, the bits received, and the bytes that
do not fill a block. -/
structure Block where
  cfg : Cfg
  key : List u8
  state : List u32
  msg_length : u64
  fifo : List u8

section

variable (hw : Sha2)

def Block.start (cfg : Cfg) (key : List u8) : Block where
  cfg := cfg
  key := key
  state :=
    if cfg.hmac_en then
      hw.compress cfg.digest_size (hw.iv cfg.digest_size) (key.map (· ^^^ 0x36))
    else hw.iv cfg.digest_size
  msg_length := 0
  fifo := []

def Block.continue (cfg : Cfg) (key : List u8) (state : List u32) (msg_length : u64) : Block :=
  ⟨cfg, key, state, msg_length, []⟩

/-- Bytes that are written to the message FIFO. -/
def Block.feed (b : Block) (bytes : List u8) : Block :=
  { b with
    state := absorb b.cfg.digest_size.block_bytes (hw.compress b.cfg.digest_size) b.state
      (b.fifo ++ bytes)
    msg_length := b.msg_length + bits_of bytes.length
    fifo := rest b.cfg.digest_size.block_bytes (b.fifo ++ bytes) }

/-- The digest registers after `CMD.HASH_PROCESS`. -/
def Block.process (b : Block) : List u32 :=
  let d := b.cfg.digest_size
  if b.cfg.hmac_en then
    let inner := hw.finish d b.state (b.msg_length + bits_of d.block_bytes) b.fifo
    hw.digest d (b.key.map (· ^^^ 0x5c) ++ word_bytes (inner.take d.digest_words.toNat))
  else hw.finish d b.state b.msg_length b.fifo

/-! ## The driver -/

/-- `hmac_key_t`: the bytes of the key block. -/
structure HmacKey where
  key_len : u32
  key_block : List u8
  checksum : u32

def hmac_key_integrity_checksum (key_len : u32) (key_block : List u8) : u32 :=
  crc32_finish (crc32_add (crc32_add32 crc32_init key_len) 0 (key_block.take key_len.toNat))

def access : Proc Device CryptoError Unit := Proc.step .OTCRYPTO_RECOV_ERR fun s => ((), s)

def hmac_idle_wait : Proc Device CryptoError Unit := Proc.step .OTCRYPTO_FATAL_ERR fun s => ((), s)

def key_write (key : HmacKey) : Proc Device CryptoError Unit :=
  if key.key_len ≠ 0 then
    Kdf.hardened_check (key.checksum = hmac_key_integrity_checksum key.key_len key.key_block)
  else pure ()

/-- The words that `digest_read` reads in the end. -/
def oneshot_hash (d : DigestLength) (msg : List u8) : Proc Device CryptoError (List u32) := do
  access
  entropy_complex_check
  let block := (Block.start hw ⟨false, d⟩ []).feed hw msg
  hmac_idle_wait
  pure ((block.process hw).take d.digest_words.toNat)

def hmac_hash (d : DigestLength) (msg : List u8) (digest : Words) :
    Proc Device CryptoError Words := do
  let words ← oneshot_hash hw d msg
  digest.write 0 words

/-- `hmac_hmac_sha256` and its likes. -/
def hmac_hmac (d : DigestLength) (key : HmacKey) (msg : List u8) (tag : Words) :
    Proc Device CryptoError Words := do
  access
  entropy_complex_check
  key_write key
  let block := (Block.start hw ⟨true, d⟩ key.key_block).feed hw msg
  hmac_idle_wait
  tag.write 0 ((block.process hw).take d.digest_words.toNat)

/-- `hmac_hmac_sha256_redundant` and its likes: the block only hashes. -/
def hmac_hmac_redundant (d : DigestLength) (key : HmacKey) (msg : ByteBuf) (tag : Words) :
    Proc Device CryptoError Words := do
  let o_key_pad := key.key_block.map (· ^^^ 0x5c)
  let i_key_pad := key.key_block.map (· ^^^ 0x36)
  let msg_len := d.block_words * 4 + msg.len
  let i_key_pad_msg := (i_key_pad ++ msg.bytes).take msg_len.toNat
  let h_i_key_pad_msg ← oneshot_hash hw d i_key_pad_msg
  hmac_hash hw d (o_key_pad ++ word_bytes h_i_key_pad_msg) tag

/-- `hmac_ctx_t`, with the bytes of the partial block that are valid. -/
structure HmacCtx where
  cfg : Cfg
  key : HmacKey
  msg_block_wordlen : u32
  digest_wordlen : u32
  H : List u32
  msg_length : u64
  partial_block : List u8

/-- `hmac_hmac_sha256_init` and its likes. What the state holds is not written. -/
def hmac_init (d : DigestLength) (key : HmacKey) : HmacCtx where
  cfg := ⟨true, d⟩
  key := key
  msg_block_wordlen := d.block_words
  digest_wordlen := d.digest_words
  H := []
  msg_length := 0
  partial_block := []

/-- Nothing has been worked off where the length is zero. -/
def context_restore (ctx : HmacCtx) : Proc Device CryptoError Block := do
  key_write ctx.key
  pure (if ctx.msg_length = 0 then Block.start hw ctx.cfg ctx.key.key_block
    else Block.continue ctx.cfg ctx.key.key_block ctx.H ctx.msg_length)

def hmac_update (ctx : HmacCtx) (data : ByteBuf) : Proc Device CryptoError HmacCtx := do
  entropy_complex_check
  let block_bytelen := ctx.msg_block_wordlen * 4
  let partial_block_bytelen := BitVec.ofNat 32 ctx.partial_block.length
  if data.len < block_bytelen - partial_block_bytelen then
    pure { ctx with partial_block := ctx.partial_block ++ data.bytes }
  else do
    let len_rem := data.len % block_bytelen
    let leftover_len := (partial_block_bytelen + len_rem) % block_bytelen
    let block ← context_restore hw ctx
    let block := block.feed hw ctx.partial_block
    let block := block.feed hw (data.bytes.take (data.len - leftover_len).toNat)
    hmac_idle_wait
    pure { ctx with
      H := block.state
      msg_length := block.msg_length
      partial_block := data.bytes.drop (data.len - leftover_len).toNat }

def hmac_final (ctx : HmacCtx) (digest : Words) : Proc Device CryptoError Words := do
  entropy_complex_check
  let block ← context_restore hw ctx
  let block := block.feed hw ctx.partial_block
  hmac_idle_wait
  let digest ← digest.write 0 ((block.process hw).take ctx.digest_wordlen.toNat)
  entropy_complex_check
  pure digest

end

/-! ## What the block computes -/

section block

variable {hw : Sha2} {d : DigestLength}

theorem DigestLength.block_bytes_pos (d : DigestLength) : 0 < d.block_bytes := by
  cases d <;> decide

theorem DigestLength.digest_words_le (d : DigestLength) : d.digest_words.toNat ≤ kHmacMaxDigestWords := by
  cases d <;> decide

theorem bits_of_add (a b : ℕ) : bits_of (a + b) = bits_of a + bits_of b := by
  rw [bits_of, Nat.mul_add, BitVec.ofNat_add]
  rfl

theorem zero_add_bits (n : ℕ) : 0 + bits_of n = bits_of n := BitVec.zero_add _

/-- Two pieces are as good as one. -/
theorem feed_feed (b : Block) (xs ys : List u8) :
    (b.feed hw xs).feed hw ys = b.feed hw (xs ++ ys) := by
  have hn := b.cfg.digest_size.block_bytes_pos
  simp only [Block.feed, Block.mk.injEq, true_and]
  refine ⟨?_, ?_, ?_⟩
  · rw [← absorb_append hn, List.append_assoc]
  · rw [List.length_append, bits_of_add, BitVec.add_assoc]
  · rw [← rest_append hn, List.append_assoc]

theorem process_hash (msg : List u8) :
    ((Block.start hw ⟨false, d⟩ []).feed hw msg).process hw = hw.digest d msg := by
  show hw.finish d (absorb _ _ (hw.iv d) ([] ++ msg)) (0 + bits_of msg.length) (rest _ ([] ++ msg)) = _
  rw [List.nil_append, zero_add_bits]
  rfl

/-- The tag of a key block. -/
def Sha2.tag (hw : Sha2) (d : DigestLength) (key_block msg : List u8) : List u32 :=
  (hw.digest d (key_block.map (· ^^^ 0x5c) ++ hw.hash d (key_block.map (· ^^^ 0x36) ++ msg))).take
    d.digest_words.toNat

/-- The block of the inner key is the first block of the message. -/
theorem process_hmac {key : List u8} (hkey : key.length = d.block_bytes) (msg : List u8) :
    (((Block.start hw ⟨true, d⟩ key).feed hw msg).process hw).take d.digest_words.toNat =
      hw.tag d key msg := by
  have hn := d.block_bytes_pos
  have hpad : (key.map (· ^^^ 0x36)).length = d.block_bytes := by rw [List.length_map, hkey]
  have hmod : (key.map (· ^^^ 0x36)).length % d.block_bytes = 0 := by rw [hpad, Nat.mod_self]
  have hinner : hw.finish d
      (absorb d.block_bytes (hw.compress d) (hw.compress d (hw.iv d) (key.map (· ^^^ 0x36))) ([] ++ msg))
      (0 + bits_of msg.length + bits_of d.block_bytes) (rest d.block_bytes ([] ++ msg)) =
      hw.digest d (key.map (· ^^^ 0x36) ++ msg) := by
    rw [Sha2.digest, absorb_append_of_mod hn hmod, absorb_one hn hpad, rest_append_of_mod hn hmod,
      List.length_append, hpad, bits_of_add, zero_add_bits, List.nil_append, BitVec.add_comm]
  have hprocess : ((Block.start hw ⟨true, d⟩ key).feed hw msg).process hw =
      hw.digest d (key.map (· ^^^ 0x5c) ++ hw.hash d (key.map (· ^^^ 0x36) ++ msg)) := by
    rw [Sha2.hash, ← hinner]
    rfl
  rw [hprocess, Sha2.tag]

theorem length_digest (msg : List u8) : (hw.digest d msg).length = kHmacMaxDigestWords :=
  hw.length_finish _ _ _ _

theorem length_tag (key msg : List u8) : (hw.tag d key msg).length = d.digest_words.toNat := by
  rw [Sha2.tag, List.length_take, length_digest]
  exact Nat.min_eq_left d.digest_words_le

end block

end IbexFirmware.Hmac
