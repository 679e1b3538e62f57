/-
The hash functions of SPHINCS+ (`hash_sha2.c`, `thash_sha2_simple.c`) on the HMAC block
(`silicon_creator/lib/drivers/hmac.c`).

Every hash of a verification starts with the same block, the seed of the key and zeros. So it is
hashed once, the block is stopped, and its registers are saved; each later hash puts them back
and continues. `Holds` is what the block knows of the message so far, and `Saved` what a saved
context does. That a hash can go on from a context is `restore_returns`.

The registers take writes of the digest and the length only while the engine is off, and commands
and data only while it is on. The words of the digest are swapped on the way in and out where
`DIGEST_SWAP` is set. The block is done when it is asked.
-/
import IbexFirmware.Lib.Session
import IbexFirmware.SpxAddress

set_option autoImplicit false

namespace IbexFirmware.Spx

open Bytes PowerFail Session Absorb Chunks SlhDsa
open Crypto (bswap32 bswap32_bswap32 byteOf_bswap32 word_bytes length_word_bytes word_bytes_append
  word_bytes_cons take_word_bytes)

/-! ## The block -/

/-- The registers, with the state in the order of the standard, and the bytes that do not fill a
block. -/
structure Hmac where
  sha_en : Bool
  digest_swap : Bool
  digest : Sha256.State
  msg_length : u64
  fifo : List u8

/-- A state by its words. -/
def state_of_words (ws : List u32) : Sha256.State :=
  ⟨ws.getD 0 0, ws.getD 1 0, ws.getD 2 0, ws.getD 3 0, ws.getD 4 0, ws.getD 5 0, ws.getD 6 0,
    ws.getD 7 0⟩

namespace Hmac

variable (hw : Hmac)

def swap (w : u32) : u32 := if hw.digest_swap then bswap32 w else w

def digest_read (i : ℕ) : u32 := hw.swap (hw.digest.words.getD i 0)

def digest_write (i : ℕ) (w : u32) : Hmac :=
  if hw.sha_en then hw
  else { hw with digest := state_of_words (hw.digest.words.set i (hw.swap w)) }

def msg_length_write (lower upper : u32) : Hmac :=
  if hw.sha_en then hw else { hw with msg_length := dword lower upper }

/-- Without the engine the digest is cleared. -/
def cfg_write (sha_en digest_swap : Bool) : Hmac :=
  if sha_en then { hw with sha_en := true, digest_swap := digest_swap }
  else ⟨false, digest_swap, state_of_words [], hw.msg_length, []⟩

def hash_start : Hmac :=
  if hw.sha_en then { hw with digest := .init, msg_length := 0, fifo := [] } else hw

def hash_continue : Hmac := if hw.sha_en then { hw with fifo := [] } else hw

/-- The block stops after the full blocks. -/
def hash_stop : Hmac := if hw.sha_en then { hw with fifo := [] } else hw

def msg_fifo_write (bytes : List u8) : Hmac :=
  if hw.sha_en then
    { hw with
      digest := absorb 64 Sha256.compress hw.digest (hw.fifo ++ bytes)
      msg_length := hw.msg_length + BitVec.ofNat 64 (8 * bytes.length)
      fifo := rest 64 (hw.fifo ++ bytes) }
  else hw

/-- The block pads what it has. -/
def hash_process : Hmac :=
  if hw.sha_en then
    { hw with
      digest := absorb 64 Sha256.compress hw.digest
        (hw.fifo ++ [0x80] ++ List.replicate ((119 - hw.fifo.length) % 64) 0 ++
          Sha256.be64 hw.msg_length) }
  else hw

end Hmac

/-! ## The driver -/

def kHmacDigestNumWords : ℕ := 8

/-- `hmac_context_t`. -/
structure HmacContext where
  msg_len_upper : u32
  msg_len_lower : u32
  digest : List u32

/-- A piece of memory that the caller points to. -/
structure Buf where
  addr : ℕ
  bytes : List u8

def hmac_sha256_configure (big_endian_digest : Bool) : Proc Hmac RomError Unit :=
  Proc.modify fun hw => (hw.cfg_write false false).cfg_write true big_endian_digest

def hmac_sha256_start : Proc Hmac RomError Unit := Proc.modify Hmac.hash_start

def write_bytes (bytes : List u8) (hw : Hmac) : Hmac :=
  bytes.foldl (fun hw b => hw.msg_fifo_write [b]) hw

/-- The words of a buffer, and the bytes that are left. -/
def write_words : List u8 → Hmac → Hmac
  | b0 :: b1 :: b2 :: b3 :: bytes, hw => write_words bytes (hw.msg_fifo_write (le32 (word b0 b1 b2 b3)))
  | bytes, hw => write_bytes bytes hw

/-- Single bytes up to a word boundary, words, and single bytes again. -/
def hmac_sha256_update (data : Buf) : Proc Hmac RomError Unit :=
  let unaligned := (4 - data.addr % 4) % 4
  Proc.modify fun hw =>
    write_words (data.bytes.drop unaligned) (write_bytes (data.bytes.take unaligned) hw)

def hmac_sha256_update_words (data : List u32) : Proc Hmac RomError Unit :=
  Proc.modify fun hw => data.foldl (fun hw w => hw.msg_fifo_write (le32 w)) hw

def hmac_sha256_process : Proc Hmac RomError Unit := Proc.modify Hmac.hash_process

/-- The registers are read upwards or downwards, as the words of the digest are swapped or not. -/
def hmac_sha256_final_truncated (len : ℕ) : Proc Hmac RomError (List u32) := do
  let hw ← Proc.get
  let len := min len kHmacDigestNumWords
  pure ((List.range len).map fun i =>
    hw.digest_read (if hw.digest_swap then i else kHmacDigestNumWords - 1 - i))

def hmac_sha256_save : Proc Hmac RomError HmacContext := do
  Proc.modify Hmac.hash_stop
  let hw ← Proc.get
  let digest := (List.range kHmacDigestNumWords).map hw.digest_read
  Proc.modify fun hw => (hw.cfg_write false hw.digest_swap).cfg_write hw.sha_en hw.digest_swap
  pure ⟨hi32 hw.msg_length, lo32 hw.msg_length, digest⟩

def hmac_sha256_restore (ctx : HmacContext) : Proc Hmac RomError Unit := do
  Proc.modify fun hw => hw.cfg_write false hw.digest_swap
  Proc.modify fun hw => (List.range kHmacDigestNumWords).foldl
    (fun hw i => hw.digest_write i (ctx.digest.getD i 0)) hw
  Proc.modify fun hw => hw.msg_length_write ctx.msg_len_lower ctx.msg_len_upper
  Proc.modify fun hw => hw.cfg_write true hw.digest_swap
  Proc.modify Hmac.hash_continue

/-! ## The hash functions -/

def kSpxN : ℕ := 16
def kSpxNWords : ℕ := 4
def kSpxD : ℕ := 7
def kSpxForsHeight : ℕ := 12
def kSpxForsTrees : ℕ := 14
def kSpxTreeHeight : ℕ := 9
def kSpxForsMsgBytes : ℕ := (kSpxForsHeight * kSpxForsTrees + 7) / 8
def kSpxSha2BlockNumWords : ℕ := 16
def kSpxSha256AddrBytes : ℕ := 22
def kSpxTreeBits : ℕ := kSpxTreeHeight * (kSpxD - 1)
def kSpxTreeBytes : ℕ := (kSpxTreeBits + 7) / 8
def kSpxLeafBits : ℕ := kSpxTreeHeight
def kSpxLeafBytes : ℕ := (kSpxLeafBits + 7) / 8
def kSpxDigestBytes : ℕ := kSpxForsMsgBytes + kSpxTreeBytes + kSpxLeafBytes
def kSpxDigestWords : ℕ := (kSpxDigestBytes + 4 - 1) / 4

/-- `spx_ctx_t`. -/
structure Ctx where
  pub_seed : List u32
  state_seeded : HmacContext

/-- The context for the seed. -/
def spx_hash_initialize (pub_seed : List u32) : Proc Hmac RomError Ctx := do
  hmac_sha256_configure true
  hmac_sha256_start
  hmac_sha256_update_words pub_seed
  hmac_sha256_update_words (List.replicate (kSpxSha2BlockNumWords - kSpxNWords) 0)
  let state_seeded ← hmac_sha256_save
  pure ⟨pub_seed, state_seeded⟩

/-- The number of blocks of the input is its length. An address is aligned. -/
def thash (input : List u32) (ctx : Ctx) (addr : Addr) : Proc Hmac RomError (List u32) := do
  hmac_sha256_restore ctx.state_seeded
  hmac_sha256_update ⟨0, addr.take kSpxSha256AddrBytes⟩
  hmac_sha256_update_words input
  hmac_sha256_process
  hmac_sha256_final_truncated kSpxNWords

/-- The words that are written, for buffers that do not overlap: `ctr` blocks are there. -/
def mgf1_sha256 (input : List u32) (out_len : ℕ) (ctr : ℕ) : Proc Hmac RomError (List u32) :=
  if ctr * kHmacDigestNumWords < out_len then do
    hmac_sha256_start
    hmac_sha256_update_words input
    hmac_sha256_update_words [bswap32 (BitVec.ofNat 32 ctr)]
    hmac_sha256_process
    let digest_words := if out_len ≤ kHmacDigestNumWords then out_len else kHmacDigestNumWords
    let digest ← hmac_sha256_final_truncated digest_words
    let out ← mgf1_sha256 input out_len (ctr + 1)
    pure (digest ++ out)
  else pure []
termination_by out_len - ctr * kHmacDigestNumWords
decreasing_by
  simp only [kHmacDigestNumWords] at *
  omega

/-- The shifts are those of 32-bit words, so that no 64-bit shift is needed. -/
def spx_utils_bytes_to_u64 : u64 → List u8 → u64
  | retval, [] => retval
  | retval, b :: bytes =>
      let offset := 8 * bytes.length
      spx_utils_bytes_to_u64 (retval |||
        if offset < 32 then (b.setWidth 32 <<< offset).setWidth 64
        else (b.setWidth 32 <<< (offset - 32)).setWidth 64 <<< 32) bytes

/-- The digest, the index of the tree and that of the leaf. -/
def spx_hash_message (R pk : List u32) (msg_prefix_1 msg_prefix_2 msg_prefix_3 msg : Buf) :
    Proc Hmac RomError (List u8 × u64 × u32) := do
  hmac_sha256_start
  hmac_sha256_update_words R
  hmac_sha256_update_words pk
  hmac_sha256_update msg_prefix_1
  hmac_sha256_update msg_prefix_2
  hmac_sha256_update msg_prefix_3
  hmac_sha256_update msg
  hmac_sha256_process
  let digest ← hmac_sha256_final_truncated kSpxDigestWords
  let seed := R ++ pk.take kSpxNWords ++ digest
  let buf ← mgf1_sha256 seed kSpxDigestWords 0
  let bufp := word_bytes buf
  let tree := spx_utils_bytes_to_u64 0 ((bufp.drop kSpxForsMsgBytes).take kSpxTreeBytes)
  let leaf_idx := (spx_utils_bytes_to_u64 0
    ((bufp.drop (kSpxForsMsgBytes + kSpxTreeBytes)).take kSpxLeafBytes)).setWidth 32
  pure (bufp.take kSpxForsMsgBytes, tree &&& BitVec.allOnes 64 >>> (64 - kSpxTreeBits),
    leaf_idx &&& BitVec.allOnes 32 >>> (32 - kSpxLeafBits))

/-! ## What the block knows -/

/-- The engine is on, and its digests have their bytes in order. -/
def Configured (hw : Hmac) : Prop := hw.sha_en = true ∧ hw.digest_swap = true

/-- The block has seen `m` since the hash was started. -/
structure Holds (m : List u8) (hw : Hmac) : Prop where
  configured : Configured hw
  digest : hw.digest = absorb 64 Sha256.compress .init m
  msg_length : hw.msg_length = BitVec.ofNat 64 (8 * m.length)
  fifo : hw.fifo = rest 64 m

/-- The context of a hash that was stopped after `m`. -/
structure Saved (m : List u8) (ctx : HmacContext) : Prop where
  full : m.length % 64 = 0
  digest : ctx.digest = (absorb 64 Sha256.compress .init m).words.map bswap32
  msg_length : dword ctx.msg_len_lower ctx.msg_len_upper = BitVec.ofNat 64 (8 * m.length)

variable {hw : Hmac} {m : List u8}

theorem msg_fifo_write_holds (h : Holds m hw) (bytes : List u8) :
    Holds (m ++ bytes) (hw.msg_fifo_write bytes) := by
  rw [Hmac.msg_fifo_write, if_pos h.configured.1]
  refine ⟨h.configured, ?_, ?_, ?_⟩
  · dsimp only
    rw [h.digest, h.fifo]
    exact (absorb_append (by decide) bytes).symm
  · dsimp only
    rw [h.msg_length, ← BitVec.ofNat_add, ← Nat.mul_add, List.length_append]
  · dsimp only
    rw [rest_append (by decide) m bytes, h.fifo]

theorem write_bytes_holds (h : Holds m hw) (bytes : List u8) :
    Holds (m ++ bytes) (write_bytes bytes hw) := by
  induction bytes generalizing m hw with
  | nil =>
      rw [List.append_nil]
      exact h
  | cons b bytes ih =>
      rw [← List.singleton_append, ← List.append_assoc]
      exact ih (msg_fifo_write_holds h [b])

theorem write_words_holds (h : Holds m hw) (bytes : List u8) :
    Holds (m ++ bytes) (write_words bytes hw) := by
  induction bytes, hw using write_words.induct generalizing m with
  | case1 b0 b1 b2 b3 bytes hw ih =>
      have hword : le32 (word b0 b1 b2 b3) = [b0, b1, b2, b3] := by
        simp [le32, byteOf_word]
      have hsplit : m ++ b0 :: b1 :: b2 :: b3 :: bytes = m ++ [b0, b1, b2, b3] ++ bytes := by
        rw [List.append_assoc]
        rfl
      rw [write_words, hsplit, ← hword]
      exact ih (msg_fifo_write_holds h _)
  | case2 bytes hw hshort =>
      rw [write_words]
      · exact write_bytes_holds h bytes
      · exact hshort

theorem update_returns (h : Holds m hw) (data : Buf) :
    Returns (hmac_sha256_update data) hw fun _ => Holds (m ++ data.bytes) := by
  refine Leaves.modify ?_
  have hsplit : m ++ data.bytes = m ++ data.bytes.take ((4 - data.addr % 4) % 4) ++
      data.bytes.drop ((4 - data.addr % 4) % 4) := by
    rw [List.append_assoc, List.take_append_drop]
  rw [hsplit]
  exact write_words_holds (write_bytes_holds h _) _

theorem update_words_returns (h : Holds m hw) (data : List u32) :
    Returns (hmac_sha256_update_words data) hw fun _ => Holds (m ++ word_bytes data) := by
  refine Leaves.modify ?_
  induction data generalizing m hw with
  | nil =>
      rw [show word_bytes [] = [] from rfl, List.append_nil]
      exact h
  | cons w data ih =>
      rw [word_bytes_cons, ← List.append_assoc]
      exact ih (msg_fifo_write_holds h _)

theorem start_returns (h : Configured hw) : Returns hmac_sha256_start hw fun _ => Holds [] := by
  refine Leaves.modify ?_
  rw [Hmac.hash_start, if_pos h.1]
  exact ⟨h, rfl, rfl, rfl⟩

theorem le32_bswap32 (w : u32) :
    le32 (bswap32 w) = [byteOf w 3, byteOf w 2, byteOf w 1, byteOf w 0] := by
  simp only [le32, byteOf_bswap32 w _ (show 0 < 4 by decide), byteOf_bswap32 w _ (show 1 < 4 by decide),
    byteOf_bswap32 w _ (show 2 < 4 by decide), byteOf_bswap32 w _ (show 3 < 4 by decide)]

/-- The digest of the standard, from the words of the block. -/
theorem word_bytes_digest (m : List u8) :
    word_bytes ((absorb 64 Sha256.compress .init (Sha256.pad m)).words.map bswap32) =
      Sha256.digest m := by
  rw [← Sha256.sha256_toList, word_bytes, List.flatMap_map, Sha256.digest]
  exact List.flatMap_congr fun w _ => le32_bswap32 w

/-- The block has finished the hash of `m`. -/
def Done (m : List u8) (hw : Hmac) : Prop :=
  Configured hw ∧ hw.digest = absorb 64 Sha256.compress .init (Sha256.pad m)

/-- What the block pads its message with is what the standard does. -/
theorem process_returns (h : Holds m hw) : Returns hmac_sha256_process hw fun _ => Done m := by
  have hlen : hw.fifo.length = m.length % 64 := by rw [h.fifo, length_rest]
  refine Leaves.modify ?_
  rw [Hmac.hash_process, if_pos h.configured.1]
  refine ⟨h.configured, ?_⟩
  rw [hlen, h.msg_length, h.digest, h.fifo, Sha256.pad]
  simp only [List.append_assoc]
  exact (absorb_append (by decide) _).symm

/-- The words of the digest have its bytes in order. -/
theorem final_returns (h : Done m hw) (len : ℕ) :
    Returns (hmac_sha256_final_truncated len) hw fun digest t =>
      word_bytes digest = (Sha256.digest m).take (4 * len) ∧ Configured t := by
  obtain ⟨hconf, hdigest⟩ := h
  refine Leaves.get (Leaves.pure ⟨?_, hconf⟩)
  have hread : (List.range (min len kHmacDigestNumWords)).map (fun i =>
      hw.digest_read (if hw.digest_swap then i else kHmacDigestNumWords - 1 - i)) =
        (hw.digest.words.map bswap32).take len := by
    refine List.ext_getElem ?_ fun i hi hi' => ?_
    · simp [kHmacDigestNumWords, Sha256.State.words]
    · have hi8 : i < hw.digest.words.length := by
        rw [List.length_map, List.length_range] at hi
        exact Nat.lt_of_lt_of_le hi (Nat.min_le_right _ _)
      rw [List.getElem_map, List.getElem_range, hconf.2, if_pos rfl, List.getElem_take,
        List.getElem_map, Hmac.digest_read, Hmac.swap, if_pos hconf.2,
        List.getD_eq_getElem _ _ hi8]
  rw [hread, hdigest, take_word_bytes, word_bytes_digest]

theorem save_returns (h : Holds m hw) (hfull : m.length % 64 = 0) :
    Returns hmac_sha256_save hw fun ctx t => Saved m ctx ∧ Configured t := by
  obtain ⟨sha_en, digest_swap, digest, msg_length, fifo⟩ := hw
  obtain ⟨⟨rfl, rfl⟩, rfl, rfl, hfifo⟩ := h
  refine Leaves.modify_bind (Leaves.get (Leaves.modify_bind (Leaves.pure ⟨⟨hfull, rfl, ?_⟩, rfl, rfl⟩)))
  exact dword_lo32_hi32 _

theorem restore_returns {ctx : HmacContext} (h : Saved m ctx) (hconf : Configured hw) :
    Returns (hmac_sha256_restore ctx) hw fun _ => Holds m := by
  obtain ⟨sha_en, digest_swap, digest, msg_length, fifo⟩ := hw
  obtain ⟨rfl, rfl⟩ := hconf
  obtain ⟨upper, lower, words⟩ := ctx
  obtain ⟨hfull, rfl, hlength⟩ := h
  refine Leaves.modify_bind (Leaves.modify_bind (Leaves.modify_bind (Leaves.modify_bind
    (Leaves.modify ?_))))
  have hrest : rest 64 m = [] := List.eq_nil_of_length_eq_zero (by rw [length_rest, hfull])
  refine ⟨⟨rfl, rfl⟩, ?_, hlength, hrest.symm⟩
  generalize absorb 64 Sha256.compress Sha256.State.init m = s
  obtain ⟨a, b, c, d, e, f, g, h⟩ := s
  show (⟨bswap32 (bswap32 a), bswap32 (bswap32 b), bswap32 (bswap32 c), bswap32 (bswap32 d),
    bswap32 (bswap32 e), bswap32 (bswap32 f), bswap32 (bswap32 g), bswap32 (bswap32 h)⟩ :
      Sha256.State) = ⟨a, b, c, d, e, f, g, h⟩
  simp only [bswap32_bswap32]

/-! ## The hash functions of the standard -/

/-- The hash of `m` at an address, for a seed. -/
def tweak (seed : List u8) (adrs : List u8) (m : List u8) : List u8 :=
  (Sha256.digest (seed ++ List.replicate 48 0 ++ adrs ++ m)).take 16

/-- The digest of a message. The mask is one block long. -/
def h_msg (R seed root m : List u8) : List u8 :=
  (Sha256.digest (R ++ seed ++ Sha256.digest (R ++ seed ++ root ++ m) ++ to_byte 0 4)).take
    kSpxDigestBytes

/-- The context that a verification with this seed goes on from. -/
def Seeded (seed : List u32) (ctx : Ctx) : Prop :=
  Saved (word_bytes seed ++ List.replicate 48 0) ctx.state_seeded

theorem configure_returns (hw : Hmac) :
    Returns (hmac_sha256_configure true) hw fun _ => Configured :=
  Leaves.modify ⟨rfl, rfl⟩

theorem spx_hash_initialize_returns {seed : List u32} (hseed : seed.length = 4) (hw : Hmac) :
    Returns ( spx_hash_initialize seed) hw fun ctx t => Seeded seed ctx ∧ Configured t := by
  have hzeros : word_bytes (List.replicate (kSpxSha2BlockNumWords - kSpxNWords) 0) =
      List.replicate 48 0 := Crypto.word_bytes_replicate_zero 12
  refine Leaves.bind (configure_returns hw) fun _ t ht => ?_
  refine Leaves.bind (start_returns ht) fun _ t ht => ?_
  refine Leaves.bind (update_words_returns ht seed) fun _ t ht => ?_
  refine Leaves.bind (update_words_returns ht _) fun _ t ht => ?_
  rw [List.nil_append, hzeros] at ht
  refine Leaves.bind (save_returns ht ?_) fun ctx t ht => Leaves.pure ht
  rw [List.length_append, length_word_bytes, hseed, List.length_replicate]

theorem thash_returns {seed : List u32} {ctx : Ctx} (hctx : Seeded seed ctx) (hconf : Configured hw)
    (input : List u32) (addr : Addr) :
    Returns (thash input ctx addr) hw fun out t =>
      word_bytes out = tweak (word_bytes seed) (addr.take 22) (word_bytes input) ∧ Configured t := by
  refine Leaves.bind (restore_returns hctx hconf) fun _ t ht => ?_
  refine Leaves.bind (update_returns ht _) fun _ t ht => ?_
  refine Leaves.bind (update_words_returns ht input) fun _ t ht => ?_
  exact Leaves.bind (process_returns ht) fun _ t ht => final_returns ht kSpxNWords

/-! ## The digest of a message -/

/-- A byte behind what has been read so far. -/
theorem toNat_or_byte {retval : u64} {n : ℕ} (b : u8) {k : ℕ} (hk : k < 8)
    (hretval : retval.toNat = n * 256 ^ (k + 1)) :
    (retval ||| if 8 * k < 32 then (b.setWidth 32 <<< (8 * k)).setWidth 64
      else (b.setWidth 32 <<< (8 * k - 32)).setWidth 64 <<< 32).toNat =
        (256 * n + b.toNat) * 256 ^ k := by
  have hb := b.isLt
  have hshifted : (if 8 * k < 32 then (b.setWidth 32 <<< (8 * k)).setWidth 64
      else (b.setWidth 32 <<< (8 * k - 32)).setWidth 64 <<< 32 : u64).toNat = b.toNat * 256 ^ k := by
    split
    · rw [BitVec.toNat_setWidth, BitVec.toNat_shiftLeft, BitVec.toNat_setWidth,
        Nat.shiftLeft_eq]
      interval_cases k <;> omega
    · rw [BitVec.toNat_shiftLeft, BitVec.toNat_setWidth, BitVec.toNat_shiftLeft,
        BitVec.toNat_setWidth, Nat.shiftLeft_eq, Nat.shiftLeft_eq]
      interval_cases k <;> omega
  have hpow : (256 : ℕ) ^ (k + 1) = 2 ^ (8 * k + 8) := by
    rw [show (256 : ℕ) = 2 ^ 8 by decide, ← Nat.pow_mul]
    rfl
  have hlow : b.toNat * 256 ^ k < 2 ^ (8 * k + 8) := by
    rw [← hpow, Nat.pow_succ, Nat.mul_comm]
    exact Nat.mul_lt_mul_of_pos_left hb (Nat.pow_pos (by decide))
  rw [BitVec.toNat_or, hshifted, hretval, hpow, Nat.mul_comm n, ← Nat.two_pow_add_eq_or_of_lt hlow n,
    ← hpow]
  ring

/-- The induction is on the bytes that are left. -/
theorem toNat_bytes_to_u64 {retval : u64} {x : List u8} (bytes : List u8)
    (hretval : retval.toNat = to_int x * 256 ^ bytes.length) (hlen : bytes.length ≤ 8) :
    (spx_utils_bytes_to_u64 retval bytes).toNat = to_int (x ++ bytes) := by
  induction bytes generalizing retval x with
  | nil => rw [spx_utils_bytes_to_u64, hretval, List.append_nil, List.length_nil, Nat.pow_zero, Nat.mul_one]
  | cons b bytes ih =>
      rw [List.length_cons] at hlen hretval
      rw [spx_utils_bytes_to_u64, ← List.singleton_append, ← List.append_assoc]
      refine ih ?_ (by omega)
      rw [toNat_or_byte b (by omega) hretval, to_int_snoc]

theorem toNat_bytes_to_u64_zero {bytes : List u8} (hlen : bytes.length ≤ 8) :
    (spx_utils_bytes_to_u64 0 bytes).toNat = to_int bytes :=
  toNat_bytes_to_u64 (x := []) bytes (Nat.zero_mul _).symm hlen

theorem length_digest (m : List u8) : (Sha256.digest m).length = 32 := rfl

/-- Of a mask of one block. -/
theorem mgf1_sha256_returns (hconf : Configured hw) (input : List u32) :
    Returns (mgf1_sha256 input kSpxDigestWords 0) hw fun out t =>
      word_bytes out = Sha256.digest (word_bytes input ++ to_byte 0 4) ∧ Configured t := by
  have hlast : mgf1_sha256 input kSpxDigestWords (0 + 1) = pure [] := by
    rw [mgf1_sha256]
    rfl
  have hctr : word_bytes [bswap32 (BitVec.ofNat 32 0)] = to_byte 0 4 := by
    rw [to_byte_zero_four]
    rfl
  rw [mgf1_sha256, if_pos (by decide), hlast]
  refine Leaves.bind (start_returns hconf) fun _ t ht => ?_
  refine Leaves.bind (update_words_returns ht _) fun _ t ht => ?_
  refine Leaves.bind (update_words_returns ht _) fun _ t ht => ?_
  refine Leaves.bind (process_returns ht) fun _ t ht => ?_
  rw [List.nil_append, hctr] at ht
  refine Leaves.bind (final_returns ht _) fun digest t ht => ?_
  refine Leaves.bind (R := fun out t' => out = [] ∧ t' = t) (Leaves.pure ⟨rfl, rfl⟩) ?_
  rintro out t' ⟨rfl, rfl⟩
  refine Leaves.pure ⟨?_, ht.2⟩
  rw [List.append_nil, ht.1]
  exact List.take_of_length_le (length_digest _).le

/-- The parts of the digest of a message. -/
def Splits (digest : List u8) (r : List u8 × u64 × u32) : Prop :=
  r.1 = digest.take 21 ∧ r.2.1.toNat = to_int ((digest.drop 21).take 7) % 2 ^ 54 ∧
    r.2.2.toNat = to_int ((digest.drop 28).take 2) % 2 ^ 9

/-- A mask cuts off the upper bits. -/
theorem toNat_and_allOnes {w : ℕ} (x : BitVec w) {n : ℕ} (hn : n ≤ w) :
    (x &&& BitVec.allOnes w >>> (w - n)).toNat = x.toNat % 2 ^ n := by
  have hpow : 2 ^ n * 2 ^ (w - n) = 2 ^ w := by rw [← Nat.pow_add, Nat.add_sub_cancel' hn]
  have hmask : (BitVec.allOnes w >>> (w - n)).toNat = 2 ^ n - 1 := by
    rw [BitVec.toNat_ushiftRight, BitVec.toNat_allOnes, Nat.shiftRight_eq_div_pow]
    refine Nat.div_eq_of_lt_le ?_ ?_
    · rw [Nat.sub_mul, hpow, Nat.one_mul]
      exact Nat.sub_le_sub_left (Nat.one_le_two_pow (n := w - n)) _
    · rw [Nat.sub_add_cancel (Nat.one_le_two_pow (n := n)), hpow]
      exact Nat.sub_lt (Nat.two_pow_pos w) Nat.one_pos
  rw [BitVec.toNat_and, hmask, Nat.and_two_pow_sub_one_eq_mod]

/-- The digest and the indices are those of the standard. -/
theorem spx_hash_message_returns (hconf : Configured hw) (R : List u32) {pk : List u32}
    (msg_prefix_1 msg_prefix_2 msg_prefix_3 msg : Buf) :
    Returns (spx_hash_message R pk msg_prefix_1 msg_prefix_2 msg_prefix_3 msg) hw fun r t =>
      Splits (h_msg (word_bytes R) (word_bytes (pk.take 4)) (word_bytes (pk.drop 4))
        (msg_prefix_1.bytes ++ msg_prefix_2.bytes ++ msg_prefix_3.bytes ++ msg.bytes)) r ∧
      Configured t := by
  refine Leaves.bind (start_returns hconf) fun _ t ht => ?_
  refine Leaves.bind (update_words_returns ht _) fun _ t ht => ?_
  refine Leaves.bind (update_words_returns ht _) fun _ t ht => ?_
  refine Leaves.bind (update_returns ht _) fun _ t ht => ?_
  refine Leaves.bind (update_returns ht _) fun _ t ht => ?_
  refine Leaves.bind (update_returns ht _) fun _ t ht => ?_
  refine Leaves.bind (update_returns ht _) fun _ t ht => ?_
  refine Leaves.bind (process_returns ht) fun _ t ht => ?_
  refine Leaves.bind (final_returns ht _) fun inner t ⟨hinner, ht⟩ => ?_
  refine Leaves.bind (mgf1_sha256_returns ht _) fun buf t ⟨hbuf, ht⟩ => Leaves.pure ⟨?_, ht⟩
  have hpk : word_bytes pk = word_bytes (pk.take 4) ++ word_bytes (pk.drop 4) := by
    rw [← word_bytes_append, List.take_append_drop]
  rw [hpk, show 4 * kSpxDigestWords = 32 from rfl, List.take_of_length_le (length_digest _).le]
    at hinner
  have hdigest : h_msg (word_bytes R) (word_bytes (pk.take 4)) (word_bytes (pk.drop 4))
      (msg_prefix_1.bytes ++ msg_prefix_2.bytes ++ msg_prefix_3.bytes ++ msg.bytes) =
        (word_bytes buf).take 30 := by
    rw [hbuf, word_bytes_append, word_bytes_append, hinner, h_msg]
    simp only [List.nil_append, List.append_assoc]
    rfl
  rw [hdigest]
  refine ⟨?_, ?_, ?_⟩
  · rw [List.take_take]
    rfl
  · rw [toNat_and_allOnes _ (by decide), List.drop_take, List.take_take]
    rw [toNat_bytes_to_u64_zero (by rw [List.length_take]; exact min_le_of_left_le (by decide))]
    rfl
  · rw [toNat_and_allOnes _ (by decide), List.drop_take, List.take_take, BitVec.toNat_setWidth]
    rw [toNat_bytes_to_u64_zero (by rw [List.length_take]; exact min_le_of_left_le (by decide))]
    rw [Nat.mod_mod_of_dvd _ (Nat.pow_dvd_pow 2 (by decide))]
    rfl

end IbexFirmware.Spx
