/-
HMAC (`hmac.c`): the call that takes its message at once, and the ones that take it in pieces.

`key_block_of` is the key as HMAC takes it, and `hmac_key_construct_exact` says that the driver gets
it. A context holds a message of which the block has worked off the full blocks (`Holds`); that is
what `hmac_update` keeps, in whatever pieces the message comes (`hmac_updates_exact`).
-/
import IbexFirmware.HmacBlock

set_option autoImplicit false

namespace IbexFirmware.Hmac

open Bytes PowerFail Crypto HardenedMemory Splice Absorb Chunks
open Aes (keyblob_share_num_words check_keyblob_length unmasked)
open Kdf (Device Words Touch Noted entropy_complex_check check_key keyblob_key_unmask HoldsShares
  key_bytes kOtcryptoKeyModeHmacSha256 kOtcryptoKeyModeHmacSha384 kOtcryptoKeyModeHmacSha512
  length_key_bytes splice_zeros_zero splice_end)

/-! ## The functions -/

def digest_from_key_mode (key_mode : u32) : Except CryptoError DigestLength :=
  if key_mode = kOtcryptoKeyModeHmacSha256 then .ok .kDigestLengthSha256
  else if key_mode = kOtcryptoKeyModeHmacSha384 then .ok .kDigestLengthSha384
  else if key_mode = kOtcryptoKeyModeHmacSha512 then .ok .kDigestLengthSha512
  else .error .OTCRYPTO_BAD_ARGS

def ibex_rnd32_read : Proc Device CryptoError u32 := do
  let ws ← Kdf.memshred 1
  pure (ws.getD 0 0)

section

variable (hw : Sha2)

/-- The hash of a key that is longer than a block. At the highest level it is hidden among two. -/
def hash_key (config : KeyConfig) (d : DigestLength) (unmasked_key_len : ℕ) (unmasked_key : List u8) :
    Proc Device CryptoError (List u32) :=
  if config.security_level = kOtcryptoKeySecurityLevelHigh then do
    let random_unmasked_key ← Kdf.memshred unmasked_key_len
    let random := (word_bytes random_unmasked_key).take config.key_length.toNat
    let swap ← ibex_rnd32_read
    if swap &&& 1 ≠ 0 then do
      let _ ← oneshot_hash hw d random
      oneshot_hash hw d unmasked_key
    else do
      let digest ← oneshot_hash hw d unmasked_key
      let _ ← oneshot_hash hw d random
      pure digest
  else oneshot_hash hw d unmasked_key

def hmac_key_construct (key : BlindedKey) (d : DigestLength) : Proc Device CryptoError HmacKey := do
  let unmasked_key_len := keyblob_share_num_words key.config
  let unmasked_key ← Proc.ofExcept (keyblob_key_unmask key unmasked_key_len)
  let zeros := List.replicate (4 * d.block_words.toNat) 0
  let key_block ←
    (if key.config.key_length > d.block_words * 4 then do
      let digest ← hash_key hw key.config d unmasked_key_len.toNat
        ((word_bytes unmasked_key).take key.config.key_length.toNat)
      pure (splice zeros 0 (word_bytes digest))
    else do
      let key_block := splice zeros 0 (word_bytes unmasked_key)
      let offset := key.config.key_length % 4
      pure (if offset ≠ 0 then
        let num_zero_bytes := (4 - offset).toNat
        splice key_block (4 * unmasked_key_len.toNat - num_zero_bytes) (List.replicate num_zero_bytes 0)
      else key_block))
  pure ⟨d.block_words, key_block, hmac_key_integrity_checksum d.block_words key_block⟩

/-- The comparison of two tags, of as many words as the tag of the caller has. -/
def compare_tags (tag_len : ℕ) (tag tag_redundant : Words) : Proc Device CryptoError Words := do
  let lhs ← tag.read 0 tag_len
  let rhs ← tag_redundant.read 0 tag_len
  Kdf.hardened_check (hardened_memeq lhs rhs = kHardenedBoolTrue)
  pure tag

/-- The computation of a tag at a security level. The second computation has an array of `tag_len`
words. -/
def hmac_at_level (stack : ℕ → u32) (key : BlindedKey) (d : DigestLength) (msg : ByteBuf)
    (tag_len : ℕ) (tag : Words) : Proc Device CryptoError Words := do
  let hmac_key ← hmac_key_construct hw key d
  if key.config.security_level = kOtcryptoKeySecurityLevelLow then
    hmac_hmac hw d hmac_key msg.bytes tag
  else if key.config.security_level = kOtcryptoKeySecurityLevelMedium then do
    let tag ← hmac_hmac hw d hmac_key msg.bytes tag
    let hmac_key_redundant ← hmac_key_construct hw key d
    let tag_redundant ← hmac_hmac hw d hmac_key_redundant msg.bytes ⟨.tag_redundant, tag_len, stack⟩
    compare_tags tag_len tag tag_redundant
  else do
    Kdf.hardened_check (key.config.security_level = kOtcryptoKeySecurityLevelHigh)
    let tag ← hmac_hmac hw d hmac_key msg.bytes tag
    let hmac_key_redundant ← hmac_key_construct hw key d
    let tag_redundant ← hmac_hmac_redundant hw d hmac_key_redundant msg ⟨.tag_redundant, tag_len, stack⟩
    compare_tags tag_len tag tag_redundant

/-- The array of a tag, and what lies behind it. -/
def tag_words (tag : Word32Buf) (stack : ℕ → u32) : Words :=
  ⟨.tag_data, tag.len.toNat, fun i => (tag.data.getD []).getD i (stack i)⟩

def otcrypto_hmac (stack : ℕ → u32) (key : BlindedKey) (input_message : ByteBuf) (tag : Word32Buf) :
    Proc Device CryptoError Words := do
  if tag.data = none ∨ input_message.dangling then Proc.throw .OTCRYPTO_BAD_ARGS
  else do
    let random ← Kdf.memshred tag.len.toNat
    let tag_data ← (tag_words tag stack).write 0 random
    Proc.ofExcept (check_key key)
    (if key.config.security_level ≠ kOtcryptoKeySecurityLevelLow then entropy_complex_check else pure ())
    let d ← Proc.ofExcept (digest_from_key_mode key.config.key_mode)
    hmac_at_level hw stack key d input_message tag.len.toNat tag_data

def otcrypto_hmac_init (key : BlindedKey) : Proc Device CryptoError HmacCtx := do
  Proc.ofExcept (check_key key)
  if key.config.security_level ≠ kOtcryptoKeySecurityLevelLow then Proc.throw .OTCRYPTO_NOT_IMPLEMENTED
  else do
    let d ← Proc.ofExcept (digest_from_key_mode key.config.key_mode)
    let hmac_key ← hmac_key_construct hw key d
    pure (hmac_init d hmac_key)

def otcrypto_hmac_update (ctx : HmacCtx) (input_message : ByteBuf) : Proc Device CryptoError HmacCtx :=
  if input_message.dangling then Proc.throw .OTCRYPTO_BAD_ARGS
  else hmac_update hw ctx input_message

def otcrypto_hmac_final (stack : ℕ → u32) (ctx : HmacCtx) (tag : Word32Buf) :
    Proc Device CryptoError Words :=
  if tag.data = none then Proc.throw .OTCRYPTO_BAD_ARGS
  else if tag.len ≠ ctx.digest_wordlen then Proc.throw .OTCRYPTO_BAD_ARGS
  else hmac_final hw ctx (tag_words tag stack)

def hmac_updates : List ByteBuf → HmacCtx → Proc Device CryptoError HmacCtx
  | [], ctx => pure ctx
  | piece :: pieces, ctx => do
      let ctx ← otcrypto_hmac_update hw ctx piece
      hmac_updates pieces ctx

/-- The calls for a message in pieces. -/
def hmac_stream (stack : ℕ → u32) (key : BlindedKey) (pieces : List ByteBuf) (tag : Word32Buf) :
    Proc Device CryptoError Words := do
  let ctx ← otcrypto_hmac_init hw key
  let ctx ← hmac_updates hw pieces ctx
  otcrypto_hmac_final hw stack ctx tag

end

/-! ## The key -/

/-- The key as HMAC takes it. -/
def key_block_of (hw : Sha2) (d : DigestLength) (key : BlindedKey) : List u8 :=
  HmacOf.key_block (hw.hash d) d.block_bytes (key_bytes key)

section key

variable {hw : Sha2} {d : DigestLength} {key : BlindedKey} {s : Device} {I : Device → Prop}

/-- What the calls of HMAC need of a key, apart from the security level. -/
structure Accepted (d : DigestLength) (key : BlindedKey) : Prop where
  check : check_key key = .ok ()
  length : check_keyblob_length key = .ok ()
  mode : digest_from_key_mode key.config.key_mode = .ok d
  holds : HoldsShares key

theorem not_ecc_of_mode (h : digest_from_key_mode key.config.key_mode = .ok d) :
    Aes.key_type key.config.key_mode ≠ kOtcryptoKeyTypeEcc := by
  unfold digest_from_key_mode at h
  split_ifs at h with h256 h384 h512
  · rw [h256]
    decide
  · rw [h384]
    decide
  · rw [h512]
    decide

theorem toNat_block (d : DigestLength) : (d.block_words * 4).toNat = d.block_bytes := by
  cases d <;> rfl

theorem oneshot_hash_exact (msg : List u8) (hI : I s) :
    Guarded (oneshot_hash hw d msg) s
      (fun r t => r = (hw.digest d msg).take d.digest_words.toNat ∧ t = s) I := by
  refine Guarded.step_bind (Guarded.step_bind (Guarded.step_bind (Guarded.pure ⟨?_, rfl⟩) hI) hI) hI
  rw [process_hash]

/-- The entropy is not looked at by what is noted. -/
def Frame (I : Device → Prop) : Prop := ∀ s entropy, I s → I { s with entropy := entropy }

/-- The digest of the bytes, computed twice and compared at the high level. -/
theorem hash_key_exact (hframe : Frame I) (n : ℕ) (bytes : List u8) (hI : I s) :
    Guarded (hash_key hw key.config d n bytes) s
      (fun r t => r = (hw.digest d bytes).take d.digest_words.toNat ∧ t.touched = s.touched) I := by
  rw [hash_key]
  by_cases hhigh : key.config.security_level = kOtcryptoKeySecurityLevelHigh
  · rw [if_pos hhigh]
    refine Kdf.memshred_bind fun random entropy _ => ?_
    refine Guarded.bind (R := fun _ t => ∃ entropy, t = { s with entropy := entropy }) ?_ ?_
    · exact Kdf.memshred_bind fun ws entropy' _ => Guarded.pure ⟨entropy', rfl⟩
    · rintro swap _ ⟨entropy', rfl⟩
      have hI'' := hframe s entropy' hI
      split_ifs
      · refine Guarded.bind (oneshot_hash_exact _ hI'') ?_
        rintro _ _ ⟨-, rfl⟩
        refine Guarded.mono (oneshot_hash_exact _ hI'') ?_ fun _ => id
        rintro _ _ ⟨rfl, rfl⟩
        exact ⟨rfl, rfl⟩
      · refine Guarded.bind (oneshot_hash_exact _ hI'') ?_
        rintro _ _ ⟨rfl, rfl⟩
        refine Guarded.bind (oneshot_hash_exact _ hI'') ?_
        rintro _ _ ⟨-, rfl⟩
        exact Guarded.pure ⟨rfl, rfl⟩
  · rw [if_neg hhigh]
    refine Guarded.mono (oneshot_hash_exact _ hI) ?_ fun _ => id
    rintro _ _ ⟨rfl, rfl⟩
    exact ⟨rfl, rfl⟩

theorem padded_eq (hash : List u8) (d : DigestLength) :
    splice (List.replicate (4 * d.block_words.toNat) 0) 0 hash = HmacOf.padded d.block_bytes hash :=
  splice_zeros_zero hash

/-- A key that is not longer than a block: zeros come behind it, also into its last word. -/
theorem short_key_block (h : Accepted d key) (hshort : ¬key.config.key_length > d.block_words * 4) :
    (let n := (keyblob_share_num_words key.config).toNat
      let key_block := splice (List.replicate (4 * d.block_words.toNat) 0) 0
        (word_bytes (unmasked key.words n))
      let offset := key.config.key_length % 4
      if offset ≠ 0 then
        splice key_block (4 * n - (4 - offset).toNat) (List.replicate (4 - offset).toNat 0)
      else key_block) = HmacOf.padded d.block_bytes (key_bytes key) := by
  have hecc := not_ecc_of_mode h.mode
  have hlen := length_key_bytes h.holds hecc
  have hbytes : (word_bytes (unmasked key.words (keyblob_share_num_words key.config).toNat)).length =
      4 * (keyblob_share_num_words key.config).toNat := by
    rw [length_word_bytes, Kdf.length_unmasked h.holds]
  have hwords : (keyblob_share_num_words key.config).toNat = (key.config.key_length.toNat + 3) / 4 := by
    rw [Kdf.share_num_words_eq hecc, toNat_ceil_div _ _ (by decide)]
    rfl
  have hle : key.config.key_length.toNat ≤ d.block_bytes := by
    rw [gt_iff_lt, BitVec.lt_def, toNat_block] at hshort
    omega
  have hblock : d.block_bytes % 4 = 0 := Nat.mul_mod_right 4 _
  have hmod : (key.config.key_length % 4).toNat = key.config.key_length.toNat % 4 := BitVec.toNat_umod
  dsimp only
  rw [padded_eq, HmacOf.padded, HmacOf.padded, hlen, hbytes]
  by_cases hoffset : key.config.key_length % 4 = 0
  · rw [if_neg (not_not.mpr hoffset)]
    have hzero : key.config.key_length.toNat % 4 = 0 := by
      rw [← hmod, hoffset]
      rfl
    have htake : key_bytes key =
        word_bytes (unmasked key.words (keyblob_share_num_words key.config).toNat) :=
      List.take_of_length_le (by omega)
    rw [htake]
    congr 2
    omega
  · have hne : key.config.key_length.toNat % 4 ≠ 0 := fun h0 =>
      hoffset (BitVec.eq_of_toNat_eq (hmod.trans h0))
    have hzeros : (4 - key.config.key_length % 4).toNat = 4 - key.config.key_length.toNat % 4 := by
      rw [BitVec.toNat_sub_of_le, hmod]
      · rfl
      · rw [BitVec.le_def, hmod]
        show key.config.key_length.toNat % 4 ≤ 4
        omega
    rw [if_pos hoffset, hzeros, splice_end (by omega), key_bytes]
    congr 1
    · congr 1
      omega
    · congr 1
      omega

/-- The struct that the driver gets. -/
def hmac_key_of (hw : Sha2) (d : DigestLength) (key : BlindedKey) : HmacKey :=
  ⟨d.block_words, key_block_of hw d key,
    hmac_key_integrity_checksum d.block_words (key_block_of hw d key)⟩

/-- The key is unmasked, and padded or hashed to the length of a block. -/
theorem hmac_key_construct_exact (h : Accepted d key) (hframe : Frame I) (hI : I s) :
    Guarded (hmac_key_construct hw key d) s
      (fun r t => r = hmac_key_of hw d key ∧ t.touched = s.touched) I := by
  have hunmask : keyblob_key_unmask key (keyblob_share_num_words key.config) =
      .ok (unmasked key.words (keyblob_share_num_words key.config).toNat) := by
    rw [Kdf.keyblob_key_unmask_eq, h.length]
    rfl
  have hlen := length_key_bytes h.holds (not_ecc_of_mode h.mode)
  refine Guarded.ofExcept_bind hunmask ?_
  refine Guarded.bind (R := fun r t => r = key_block_of hw d key ∧ t.touched = s.touched) ?_ ?_
  · by_cases hlong : key.config.key_length > d.block_words * 4
    · rw [if_pos hlong]
      refine Guarded.bind (hash_key_exact hframe _ _ hI) ?_
      rintro _ t ⟨rfl, ht⟩
      refine Guarded.pure ⟨?_, ht⟩
      rw [gt_iff_lt, BitVec.lt_def, toNat_block] at hlong
      rw [padded_eq, key_block_of, HmacOf.key_block_of_gt (by rw [hlen]; exact hlong)]
      rfl
    · rw [if_neg hlong]
      refine Guarded.pure ⟨?_, rfl⟩
      have hle : (key_bytes key).length ≤ d.block_bytes := by
        rw [gt_iff_lt, BitVec.lt_def, toNat_block] at hlong
        omega
      rw [key_block_of, HmacOf.key_block_of_le hle]
      exact short_key_block h hlong
  · rintro _ t ⟨rfl, ht⟩
    exact Guarded.pure ⟨rfl, ht⟩

theorem length_hash (msg : List u8) : (hw.hash d msg).length = 4 * d.digest_words.toNat := by
  rw [Sha2.hash, length_word_bytes, List.length_take, length_digest, Nat.min_eq_left d.digest_words_le]

theorem length_key_block (key : BlindedKey) : (key_block_of hw d key).length = d.block_bytes := by
  have hle : 4 * d.digest_words.toNat ≤ d.block_bytes := by cases d <;> decide
  rw [key_block_of, HmacOf.key_block]
  split_ifs with h
  · exact HmacOf.length_padded (by rw [length_hash]; exact hle)
  · exact HmacOf.length_padded (Nat.not_lt.mp h)

theorem key_write_exact : Guarded (key_write (hmac_key_of hw d key)) s (fun _ t => t = s) I := by
  rw [key_write]
  split_ifs
  · have hsum : (hmac_key_of hw d key).checksum = hmac_key_integrity_checksum
        (hmac_key_of hw d key).key_len (hmac_key_of hw d key).key_block := rfl
    rw [Kdf.hardened_check, if_pos hsum]
    exact Guarded.pure rfl
  · exact Guarded.pure rfl

end key

/-! ## The message in pieces -/

section stream

variable {hw : Sha2} {d : DigestLength} {key : BlindedKey} {s : Device} {I : Device → Prop}

/-- The block at the start of a computation with a key. -/
def started (hw : Sha2) (d : DigestLength) (key : BlindedKey) : Block :=
  Block.start hw ⟨true, d⟩ (key_block_of hw d key)

def restored (hw : Sha2) (ctx : HmacCtx) : Block :=
  if ctx.msg_length = 0 then Block.start hw ctx.cfg ctx.key.key_block
  else Block.continue ctx.cfg ctx.key.key_block ctx.H ctx.msg_length

/-- The context of a computation that has got the bytes `m`: the block can be brought to where it was
after the full blocks of them, and the rest of them is kept. -/
structure Holds (hw : Sha2) (d : DigestLength) (key : BlindedKey) (ctx : HmacCtx) (m : List u8) :
    Prop where
  ctx_key : ctx.key = hmac_key_of hw d key
  cfg : ctx.cfg = ⟨true, d⟩
  block_words : ctx.msg_block_wordlen = d.block_words
  digest_words : ctx.digest_wordlen = d.digest_words
  block : restored hw ctx = (started hw d key).feed hw (full d.block_bytes m)
  kept : ctx.partial_block = rest d.block_bytes m

theorem feed_nil (b : Block) (hfifo : b.fifo = []) : b.feed hw [] = b := by
  obtain ⟨cfg, key, state, msg_length, fifo⟩ := b
  obtain rfl : fifo = [] := hfifo
  simp only [Block.feed, List.append_nil, absorb_nil, rest_nil, Block.mk.injEq, true_and, and_true]
  exact BitVec.add_zero _

theorem holds_init : Holds hw d key (hmac_init d (hmac_key_of hw d key)) [] where
  ctx_key := rfl
  cfg := rfl
  block_words := rfl
  digest_words := rfl
  block := by
    rw [full_nil, feed_nil _ rfl]
    rfl
  kept := (rest_nil _).symm

/-- After full blocks nothing is left over in the block. -/
theorem continue_feed_full (m : List u8) :
    Block.continue ⟨true, d⟩ (key_block_of hw d key)
      ((started hw d key).feed hw (full d.block_bytes m)).state
      ((started hw d key).feed hw (full d.block_bytes m)).msg_length =
      (started hw d key).feed hw (full d.block_bytes m) := by
  have hfifo : ((started hw d key).feed hw (full d.block_bytes m)).fifo = [] := by
    show rest d.block_bytes ([] ++ full d.block_bytes m) = []
    refine List.eq_nil_of_length_eq_zero ?_
    rw [List.nil_append, length_rest, length_full_mod]
  calc _ = Block.mk ⟨true, d⟩ (key_block_of hw d key) _ _ [] := rfl
    _ = (started hw d key).feed hw (full d.block_bytes m) := by
        rw [← hfifo]
        rfl

theorem bits_of_ne_zero {n : ℕ} (hpos : 0 < n) (hlt : 8 * n < 2 ^ 64) : bits_of n ≠ 0 := by
  intro h
  have hnat := congrArg BitVec.toNat h
  rw [bits_of, BitVec.toNat_ofNat, Nat.mod_eq_of_lt hlt] at hnat
  have hzero : 8 * n = 0 := hnat
  omega

/-- What is cut off the piece so that full blocks are worked off. -/
theorem full_rest_append {n : ℕ} (hn : 0 < n) {xs ys : List u8} (hlt : xs.length < n)
    (hle : n ≤ xs.length + ys.length) :
    full n (xs ++ ys) = xs ++ ys.take (ys.length - (xs.length + ys.length) % n) ∧
      rest n (xs ++ ys) = ys.drop (ys.length - (xs.length + ys.length) % n) := by
  have hsplit := Nat.div_add_mod (xs.length + ys.length) n
  have hone : n ≤ n * ((xs.length + ys.length) / n) :=
    Nat.le_mul_of_pos_right _ (Nat.div_pos hle hn)
  have hcut : n * ((xs ++ ys).length / n) =
      xs.length + (ys.length - (xs.length + ys.length) % n) := by
    rw [List.length_append]
    omega
  rw [full, rest, hcut, List.take_length_add_append, List.drop_length_add_append]
  exact ⟨rfl, rfl⟩

theorem context_restore_exact {ctx : HmacCtx} (hkey : ctx.key = hmac_key_of hw d key) :
    Guarded (context_restore hw ctx) s (fun r t => r = restored hw ctx ∧ t = s) I := by
  rw [context_restore, hkey]
  refine Guarded.bind key_write_exact ?_
  rintro _ _ rfl
  refine Guarded.pure ⟨?_, rfl⟩
  rw [restored, hkey]

/-- A piece is added to what the context holds. -/
theorem hmac_update_exact {ctx : HmacCtx} {m : List u8} {data : ByteBuf} (h : Holds hw d key ctx m)
    (hdata : ¬data.dangling) (hsmall : 8 * (m.length + data.bytes.length) < 2 ^ 64) (hI : I s) :
    Guarded (hmac_update hw ctx data) s (fun r t => Holds hw d key r (m ++ data.bytes) ∧ t = s) I := by
  have hn := d.block_bytes_pos
  have hblock : (ctx.msg_block_wordlen * 4).toNat = d.block_bytes := by
    rw [h.block_words, toNat_block]
  have hle : d.block_bytes ≤ 128 := by cases d <;> decide
  have hkept := length_rest_lt hn m
  have hlen := ByteBuf.length_bytes hdata
  have hpartial : (BitVec.ofNat 32 ctx.partial_block.length).toNat = (rest d.block_bytes m).length := by
    rw [h.kept, BitVec.toNat_ofNat, Nat.mod_eq_of_lt (by omega)]
  have hfree : (ctx.msg_block_wordlen * 4 - BitVec.ofNat 32 ctx.partial_block.length).toNat =
      d.block_bytes - (rest d.block_bytes m).length := by
    rw [BitVec.toNat_sub_of_le, hblock, hpartial]
    rw [BitVec.le_def, hblock, hpartial]
    exact hkept.le
  refine Guarded.step_bind ?_ hI
  by_cases hshort : data.len < ctx.msg_block_wordlen * 4 - BitVec.ofNat 32 ctx.partial_block.length
  · rw [if_pos hshort]
    rw [BitVec.lt_def, hfree] at hshort
    have hrest : (rest d.block_bytes m ++ data.bytes).length < d.block_bytes := by
      rw [List.length_append]
      omega
    have hfull : full d.block_bytes (m ++ data.bytes) = full d.block_bytes m := by
      rw [full_append hn, full_of_lt _ hrest, List.append_nil]
    refine Guarded.pure ⟨⟨h.ctx_key, h.cfg, h.block_words, h.digest_words, ?_, ?_⟩, rfl⟩
    · rw [hfull]
      exact h.block
    · rw [rest_append hn, rest_of_lt _ hrest, ← h.kept]
  · rw [if_neg hshort]
    rw [BitVec.lt_def, hfree] at hshort
    have hfills : d.block_bytes ≤ (rest d.block_bytes m).length + data.bytes.length := by omega
    have hleft : ((BitVec.ofNat 32 ctx.partial_block.length + data.len % (ctx.msg_block_wordlen * 4)) %
        (ctx.msg_block_wordlen * 4)).toNat =
        ((rest d.block_bytes m).length + data.bytes.length) % d.block_bytes := by
      have hmod : (data.len % (ctx.msg_block_wordlen * 4)).toNat = data.bytes.length % d.block_bytes := by
        rw [BitVec.toNat_umod, hblock, hlen]
      have hlt := Nat.mod_lt data.bytes.length hn
      have hsum : (rest d.block_bytes m).length + data.bytes.length % d.block_bytes < 2 ^ 32 := by omega
      rw [BitVec.toNat_umod, BitVec.toNat_add, hpartial, hmod, hblock, Nat.mod_eq_of_lt hsum,
        Nat.add_mod_mod]
    have hcut : (data.len - (BitVec.ofNat 32 ctx.partial_block.length +
        data.len % (ctx.msg_block_wordlen * 4)) % (ctx.msg_block_wordlen * 4)).toNat =
        data.bytes.length - ((rest d.block_bytes m).length + data.bytes.length) % d.block_bytes := by
      have hsplit := Nat.div_add_mod ((rest d.block_bytes m).length + data.bytes.length) d.block_bytes
      have hone : d.block_bytes ≤ d.block_bytes *
          (((rest d.block_bytes m).length + data.bytes.length) / d.block_bytes) :=
        Nat.le_mul_of_pos_right _ (Nat.div_pos hfills hn)
      rw [BitVec.toNat_sub_of_le, hleft, hlen]
      rw [BitVec.le_def, hleft]
      omega
    obtain ⟨hfull, hrest⟩ := full_rest_append hn hkept hfills
    refine Guarded.bind (context_restore_exact h.ctx_key) ?_
    rintro _ _ ⟨rfl, rfl⟩
    dsimp only
    rw [hcut, h.block, h.kept, feed_feed, feed_feed, ← hfull, ← full_append hn]
    refine Guarded.step_bind (Guarded.pure ⟨⟨h.ctx_key, h.cfg, h.block_words, h.digest_words, ?_, ?_⟩, rfl⟩) hI
    · have hbits : ((started hw d key).feed hw (full d.block_bytes (m ++ data.bytes))).msg_length ≠ 0 := by
        have hpos : d.block_bytes ≤ (full d.block_bytes (m ++ data.bytes)).length := by
          have hlong : d.block_bytes ≤ (m ++ data.bytes).length := by
            have hmod := Nat.mod_le m.length d.block_bytes
            rw [length_rest] at hfills
            rw [List.length_append]
            omega
          rw [length_full]
          exact Nat.le_mul_of_pos_right _ (Nat.div_pos hlong hn)
        have hlt : (full d.block_bytes (m ++ data.bytes)).length ≤ m.length + data.bytes.length := by
          rw [length_full, List.length_append]
          exact Nat.mul_div_le _ _
        show 0 + bits_of (full d.block_bytes (m ++ data.bytes)).length ≠ 0
        rw [zero_add_bits]
        exact bits_of_ne_zero (by omega) (by omega)
      rw [restored, if_neg hbits, h.ctx_key, h.cfg]
      exact continue_feed_full _
    · rw [rest_append hn, hrest]

theorem hmac_updates_exact (pieces : List ByteBuf) :
    ∀ {ctx : HmacCtx} {m : List u8} {s : Device}, Holds hw d key ctx m →
      (∀ p ∈ pieces, ¬p.dangling) →
      8 * (m ++ pieces.flatMap ByteBuf.bytes).length < 2 ^ 64 → I s →
      Guarded (hmac_updates hw pieces ctx) s
        (fun r t => Holds hw d key r (m ++ pieces.flatMap ByteBuf.bytes) ∧ t = s) I := by
  induction pieces with
  | nil =>
      intro ctx m s h _ _ _
      refine Guarded.pure ⟨?_, rfl⟩
      rwa [List.flatMap_nil, List.append_nil]
  | cons piece pieces ih =>
      intro ctx m s h hpieces hsmall hI
      have hpiece := hpieces piece List.mem_cons_self
      rw [List.flatMap_cons, ← List.append_assoc] at hsmall ⊢
      have hfirst : 8 * (m.length + piece.bytes.length) < 2 ^ 64 := by
        rw [List.length_append, List.length_append] at hsmall
        omega
      rw [hmac_updates, otcrypto_hmac_update, if_neg hpiece]
      refine Guarded.bind (hmac_update_exact h hpiece hfirst hI) ?_
      rintro ctx' _ ⟨h', rfl⟩
      exact ih h' (fun p hp => hpieces p (List.mem_cons_of_mem _ hp)) hsmall hI

end stream

end IbexFirmware.Hmac
