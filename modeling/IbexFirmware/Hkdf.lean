/-
HKDF (`hkdf.c`) over the interface of HMAC (`hmac.c`).

What a tag is, as a function of the bytes of a key and of a message, is the parameter `H`. The
calls of HMAC check the key, unmask it and bring it to a block with zeros behind it, so that `H`
has to treat a key and the same key with zeros behind it alike. A key that is longer than a
block is hashed first, and that is a part of `H`.

`expand_loop_exact` carries the loop of the expansion: after `i` turns the words of the output
are the first `i` blocks of RFC 5869, and each turn has read the block before it and has written
the next one.
-/
import IbexFirmware.KeyblobShares
import IbexFirmware.Lib.Checks

set_option autoImplicit false

namespace IbexFirmware.Kdf

open Bytes PowerFail Checks Crypto HardenedMemory Splice
open Aes (keyblob_share_num_words keyblob_num_words keyblob_ensure_xor_masked check_keyblob_length
  unmasked key_type)

/-! ## HMAC -/

def kOtcryptoKeyModeHmacSha256 : u32 := kOtcryptoKeyTypeHmac <<< 16 ||| 0x7fd
def kOtcryptoKeyModeHmacSha384 : u32 := kOtcryptoKeyTypeHmac <<< 16 ||| 0x43b
def kOtcryptoKeyModeHmacSha512 : u32 := kOtcryptoKeyTypeHmac <<< 16 ||| 0x7a2

/-- The same in `hkdf.c` and in `kdf_ctr.c`. -/
def digest_num_words_from_key_mode (key_mode : u32) : Except CryptoError u32 :=
  if key_mode = kOtcryptoKeyModeHmacSha256 then .ok (256 / 32)
  else if key_mode = kOtcryptoKeyModeHmacSha384 then .ok (384 / 32)
  else if key_mode = kOtcryptoKeyModeHmacSha512 then .ok (512 / 32)
  else .error .OTCRYPTO_BAD_ARGS

/-- `kHmacSha256BlockWords` and its likes, by the mode they go with. -/
def block_words_from_key_mode (key_mode : u32) : Except CryptoError u32 :=
  if key_mode = kOtcryptoKeyModeHmacSha256 then .ok (512 / 32)
  else if key_mode = kOtcryptoKeyModeHmacSha384 then .ok (1024 / 32)
  else if key_mode = kOtcryptoKeyModeHmacSha512 then .ok (1024 / 32)
  else .error .OTCRYPTO_BAD_ARGS

/-- A tag for every mode, key and message, of the length of the digest of the mode. -/
structure HmacFunction where
  tag : u32 → List u8 → List u8 → List u32
  length_tag : ∀ {mode n} key msg, digest_num_words_from_key_mode mode = .ok n →
    (tag mode key msg).length = n.toNat
  zero_padded : ∀ {mode n} key msg k, block_words_from_key_mode mode = .ok n →
    key.length + k ≤ 4 * n.toNat → tag mode (key ++ List.replicate k 0) msg = tag mode key msg

def check_key (key : BlindedKey) : Except CryptoError Unit :=
  if key.keyblob = none then .error .OTCRYPTO_BAD_ARGS
  else if key.config.hw_backed ≠ kHardenedBoolFalse then .error .OTCRYPTO_NOT_IMPLEMENTED
  else if integrity_blinded_key_check key ≠ kHardenedBoolTrue then .error .OTCRYPTO_BAD_ARGS
  else .ok ()

/-- The bytes that the driver gets as the key: those of a block, or a key that is longer than a
block, which is hashed before it is used. -/
def hmac_key_construct (key : BlindedKey) (key_block_wordlen : u32) :
    Except CryptoError (List u8) := do
  let unmasked_key_len := keyblob_share_num_words key.config
  let unmasked_key ← keyblob_key_unmask key unmasked_key_len
  if key.config.key_length > key_block_wordlen * 4 then
    pure ((word_bytes unmasked_key).take key.config.key_length.toNat)
  else do
    let key_block := splice (List.replicate (4 * key_block_wordlen.toNat) 0) 0
      (word_bytes unmasked_key)
    let offset := key.config.key_length % 4
    if offset ≠ 0 then
      let num_zero_bytes := (4 - offset).toNat
      pure (splice key_block (4 * unmasked_key_len.toNat - num_zero_bytes)
        (List.replicate num_zero_bytes 0))
    else pure key_block

/-- `otcrypto_hmac_context_t`: what the tag will be computed from. -/
structure HmacContext where
  key_mode : u32
  digest_wordlen : u32
  key : List u8
  message : List u8

def otcrypto_hmac_init (key : BlindedKey) : Except CryptoError HmacContext := do
  check_key key
  if key.config.security_level ≠ kOtcryptoKeySecurityLevelLow then
    throw .OTCRYPTO_NOT_IMPLEMENTED
  let block ← block_words_from_key_mode key.config.key_mode
  let digest_wordlen ← digest_num_words_from_key_mode key.config.key_mode
  let hmac_key ← hmac_key_construct key block
  pure ⟨key.config.key_mode, digest_wordlen, hmac_key, []⟩

/-- The driver may report an error. That the message is there has been checked by the caller. -/
def otcrypto_hmac_update (ctx : HmacContext) (input_message : List u8) :
    Proc Device CryptoError HmacContext :=
  Proc.step .OTCRYPTO_RECOV_ERR fun s =>
    ({ ctx with message := ctx.message ++ input_message }, s)

section

variable (H : HmacFunction)

def otcrypto_hmac_final (ctx : HmacContext) (tag_len : u32) :
    Proc Device CryptoError (List u32) :=
  if tag_len ≠ ctx.digest_wordlen then Proc.throw .OTCRYPTO_BAD_ARGS
  else Proc.step .OTCRYPTO_RECOV_ERR fun s => (H.tag ctx.key_mode ctx.key ctx.message, s)

/-- For a key of the security level `kOtcryptoKeySecurityLevelLow`, as it is called here. -/
def otcrypto_hmac (key : BlindedKey) (input_message : List u8) :
    Proc Device CryptoError (List u32) := do
  Proc.ofExcept (check_key key)
  let block ← Proc.ofExcept (block_words_from_key_mode key.config.key_mode)
  let hmac_key ← Proc.ofExcept (hmac_key_construct key block)
  Proc.step .OTCRYPTO_RECOV_ERR fun s => (H.tag key.config.key_mode hmac_key input_message, s)

/-! ## The functions

`stack` is what the arrays of a call hold before they are written. -/

def hkdf_check_prk (digest_words : u32) (prk : BlindedKey) : Except CryptoError Unit :=
  if key_type prk.config.key_mode ≠ kOtcryptoKeyTypeHmac then .error .OTCRYPTO_BAD_ARGS
  else if prk.config.key_length ≠ digest_words * 4 then .error .OTCRYPTO_BAD_ARGS
  else if prk.keyblob_length ≠ keyblob_num_words prk.config * 4 then .error .OTCRYPTO_BAD_ARGS
  else keyblob_ensure_xor_masked prk.config

/-- The checks at the start of `otcrypto_hkdf_extract`, with the number of words of a digest. -/
def hkdf_extract_checks (ikm : BlindedKey) (salt : ByteBuf) (prk : BlindedKey) :
    Except CryptoError u32 := do
  if ikm.keyblob = none ∨ prk.keyblob = none then throw .OTCRYPTO_BAD_ARGS
  if salt.dangling then throw .OTCRYPTO_BAD_ARGS
  if integrity_blinded_key_check ikm ≠ kHardenedBoolTrue then throw .OTCRYPTO_BAD_ARGS
  if ikm.config.security_level ≠ kOtcryptoKeySecurityLevelLow ∨
      prk.config.security_level ≠ kOtcryptoKeySecurityLevelLow then
    throw .OTCRYPTO_NOT_IMPLEMENTED
  if prk.config.key_mode ≠ ikm.config.key_mode then throw .OTCRYPTO_BAD_ARGS
  let digest_words ← digest_num_words_from_key_mode ikm.config.key_mode
  hkdf_check_prk digest_words prk
  pure digest_words

/-- A configuration of a key of HMAC in software. -/
def hmac_key_config (key_mode key_length : u32) : KeyConfig where
  version := kOtcryptoLibVersion1
  key_mode := key_mode
  key_length := key_length
  hw_backed := kHardenedBoolFalse
  exportable := kHardenedBoolFalse
  security_level := kOtcryptoKeySecurityLevelLow

/-- A key with a keyblob of as many words as its configuration asks for, on the stack. -/
def local_key (stack : ℕ → u32) (config : KeyConfig) : BlindedKey where
  config := config
  keyblob_length := keyblob_num_words config * 4
  keyblob := some ((List.range (keyblob_num_words config).toNat).map stack)
  checksum := stack 0

/-- An array that has been set to zero. What lies behind it has not. -/
def zeroed (stack : ℕ → u32) (array : Local) (len : ℕ) : Words :=
  ⟨array, len, fun i => if i < len then 0 else stack i⟩

def otcrypto_hkdf_extract (stack : ℕ → u32) (ikm : BlindedKey) (salt : ByteBuf) (prk : BlindedKey) :
    Proc Device CryptoError BlindedKey := do
  let digest_words ← Proc.ofExcept (hkdf_extract_checks ikm salt prk)
  let salt_bytelen := if salt.len = 0 then digest_words * 4 else salt.len
  let salt_wordlen := ceil_div salt_bytelen 4
  let salt_aligned := zero_padded salt_wordlen.toNat salt.bytes
  let salt_aligned_data : Words :=
    ⟨.salt_aligned_data, salt_wordlen.toNat, fun i => salt_aligned.getD i (stack i)⟩
  let unmasked_ikm_data ←
    Proc.ofExcept (keyblob_key_unmask ikm (keyblob_share_num_words ikm.config))
  let unmasked_ikm := (word_bytes unmasked_ikm_data).take ikm.config.key_length.toNat
  let salt_mask := zeroed stack .salt_mask salt_wordlen.toNat
  let salt_key := local_key stack (hmac_key_config ikm.config.key_mode salt_bytelen)
  let salt_keyblob ←
    keyblob_from_key_and_mask salt_aligned_data salt_mask salt_key.config (keyblob_words salt_key)
  let salt_key := with_keyblob salt_key salt_keyblob
  let tag ← otcrypto_hmac H salt_key unmasked_ikm
  let tag_data := Words.set ⟨.tag_data, digest_words.toNat, stack⟩ 0 tag
  let prk_mask := zeroed stack .prk_mask digest_words.toNat
  let prk_keyblob ← keyblob_from_key_and_mask tag_data prk_mask prk.config (keyblob_words prk)
  pure (with_keyblob prk prk_keyblob)

/-- The checks at the start of `otcrypto_hkdf_expand`, with the number of words of a digest. -/
def hkdf_expand_checks (prk : BlindedKey) (info : ByteBuf) (okm : BlindedKey) :
    Except CryptoError u32 := do
  if okm.keyblob = none ∨ prk.keyblob = none then throw .OTCRYPTO_BAD_ARGS
  if info.dangling then throw .OTCRYPTO_BAD_ARGS
  if okm.config.security_level ≠ kOtcryptoKeySecurityLevelLow ∨
      prk.config.security_level ≠ kOtcryptoKeySecurityLevelLow then
    throw .OTCRYPTO_NOT_IMPLEMENTED
  let digest_words ← digest_num_words_from_key_mode prk.config.key_mode
  hkdf_check_prk digest_words prk
  keyblob_ensure_xor_masked okm.config
  if okm.keyblob_length ≠ keyblob_num_words okm.config * 4 then throw .OTCRYPTO_BAD_ARGS
  if ceil_div (ceil_div okm.config.key_length 4) digest_words > 255 then throw .OTCRYPTO_BAD_ARGS
  pure digest_words

/-- The loop of `otcrypto_hkdf_expand` with `n` turns left. -/
def expand_loop (prk : BlindedKey) (info : ByteBuf) (digest_words : u32) :
    ℕ → u8 → ℕ → Words → Proc Device CryptoError Words
  | 0, _, _, okm_data => pure okm_data
  | n + 1, i, t_data, okm_data => do
      -- `sizeof` of an array of `info.len + 1` bytes
      let info_and_counter := (info.bytes ++ [i + 1]).take (info.len + 1).toNat
      let ctx ← Proc.ofExcept (otcrypto_hmac_init prk)
      let (ctx, t_data) ←
        (if i ≠ 0 then do
          let t_bytes ← okm_data.read t_data digest_words.toNat
          let ctx ← otcrypto_hmac_update ctx (word_bytes t_bytes)
          pure (ctx, t_data + digest_words.toNat)
        else pure (ctx, t_data))
      let ctx ← otcrypto_hmac_update ctx info_and_counter
      let tag ← otcrypto_hmac_final H ctx digest_words
      let okm_data ← okm_data.write t_data tag
      expand_loop prk info digest_words n (i + 1) t_data okm_data

def otcrypto_hkdf_expand (stack : ℕ → u32) (prk : BlindedKey) (info : ByteBuf) (okm : BlindedKey) :
    Proc Device CryptoError BlindedKey := do
  let digest_words ← Proc.ofExcept (hkdf_expand_checks prk info okm)
  let okm_wordlen := ceil_div okm.config.key_length 4
  let num_iterations := ceil_div okm_wordlen digest_words
  let okm_data ← expand_loop H prk info digest_words num_iterations.toNat 0 0
    ⟨.okm_data, okm_wordlen.toNat, stack⟩
  let mask := zeroed stack .mask digest_words.toNat
  touch (mask.places 0 mask.len)
  let keyblob ← keyblob_from_key_and_mask okm_data mask okm.config (keyblob_words okm)
  pure (with_keyblob okm keyblob)

def otcrypto_hkdf (stack : ℕ → u32) (ikm : BlindedKey) (salt info : ByteBuf) (okm : BlindedKey) :
    Proc Device CryptoError BlindedKey := do
  let digest_wordlen ← Proc.ofExcept (digest_num_words_from_key_mode ikm.config.key_mode)
  let prk := local_key stack (hmac_key_config ikm.config.key_mode (digest_wordlen * 4))
  let prk ← otcrypto_hkdf_extract H stack ikm salt prk
  otcrypto_hkdf_expand H stack prk info okm

end

/-! ## RFC 5869 -/

/-- The bytes of a tag. -/
def HmacFunction.mac (H : HmacFunction) (mode : u32) (key msg : List u8) : List u8 :=
  word_bytes (H.tag mode key msg)

/-- A salt that is not there is a string of zeros as long as a digest. -/
def rfc5869_extract (H : HmacFunction) (mode : u32) (digest_len : ℕ) (salt ikm : List u8) :
    List u8 :=
  H.mac mode (if salt = [] then List.replicate digest_len 0 else salt) ikm

/-- `T(i)`. -/
def rfc5869_t (H : HmacFunction) (mode : u32) (prk info : List u8) : ℕ → List u8
  | 0 => []
  | i + 1 => H.mac mode prk (rfc5869_t H mode prk info i ++ info ++ [BitVec.ofNat 8 (i + 1)])

/-- The first `n` blocks of the output. -/
def rfc5869_blocks (H : HmacFunction) (mode : u32) (prk info : List u8) (n : ℕ) : List u8 :=
  (List.range n).flatMap fun i => rfc5869_t H mode prk info (i + 1)

def rfc5869_expand (H : HmacFunction) (mode : u32) (digest_len : ℕ) (prk info : List u8)
    (len : ℕ) : List u8 :=
  (rfc5869_blocks H mode prk info ((len + digest_len - 1) / digest_len)).take len

/-! ## Modes -/

/-- What the checks of a mode say about it. -/
structure HmacMode (mode d B : u32) : Prop where
  digest : digest_num_words_from_key_mode mode = .ok d
  block : block_words_from_key_mode mode = .ok B
  type : key_type mode = kOtcryptoKeyTypeHmac
  digest_pos : 0 < d.toNat
  digest_le : d.toNat ≤ B.toNat
  block_le : B.toNat ≤ 32

theorem hmacMode_of_digest {mode d : u32} (h : digest_num_words_from_key_mode mode = .ok d) :
    ∃ B, HmacMode mode d B := by
  unfold digest_num_words_from_key_mode at h
  split_ifs at h with h256 h384 h512
  · obtain rfl := Except.ok.inj h
    subst h256
    exact ⟨16, rfl, rfl, rfl, by decide, by decide, by decide⟩
  · obtain rfl := Except.ok.inj h
    subst h384
    exact ⟨32, rfl, rfl, rfl, by decide, by decide, by decide⟩
  · obtain rfl := Except.ok.inj h
    subst h512
    exact ⟨32, rfl, rfl, rfl, by decide, by decide, by decide⟩

namespace HmacMode

variable {mode d B : u32}

theorem not_ecc (h : HmacMode mode d B) : key_type mode ≠ kOtcryptoKeyTypeEcc := by
  rw [h.type]
  decide

theorem toNat_block_bytes (h : HmacMode mode d B) : (B * 4).toNat = 4 * B.toNat := by
  have hle := h.block_le
  rw [BitVec.toNat_mul, show (4 : u32).toNat = 4 from rfl, Nat.mod_eq_of_lt (by omega), Nat.mul_comm]

theorem toNat_digest_bytes (h : HmacMode mode d B) : (d * 4).toNat = 4 * d.toNat := by
  have hle := h.block_le
  have hd := h.digest_le
  rw [BitVec.toNat_mul, show (4 : u32).toNat = 4 from rfl, Nat.mod_eq_of_lt (by omega), Nat.mul_comm]

end HmacMode

/-! ## Keys of HMAC -/

/-- A key that HMAC takes and that holds both of its shares. -/
structure UsableKey (key : BlindedKey) : Prop where
  check : check_key key = .ok ()
  length : check_keyblob_length key = .ok ()
  low : key.config.security_level = kOtcryptoKeySecurityLevelLow
  holds : HoldsShares key

theorem splice_zeros_zero {m : ℕ} (ys : List u8) :
    splice (List.replicate m 0) 0 ys = ys ++ List.replicate (m - ys.length) 0 := by
  simp [splice]

/-- The end of what is written over zeros is set to zero as well. -/
theorem splice_end {ys : List u8} {k z a : ℕ} (h : a + z = ys.length) :
    splice (ys ++ List.replicate k 0) a (List.replicate z 0) =
      ys.take a ++ List.replicate (z + k) 0 := by
  have hdrop : (ys ++ List.replicate k (0 : u8)).drop (a + z) = List.replicate k 0 := by
    rw [h]
    exact List.drop_left
  rw [splice, List.length_replicate, hdrop, List.take_append_of_le_length (by omega),
    List.append_assoc, List.replicate_append_replicate]

theorem length_key_bytes {key : BlindedKey} (h : HoldsShares key)
    (htype : key_type key.config.key_mode ≠ kOtcryptoKeyTypeEcc) :
    (key_bytes key).length = key.config.key_length.toNat := by
  rw [key_bytes, List.length_take, length_word_bytes, length_unmasked h, share_num_words_eq htype,
    toNat_ceil_div _ _ (by decide), show (4 : u32).toNat = 4 from rfl]
  omega

/-- A key is brought to a block by zeros, also where its last word has other bytes. -/
theorem hmac_key_construct_exact (H : HmacFunction) {key : BlindedKey} {d B : u32}
    (hmode : HmacMode key.config.key_mode d B) (hlen : check_keyblob_length key = .ok ())
    (hkey : HoldsShares key) :
    ∃ k, hmac_key_construct key B = .ok k ∧
      ∀ msg, H.tag key.config.key_mode k msg = H.tag key.config.key_mode (key_bytes key) msg := by
  set n := (keyblob_share_num_words key.config).toNat with hn
  set bytes := word_bytes (unmasked key.words n) with hbytes
  set len := key.config.key_length.toNat with hlenNat
  have hunmask : keyblob_key_unmask key (keyblob_share_num_words key.config) =
      .ok (unmasked key.words n) := by
    rw [keyblob_key_unmask_eq, hlen]
    rfl
  have hwords : n = (len + 3) / 4 := by
    rw [hn, share_num_words_eq hmode.not_ecc, toNat_ceil_div _ _ (by decide)]
    rfl
  have hlength : bytes.length = 4 * n := by rw [hbytes, length_word_bytes, length_unmasked hkey]
  have hblock := hmode.toNat_block_bytes
  have hpad := fun (k : ℕ) (hk : len + k ≤ 4 * B.toNat) (msg : List u8) =>
    H.zero_padded (key_bytes key) msg k hmode.block
      (by rw [length_key_bytes hkey hmode.not_ecc]; exact hk)
  have hconstruct : hmac_key_construct key B =
      if key.config.key_length > B * 4 then .ok (bytes.take len)
      else if key.config.key_length % 4 ≠ 0 then
        .ok (splice (splice (List.replicate (4 * B.toNat) 0) 0 bytes)
          (4 * n - (4 - key.config.key_length % 4).toNat)
          (List.replicate (4 - key.config.key_length % 4).toNat 0))
      else .ok (splice (List.replicate (4 * B.toNat) 0) 0 bytes) := by
    simp only [hmac_key_construct, hunmask]
    rfl
  rw [hconstruct]
  by_cases hlong : key.config.key_length > B * 4
  · exact ⟨bytes.take len, if_pos hlong, fun _ => rfl⟩
  · have hshort : len ≤ 4 * B.toNat := by
      rw [gt_iff_lt, BitVec.lt_def] at hlong
      omega
    have hmod : (key.config.key_length % 4).toNat = len % 4 := BitVec.toNat_umod
    rw [if_neg hlong, splice_zeros_zero]
    by_cases hoffset : key.config.key_length % 4 = 0
    · have hzero : len % 4 = 0 := by rw [← hmod, hoffset]; rfl
      have htake : bytes = key_bytes key := by
        rw [key_bytes, ← hn, ← hbytes, List.take_of_length_le (by omega)]
      refine ⟨_, if_neg (not_not.mpr hoffset), fun msg => ?_⟩
      rw [htake]
      exact hpad _ (by rw [← htake]; omega) msg
    · have hne : len % 4 ≠ 0 := fun h0 => hoffset (BitVec.eq_of_toNat_eq (hmod.trans h0))
      have hzeros : (4 - key.config.key_length % 4).toNat = 4 - len % 4 := by
        rw [BitVec.toNat_sub_of_le, hmod]
        · rfl
        · rw [BitVec.le_def, hmod]
          show len % 4 ≤ 4
          omega
      refine ⟨_, if_pos hoffset, fun msg => ?_⟩
      rw [hzeros, splice_end (a := 4 * n - (4 - len % 4)) (by omega),
        show 4 * n - (4 - len % 4) = len by omega]
      exact hpad _ (by omega) msg

/-- The context that HMAC starts with computes the tags of the key. -/
theorem otcrypto_hmac_init_exact (H : HmacFunction) {key : BlindedKey} {d B : u32}
    (hmode : HmacMode key.config.key_mode d B) (hkey : UsableKey key) :
    ∃ k, otcrypto_hmac_init key = .ok ⟨key.config.key_mode, d, k, []⟩ ∧
      ∀ msg, H.tag key.config.key_mode k msg = H.tag key.config.key_mode (key_bytes key) msg := by
  obtain ⟨k, hk, htag⟩ := hmac_key_construct_exact H hmode hkey.length hkey.holds
  refine ⟨k, ?_, htag⟩
  simp [otcrypto_hmac_init, hkey.check, hkey.low, hmode.block, hmode.digest, hk, bind, Except.bind,
    pure, Except.pure]

theorem otcrypto_hmac_exact (H : HmacFunction) {key : BlindedKey} {d B : u32}
    {s : Device} {I : Device → Prop} (hmode : HmacMode key.config.key_mode d B)
    (hkey : UsableKey key) (msg : List u8) (hI : I s) :
    Guarded (otcrypto_hmac H key msg) s
      (fun r t => r = H.tag key.config.key_mode (key_bytes key) msg ∧ t = s) I := by
  obtain ⟨k, hk, htag⟩ := hmac_key_construct_exact H hmode hkey.length hkey.holds
  refine Guarded.ofExcept_bind hkey.check (Guarded.ofExcept_bind hmode.block
    (Guarded.ofExcept_bind hk (Guarded.step ⟨htag msg, rfl⟩ hI)))

/-! ## The loop of the expansion -/

/-- Nothing has been touched but what was before and places with `P`. -/
def Noted (base : List Touch) (P : Touch → Prop) (t : Device) : Prop :=
  ∀ x ∈ t.touched, x ∈ base ∨ P x

theorem Noted.add {base : List Touch} {P : Touch → Prop} {s : Device} (h : Noted base P s)
    {ts : List Touch} (hts : ∀ x ∈ ts, P x) :
    Noted base P { s with touched := s.touched ++ ts } := by
  intro x hx
  obtain hx | hx := List.mem_append.mp hx
  · exact h x hx
  · exact .inr (hts x hx)

/-- What turn `i` reads and writes. -/
def turn_places (a : Words) (d i : ℕ) : List Touch :=
  (if i = 0 then [] else a.places ((i - 1) * d) d) ++ a.places (i * d) d

def expand_places (a : Words) (d i n : ℕ) : List Touch :=
  (List.range' i n).flatMap (turn_places a d)

/-- The first `i` blocks are there, and the last of them where the next turn looks for it. -/
structure Expanded (H : HmacFunction) (mode : u32) (prk info : List u8) (d : ℕ) (a : Words)
    (i : ℕ) : Prop where
  blocks : word_bytes (a.at 0 (i * d)) = rfc5869_blocks H mode prk info i
  last : 0 < i → word_bytes (a.at ((i - 1) * d) d) = rfc5869_t H mode prk info i

section expand

variable {H : HmacFunction} {mode d B : u32} {prk : BlindedKey} {info : ByteBuf}
  {base : List Touch} {P : Touch → Prop}

theorem rfc5869_blocks_succ (H : HmacFunction) (mode : u32) (prk info : List u8) (i : ℕ) :
    rfc5869_blocks H mode prk info (i + 1) =
      rfc5869_blocks H mode prk info i ++ rfc5869_t H mode prk info (i + 1) := by
  simp [rfc5869_blocks, List.range_succ]

theorem Words.at_add (a : Words) (start m n : ℕ) :
    a.at start (m + n) = a.at start m ++ a.at (start + m) n := by
  rw [Words.at, Words.at, Words.at, ← List.map_append, List.range'_append_1]

theorem Expanded.succ {p i : List u8} {a : Words} {k : ℕ} {tag : List u32}
    (h : Expanded H mode p i d.toNat a k) (hlen : tag.length = d.toNat)
    (htag : word_bytes tag = rfc5869_t H mode p i (k + 1)) :
    Expanded H mode p i d.toNat (a.set (k * d.toNat) tag) (k + 1) := by
  refine ⟨?_, fun _ => ?_⟩
  · rw [Nat.add_mul, Nat.one_mul, Words.at_add, Nat.zero_add, Words.at_set hlen,
      Words.at_set_of_apart (.inl (by omega)), word_bytes_append, h.blocks, htag,
      rfc5869_blocks_succ]
  · rw [Nat.add_sub_cancel, Words.at_set hlen, htag]

/-- Where the buffer has room for the counter. -/
theorem info_and_counter_eq (hinfo : ¬info.dangling) (hroom : info.len ≠ BitVec.allOnes 32) (c : u8) :
    (info.bytes ++ [c]).take (info.len + 1).toNat = info.bytes ++ [c] := by
  have hne : info.len.toNat ≠ 2 ^ 32 - 1 := fun h => hroom (BitVec.eq_of_toNat_eq h)
  apply List.take_of_length_le
  rw [List.length_append, ByteBuf.length_bytes hinfo, BitVec.toNat_add,
    show (1 : u32).toNat = 1 from rfl, Nat.mod_eq_of_lt (by omega), List.length_singleton]

theorem ofNat8_eq_zero_iff {i : ℕ} (h : i ≤ 255) : BitVec.ofNat 8 i = 0 ↔ i = 0 := by
  constructor
  · intro h0
    have hmod := congrArg BitVec.toNat h0
    rwa [BitVec.toNat_ofNat, Nat.mod_eq_of_lt (by omega)] at hmod
  · rintro rfl
    rfl

/-- The first part of a turn: the block of the turn before, unless there was none. -/
theorem turn_start {ctx : HmacContext} {a : Words} {s : Device} {i : ℕ} (hi : i ≤ 255)
    (hmessage : ctx.message = []) {p q : List u8} (hexp : Expanded H mode p q d.toNat a i)
    (hs : Noted base P s)
    (hP : ∀ x ∈ (if i = 0 then [] else a.places ((i - 1) * d.toNat) d.toNat), P x) :
    Guarded (if BitVec.ofNat 8 i ≠ 0 then do
        let t_bytes ← a.read ((i - 1) * d.toNat) d.toNat
        let ctx ← otcrypto_hmac_update ctx (word_bytes t_bytes)
        pure (ctx, (i - 1) * d.toNat + d.toNat)
      else pure (ctx, (i - 1) * d.toNat)) s
      (fun r t => r = ({ ctx with message := rfc5869_t H mode p q i }, i * d.toNat) ∧
        t = { s with touched := s.touched ++
          (if i = 0 then [] else a.places ((i - 1) * d.toNat) d.toNat) }) (Noted base P) := by
  by_cases h0 : i = 0
  · subst h0
    rw [if_neg (show ¬(BitVec.ofNat 8 0 ≠ 0) by decide), if_pos rfl, List.append_nil]
    refine Guarded.pure ⟨?_, rfl⟩
    rw [Nat.zero_sub, rfc5869_t, ← hmessage]
  · rw [if_pos ((ofNat8_eq_zero_iff hi).not.mpr h0), if_neg h0]
    rw [if_neg h0] at hP
    have hnext : (i - 1) * d.toNat + d.toNat = i * d.toNat := by
      rw [← Nat.succ_mul, Nat.succ_eq_add_one, Nat.sub_add_cancel (Nat.pos_of_ne_zero h0)]
    refine Words.read_bind (Guarded.step_bind (Guarded.pure ⟨?_, rfl⟩) (hs.add hP))
    rw [hexp.last (Nat.pos_of_ne_zero h0), hnext, hmessage, List.nil_append]

/-- Without a turn the key is not looked at. -/
theorem expand_loop_exact (hmode : HmacMode prk.config.key_mode d B) (hinfo : ¬info.dangling)
    (hroom : info.len ≠ BitVec.allOnes 32) (n : ℕ) (hprk : 0 < n → UsableKey prk) :
    ∀ {i : ℕ} {a : Words} {s : Device}, i + n ≤ 255 →
      Expanded H prk.config.key_mode (key_bytes prk) info.bytes d.toNat a i →
      Noted base P s → (∀ x ∈ expand_places a d.toNat i n, P x) →
      Guarded (expand_loop H prk info d n (BitVec.ofNat 8 i) ((i - 1) * d.toNat) a) s
        (fun r t => Expanded H prk.config.key_mode (key_bytes prk) info.bytes d.toNat r (i + n) ∧
          r.array = a.array ∧ r.len = a.len ∧
          t.touched = s.touched ++ expand_places a d.toNat i n) (Noted base P) := by
  induction n with
  | zero =>
      intro i a s _ hexp _ _
      exact Guarded.pure ⟨hexp, rfl, rfl, (List.append_nil _).symm⟩
  | succ n ih =>
      intro i a s hle hexp hs hP
      have husable := hprk (Nat.succ_pos n)
      obtain ⟨k, hinit, htag⟩ := otcrypto_hmac_init_exact H hmode husable
      have hplaces : expand_places a d.toNat i (n + 1) =
          turn_places a d.toNat i ++ expand_places a d.toNat (i + 1) n := by
        rw [expand_places, List.range'_succ, List.flatMap_cons]
        rfl
      rw [hplaces] at hP ⊢
      have hturn : ∀ x ∈ turn_places a d.toNat i, P x := fun x hx =>
        hP x (List.mem_append_left _ hx)
      have hstart := fun x hx => hturn x (List.mem_append_left _ hx)
      refine Guarded.ofExcept_bind hinit
        (Guarded.bind (turn_start (by omega) rfl hexp hs hstart) ?_)
      rintro _ _ ⟨rfl, rfl⟩
      refine Guarded.step_bind ?_ (hs.add hstart)
      rw [otcrypto_hmac_final, if_neg (not_not.mpr rfl)]
      refine Guarded.step_bind (Words.write_bind ?_) (hs.add hstart)
      rw [info_and_counter_eq hinfo hroom, htag]
      have hlen := H.length_tag (key_bytes prk)
        (rfc5869_t H prk.config.key_mode (key_bytes prk) info.bytes i ++
          (info.bytes ++ [BitVec.ofNat 8 i + 1])) hmode.digest
      have hsucc := hexp.succ hlen (by
        rw [rfc5869_t, ← List.append_assoc, BitVec.ofNat_add]
        rfl)
      have hnoted : Noted base P { s with touched := s.touched ++ turn_places a d.toNat i } :=
        hs.add hturn
      have hrest := ih (fun _ => husable) (a := a.set (i * d.toNat) (H.tag prk.config.key_mode (key_bytes prk)
        (rfc5869_t H prk.config.key_mode (key_bytes prk) info.bytes i ++
          (info.bytes ++ [BitVec.ofNat 8 i + 1])))) (by omega) hsucc hnoted fun x hx =>
        hP x (List.mem_append_right _ hx)
      rw [Nat.add_sub_cancel, BitVec.ofNat_add] at hrest
      rw [hlen, List.append_assoc s.touched]
      refine Guarded.mono hrest ?_ fun _ => id
      rintro r t ⟨hr, harray, hrlen, htouched⟩
      rw [Nat.add_assoc i 1 n, Nat.add_comm 1 n] at hr
      refine ⟨hr, harray, hrlen, ?_⟩
      rw [htouched, List.append_assoc]
      rfl

end expand

/-! ## Keys that are made here -/

/-- The keyblob is as long as the key says. -/
def Allocated (key : BlindedKey) : Prop := 4 * key.words.length = key.keyblob_length.toNat

/-- The shares of a key whose keyblob is replaced. -/
theorem unmasked_with_keyblob {key : BlindedKey} {w : Words} {n : ℕ} (hnull : key.keyblob ≠ none)
    (hlen : key.words.length = 2 * n) :
    unmasked (with_keyblob key w).words n = hardened_xor (w.at 0 n) (w.at n n) := by
  obtain ⟨old, hold⟩ := Option.ne_none_iff_exists'.mp hnull
  have hwords : (with_keyblob key w).words = w.at 0 n ++ w.at n n := by
    have hold' : key.words = old := by simp [BlindedKey.words, hold]
    have hrange : (with_keyblob key w).words = (List.range old.length).map w.word := by
      simp [with_keyblob, Aes.BlindedKey.update_checksum, BlindedKey.words, hold]
    have hsplit := Words.at_add w 0 n n
    rw [hrange, ← hold', hlen, Nat.two_mul, List.range_eq_range', ← Words.at, hsplit, Nat.zero_add]
  have hfirst : slice (w.at 0 n ++ w.at n n) 0 n = w.at 0 n := by
    rw [slice, List.drop_zero]
    exact List.take_left' Words.length_at
  have hsecond : slice (w.at 0 n ++ w.at n n) n n = w.at n n := by
    rw [slice, List.drop_left' Words.length_at]
    exact List.take_of_length_le Words.length_at.le
  rw [hwords, unmasked, hfirst, hsecond]

/-- It stands for what the shares in it add up to. -/
theorem key_bytes_with_keyblob {key : BlindedKey} {w : Words} {n : ℕ} (hnull : key.keyblob ≠ none)
    (hn : (keyblob_share_num_words key.config).toNat = n) (hlen : key.words.length = 2 * n) :
    key_bytes (with_keyblob key w) =
      (word_bytes (hardened_xor (w.at 0 n) (w.at n n))).take key.config.key_length.toNat := by
  show (word_bytes (unmasked (with_keyblob key w).words
    (keyblob_share_num_words key.config).toNat)).take key.config.key_length.toNat = _
  rw [hn, unmasked_with_keyblob hnull hlen]

theorem length_words_with_keyblob (key : BlindedKey) (w : Words) :
    (with_keyblob key w).words.length = key.words.length := by
  unfold with_keyblob Aes.BlindedKey.update_checksum BlindedKey.words
  cases key.keyblob with
  | none => rfl
  | some old => simp

/-- The number of words of both shares does not overflow. -/
theorem toNat_keyblob_num_words {config : KeyConfig} (hhw : config.hw_backed = kHardenedBoolFalse) :
    (keyblob_num_words config).toNat = 2 * (keyblob_share_num_words config).toNat := by
  have hshare : (keyblob_share_num_words config).toNat =
      ((Aes.keyblob_share_num_bytes config).toNat + 3) / 4 := toNat_ceil_div _ _ (by decide)
  rw [keyblob_num_words, if_neg (by rw [hhw]; decide), BitVec.toNat_mul,
    show (2 : u32).toNat = 2 from rfl, Nat.mod_eq_of_lt (by omega)]

/-- A keyblob of the length that the checks ask for, where that length does not overflow. -/
theorem toNat_keyblob_length {key : BlindedKey} {n : ℕ}
    (hhw : key.config.hw_backed = kHardenedBoolFalse)
    (hlen : key.keyblob_length = keyblob_num_words key.config * 4)
    (hn : (keyblob_share_num_words key.config).toNat = n) (hsmall : 8 * n < 2 ^ 32) :
    key.keyblob_length.toNat = 4 * (2 * n) := by
  rw [hlen, BitVec.toNat_mul, toNat_keyblob_num_words hhw, hn, show (4 : u32).toNat = 4 from rfl,
    Nat.mod_eq_of_lt (by omega)]
  omega

/-- A key that has been given a keyblob by the library can be used for HMAC. -/
theorem usable_with_keyblob {key : BlindedKey} {w : Words} (hnull : key.keyblob ≠ none)
    (hversion : key.config.version = kOtcryptoLibVersion1)
    (hhw : key.config.hw_backed = kHardenedBoolFalse)
    (hlow : key.config.security_level = kOtcryptoKeySecurityLevelLow)
    (hlen : key.keyblob_length = keyblob_num_words key.config * 4)
    (hholds : HoldsShares key) : UsableKey (with_keyblob key w) where
  check := by
    have hsome : (with_keyblob key w).keyblob ≠ none := by
      obtain ⟨old, hold⟩ := Option.ne_none_iff_exists'.mp hnull
      simp [with_keyblob, Aes.BlindedKey.update_checksum, hold]
    have hintegrity : integrity_blinded_key_check (with_keyblob key w) = kHardenedBoolTrue :=
      (integrity_blinded_key_check_iff _).mpr ⟨hversion, rfl⟩
    have hsoftware : ¬(with_keyblob key w).config.hw_backed ≠ kHardenedBoolFalse := not_not.mpr hhw
    rw [check_key, if_neg hsome, if_neg hsoftware, if_neg (not_not.mpr hintegrity)]
  length := if_pos hlen
  low := hlow
  holds := by
    rw [HoldsShares, length_words_with_keyblob]
    exact hholds

/-! ## What the checks say -/

structure PrkChecks (d : u32) (prk : BlindedKey) : Prop where
  type : key_type prk.config.key_mode = kOtcryptoKeyTypeHmac
  key_length : prk.config.key_length = d * 4
  keyblob_length : prk.keyblob_length = keyblob_num_words prk.config * 4
  hw_backed : prk.config.hw_backed = kHardenedBoolFalse

theorem xor_masked_iff {config : KeyConfig} : keyblob_ensure_xor_masked config = .ok () ↔
    config.hw_backed = kHardenedBoolFalse ∧ (key_type config.key_mode = kOtcryptoKeyTypeAes ∨
      key_type config.key_mode = kOtcryptoKeyTypeHmac ∨
      key_type config.key_mode = kOtcryptoKeyTypeKmac ∨
      key_type config.key_mode = kOtcryptoKeyTypeKdf) := by
  unfold keyblob_ensure_xor_masked
  split_ifs with hhw htype
  · exact iff_of_false nofun fun h => hhw h.1
  · exact iff_of_true rfl ⟨not_not.mp hhw, htype⟩
  · exact iff_of_false nofun fun h => htype h.2

theorem not_ecc_of_xor_masked {config : KeyConfig} (h : keyblob_ensure_xor_masked config = .ok ()) :
    key_type config.key_mode ≠ kOtcryptoKeyTypeEcc := by
  intro hecc
  have htype := (xor_masked_iff.mp h).2
  rw [hecc] at htype
  revert htype
  decide

theorem hkdf_check_prk_iff {d : u32} {prk : BlindedKey} :
    hkdf_check_prk d prk = .ok () ↔ PrkChecks d prk := by
  unfold hkdf_check_prk
  split_ifs with htype hlength hblob
  · exact iff_of_false nofun fun h => htype h.type
  · exact iff_of_false nofun fun h => hlength h.key_length
  · exact iff_of_false nofun fun h => hblob h.keyblob_length
  · rw [xor_masked_iff]
    have htype' := not_not.mp htype
    exact ⟨fun h => ⟨htype', not_not.mp hlength, not_not.mp hblob, h.1⟩,
      fun h => ⟨h.hw_backed, .inr (.inl htype')⟩⟩

structure ExpandChecks (d : u32) (prk : BlindedKey) (info : ByteBuf) (okm : BlindedKey) : Prop where
  okm_keyblob : okm.keyblob ≠ none
  prk_keyblob : prk.keyblob ≠ none
  info : ¬info.dangling
  low : prk.config.security_level = kOtcryptoKeySecurityLevelLow
  digest : digest_num_words_from_key_mode prk.config.key_mode = .ok d
  prk : PrkChecks d prk
  masked : keyblob_ensure_xor_masked okm.config = .ok ()
  keyblob_length : okm.keyblob_length = keyblob_num_words okm.config * 4
  iterations : ¬ceil_div (ceil_div okm.config.key_length 4) d > 255

theorem expandChecks_of_ok {d : u32} {prk okm : BlindedKey} {info : ByteBuf}
    (h : hkdf_expand_checks prk info okm = .ok d) : ExpandChecks d prk info okm := by
  unfold hkdf_expand_checks at h
  obtain ⟨hnull, h⟩ := ok_of_throw h
  obtain ⟨hinfo, h⟩ := ok_of_throw h
  obtain ⟨hlow, h⟩ := ok_of_throw h
  obtain ⟨v, hdigest, h⟩ := ok_of_bind h
  obtain ⟨_, hprk, h⟩ := ok_of_bind h
  obtain ⟨_, hmasked, h⟩ := ok_of_bind h
  obtain ⟨hlen, h⟩ := ok_of_throw h
  obtain ⟨hiterations, h⟩ := ok_of_throw h
  obtain rfl := Except.ok.inj h
  obtain ⟨hokm, hblob⟩ := not_or.mp hnull
  exact ⟨hokm, hblob, hinfo, not_not.mp (not_or.mp hlow).2, hdigest, hkdf_check_prk_iff.mp hprk,
    hmasked, not_not.mp hlen, hiterations⟩

structure ExtractChecks (d : u32) (ikm : BlindedKey) (salt : ByteBuf) (prk : BlindedKey) :
    Prop where
  ikm_keyblob : ikm.keyblob ≠ none
  prk_keyblob : prk.keyblob ≠ none
  salt : ¬salt.dangling
  mode : prk.config.key_mode = ikm.config.key_mode
  digest : digest_num_words_from_key_mode ikm.config.key_mode = .ok d
  prk : PrkChecks d prk

theorem extractChecks_of_ok {d : u32} {ikm prk : BlindedKey} {salt : ByteBuf}
    (h : hkdf_extract_checks ikm salt prk = .ok d) : ExtractChecks d ikm salt prk := by
  unfold hkdf_extract_checks at h
  obtain ⟨hnull, h⟩ := ok_of_throw h
  obtain ⟨hsalt, h⟩ := ok_of_throw h
  obtain ⟨-, h⟩ := ok_of_throw h
  obtain ⟨-, h⟩ := ok_of_throw h
  obtain ⟨hmode, h⟩ := ok_of_throw h
  obtain ⟨v, hdigest, h⟩ := ok_of_bind h
  obtain ⟨_, hprk, h⟩ := ok_of_bind h
  obtain rfl := Except.ok.inj h
  obtain ⟨hikm, hblob⟩ := not_or.mp hnull
  exact ⟨hikm, hblob, hsalt, not_not.mp hmode, hdigest, hkdf_check_prk_iff.mp hprk⟩

/-! ## The expansion -/

section expansion

variable {H : HmacFunction} {stack : ℕ → u32} {prk okm : BlindedKey} {info : ByteBuf} {d : u32}
  {base : List Touch} {P : Touch → Prop} {s : Device}

/-- The words of the output, and how many turns the loop makes for them. -/
def okm_words (okm : BlindedKey) : ℕ := (okm.config.key_length.toNat + 3) / 4

def okm_turns (okm : BlindedKey) (d : u32) : ℕ := (okm_words okm + d.toNat - 1) / d.toNat

theorem toNat_okm_wordlen (okm : BlindedKey) :
    (ceil_div okm.config.key_length 4).toNat = okm_words okm :=
  toNat_ceil_div _ _ (by decide)

theorem toNat_num_iterations {B : u32} (hmode : HmacMode prk.config.key_mode d B) :
    (ceil_div (ceil_div okm.config.key_length 4) d).toNat = okm_turns okm d := by
  rw [toNat_ceil_div _ _ hmode.digest_pos, toNat_okm_wordlen]
  rfl

theorem Words.places_congr {a b : Words} (harray : a.array = b.array) (hlen : a.len = b.len)
    (start n : ℕ) : a.places start n = b.places start n := by
  rw [Words.places, Words.places, harray, hlen]

/-- The blocks cover the words of the output. -/
theorem okm_words_le (okm : BlindedKey) (hd : 0 < d.toNat) :
    okm_words okm ≤ okm_turns okm d * d.toNat := by
  have hsplit := Nat.div_add_mod (okm_words okm + d.toNat - 1) d.toNat
  have hrest := Nat.mod_lt (okm_words okm + d.toNat - 1) hd
  rw [okm_turns, Nat.mul_comm]
  omega

theorem share_words_eq (hmasked : keyblob_ensure_xor_masked okm.config = .ok ()) :
    (keyblob_share_num_words okm.config).toNat = okm_words okm := by
  rw [share_num_words_eq (not_ecc_of_xor_masked hmasked), toNat_okm_wordlen]

theorem length_okm_words (hokm : Allocated okm)
    (hmasked : keyblob_ensure_xor_masked okm.config = .ok ())
    (hlen : okm.keyblob_length = keyblob_num_words okm.config * 4)
    (hsmall : 8 * okm_words okm < 2 ^ 32) : okm.words.length = 2 * okm_words okm := by
  have hbytes := toNat_keyblob_length (xor_masked_iff.mp hmasked).1 hlen (share_words_eq hmasked) hsmall
  rw [Allocated, hbytes] at hokm
  omega

/-- The places that are touched once the output is there. -/
def keyblob_places (a : Words) (okm : BlindedKey) (d : u32) : List Touch :=
  let mask : Words := ⟨.mask, d.toNat, fun _ => 0⟩
  mask.places 0 d.toNat ++
    masked_places a mask (keyblob_words okm) (okm_words okm) (2 * okm_words okm)

/-- The end of both derivations: the words of the output become a key, under a mask of zeros. -/
theorem derived_key_exact {a : Words} {total : ℕ}
    (hnull : okm.keyblob ≠ none) (hmasked : keyblob_ensure_xor_masked okm.config = .ok ())
    (hlen : okm.words.length = 2 * okm_words okm) (hcover : okm_words okm ≤ total)
    (hs : Noted base P s) (hP : ∀ x ∈ keyblob_places a okm d, P x) :
    Guarded (do
      touch (Words.places (zeroed stack .mask d.toNat) 0 (zeroed stack .mask d.toNat).len)
      let keyblob ← keyblob_from_key_and_mask a (zeroed stack .mask d.toNat) okm.config
        (keyblob_words okm)
      pure (with_keyblob okm keyblob)) s
      (fun r t => key_bytes r =
          (word_bytes (a.at 0 total)).take okm.config.key_length.toNat ∧
        t.touched = s.touched ++ keyblob_places a okm d) (Noted base P) := by
  have hwords := share_words_eq hmasked
  have htotal := toNat_keyblob_num_words (xor_masked_iff.mp hmasked).1
  rw [hwords] at htotal
  have hmask := hs.add fun x hx => hP x (List.mem_append_left _ hx)
  refine Guarded.modify_bind ?_
  refine Guarded.bind (keyblob_from_key_and_mask_exact (hmask.add fun x hx => ?_) hmasked hwords) ?_
  · exact hP x (List.mem_append_right _ (List.mem_append_left _ hx))
  · rintro w t ⟨hsum, htouched⟩
    refine Guarded.pure ⟨?_, ?_⟩
    · have hfirst : a.at 0 (okm_words okm) = (a.at 0 total).take (okm_words okm) := by
        have hsplit := Words.at_add a 0 (okm_words okm) (total - okm_words okm)
        rw [Nat.add_sub_cancel' hcover] at hsplit
        rw [hsplit, List.take_left' Words.length_at]
      have hbytes : okm.config.key_length.toNat ≤ 4 * okm_words okm := by
        rw [okm_words]
        omega
      rw [key_bytes_with_keyblob hnull hwords hlen, hsum, hfirst, take_word_bytes, List.take_take,
        Nat.min_eq_left hbytes]
    · rw [htouched, htotal, keyblob_places, List.append_assoc]
      rfl

/-- The number of blocks, counted in bytes. -/
theorem okm_turns_eq (okm : BlindedKey) (hd : 0 < d.toNat) :
    (okm.config.key_length.toNat + 4 * d.toNat - 1) / (4 * d.toNat) = okm_turns okm d := by
  rw [okm_turns, okm_words, ← Nat.div_div_eq_div_mul]
  congr 1
  omega

/-- Everything that an expansion touches. -/
def hkdf_places (okm : BlindedKey) (d : u32) : List Touch :=
  let okm_data : Words := ⟨.okm_data, okm_words okm, fun _ => 0⟩
  expand_places okm_data d.toNat 0 (okm_turns okm d) ++ keyblob_places okm_data okm d

theorem keyblob_places_congr {a b : Words} (harray : a.array = b.array) (hlen : a.len = b.len) :
    keyblob_places a okm d = keyblob_places b okm d := by
  rw [keyblob_places, masked_places, Words.places_congr harray hlen]
  rfl

/-- The blocks of the loop, cut to the length of the output key, and its keyblob made of them. -/
theorem otcrypto_hkdf_expand_exact (hchecks : hkdf_expand_checks prk info okm = .ok d)
    (hprk : 0 < okm_words okm → UsableKey prk) (hokm : Allocated okm)
    (hroom : info.len ≠ BitVec.allOnes 32) (hs : Noted base P s)
    (hP : ∀ x ∈ hkdf_places okm d, P x) :
    Guarded (otcrypto_hkdf_expand H stack prk info okm) s (fun r t =>
      key_bytes r = rfc5869_expand H prk.config.key_mode (4 * d.toNat) (key_bytes prk) info.bytes
        okm.config.key_length.toNat ∧
      t.touched = s.touched ++ hkdf_places okm d) (Noted base P) := by
  have hok := expandChecks_of_ok hchecks
  obtain ⟨B, hmode⟩ := hmacMode_of_digest hok.digest
  have hturns : okm_turns okm d ≤ 255 := by
    have hle := hok.iterations
    rw [gt_iff_lt, BitVec.lt_def, toNat_num_iterations hmode] at hle
    exact Nat.not_lt.mp hle
  have hcover := okm_words_le okm hmode.digest_pos
  have hsmall : okm_words okm ≤ 255 * 32 :=
    hcover.trans (Nat.mul_le_mul hturns (hmode.digest_le.trans hmode.block_le))
  have hlen := length_okm_words hokm hok.masked hok.keyblob_length (by omega)
  set okm_data : Words := ⟨.okm_data, okm_words okm, stack⟩ with hdata
  have hstart : Expanded H prk.config.key_mode (key_bytes prk) info.bytes d.toNat okm_data 0 :=
    ⟨by rw [Nat.zero_mul]; rfl, fun h => absurd h (Nat.lt_irrefl 0)⟩
  have hloop : ∀ x ∈ expand_places okm_data d.toNat 0 (okm_turns okm d), P x := fun x hx =>
    hP x (List.mem_append_left _ hx)
  have hturn : 0 < okm_turns okm d → 0 < okm_words okm := by
    intro hpos
    by_contra hzero
    have hnone : okm_turns okm d = 0 := by
      rw [okm_turns, Nat.eq_zero_of_not_pos hzero]
      exact Nat.div_eq_of_lt (by have := hmode.digest_pos; omega)
    omega
  refine Guarded.ofExcept_bind hchecks ?_
  dsimp only
  rw [toNat_num_iterations hmode, toNat_okm_wordlen]
  have hblocks := expand_loop_exact hmode hok.info hroom (okm_turns okm d) (fun h => hprk (hturn h))
    (by rwa [Nat.zero_add]) hstart hs hloop
  rw [Nat.zero_sub, Nat.zero_mul, Nat.zero_add] at hblocks
  refine Guarded.bind hblocks ?_
  rintro r t ⟨hr, harray, hrlen, htouched⟩
  have ht : Noted base P t := by
    intro x hx
    rw [htouched] at hx
    exact (hs.add hloop) x hx
  have hplaces : keyblob_places r okm d = keyblob_places okm_data okm d :=
    keyblob_places_congr harray hrlen
  refine Guarded.mono (derived_key_exact hok.okm_keyblob hok.masked hlen hcover ht fun x hx => ?_) ?_
    fun _ => id
  · rw [hplaces] at hx
    exact hP x (List.mem_append_right _ hx)
  · rintro k t' ⟨hk, htouched'⟩
    refine ⟨?_, ?_⟩
    · rw [hk, hr.blocks, rfc5869_expand, okm_turns_eq okm hmode.digest_pos]
    · rw [htouched', htouched, hplaces, List.append_assoc]
      rfl

end expansion

/-! ## The extraction -/

section extraction

variable {H : HmacFunction} {stack : ℕ → u32} {ikm prk : BlindedKey} {salt : ByteBuf} {d : u32}
  {s : Device}

/-- A key on the stack has room for both of its shares. -/
theorem holdsShares_local_key (stack : ℕ → u32) (mode len : u32) :
    (local_key stack (hmac_key_config mode len)).words.length =
      2 * (keyblob_share_num_words (hmac_key_config mode len)).toNat := by
  have hlen : (local_key stack (hmac_key_config mode len)).words.length =
      (keyblob_num_words (hmac_key_config mode len)).toNat := by
    simp [local_key, BlindedKey.words]
  have hnum : (keyblob_num_words (hmac_key_config mode len)).toNat =
      2 * (keyblob_share_num_words (hmac_key_config mode len)).toNat :=
    toNat_keyblob_num_words rfl
  rw [hlen, hnum]

/-- The salt as a key: what RFC 5869 takes as the key of the extraction. -/
theorem salt_bytes_eq (hsalt : ¬salt.dangling) {len : u32}
    (hlen : len = if salt.len = 0 then d * 4 else salt.len) {n : ℕ} (hn : n = (len.toNat + 3) / 4) :
    (word_bytes (zero_padded n salt.bytes)).take len.toNat =
      if salt.bytes = [] then List.replicate (d * 4).toNat 0 else salt.bytes := by
  have hbytes := ByteBuf.length_bytes hsalt
  by_cases hzero : salt.len = 0
  · have hnil : salt.bytes = [] := List.eq_nil_of_length_eq_zero (by rw [hbytes, hzero]; rfl)
    rw [if_pos hzero] at hlen
    rw [if_pos hnil, hnil, word_bytes_zero_padded (Nat.zero_le _), List.nil_append,
      List.take_replicate, hlen]
    congr 1
    rw [List.length_nil, hn, hlen]
    omega
  · have hne : salt.bytes ≠ [] := by
      intro hnil
      rw [hnil] at hbytes
      exact hzero (BitVec.eq_of_toNat_eq hbytes.symm)
    rw [if_neg hzero] at hlen
    rw [if_neg hne, word_bytes_zero_padded (by rw [hbytes, hn, hlen]; omega), hlen,
      List.take_left' hbytes]

/-- The HMAC of the input key under the salt, or under zeros where there is none. -/
theorem otcrypto_hkdf_extract_exact (H : HmacFunction) (stack : ℕ → u32) (s : Device)
    (hchecks : hkdf_extract_checks ikm salt prk = .ok d)
    (hlen : check_keyblob_length ikm = .ok ()) (hprk : prk.words.length = 2 * d.toNat) :
    Guarded (otcrypto_hkdf_extract H stack ikm salt prk) s (fun r _ =>
      key_bytes r = rfc5869_extract H ikm.config.key_mode (4 * d.toNat) salt.bytes (key_bytes ikm) ∧
      ∃ w, r = with_keyblob prk w) fun _ => True := by
  have hok := extractChecks_of_ok hchecks
  obtain ⟨B, hmode⟩ := hmacMode_of_digest hok.digest
  have hunmask : keyblob_key_unmask ikm (keyblob_share_num_words ikm.config) =
      .ok (unmasked ikm.words (keyblob_share_num_words ikm.config).toNat) := by
    rw [keyblob_key_unmask_eq, hlen]
    rfl
  refine Guarded.ofExcept_bind hchecks (Guarded.ofExcept_bind hunmask ?_)
  generalize hsaltlen : (if salt.len = 0 then d * 4 else salt.len) = salt_bytelen
  set n := (ceil_div salt_bytelen 4).toNat with hn
  have hwords : n = (salt_bytelen.toNat + 3) / 4 := toNat_ceil_div _ _ (by decide)
  set config := hmac_key_config ikm.config.key_mode salt_bytelen
  have hshare : (keyblob_share_num_words config).toNat = n :=
    congrArg BitVec.toNat (share_num_words_eq (show key_type config.key_mode ≠ _ from hmode.not_ecc))
  -- the salt becomes a key whose second share is zero
  refine Guarded.bind (keyblob_from_key_and_mask_exact trivial
    (xor_masked_iff.mpr ⟨rfl, .inr (.inl hmode.type)⟩) hshare) ?_
  rintro w t ⟨hsum, -⟩
  have hroom := holdsShares_local_key stack ikm.config.key_mode salt_bytelen
  have husable : UsableKey (with_keyblob (local_key stack config) w) :=
    usable_with_keyblob (Option.some_ne_none _) rfl rfl rfl rfl hroom.ge
  have haligned : Words.at ⟨.salt_aligned_data, n,
      fun i => (zero_padded n salt.bytes).getD i (stack i)⟩ 0 n = zero_padded n salt.bytes := by
    apply List.ext_getElem
    · simp
    · intro i hi hlt
      have hin : i < n := by simpa using hi
      rw [← List.getD_eq_getElem _ 0 hi, Words.getD_at hin, Nat.zero_add]
      exact List.getD_eq_getElem _ _ hlt
  have hnull : (local_key stack config).keyblob ≠ none := Option.some_ne_none _
  have hsalt : key_bytes (with_keyblob (local_key stack config) w) =
      if salt.bytes = [] then List.replicate (d * 4).toNat 0 else salt.bytes := by
    rw [key_bytes_with_keyblob hnull hshare (hroom.trans (congrArg (2 * ·) hshare)), hsum, haligned]
    exact salt_bytes_eq hok.salt hsaltlen.symm hwords
  have hsaltmode : HmacMode (with_keyblob (local_key stack config) w).config.key_mode d B := hmode
  refine Guarded.bind (otcrypto_hmac_exact H hsaltmode husable _ trivial) ?_
  rintro tag _ ⟨rfl, rfl⟩
  have hd : (keyblob_share_num_words prk.config).toNat = d.toNat := by
    have hbytes := hmode.toNat_digest_bytes
    rw [share_num_words_eq (by rw [hok.mode]; exact hmode.not_ecc), toNat_ceil_div _ _ (by decide),
      hok.prk.key_length, hbytes, show (4 : u32).toNat = 4 from rfl]
    omega
  have hxor : keyblob_ensure_xor_masked prk.config = .ok () :=
    xor_masked_iff.mpr ⟨hok.prk.hw_backed, .inr (.inl hok.prk.type)⟩
  refine Guarded.bind (keyblob_from_key_and_mask_exact trivial hxor hd) ?_
  rintro w' t' ⟨hsum', -⟩
  refine Guarded.pure ⟨?_, w', rfl⟩
  have htag := H.length_tag (key_bytes (with_keyblob (local_key stack config) w))
    ((word_bytes (unmasked ikm.words (keyblob_share_num_words ikm.config).toNat)).take
      ikm.config.key_length.toNat) hsaltmode.digest
  rw [key_bytes_with_keyblob hok.prk_keyblob hd hprk, hsum', Words.at_set htag, hok.prk.key_length,
    List.take_of_length_le]
  · rw [hsalt, rfc5869_extract, hmode.toNat_digest_bytes]
    rfl
  · rw [length_word_bytes, hmode.toNat_digest_bytes]
    exact (congrArg (4 * ·) htag).le

/-- The checks of the extraction, and the length of the keyblob that it unmasks. -/
theorem otcrypto_hkdf_extract_refuses {e : CryptoError}
    (h : (∃ e, hkdf_extract_checks ikm salt prk = .error e) ∨ check_keyblob_length ikm = .error e) :
    Refuses (otcrypto_hkdf_extract H stack ikm salt prk) s fun _ => True := by
  refine Refuses.ofExcept trivial fun d hd => ?_
  obtain ⟨e', he'⟩ | hlen := h
  · rw [hd] at he'
    cases he'
  · refine Refuses.ofExcept_bind (e := e) ?_ trivial
    rw [keyblob_key_unmask_eq, hlen]
    rfl

end extraction

/-! ## HKDF -/

/-- A call that leaves a key with these bytes, unless an operation fails or the arguments are not
accepted. -/
def Derives (p : Proc Device CryptoError BlindedKey) (s : Device) (accepts : Prop)
    (bytes : List u8) : Prop :=
  ∀ F : Fate → Prop, Spec F p s (fun r _ => key_bytes r = bytes)
    (fun _ _ => ¬accepts ∨ F .failed) fun _ => F .lost

theorem Guarded.derives {p : Proc Device CryptoError BlindedKey} {s : Device} {accepts : Prop}
    {bytes : List u8} {I : Device → Prop} (h : Guarded p s (fun r _ => key_bytes r = bytes) I) :
    Derives p s accepts bytes :=
  fun F => (h F).conseq (fun _ _ => id) (fun _ _ h => .inr h.1) fun _ => id

theorem Refuses.derives {p : Proc Device CryptoError BlindedKey} {s : Device} {accepts : Prop}
    {bytes : List u8} {I : Device → Prop} (h : Refuses p s I) (hnot : ¬accepts) :
    Derives p s accepts bytes :=
  fun F => (h F).conseq (fun _ _ => False.elim) (fun _ _ _ => .inl hnot) fun _ => id

/-- The intermediate key of `otcrypto_hkdf` before it is derived. -/
def hkdf_prk (stack : ℕ → u32) (ikm : BlindedKey) (d : u32) : BlindedKey :=
  local_key stack (hmac_key_config ikm.config.key_mode (d * 4))

/-- The arguments pass the checks: the mode of the input key, the checks of the extraction and the
length of its keyblob, and the checks of the expansion. -/
def HkdfAccepts (stack : ℕ → u32) (ikm : BlindedKey) (salt info : ByteBuf) (okm : BlindedKey) :
    Prop :=
  ∃ d, digest_num_words_from_key_mode ikm.config.key_mode = .ok d ∧
    hkdf_extract_checks ikm salt (hkdf_prk stack ikm d) = .ok d ∧
    check_keyblob_length ikm = .ok () ∧
    hkdf_expand_checks (hkdf_prk stack ikm d) info okm = .ok d

/-- RFC 5869: the key that is extracted and expanded to `len` bytes. -/
def rfc5869_hkdf (H : HmacFunction) (mode : u32) (digest_len : ℕ) (salt ikm info : List u8)
    (len : ℕ) : List u8 :=
  rfc5869_expand H mode digest_len (rfc5869_extract H mode digest_len salt ikm) info len

/-- The bytes of a digest of a mode. -/
def digest_bytes (mode : u32) : ℕ :=
  match digest_num_words_from_key_mode mode with
  | .ok d => 4 * d.toNat
  | .error _ => 0

/-- The checks do not look at what is in the keyblob. -/
theorem hkdf_expand_checks_with_keyblob {prk okm : BlindedKey} {info : ByteBuf} (w : Words) :
    hkdf_expand_checks (with_keyblob prk w) info okm = hkdf_expand_checks prk info okm := by
  have hnull : (with_keyblob prk w).keyblob = none ↔ prk.keyblob = none := by
    simp [with_keyblob, Aes.BlindedKey.update_checksum]
  simp only [hkdf_expand_checks, hnull]
  rfl

/-- What is derived is the output of RFC 5869. -/
theorem otcrypto_hkdf_derives (H : HmacFunction) (stack : ℕ → u32) (ikm okm : BlindedKey)
    (salt info : ByteBuf) (s : Device) (hokm : Allocated okm)
    (hroom : info.len ≠ BitVec.allOnes 32) :
    Derives (otcrypto_hkdf H stack ikm salt info okm) s (HkdfAccepts stack ikm salt info okm)
      (rfc5869_hkdf H ikm.config.key_mode (digest_bytes ikm.config.key_mode) salt.bytes
        (key_bytes ikm) info.bytes okm.config.key_length.toNat) := by
  unfold otcrypto_hkdf
  cases hdigest : digest_num_words_from_key_mode ikm.config.key_mode with
  | error e =>
      refine Refuses.derives (Refuses.ofExcept_bind (I := fun _ => True) rfl trivial) ?_
      rintro ⟨d, hd, -⟩
      rw [hdigest] at hd
      cases hd
  | ok d =>
      have hbytes : digest_bytes ikm.config.key_mode = 4 * d.toNat := by
        rw [digest_bytes, hdigest]
      obtain ⟨B, hmode⟩ := hmacMode_of_digest hdigest
      have hsame : ∀ {d'}, digest_num_words_from_key_mode ikm.config.key_mode = .ok d' → d = d' :=
        fun hd' => Except.ok.inj (hdigest.symm.trans hd')
      show Derives (otcrypto_hkdf_extract H stack ikm salt (hkdf_prk stack ikm d) >>= fun prk =>
        otcrypto_hkdf_expand H stack prk info okm) s _ _
      cases hextract : hkdf_extract_checks ikm salt (hkdf_prk stack ikm d) with
      | error e =>
          refine Refuses.derives (Refuses.bind_left
            (otcrypto_hkdf_extract_refuses (e := e) (.inl ⟨e, hextract⟩))) ?_
          rintro ⟨d', hd', hchecks, -⟩
          obtain rfl := hsame hd'
          rw [hextract] at hchecks
          cases hchecks
      | ok d' =>
          obtain rfl := hsame (extractChecks_of_ok hextract).digest
          cases hlen : check_keyblob_length ikm with
          | error e =>
              refine Refuses.derives (Refuses.bind_left
                (otcrypto_hkdf_extract_refuses (.inr hlen))) ?_
              rintro ⟨-, -, -, hchecks, -⟩
              rw [hlen] at hchecks
              cases hchecks
          | ok _ =>
              have hprkmode : key_type (hkdf_prk stack ikm d).config.key_mode ≠
                kOtcryptoKeyTypeEcc := hmode.not_ecc
              have hholds := holdsShares_local_key stack ikm.config.key_mode (d * 4)
              have hd : (keyblob_share_num_words (hkdf_prk stack ikm d).config).toNat = d.toNat := by
                rw [share_num_words_eq hprkmode, toNat_ceil_div _ _ (by decide),
                  show (hkdf_prk stack ikm d).config.key_length = d * 4 from rfl,
                  hmode.toNat_digest_bytes, show (4 : u32).toNat = 4 from rfl]
                omega
              have hprk := otcrypto_hkdf_extract_exact H stack s hextract hlen
                (hholds.trans (congrArg (2 * ·) hd))
              cases hexpand : hkdf_expand_checks (hkdf_prk stack ikm d) info okm with
              | error e =>
                  refine Refuses.derives (Refuses.bind hprk ?_) ?_
                  · rintro _ t ⟨-, w, rfl⟩
                    refine Refuses.ofExcept_bind (e := e) ?_ trivial
                    rw [hkdf_expand_checks_with_keyblob, hexpand]
                  · rintro ⟨d', hd', -, -, hchecks⟩
                    obtain rfl := hsame hd'
                    rw [hexpand] at hchecks
                    cases hchecks
              | ok d' =>
                  obtain rfl := hsame (expandChecks_of_ok hexpand).digest
                  refine Guarded.derives (I := fun _ => True) (Guarded.bind hprk ?_)
                  rintro _ t ⟨hkey, w, rfl⟩
                  have husable : UsableKey (with_keyblob (hkdf_prk stack ikm d) w) :=
                    usable_with_keyblob (Option.some_ne_none _) rfl rfl rfl rfl hholds.ge
                  refine Guarded.mono (otcrypto_hkdf_expand_exact (P := fun _ => True)
                    ((hkdf_expand_checks_with_keyblob w).trans hexpand) (fun _ => husable) hokm hroom
                    (show Noted [] _ _ from fun _ _ => .inr trivial) fun _ _ => trivial) ?_ fun _ _ => trivial
                  rintro r _ ⟨hr, -⟩
                  rw [hr, hkey, rfc5869_hkdf, hbytes]
                  rfl

end IbexFirmware.Kdf
