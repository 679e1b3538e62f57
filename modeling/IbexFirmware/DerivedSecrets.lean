/-
Derived secrets: KMAC as a KDF (`kmac_kdf.c`, with the KMAC driver `kmac.c`) and ECDH over P-256
(`ecc_p256.c`, with the finish of `ecc/p256.c`).

Both get the secret in two shares and are to leave it in the keyblob of a key, whose shares are as
long as its configuration says. The KMAC driver writes its shares one directly behind the other,
`keyblob_from_shares` copies as many words of each share as one of the key has. Neither function
looks at the type of the key, and an ECC key has two more words a share.
-/
import IbexFirmware.KdfCtr

set_option autoImplicit false

namespace IbexFirmware.Kdf

open Bytes PowerFail Crypto HardenedMemory Splice Crc32
open Aes (keyblob_share_num_words keyblob_num_words keyblob_to_shares keyblob_ensure_xor_masked
  check_keyblob_length unmasked key_type Diversification diversification_of kKeyblobHwBackedBytes)

/-! ## The KMAC driver -/

def kKmacPrefixMaxSize : ℕ := 36
def kKmacCustStrMaxSize : u32 := 32
def kKmacSideloadKeyLength : u32 := 256
def kKmacFuncNameKMAC : List u8 := [0x4b, 0x4d, 0x41, 0x43]

inductive SecurityStrength where
  | kKmacSecurityStrength128
  | kKmacSecurityStrength256
  deriving DecidableEq

def SecurityStrength.bits : SecurityStrength → ℕ
  | .kKmacSecurityStrength128 => 128
  | .kKmacSecurityStrength256 => 256

def kmac_get_keccak_rate_words (security_str : SecurityStrength) : ℕ :=
  (1600 - 2 * security_str.bits) / 32

/-- `kmac_blinded_key_t`: the key in the sideload slot, or two shares. -/
inductive KmacKey where
  | sideloaded (diversification : Diversification)
  | shares (share0 share1 : List u32)

/-- The key that the block computes with. -/
inductive KmacSecret where
  | sideloaded (diversification : Diversification)
  | words (key : List u32)

def KmacKey.secret : KmacKey → KmacSecret
  | .sideloaded diversification => .sideloaded diversification
  | .shares share0 share1 => .words (hardened_xor share0 share1)

/-- What the block is given. The length of the digest is a part of the message. -/
structure KmacOperation where
  security_str : SecurityStrength
  key : KmacSecret
  cust_str : List u8
  message : List u8
  digest_len : u32

/-- The words that the block squeezes, and the mask of each word of a block of the output. -/
structure KmacBlock where
  output : KmacOperation → ℕ → u32
  mask : ℕ → ℕ → u32

section

variable (hw : KmacBlock)

/-- The two shares of a word of the state, after as many `CMD.RUN`. -/
def KmacBlock.state (op : KmacOperation) (runs offset : ℕ) : u32 × u32 :=
  let rate := kmac_get_keccak_rate_words op.security_str
  (hw.mask runs offset, hw.mask runs offset ^^^ hw.output op (runs * rate + offset))

def wait_status_bit : Proc Device CryptoError Unit := Proc.step .OTCRYPTO_RECOV_ERR fun s => ((), s)

def kmac_key_length_check (key_len : u32) : Except CryptoError Unit :=
  if key_len = 128 / 8 ∨ key_len = 192 / 8 ∨ key_len = 256 / 8 ∨ key_len = 384 / 8 ∨
      key_len = 512 / 8 then .ok ()
  else .error .OTCRYPTO_BAD_ARGS

/-- The loop of `kmac_process_msg_blocks` that reads a masked digest. Where a turn follows, there has
been a `CMD.RUN`. -/
def squeeze_masked (op : KmacOperation) (digest_len_words : ℕ) :
    (fuel : ℕ) → (idx runs : ℕ) → Words → Proc Device CryptoError (ℕ × Words)
  | 0, idx, _, digest => pure (idx, digest)
  | fuel + 1, idx, runs, digest =>
      if idx < digest_len_words then do
        let keccak_rate_words := kmac_get_keccak_rate_words op.security_str
        hardened_check (idx % keccak_rate_words = 0)
        wait_status_bit
        let n := min (digest_len_words - idx) keccak_rate_words
        let digest ← digest.write idx ((List.range n).map fun offset => (hw.state op runs offset).1)
        let digest ←
          digest.write (idx + digest_len_words)
            ((List.range n).map fun offset => (hw.state op runs offset).2)
        squeeze_masked op digest_len_words fuel (idx + n) (runs + 1) digest
      else pure (idx, digest)

/-- Each turn reads a word at least. -/
def kmac_process_msg_blocks (op : KmacOperation) (digest : Words) :
    Proc Device CryptoError Words := do
  wait_status_bit
  let digest_len_bits := 8 * 4 * op.digest_len
  if digest_len_bits / (8 * 4) ≠ op.digest_len then Proc.throw .OTCRYPTO_BAD_ARGS
  else do
    wait_status_bit
    let (idx, digest) ← squeeze_masked hw op op.digest_len.toNat op.digest_len.toNat 0 0 digest
    hardened_check (idx = op.digest_len.toNat)
    wait_status_bit
    pure digest

/-- `kmac_kmac_128` and `kmac_kmac_256`, with a masked digest. -/
def kmac_kmac (security_str : SecurityStrength) (key : KmacKey) (message cust_str : List u8)
    (digest : Words) (digest_len : u32) : Proc Device CryptoError Words := do
  wait_status_bit
  entropy_complex_check
  if kKmacFuncNameKMAC.length + cust_str.length > kKmacPrefixMaxSize then
    Proc.throw .OTCRYPTO_BAD_ARGS
  else kmac_process_msg_blocks hw ⟨security_str, key.secret, cust_str, message, digest_len⟩ digest

/-! ## KMAC as a KDF -/

def kOtcryptoKeyModeKdfKmac128 : u32 := kOtcryptoKeyTypeKdf <<< 16 ||| 0xe5e
def kOtcryptoKeyModeKdfKmac256 : u32 := kOtcryptoKeyTypeKdf <<< 16 ||| 0x353

def keyblob_remask (key : BlindedKey) : Proc Device CryptoError BlindedKey := do
  Proc.ofExcept (keyblob_ensure_xor_masked key.config)
  entropy_complex_check
  let key_share_words ← Proc.ofExcept (keyblob_to_shares key)
  let mask ← memshred key_share_words.toNat
  pure (Aes.BlindedKey.update_checksum (Aes.BlindedKey.xor_shares key key_share_words.toNat mask))

/-- `keyblob_to_keymgr_diversification` and `keymgr_generate_key_kmac`. -/
def sideload_key (key : BlindedKey) : Proc Device CryptoError KmacKey :=
  if key.config.hw_backed ≠ kHardenedBoolTrue ∨ key.keyblob = none then
    Proc.throw .OTCRYPTO_BAD_ARGS
  else if key.keyblob_length ≠ kKeyblobHwBackedBytes then Proc.throw .OTCRYPTO_BAD_ARGS
  else do
    entropy_complex_check
    entropy_complex_check
    Proc.step .OTCRYPTO_RECOV_ERR fun s => ((), s)
    pure (.sideloaded (diversification_of key.words key.config.key_mode))

/-- The key for the driver: what `otcrypto_kmac_kdf` does before it looks at the output key. -/
def kmac_key_construct (kdk : BlindedKey) : Proc Device CryptoError KmacKey :=
  if kdk.config.hw_backed = kHardenedBoolTrue then
    if keyblob_share_num_words kdk.config * 4 ≠ kKmacSideloadKeyLength / 8 then
      Proc.throw .OTCRYPTO_BAD_ARGS
    else sideload_key kdk
  else if kdk.config.hw_backed = kHardenedBoolFalse then do
    let kdk ← keyblob_remask kdk
    if kdk.keyblob_length ≠ keyblob_num_words kdk.config * 4 then Proc.throw .OTCRYPTO_BAD_ARGS
    else do
      let share1 ← Proc.ofExcept (keyblob_to_shares kdk)
      let n := (keyblob_share_num_words kdk.config).toNat
      pure (.shares (slice kdk.words 0 n) (slice kdk.words share1.toNat n))
  else Proc.throw .OTCRYPTO_BAD_ARGS

/-- The checks at the start of `otcrypto_kmac_kdf`. -/
def kmac_kdf_input_checks (kdk : BlindedKey) (label context : ByteBuf) (okm : BlindedKey) :
    Except CryptoError Unit :=
  if kdk.keyblob = none ∨ okm.keyblob = none then .error .OTCRYPTO_BAD_ARGS
  else if label.dangling then .error .OTCRYPTO_BAD_ARGS
  else if label.len > kKmacCustStrMaxSize then .error .OTCRYPTO_BAD_ARGS
  else if context.dangling then .error .OTCRYPTO_BAD_ARGS
  else if integrity_blinded_key_check kdk ≠ kHardenedBoolTrue then .error .OTCRYPTO_BAD_ARGS
  else kmac_key_length_check kdk.config.key_length

/-- The checks of the output key. -/
def kmac_kdf_output_checks (okm : BlindedKey) : Except CryptoError Unit :=
  if okm.config.key_length % 4 ≠ 0 then .error .OTCRYPTO_NOT_IMPLEMENTED
  else if okm.config.hw_backed ≠ kHardenedBoolFalse then .error .OTCRYPTO_BAD_ARGS
  else if okm.keyblob_length ≠ keyblob_num_words okm.config * 4 then .error .OTCRYPTO_BAD_ARGS
  else .ok ()

/-- The strength that the mode of the key asks for. -/
def kmac_kdf_strength (kdk : BlindedKey) : Except CryptoError SecurityStrength :=
  if kdk.config.key_mode = kOtcryptoKeyModeKdfKmac128 then .ok .kKmacSecurityStrength128
  else if kdk.config.key_mode = kOtcryptoKeyModeKdfKmac256 then
    if kdk.config.key_length < 256 / 8 then .error .OTCRYPTO_BAD_ARGS
    else .ok .kKmacSecurityStrength256
  else .error .OTCRYPTO_BAD_ARGS

def sideload_clear : Proc Device CryptoError Unit := Proc.step .OTCRYPTO_RECOV_ERR fun s => ((), s)

def otcrypto_kmac_kdf (kdk : BlindedKey) (label context : ByteBuf) (okm : BlindedKey) :
    Proc Device CryptoError BlindedKey := do
  Proc.ofExcept (kmac_kdf_input_checks kdk label context okm)
  let kmac_key ← kmac_key_construct kdk
  Proc.ofExcept (kmac_kdf_output_checks okm)
  let random ← memshred (keyblob_num_words okm.config).toNat
  let keyblob ← (keyblob_words okm).write 0 random
  let security_str ← Proc.ofExcept (kmac_kdf_strength kdk)
  let keyblob ←
    kmac_kmac hw security_str kmac_key context.bytes label.bytes keyblob (okm.config.key_length / 4)
  let okm := with_keyblob okm keyblob
  sideload_clear
  pure okm

end

/-! ## ECDH -/

def kP256CoordBytes : u32 := 256 / 8
def kP256CoordWords : ℕ := 8
def kModeEcdhInsCnt : u32 := 581598
def kModeEcdhSideloadInsCnt : u32 := 581658

/-- What OTBN leaves: whether the public key is valid, the number of instructions, and the shares. -/
structure Otbn where
  ok : u32
  ins_cnt : u32
  x : Vector u32 kP256CoordWords
  y : Vector u32 kP256CoordWords

structure P256EcdhSharedKey where
  share0 : Vector u32 kP256CoordWords
  share1 : Vector u32 kP256CoordWords
  checksum : u32

/-- The shares lie on a word boundary. -/
def p256_ecdh_shared_key_checksum (share0 : Vector u32 kP256CoordWords) : u32 :=
  crc32_finish (crc32_add crc32_init 0 (word_bytes share0.toList))

def otbn_access : Proc Device CryptoError Unit := Proc.step .OTCRYPTO_RECOV_ERR fun s => ((), s)

def p256_ecdh_finalize (otbn : Otbn) : Proc Device CryptoError P256EcdhSharedKey := do
  otbn_access
  otbn_access
  if otbn.ok ≠ kHardenedBoolTrue then do
    otbn_access
    Proc.throw .OTCRYPTO_BAD_ARGS
  else do
    hardened_check (otbn.ins_cnt = kModeEcdhSideloadInsCnt ∨ otbn.ins_cnt = kModeEcdhInsCnt)
    otbn_access
    otbn_access
    otbn_access
    pure ⟨otbn.x, otbn.y, p256_ecdh_shared_key_checksum otbn.x⟩

/-- The shares as arrays: the second one lies behind the first one, then the checksum, then what the
stack holds. -/
def P256EcdhSharedKey.words0 (ss : P256EcdhSharedKey) (stack : ℕ → u32) : Words :=
  ⟨.share0, kP256CoordWords, fun i =>
    (ss.share0.toList ++ ss.share1.toList ++ [ss.checksum]).getD i (stack (i - 17))⟩

def P256EcdhSharedKey.words1 (ss : P256EcdhSharedKey) (stack : ℕ → u32) : Words :=
  ⟨.share1, kP256CoordWords, fun i =>
    (ss.share1.toList ++ [ss.checksum]).getD i (stack (i - 9))⟩

def ecdh_p256_finalize_checks (shared_secret : BlindedKey) : Except CryptoError Unit :=
  if shared_secret.config.hw_backed ≠ kHardenedBoolFalse then .error .OTCRYPTO_BAD_ARGS
  else if shared_secret.config.key_length ≠ kP256CoordBytes then .error .OTCRYPTO_BAD_ARGS
  else if shared_secret.keyblob_length ≠ keyblob_num_words shared_secret.config * 4 then
    .error .OTCRYPTO_BAD_ARGS
  else .ok ()

def otcrypto_ecdh_p256_async_finalize (stack : ℕ → u32) (otbn : Otbn) (shared_secret : BlindedKey) :
    Proc Device CryptoError BlindedKey := do
  if shared_secret.keyblob = none then Proc.throw .OTCRYPTO_BAD_ARGS
  else do
    entropy_complex_check
    let random ← memshred kP256CoordWords
    let keyblob ← (keyblob_words shared_secret).write 0 random
    Proc.ofExcept (ecdh_p256_finalize_checks shared_secret)
    let _ ← memshred kP256CoordWords
    let _ ← memshred kP256CoordWords
    let ss ← p256_ecdh_finalize otbn
    hardened_check (ss.checksum = p256_ecdh_shared_key_checksum ss.share0)
    let keyblob ←
      keyblob_from_shares (ss.words0 stack) (ss.words1 stack) shared_secret.config keyblob
    let shared_secret := with_keyblob shared_secret keyblob
    sideload_clear
    pure shared_secret

/-! ## Reading a masked digest -/

section squeeze

variable {hw : KmacBlock} {op : KmacOperation} {len : ℕ} {base : List Touch} {P : Touch → Prop}

/-- The shares of a word of the output. -/
def KmacBlock.share (hw : KmacBlock) (op : KmacOperation) (i : ℕ) : u32 × u32 :=
  hw.state op (i / kmac_get_keccak_rate_words op.security_str)
    (i % kmac_get_keccak_rate_words op.security_str)

/-- The first `idx` words of both shares are there. -/
def Squeezed (hw : KmacBlock) (op : KmacOperation) (len idx : ℕ) (a : Words) : Prop :=
  ∀ i < idx, a.word i = (hw.share op i).1 ∧ a.word (len + i) = (hw.share op i).2

theorem rate_pos (security_str : SecurityStrength) : 0 < kmac_get_keccak_rate_words security_str := by
  cases security_str <;> decide

/-- Both shares add up to the output. -/
theorem xor_share (hw : KmacBlock) (op : KmacOperation) (i : ℕ) :
    (hw.share op i).1 ^^^ (hw.share op i).2 = hw.output op i := by
  rw [KmacBlock.share, KmacBlock.state, ← BitVec.xor_assoc, BitVec.xor_self, BitVec.zero_xor,
    Nat.div_add_mod']

theorem share_of_block {runs offset : ℕ} (h : offset < kmac_get_keccak_rate_words op.security_str) :
    hw.share op (runs * kmac_get_keccak_rate_words op.security_str + offset) =
      hw.state op runs offset := by
  have hdiv : (runs * kmac_get_keccak_rate_words op.security_str + offset) /
      kmac_get_keccak_rate_words op.security_str = runs := by
    rw [Nat.mul_comm, Nat.mul_add_div (rate_pos op.security_str), Nat.div_eq_of_lt h, Nat.add_zero]
  rw [KmacBlock.share, hdiv, Nat.mul_add_mod_of_lt h]

/-- A turn adds the words of a block, or those that are left. -/
theorem Squeezed.block {runs n : ℕ} {a : Words}
    (h : Squeezed hw op len (runs * kmac_get_keccak_rate_words op.security_str) a)
    (hn : n ≤ kmac_get_keccak_rate_words op.security_str)
    (hle : runs * kmac_get_keccak_rate_words op.security_str + n ≤ len) :
    Squeezed hw op len (runs * kmac_get_keccak_rate_words op.security_str + n)
      ((a.set (runs * kmac_get_keccak_rate_words op.security_str)
        ((List.range n).map fun offset => (hw.state op runs offset).1)).set
          (runs * kmac_get_keccak_rate_words op.security_str + len)
          ((List.range n).map fun offset => (hw.state op runs offset).2)) := by
  set idx := runs * kmac_get_keccak_rate_words op.security_str with hidx
  have hlength : ∀ f : ℕ → u32, ((List.range n).map f).length = n := fun f => by simp
  intro i hi
  by_cases hold : i < idx
  · rw [Words.set_of_not (by rw [hlength]; omega), Words.set_of_not (by rw [hlength]; omega),
      Words.set_of_not (by rw [hlength]; omega), Words.set_of_not (by rw [hlength]; omega)]
    exact h i hold
  · obtain ⟨offset, rfl⟩ := Nat.exists_eq_add_of_le (Nat.not_lt.mp hold)
    have hoffset : offset < n := by omega
    have hget : ∀ f : ℕ → u32, ((List.range n).map f).getD offset 0 = f offset := fun f => by
      rw [List.getD_eq_getElem _ _ (by rwa [hlength])]
      simp
    have hsecond : len + (idx + offset) = idx + len + offset := by omega
    rw [hsecond, Words.set_of_not (by rw [hlength]; omega), Words.set_of_lt (by rwa [hlength]),
      Words.set_of_lt (by rwa [hlength]), hget, hget, share_of_block (hoffset.trans_le hn)]
    exact ⟨rfl, rfl⟩

theorem Noted.write {s : Device} {a : Words} {m : ℕ} (hs : Noted base P s)
    (hP : ∀ x ∈ a.places 0 m, P x) (start n : ℕ) (hle : start + n ≤ m) :
    Noted base P { s with touched := s.touched ++ a.places start n } := by
  refine hs.add fun x hx => hP x ?_
  rw [Words.places, List.mem_map] at hx ⊢
  obtain ⟨i, hi, rfl⟩ := hx
  rw [List.mem_range'_1] at hi
  exact ⟨i, List.mem_range'_1.mpr (by omega), rfl⟩

/-- Before a turn whole blocks have been read, or everything. -/
theorem squeeze_masked_exact (fuel : ℕ) :
    ∀ {idx runs : ℕ} {a : Words} {s : Device},
      idx = min (runs * kmac_get_keccak_rate_words op.security_str) len → len - idx ≤ fuel →
      Squeezed hw op len idx a → Noted base P s → (∀ x ∈ a.places 0 (2 * len), P x) →
      Guarded (squeeze_masked hw op len fuel idx runs a) s
        (fun r t => r.1 = len ∧ Squeezed hw op len len r.2 ∧ Noted base P t) (Noted base P) := by
  set rate := kmac_get_keccak_rate_words op.security_str with hrate
  induction fuel with
  | zero =>
      intro idx runs a s hidx hfuel hsq hs _
      have hend : idx = len := by omega
      exact Guarded.pure ⟨hend, hend ▸ hsq, hs⟩
  | succ fuel ih =>
      intro idx runs a s hidx hfuel hsq hs hP
      by_cases hlt : idx < len
      · have hwhole : idx = runs * rate := by omega
        have hpos := rate_pos op.security_str
        have hlength : ∀ f : ℕ → u32,
            ((List.range (min (len - idx) rate)).map f).length = min (len - idx) rate := fun f => by simp
        have hn : idx + min (len - idx) rate ≤ len := by omega
        have hmod : idx % rate = 0 := by rw [hwhole]; exact Nat.mul_mod_left runs rate
        rw [squeeze_masked, if_pos hlt]
        refine hardened_check_bind hmod (Guarded.step_bind (Words.write_bind (Words.write_bind ?_)) hs)
        rw [hlength, hlength]
        have hfirst := hs.write hP idx (min (len - idx) rate) (by omega)
        have hboth := hfirst.write hP (idx + len) (min (len - idx) rate) (by omega)
        have hnext := (hwhole ▸ hsq : Squeezed hw op len (runs * rate) a).block
          (n := min (len - idx) rate) (by omega) (by rw [← hrate, ← hwhole]; exact hn)
        rw [← hrate, ← hwhole] at hnext
        exact ih (by rw [Nat.add_mul, Nat.one_mul]; omega) (by omega) hnext hboth hP
      · have hend : idx = len := by omega
        rw [squeeze_masked, if_neg hlt]
        exact Guarded.pure ⟨hend, hend ▸ hsq, hs⟩

end squeeze

/-! ## The KDF -/

section kdf

variable {hw : KmacBlock} {kdk okm : BlindedKey} {label context : ByteBuf} {base : List Touch}
  {P : Touch → Prop} {s : Device}

/-- The key that the output is derived with. -/
def kdk_secret (kdk : BlindedKey) : KmacSecret :=
  if kdk.config.hw_backed = kHardenedBoolTrue then
    .sideloaded (diversification_of kdk.words kdk.config.key_mode)
  else .words (unmasked kdk.words (keyblob_share_num_words kdk.config).toNat)

/-- The key passes the checks that are made while it is brought to the driver. -/
def KdkAccepted (kdk : BlindedKey) : Prop :=
  kdk.keyblob ≠ none ∧
    (kdk.config.hw_backed = kHardenedBoolTrue ∧
        keyblob_share_num_words kdk.config * 4 = kKmacSideloadKeyLength / 8 ∧
        kdk.keyblob_length = kKeyblobHwBackedBytes ∨
      keyblob_ensure_xor_masked kdk.config = .ok () ∧ check_keyblob_length kdk = .ok ())

/-- A mask that is added to both shares does not change the key. -/
theorem kmac_key_construct_exact (haccepted : KdkAccepted kdk)
    (hholds : kdk.config.hw_backed = kHardenedBoolFalse → HoldsShares kdk) (hs : Noted base P s) :
    Guarded (kmac_key_construct kdk) s
      (fun r t => r.secret = kdk_secret kdk ∧ t.touched = s.touched) (Noted base P) := by
  obtain ⟨hnull, ⟨htrue, hshare, hblob⟩ | ⟨hmasked, hlen⟩⟩ := haccepted
  · have hside : ¬(kdk.config.hw_backed ≠ kHardenedBoolTrue ∨ kdk.keyblob = none) :=
      not_or.mpr ⟨not_not.mpr htrue, hnull⟩
    rw [kmac_key_construct, if_pos htrue, if_neg (not_not.mpr hshare), sideload_key, if_neg hside,
      if_neg (not_not.mpr hblob)]
    refine Guarded.step_bind (Guarded.step_bind (Guarded.step_bind (Guarded.pure ⟨?_, rfl⟩) hs) hs) hs
    rw [kdk_secret, if_pos htrue]
    rfl
  · have hfalse := (xor_masked_iff.mp hmasked).1
    have htrue : kdk.config.hw_backed ≠ kHardenedBoolTrue := by
      rw [hfalse]
      decide
    have hshares : keyblob_to_shares kdk = .ok (keyblob_share_num_words kdk.config) := by
      rw [keyblob_to_shares, hlen]
      rfl
    have hlength : kdk.keyblob_length = keyblob_num_words kdk.config * 4 := by
      by_contra hne
      rw [check_keyblob_length, if_neg hne] at hlen
      cases hlen
    rw [kmac_key_construct, if_neg htrue, if_pos hfalse]
    refine Guarded.bind (R := fun r t => ∃ mask, r = Aes.BlindedKey.update_checksum
      (Aes.BlindedKey.xor_shares kdk (keyblob_share_num_words kdk.config).toNat mask) ∧
      t.touched = s.touched) ?_ ?_
    · refine Guarded.ofExcept_bind hmasked (Guarded.step_bind (Guarded.ofExcept_bind hshares
        (memshred_bind fun mask entropy _ => Guarded.pure ⟨mask, rfl, rfl⟩)) hs)
    · rintro _ t ⟨mask, rfl, htouched⟩
      set kdk' := Aes.BlindedKey.update_checksum
        (Aes.BlindedKey.xor_shares kdk (keyblob_share_num_words kdk.config).toNat mask) with hkdk'
      have hshares' : keyblob_to_shares kdk' = .ok (keyblob_share_num_words kdk.config) := hshares
      have hlength' : ¬kdk'.keyblob_length ≠ keyblob_num_words kdk'.config * 4 := not_not.mpr hlength
      rw [if_neg hlength']
      refine Guarded.ofExcept_bind hshares' (Guarded.pure ⟨?_, htouched⟩)
      have hwords : kdk'.words = Aes.xor_shares kdk.words (keyblob_share_num_words kdk.config).toNat mask :=
        Aes.words_xor_shares hnull _ mask
      rw [kdk_secret, if_neg htrue, ← Aes.unmasked_xor_shares (hholds hfalse), ← hwords]
      rfl

/-- The operation that the output is squeezed from. -/
def kdf_operation (kdk : BlindedKey) (label context : ByteBuf) (okm : BlindedKey)
    (security_str : SecurityStrength) : KmacOperation :=
  ⟨security_str, kdk_secret kdk, label.bytes, context.bytes, okm.config.key_length / 4⟩

/-- The words of the output. -/
def squeezed_words (hw : KmacBlock) (op : KmacOperation) : List u32 :=
  (List.range op.digest_len.toNat).map (hw.output op)

/-- The arguments pass the checks, and the driver can encode the length of the output. -/
structure KmacKdfAccepts (kdk : BlindedKey) (label context : ByteBuf) (okm : BlindedKey)
    (security_str : SecurityStrength) : Prop where
  input : kmac_kdf_input_checks kdk label context okm = .ok ()
  key : KdkAccepted kdk
  output : kmac_kdf_output_checks okm = .ok ()
  strength : kmac_kdf_strength kdk = .ok security_str
  bits : 8 * okm.config.key_length.toNat < 2 ^ 32

theorem kmac_kdf_output_checks_iff : kmac_kdf_output_checks okm = .ok () ↔
    okm.config.key_length % 4 = 0 ∧ okm.config.hw_backed = kHardenedBoolFalse ∧
      okm.keyblob_length = keyblob_num_words okm.config * 4 := by
  unfold kmac_kdf_output_checks
  split_ifs with hmod hhw hlen
  · exact iff_of_false nofun fun h => hmod h.1
  · exact iff_of_false nofun fun h => hhw h.2.1
  · exact iff_of_false nofun fun h => hlen h.2.2
  · exact iff_of_true rfl ⟨not_not.mp hmod, not_not.mp hhw, not_not.mp hlen⟩

theorem kmac_kdf_input_checks_ok (h : kmac_kdf_input_checks kdk label context okm = .ok ()) :
    okm.keyblob ≠ none ∧ label.bytes.length ≤ 32 := by
  unfold kmac_kdf_input_checks at h
  split_ifs at h with hnull hlabel hlong
  refine ⟨(not_or.mp hnull).2, ?_⟩
  rw [ByteBuf.length_bytes hlabel]
  exact Nat.not_lt.mp fun hlt => hlong (BitVec.lt_def.mpr hlt)

/-- The driver reads both shares, one directly behind the other. -/
theorem kmac_process_msg_blocks_exact {op : KmacOperation} {a : Words}
    (hbits : 32 * op.digest_len.toNat < 2 ^ 32) (hs : Noted base P s)
    (hP : ∀ x ∈ a.places 0 (2 * op.digest_len.toNat), P x) :
    Guarded (kmac_process_msg_blocks hw op a) s
      (fun r t => Squeezed hw op op.digest_len.toNat op.digest_len.toNat r ∧ Noted base P t)
      (Noted base P) := by
  have hlen : (8 * 4 * op.digest_len) / (8 * 4) = op.digest_len := by
    apply BitVec.eq_of_toNat_eq
    rw [BitVec.toNat_udiv, BitVec.toNat_mul, show (8 * 4 : u32).toNat = 32 from rfl,
      Nat.mod_eq_of_lt hbits, Nat.mul_div_cancel_left _ (by decide)]
  refine Guarded.step_bind ?_ hs
  rw [if_neg (not_not.mpr hlen)]
  refine Guarded.step_bind (Guarded.bind (squeeze_masked_exact op.digest_len.toNat
    (by rw [Nat.zero_mul, Nat.zero_min]) (Nat.sub_le _ _) (fun i hi => absurd hi (Nat.not_lt_zero i))
    hs hP) ?_) hs
  rintro ⟨idx, digest⟩ t ⟨hidx, hsq, ht⟩
  exact hardened_check_bind hidx (Guarded.step_bind (Guarded.pure ⟨hsq, ht⟩) ht)

/-- Whatever the length of the shares of the key is, the driver writes those of the digest. -/
theorem otcrypto_kmac_kdf_exact {security_str : SecurityStrength}
    (haccepts : KmacKdfAccepts kdk label context okm security_str)
    (hholds : kdk.config.hw_backed = kHardenedBoolFalse → HoldsShares kdk) (hs : Noted base P s)
    (hP : ∀ x ∈ (keyblob_words okm).places 0 (keyblob_num_words okm.config).toNat, P x)
    (hroom : 2 * (okm.config.key_length / 4).toNat ≤ (keyblob_num_words okm.config).toNat) :
    Guarded (otcrypto_kmac_kdf hw kdk label context okm) s (fun r t => ∃ w : Words,
      r = with_keyblob okm w ∧ Squeezed hw (kdf_operation kdk label context okm security_str)
        (okm.config.key_length / 4).toNat (okm.config.key_length / 4).toNat w ∧ Noted base P t)
      (Noted base P) := by
  obtain ⟨hinput, hkdk, houtput, hstrength, hbits⟩ := haccepts
  obtain ⟨-, hlabel⟩ := kmac_kdf_input_checks_ok hinput
  have hdigest : (okm.config.key_length / 4).toNat = okm.config.key_length.toNat / 4 :=
    BitVec.toNat_udiv
  refine Guarded.ofExcept_bind hinput (Guarded.bind (kmac_key_construct_exact hkdk hholds hs) ?_)
  rintro key t ⟨hkey, htouched⟩
  have ht : Noted base P t := fun x hx => hs x (htouched ▸ hx)
  refine Guarded.ofExcept_bind houtput (memshred_bind fun random entropy hrandom => ?_)
  refine Words.write_bind ?_
  rw [hrandom]
  have hrandomized := ht.write hP 0 (keyblob_num_words okm.config).toNat (by omega)
  refine Guarded.ofExcept_bind hstrength ?_
  have hplaces : ∀ x ∈ ((keyblob_words okm).set 0 random).places 0
      (2 * (okm.config.key_length / 4).toNat), P x := by
    intro x hx
    refine hP x ?_
    rw [Words.places, List.mem_map] at hx ⊢
    obtain ⟨i, hi, rfl⟩ := hx
    rw [List.mem_range'_1] at hi
    exact ⟨i, List.mem_range'_1.mpr (by omega), rfl⟩
  have hshort : ¬kKmacFuncNameKMAC.length + label.bytes.length > kKmacPrefixMaxSize := by
    show ¬4 + label.bytes.length > 36
    omega
  refine Guarded.bind (R := fun r t => Squeezed hw (kdf_operation kdk label context okm security_str)
    (okm.config.key_length / 4).toNat (okm.config.key_length / 4).toNat r ∧ Noted base P t) ?_ ?_
  · refine Guarded.step_bind (Guarded.step_bind ?_ hrandomized) hrandomized
    rw [if_neg hshort, hkey]
    exact kmac_process_msg_blocks_exact (by rw [hdigest]; omega) hrandomized hplaces
  · rintro w t' ⟨hsq, ht'⟩
    exact Guarded.step_bind (Guarded.pure ⟨w, rfl, hsq, ht'⟩) ht'

end kdf

/-! ## The shared secret -/

section ecdh

variable {stack : ℕ → u32} {otbn : Otbn} {key : BlindedKey} {base : List Touch} {P : Touch → Prop}
  {s : Device}

/-- OTBN has found the public key valid, after one of the two numbers of instructions. -/
def Otbn.Succeeded (otbn : Otbn) : Prop :=
  otbn.ok = kHardenedBoolTrue ∧
    (otbn.ins_cnt = kModeEcdhSideloadInsCnt ∨ otbn.ins_cnt = kModeEcdhInsCnt)

def Otbn.shared_key (otbn : Otbn) : P256EcdhSharedKey :=
  ⟨otbn.x, otbn.y, p256_ecdh_shared_key_checksum otbn.x⟩

/-- The secret is masked by XOR. -/
def Otbn.secret (otbn : Otbn) : List u32 := hardened_xor otbn.x.toList otbn.y.toList

def EcdhAccepts (otbn : Otbn) (shared_secret : BlindedKey) : Prop :=
  shared_secret.keyblob ≠ none ∧ ecdh_p256_finalize_checks shared_secret = .ok () ∧ otbn.Succeeded

theorem ecdh_p256_finalize_checks_iff : ecdh_p256_finalize_checks key = .ok () ↔
    key.config.hw_backed = kHardenedBoolFalse ∧ key.config.key_length = kP256CoordBytes ∧
      key.keyblob_length = keyblob_num_words key.config * 4 := by
  unfold ecdh_p256_finalize_checks
  split_ifs with hhw hlength hblob
  · exact iff_of_false nofun fun h => hhw h.1
  · exact iff_of_false nofun fun h => hlength h.2.1
  · exact iff_of_false nofun fun h => hblob h.2.2
  · exact iff_of_true rfl ⟨not_not.mp hhw, not_not.mp hlength, not_not.mp hblob⟩

theorem p256_ecdh_finalize_exact (hotbn : otbn.Succeeded) {I : Device → Prop} (hI : I s) :
    Guarded (p256_ecdh_finalize otbn) s (fun r t => r = otbn.shared_key ∧ t = s) I := by
  obtain ⟨hok, hcount⟩ := hotbn
  refine Guarded.step_bind (Guarded.step_bind ?_ hI) hI
  rw [if_neg (not_not.mpr hok)]
  exact hardened_check_bind hcount (Guarded.step_bind (Guarded.step_bind (Guarded.step_bind
    (Guarded.pure ⟨rfl, rfl⟩) hI) hI) hI)

/-- Everything that the call touches. -/
def ecdh_places (otbn : Otbn) (stack : ℕ → u32) (key : BlindedKey) : List Touch :=
  (keyblob_words key).places 0 kP256CoordWords ++
    shares_places (otbn.shared_key.words0 stack) (otbn.shared_key.words1 stack) (keyblob_words key)
      (keyblob_share_num_words key.config).toNat (keyblob_num_words key.config).toNat

/-- As many words as a share of the key has are read from the arrays of the shares. -/
theorem otcrypto_ecdh_p256_async_finalize_exact (haccepts : EcdhAccepts otbn key)
    (hs : Noted base P s) (hP : ∀ x ∈ ecdh_places otbn stack key, P x) {n : ℕ}
    (hn : (keyblob_share_num_words key.config).toNat = n) :
    Guarded (otcrypto_ecdh_p256_async_finalize stack otbn key) s (fun r t => ∃ w : Words,
      r = with_keyblob key w ∧ w.at 0 n = (otbn.shared_key.words0 stack).at 0 n ∧
      w.at n n = (otbn.shared_key.words1 stack).at 0 n ∧
      t.touched = s.touched ++ ecdh_places otbn stack key) (Noted base P) := by
  obtain ⟨hnull, hchecks, hotbn⟩ := haccepts
  rw [otcrypto_ecdh_p256_async_finalize, if_neg hnull]
  refine Guarded.step_bind (memshred_bind fun random entropy hrandom => Words.write_bind ?_) hs
  rw [hrandom]
  have hfirst : Noted base P { s with
      touched := s.touched ++ (keyblob_words key).places 0 kP256CoordWords } :=
    hs.add fun x hx => hP x (List.mem_append_left _ hx)
  refine Guarded.ofExcept_bind hchecks (memshred_bind fun _ entropy1 _ =>
    memshred_bind fun _ entropy2 _ => ?_)
  refine Guarded.bind (p256_ecdh_finalize_exact hotbn hfirst) ?_
  rintro _ _ ⟨rfl, rfl⟩
  have hshares : ∀ entropy,
      Noted base P ⟨entropy, s.touched ++ (keyblob_words key).places 0 kP256CoordWords⟩ :=
    fun _ => hfirst
  refine hardened_check_bind rfl (Guarded.bind (keyblob_from_shares_exact (hshares entropy2) hn) ?_)
  rintro w t ⟨hw0, hw1, htouched⟩
  have hplaces : t.touched = s.touched ++ ecdh_places otbn stack key := by
    rw [htouched, List.append_assoc, ecdh_places, hn]
    rfl
  have ht : Noted base P t := by
    intro x hx
    rw [hplaces] at hx
    exact hs.add hP x hx
  exact Guarded.step_bind (Guarded.pure ⟨w, rfl, hw0, hw1, hplaces⟩) ht

end ecdh

/-! ## Unmasking -/

/-- A key that is returned has shares that add up to the secret, and no place outside of the arrays is
touched. -/
structure UnmasksTo (p : Proc Device CryptoError BlindedKey) (secret : List u32) : Prop where
  secret : ∀ m r m', p m = (.ret r, m') →
    unmasked r.words (keyblob_share_num_words r.config).toNat = secret
  bounds : StaysInBounds p

theorem unmasksTo_of_guarded {p : Proc Device CryptoError BlindedKey} {secret : List u32}
    {Q : BlindedKey → Device → Prop}
    (h : ∀ s base, Noted base Touch.Inside s →
      Guarded p s (fun r t => Q r t ∧ Noted base Touch.Inside t) (Noted base Touch.Inside))
    (hQ : ∀ r t, Q r t → unmasked r.words (keyblob_share_num_words r.config).toNat = secret) :
    UnmasksTo p secret where
  secret := by
    intro m r m' hrun
    have hall : Noted m.mem.touched Touch.Inside m.mem := fun x hx => .inl hx
    obtain ⟨hmeets, -⟩ := h m.mem _ hall (fun _ => True) m rfl fun _ => trivial
    rw [hrun] at hmeets
    exact hQ _ _ hmeets.1
  bounds := by
    intro m hm hpower x hx
    have hclean : Noted [] Touch.Inside m.mem := by
      intro y hy
      rw [hm] at hy
      exact absurd hy List.not_mem_nil
    obtain ⟨r, -, -, hnoted⟩ | ⟨e, -, hnoted⟩ := (h _ _ hclean).run rfl hpower
    · exact (hnoted x hx).resolve_left List.not_mem_nil
    · exact (hnoted x hx).resolve_left List.not_mem_nil

/-- A call that returns a key with shares of another length than the secret does not unmask to it. -/
theorem not_unmasksTo {p : Proc Device CryptoError BlindedKey} {secret : List u32} (key : BlindedKey)
    (hreturns : ∀ s, Noted [] (fun _ => True) s →
      Guarded p s (fun r _ => ∃ w, r = with_keyblob key w) (Noted [] fun _ => True))
    (hholds : HoldsShares key) (hlen : secret.length ≠ (keyblob_share_num_words key.config).toNat) :
    ¬UnmasksTo p secret := by
  intro h
  let m : Machine Device := Machine.on ⟨⟨fun _ => 0, 0⟩, []⟩ fun _ => .done
  have hclean : Noted [] (fun _ => True) m.mem := fun x hx => absurd hx List.not_mem_nil
  obtain ⟨r, m', hrun, ⟨w, rfl⟩, -⟩ := (hreturns m.mem hclean).does.run (m := m) rfl fun _ => rfl
  have hsecret := congrArg List.length (h.secret m _ m' hrun)
  have hwords : 2 * (keyblob_share_num_words key.config).toNat ≤ (with_keyblob key w).words.length := by
    rw [length_words_with_keyblob]
    exact hholds
  exact hlen (hsecret.symm.trans (length_unmasked hwords))

/-- A share of an ECC key has two words more than the key. -/
theorem toNat_share_words (config : KeyConfig) (hlen : config.key_length.toNat + 8 < 2 ^ 32) :
    (keyblob_share_num_words config).toNat = (config.key_length.toNat + 3) / 4 +
      if key_type config.key_mode = kOtcryptoKeyTypeEcc then 2 else 0 := by
  rw [keyblob_share_num_words, toNat_ceil_div _ _ (by decide), Aes.keyblob_share_num_bytes]
  by_cases hecc : key_type config.key_mode = kOtcryptoKeyTypeEcc
  · rw [if_pos hecc, if_pos hecc, BitVec.toNat_add, show (64 / 8 : u32).toNat = 8 from rfl,
      Nat.mod_eq_of_lt hlen, show (4 : u32).toNat = 4 from rfl]
    omega
  · rw [if_neg hecc, if_neg hecc]
    rfl

/-- The keyblob holds as many words as the checks ask for. -/
theorem length_words_of_checks {key : BlindedKey} {n : ℕ} (hkey : Allocated key)
    (hhw : key.config.hw_backed = kHardenedBoolFalse)
    (hlen : key.keyblob_length = keyblob_num_words key.config * 4)
    (hn : (keyblob_share_num_words key.config).toNat = n) (hsmall : 8 * n < 2 ^ 32) :
    key.words.length = 2 * n := by
  rw [Allocated, toNat_keyblob_length hhw hlen hn hsmall] at hkey
  omega

section unmask

variable {hw : KmacBlock} {kdk okm : BlindedKey} {label context : ByteBuf}
  {security_str : SecurityStrength}

theorem xor_squeezed {op : KmacOperation} {w : Words}
    (h : Squeezed hw op op.digest_len.toNat op.digest_len.toNat w) :
    hardened_xor (w.at 0 op.digest_len.toNat) (w.at op.digest_len.toNat op.digest_len.toNat) =
      squeezed_words hw op := by
  apply List.ext_getElem
  · simp [squeezed_words, length_hardened_xor]
  · intro i hi hlt
    have hin : i < op.digest_len.toNat := by simpa [squeezed_words] using hlt
    obtain ⟨hfirst, hsecond⟩ := h i hin
    simp only [hardened_xor, List.getElem_zipWith, squeezed_words, List.getElem_map, List.getElem_range]
    simp only [Words.at, List.getElem_map, List.getElem_range', Nat.one_mul, Nat.zero_add]
    rw [hfirst, hsecond, xor_share]

/-- The shares that the driver writes have the length of the secret, those of an ECC key would not.
-/
theorem kmac_kdf_unmasks_iff (hokm : Allocated okm)
    (hholds : kdk.config.hw_backed = kHardenedBoolFalse → HoldsShares kdk)
    (haccepts : KmacKdfAccepts kdk label context okm security_str) :
    UnmasksTo (otcrypto_kmac_kdf hw kdk label context okm)
        (squeezed_words hw (kdf_operation kdk label context okm security_str)) ↔
      key_type okm.config.key_mode ≠ kOtcryptoKeyTypeEcc := by
  obtain ⟨hnull, -⟩ := kmac_kdf_input_checks_ok haccepts.input
  obtain ⟨hmod, hhw, hblob⟩ := kmac_kdf_output_checks_iff.mp haccepts.output
  have hbits := haccepts.bits
  set len := (okm.config.key_length / 4).toNat with hlen
  have hbytes : okm.config.key_length.toNat = 4 * len := by
    have hdiv : len = okm.config.key_length.toNat / 4 := BitVec.toNat_udiv
    have hzero : okm.config.key_length.toNat % 4 = 0 := by
      have h := congrArg BitVec.toNat hmod
      rwa [BitVec.toNat_umod] at h
    omega
  have hshare := toNat_share_words okm.config (by omega)
  have hsplit : (okm.config.key_length.toNat + 3) / 4 = len := by omega
  rw [hsplit] at hshare
  set n := (keyblob_share_num_words okm.config).toNat with hn
  have hle : n ≤ len + 2 := by
    rw [hshare]
    split_ifs <;> omega
  have htotal : (keyblob_num_words okm.config).toNat = 2 * n := toNat_keyblob_num_words hhw
  have hwords := length_words_of_checks hokm hhw hblob hn.symm (by omega)
  have hplaces : ∀ x ∈ (keyblob_words okm).places 0 (keyblob_num_words okm.config).toNat, x.Inside := by
    have hlen : (keyblob_words okm).len = 2 * n := by
      rw [keyblob_words, toNat_keyblob_length hhw hblob hn.symm (by omega),
        Nat.mul_div_cancel_left _ (by decide)]
    rw [places_inside_iff, hlen, htotal]
    omega
  constructor
  · intro hunmasks hecc
    rw [if_pos hecc] at hshare
    refine not_unmasksTo okm (fun s hs => ?_) (by rw [HoldsShares, hwords]) ?_ hunmasks
    · refine Guarded.mono (otcrypto_kmac_kdf_exact haccepts hholds hs (fun _ _ => trivial) (by omega)) ?_
        fun _ => id
      rintro r t ⟨w, hr, -⟩
      exact ⟨w, hr⟩
    · rw [squeezed_words, List.length_map, List.length_range, ← hn, hshare]
      show len ≠ len + 2
      omega
  · intro hecc
    rw [if_neg hecc, Nat.add_zero] at hshare
    refine unmasksTo_of_guarded (Q := fun r _ => ∃ w, r = with_keyblob okm w ∧
      Squeezed hw (kdf_operation kdk label context okm security_str) len len w) (fun s base hs => ?_) ?_
    · refine Guarded.mono (otcrypto_kmac_kdf_exact haccepts hholds hs hplaces (by omega)) ?_ fun _ => id
      rintro r t ⟨w, hr, hsq, ht⟩
      exact ⟨⟨w, hr, hsq⟩, ht⟩
    · rintro _ _ ⟨w, rfl, hsq⟩
      show unmasked (with_keyblob okm w).words n = _
      rw [unmasked_with_keyblob hnull hwords, hshare]
      exact xor_squeezed hsq

variable {stack : ℕ → u32} {otbn : Otbn} {key : BlindedKey}

theorem words0_at (ss : P256EcdhSharedKey) : (ss.words0 stack).at 0 kP256CoordWords = ss.share0.toList := by
  apply List.ext_getElem
  · simp
  · intro i hi hlt
    have hin : i < kP256CoordWords := by simpa using hi
    simp [Words.at, P256EcdhSharedKey.words0, List.getElem?_append_left, hin]

theorem words1_at (ss : P256EcdhSharedKey) : (ss.words1 stack).at 0 kP256CoordWords = ss.share1.toList := by
  apply List.ext_getElem
  · simp
  · intro i hi hlt
    have hin : i < kP256CoordWords := by simpa using hi
    simp [Words.at, P256EcdhSharedKey.words1, List.getElem?_append_left, hin]

/-- The same for the shared key of ECDH, whose two arrays have eight words each. -/
theorem ecdh_p256_unmasks_iff (hkey : Allocated key) (haccepts : EcdhAccepts otbn key) :
    UnmasksTo (otcrypto_ecdh_p256_async_finalize stack otbn key) otbn.secret ↔
      key_type key.config.key_mode ≠ kOtcryptoKeyTypeEcc := by
  obtain ⟨hnull, hchecks, -⟩ := id haccepts
  obtain ⟨hhw, hlength, hblob⟩ := ecdh_p256_finalize_checks_iff.mp hchecks
  have hbytes : key.config.key_length.toNat = 32 := by
    rw [hlength]
    rfl
  have hshare := toNat_share_words key.config (by omega)
  rw [hbytes] at hshare
  set n := (keyblob_share_num_words key.config).toNat with hn
  have hle : n ≤ 10 := by
    rw [hshare]
    split_ifs <;> omega
  have htotal : (keyblob_num_words key.config).toNat = 2 * n := toNat_keyblob_num_words hhw
  have hwords := length_words_of_checks hkey hhw hblob hn.symm (by omega)
  constructor
  · intro hunmasks hecc
    rw [if_pos hecc] at hshare
    refine not_unmasksTo key (fun s hs => ?_) (by rw [HoldsShares, hwords]) ?_ hunmasks
    · refine Guarded.mono
        (otcrypto_ecdh_p256_async_finalize_exact haccepts hs (fun _ _ => trivial) hn.symm) ?_ fun _ => id
      rintro r t ⟨w, hr, -⟩
      exact ⟨w, hr⟩
    · rw [Otbn.secret, length_hardened_xor, Vector.length_toList, Vector.length_toList, ← hn, hshare]
      decide
  · intro hecc
    rw [if_neg hecc] at hshare
    have height : n = kP256CoordWords := hshare
    have hplaces : ∀ x ∈ ecdh_places otbn stack key, x.Inside := by
      have hlen : (keyblob_words key).len = 2 * n := by
        rw [keyblob_words, toNat_keyblob_length hhw hblob hn.symm (by omega),
          Nat.mul_div_cancel_left _ (by decide)]
      have h0 : (otbn.shared_key.words0 stack).len = n := height.symm
      have h1 : (otbn.shared_key.words1 stack).len = n := height.symm
      simp only [ecdh_places, shares_places, inside_append_iff, places_inside_iff, ← hn, htotal, hlen, h0,
        h1, ← height]
      omega
    refine unmasksTo_of_guarded (Q := fun r _ => ∃ w, r = with_keyblob key w ∧
      w.at 0 n = (otbn.shared_key.words0 stack).at 0 n ∧
      w.at n n = (otbn.shared_key.words1 stack).at 0 n) (fun s base hs => ?_) ?_
    · refine Guarded.mono (otcrypto_ecdh_p256_async_finalize_exact haccepts hs hplaces hn.symm) ?_
        fun _ => id
      rintro r t ⟨w, hr, hw0, hw1, htouched⟩
      refine ⟨⟨w, hr, hw0, hw1⟩, fun x hx => ?_⟩
      rw [htouched] at hx
      exact hs.add hplaces x hx
    · rintro _ _ ⟨w, rfl, hw0, hw1⟩
      show unmasked (with_keyblob key w).words n = _
      rw [unmasked_with_keyblob hnull hwords, hw0, hw1, height, words0_at, words1_at]
      rfl

end unmask

/-! ## Which calls return -/

section refusals

variable {hw : KmacBlock} {kdk okm key : BlindedKey} {label context : ByteBuf} {stack : ℕ → u32}
  {otbn : Otbn} {s : Device}

theorem kmac_key_construct_refuses (hnull : kdk.keyblob ≠ none) (h : ¬KdkAccepted kdk) :
    Refuses (kmac_key_construct kdk) s fun _ => True := by
  rw [kmac_key_construct]
  refine Refuses.ite (fun htrue => Refuses.ite (fun _ => Refuses.throw trivial) fun hshare => ?_)
    fun _ => Refuses.ite (fun hfalse => ?_) fun _ => Refuses.throw trivial
  · refine Refuses.ite (fun _ => Refuses.throw trivial) fun _ =>
      Refuses.ite (fun _ => Refuses.throw trivial) fun hblob => ?_
    exact absurd ⟨hnull, .inl ⟨htrue, not_not.mp hshare, not_not.mp hblob⟩⟩ h
  · refine Refuses.bind_left (Refuses.ofExcept trivial fun _ hmasked => ?_)
    refine Refuses.step_bind trivial ?_
    refine Refuses.ofExcept trivial fun n hshares => ?_
    refine absurd ⟨hnull, .inr ⟨hmasked, ?_⟩⟩ h
    obtain ⟨_, hlen, -⟩ := Checks.ok_of_bind hshares
    exact hlen

theorem memshred_does (n : ℕ) {I : Device → Prop} : Guarded (memshred n) s (fun _ _ => True) I :=
  Guarded.get (Guarded.modify_bind (Guarded.pure trivial))

/-- The length of a digest that does not fit into 32 bits, in bits. -/
theorem kmac_process_msg_blocks_refuses {op : KmacOperation} {a : Words}
    (h : ¬32 * op.digest_len.toNat < 2 ^ 32) :
    Refuses (kmac_process_msg_blocks hw op a) s fun _ => True := by
  refine Refuses.step_bind trivial ?_
  refine Refuses.ite (fun _ => Refuses.throw trivial) fun hsame => ?_
  have hlen := congrArg BitVec.toNat (not_not.mp hsame)
  rw [BitVec.toNat_udiv, BitVec.toNat_mul, show (8 * 4 : u32).toNat = 32 from rfl] at hlen
  omega

/-- A call that is not accepted does not return a key. -/
theorem otcrypto_kmac_kdf_refuses
    (hholds : kdk.config.hw_backed = kHardenedBoolFalse → HoldsShares kdk)
    (h : ∀ security_str, ¬KmacKdfAccepts kdk label context okm security_str) :
    Refuses (otcrypto_kmac_kdf hw kdk label context okm) s fun _ => True := by
  refine Refuses.ofExcept trivial fun _ hinput => ?_
  have hnull : kdk.keyblob ≠ none := by
    intro hnone
    rw [kmac_kdf_input_checks, if_pos (.inl hnone)] at hinput
    cases hinput
  by_cases hkey : KdkAccepted kdk
  · refine Refuses.bind (R := fun _ _ => True) (Guarded.mono (kmac_key_construct_exact hkey hholds
      (show Noted s.touched (fun _ => True) s from fun _ => .inl)) (fun _ _ _ => trivial)
      fun _ _ => trivial) fun key t _ => ?_
    refine Refuses.ofExcept trivial fun _ houtput => ?_
    refine Refuses.bind (memshred_does _) fun random t _ => ?_
    refine Refuses.bind (R := fun _ _ => True) (Guarded.modify_bind (Guarded.pure trivial))
      fun keyblob t _ => ?_
    refine Refuses.ofExcept trivial fun security_str hstrength => Refuses.bind_left ?_
    refine Refuses.step_bind trivial ?_
    refine Refuses.step_bind trivial ?_
    refine Refuses.ite (fun _ => Refuses.throw trivial) fun _ => ?_
    refine kmac_process_msg_blocks_refuses fun hbits => h security_str ⟨hinput, hkey, houtput, hstrength, ?_⟩
    have hdigest : (okm.config.key_length / 4).toNat = okm.config.key_length.toNat / 4 :=
      BitVec.toNat_udiv
    have hmod := congrArg BitVec.toNat (kmac_kdf_output_checks_iff.mp houtput).1
    rw [BitVec.toNat_umod] at hmod
    have hlen : 32 * (okm.config.key_length / 4).toNat < 2 ^ 32 := hbits
    omega
  · exact Refuses.bind_left (kmac_key_construct_refuses hnull hkey)

theorem otcrypto_ecdh_p256_async_finalize_refuses (h : ¬EcdhAccepts otbn key)
    (hcount : otbn.ins_cnt = kModeEcdhSideloadInsCnt ∨ otbn.ins_cnt = kModeEcdhInsCnt) :
    Refuses (otcrypto_ecdh_p256_async_finalize stack otbn key) s fun _ => True := by
  refine Refuses.ite (fun _ => Refuses.throw trivial) fun hnull => ?_
  refine Refuses.step_bind trivial ?_
  refine Refuses.bind (memshred_does _) fun random t _ => ?_
  refine Refuses.bind (R := fun _ _ => True) (Guarded.modify_bind (Guarded.pure trivial))
    fun keyblob t _ => ?_
  refine Refuses.ofExcept trivial fun _ hchecks => ?_
  refine Refuses.bind (memshred_does _) fun _ t _ => Refuses.bind (memshred_does _) fun _ t _ =>
    Refuses.bind_left ?_
  refine Refuses.step_bind trivial ?_
  refine Refuses.step_bind trivial ?_
  refine Refuses.ite (fun _ => ?_) fun hok => ?_
  · exact Refuses.step_bind trivial (Refuses.throw trivial)
  · exact absurd ⟨hnull, hchecks, not_not.mp hok, hcount⟩ h

end refusals

/-! ## Both derivations -/

/-- The secret is what the keyblob unmasks to, and only the arrays of its shares are read, when the
key is not an ECC key. -/
theorem derived_secrets_unmask_iff (okm : BlindedKey) (hokm : Allocated okm) :
    (∀ (hw : KmacBlock) (kdk : BlindedKey) (label context : ByteBuf) (security_str : SecurityStrength),
      (kdk.config.hw_backed = kHardenedBoolFalse → HoldsShares kdk) →
      KmacKdfAccepts kdk label context okm security_str →
      (UnmasksTo (otcrypto_kmac_kdf hw kdk label context okm)
          (squeezed_words hw (kdf_operation kdk label context okm security_str)) ↔
        key_type okm.config.key_mode ≠ kOtcryptoKeyTypeEcc)) ∧
    ∀ (stack : ℕ → u32) (otbn : Otbn), EcdhAccepts otbn okm →
      (UnmasksTo (otcrypto_ecdh_p256_async_finalize stack otbn okm) otbn.secret ↔
        key_type okm.config.key_mode ≠ kOtcryptoKeyTypeEcc) :=
  ⟨fun _ _ _ _ _ hholds haccepts => kmac_kdf_unmasks_iff hokm hholds haccepts,
    fun _ _ haccepts => ecdh_p256_unmasks_iff hokm haccepts⟩

def kOtcryptoKeyModeEcdhP256 : u32 := kOtcryptoKeyTypeEcc <<< 16 ||| 0x5fc

/-- A key of `len` bytes with room for its shares and a checksum. -/
def sample_key_of (key_mode len : u32) : BlindedKey :=
  with_keyblob (local_key (fun _ => 0) (hmac_key_config key_mode len)) ⟨.keyblob, 0, BitVec.ofNat 32⟩

theorem sample_key_of_holds (key_mode len : u32) : HoldsShares (sample_key_of key_mode len) := by
  rw [HoldsShares, sample_key_of, length_words_with_keyblob]
  exact (holdsShares_local_key _ key_mode len).ge

def sample_block : KmacBlock := ⟨fun _ i => BitVec.ofNat 32 (i + 1), fun _ _ => 5⟩

def sample_otbn : Otbn :=
  ⟨kHardenedBoolTrue, kModeEcdhInsCnt, Vector.replicate 8 3, Vector.replicate 8 1⟩

theorem derived_secrets_unmask_hmac :
    UnmasksTo (otcrypto_kmac_kdf sample_block (sample_key_of kOtcryptoKeyModeKdfKmac128 16)
        (sample_bytes [1] (by decide)) (sample_bytes [2] (by decide)) (sample_key 32))
      (squeezed_words sample_block (kdf_operation (sample_key_of kOtcryptoKeyModeKdfKmac128 16)
        (sample_bytes [1] (by decide)) (sample_bytes [2] (by decide)) (sample_key 32)
        .kKmacSecurityStrength128)) ∧
    UnmasksTo (otcrypto_ecdh_p256_async_finalize (fun _ => 0) sample_otbn (sample_key 32))
      sample_otbn.secret := by
  have hallocated : Allocated (sample_key 32) := by
    unfold Allocated
    decide
  have hboth := derived_secrets_unmask_iff (sample_key 32) hallocated
  refine ⟨(hboth.1 _ _ _ _ _ (fun _ => sample_key_of_holds _ _) ⟨?_, ?_, ?_, ?_, ?_⟩).mpr
      (by decide),
    (hboth.2 _ _ ⟨Option.some_ne_none _, ?_, rfl, .inr rfl⟩).mpr (by decide)⟩
  · decide +kernel
  · exact ⟨Option.some_ne_none _, .inr ⟨by decide, by decide⟩⟩
  · decide
  · decide
  · decide
  · decide

/-- With an ECC key of 32 bytes the shares have ten words, and the secret eight. -/
theorem derived_secrets_ecc :
    (KmacKdfAccepts (sample_key_of kOtcryptoKeyModeKdfKmac128 16) (sample_bytes [1] (by decide))
        (sample_bytes [2] (by decide)) (sample_key_of kOtcryptoKeyModeEcdhP256 32)
        .kKmacSecurityStrength128 ∧
      ¬UnmasksTo (otcrypto_kmac_kdf sample_block (sample_key_of kOtcryptoKeyModeKdfKmac128 16)
          (sample_bytes [1] (by decide)) (sample_bytes [2] (by decide))
          (sample_key_of kOtcryptoKeyModeEcdhP256 32))
        (squeezed_words sample_block (kdf_operation (sample_key_of kOtcryptoKeyModeKdfKmac128 16)
          (sample_bytes [1] (by decide)) (sample_bytes [2] (by decide))
          (sample_key_of kOtcryptoKeyModeEcdhP256 32) .kKmacSecurityStrength128))) ∧
    EcdhAccepts sample_otbn (sample_key_of kOtcryptoKeyModeEcdhP256 32) ∧
      ¬UnmasksTo (otcrypto_ecdh_p256_async_finalize (fun _ => 0) sample_otbn
        (sample_key_of kOtcryptoKeyModeEcdhP256 32)) sample_otbn.secret := by
  have hallocated : Allocated (sample_key_of kOtcryptoKeyModeEcdhP256 32) := by
    unfold Allocated
    decide
  have hecc : ¬key_type (sample_key_of kOtcryptoKeyModeEcdhP256 32).config.key_mode ≠
      kOtcryptoKeyTypeEcc := by decide
  have hkmac : KmacKdfAccepts (sample_key_of kOtcryptoKeyModeKdfKmac128 16)
      (sample_bytes [1] (by decide)) (sample_bytes [2] (by decide))
      (sample_key_of kOtcryptoKeyModeEcdhP256 32) .kKmacSecurityStrength128 := by
    refine ⟨?_, ⟨Option.some_ne_none _, .inr ⟨?_, ?_⟩⟩, ?_, ?_, ?_⟩
    all_goals decide +kernel
  have hecdh : EcdhAccepts sample_otbn (sample_key_of kOtcryptoKeyModeEcdhP256 32) :=
    ⟨Option.some_ne_none _, by decide, rfl, .inr rfl⟩
  refine ⟨⟨hkmac, fun h => hecc ?_⟩, hecdh, fun h => hecc ?_⟩
  · exact (kmac_kdf_unmasks_iff hallocated (fun _ => sample_key_of_holds _ _) hkmac).mp h
  · exact (ecdh_p256_unmasks_iff hallocated hecdh).mp h

end IbexFirmware.Kdf
