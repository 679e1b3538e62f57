/-
The RSA keys that the library produces can be used.

A key comes from one of three functions, with buffers that pass the checks of that
function (`Ready`). It should come out with the numbers it was built from, and the entry
point that its mode is for should take it (`PublicUsable`, `PrivateUsable`). `usable_iff`
says when it does. A public key always does. A private key carries a version that no
producer looks at and every consumer does, and OTBN computes keys of three sizes, of which
two end at a hardened check.
-/
import IbexFirmware.RsaKeygen

set_option autoImplicit false

namespace IbexFirmware.Rsa

open Bytes PowerFail Crypto HardenedMemory Splice

/-! ## What a consumer accepts -/

/-- The padding that a signing key is for. -/
def matching_padding (key_mode : u32) : Option u32 :=
  if key_mode = kOtcryptoKeyModeRsaSignPkcs then some kOtcryptoRsaPaddingPkcs
  else if key_mode = kOtcryptoKeyModeRsaSignPss then some kOtcryptoRsaPaddingPss
  else none

theorem key_mode_padding_check_matching {key_mode padding_mode : u32}
    (h : matching_padding key_mode = some padding_mode) :
    key_mode_padding_check key_mode padding_mode = .ok () := by
  unfold matching_padding at h
  split_ifs at h with hpkcs hpss
  · obtain rfl := Option.some.inj h
    subst hpkcs
    rfl
  · obtain rfl := Option.some.inj h
    subst hpss
    rfl

/-- A private key signs or decrypts. -/
theorem private_mode_cases {key_mode : u32} (h : rsa_mode_check key_mode = .ok ()) :
    (∃ padding_mode, matching_padding key_mode = some padding_mode) ∨
      key_mode = kOtcryptoKeyModeRsaEncryptOaep := by
  unfold rsa_mode_check at h
  unfold matching_padding
  split_ifs at h ⊢
  · exact .inl ⟨_, rfl⟩
  · exact .inl ⟨_, rfl⟩
  · exact .inr ‹_›

/-- A public key that holds `n` and that verifies or encrypts, as its mode says. The
signature is any number of the right length below the modulus. -/
structure PublicUsable (size : RsaSize) (n : List u32) (k : UnblindedKey) : Prop where
  modulus : slice k.words 0 size.num_words.toNat = n
  verify_check : rsa_verify_key_check k = .ok size.code
  verify : ∀ (u : State) (signature : Word32Buf), u.public_key = some k → signature.data ≠ none →
    signature.len = size.num_words → bignum_lt signature.words n ≠ kHardenedBoolFalse →
      Does (otcrypto_rsa_verify_async_start signature) u fun _ t =>
        t.started = some (.verify size.code)
  encrypt_check : k.key_mode = kOtcryptoKeyModeRsaEncryptOaep →
    rsa_encrypt_key_check k = .ok size.code
  encrypt : k.key_mode = kOtcryptoKeyModeRsaEncryptOaep → ∀ u : State, u.public_key = some k →
    Does otcrypto_rsa_encrypt_async_start u fun _ t => t.started = some (.encrypt size.code)

/-- A private key that holds the numbers given and that signs or decrypts, as its mode
says. -/
structure PrivateUsable (size : RsaSize) (n d0 d1 : List u32) (k : BlindedKey) : Prop where
  numbers : Holds size.num_words.toNat n d0 d1 k.words
  sign_check : ∀ padding_mode, matching_padding k.config.key_mode = some padding_mode →
    rsa_sign_key_check k padding_mode = .ok size.code
  sign : ∀ padding_mode, matching_padding k.config.key_mode = some padding_mode →
    ∀ (u : State) (digest : List u32), u.private_key = some k →
      Does (otcrypto_rsa_sign_async_start (some digest) padding_mode) u fun _ t =>
        t.started = some (.sign size.code)
  decrypt_check : k.config.key_mode = kOtcryptoKeyModeRsaEncryptOaep →
    rsa_decrypt_key_check k = .ok size.code
  decrypt : k.config.key_mode = kOtcryptoKeyModeRsaEncryptOaep →
    ∀ (u : State) (ciphertext : Word32Buf), u.private_key = some k → ciphertext.data ≠ none →
      ciphertext.len = size.num_words → bignum_lt ciphertext.words n ≠ kHardenedBoolFalse →
        Does (otcrypto_rsa_decrypt_async_start ciphertext) u fun _ t =>
          t.started = some (.decrypt size.code)

/-! ## Keys that are accepted -/

section

variable {size : RsaSize}

theorem start_below_modulus_does {number : Word32Buf} {n ws : List u32} {op : Operation}
    {u : State} (hlen : number.len = size.num_words) (hn : ws.take size.num_words.toNat = n)
    (hlt : bignum_lt number.words n ≠ kHardenedBoolFalse) :
    Does (start_below_modulus number ws size.code op) u fun _ t => t.started = some op := by
  unfold start_below_modulus
  rw [size.size_words_code, if_neg (not_not.mpr hlen), hn, if_neg hlt]
  exact Does.step rfl

/-- A public key with a right checksum is usable. -/
theorem public_usable {n : List u32} {k : UnblindedKey} (hkey : k.key ≠ none)
    (hmode : rsa_mode_check k.key_mode = .ok ()) (hlen : k.key_length = 4 * size.num_words)
    (hn : slice k.words 0 size.num_words.toNat = n)
    (hsum : k.checksum = integrity_unblinded_checksum k) : PublicUsable size n k := by
  have hintegrity := (integrity_unblinded_key_check_iff k).mpr hsum
  have hsize := rsa_size_from_public_key_eq hlen
  have hverify : rsa_verify_key_check k = .ok size.code := by
    unfold rsa_verify_key_check public_key_structural_check
    rw [hmode, hintegrity, ← hsize]
    rfl
  have hencrypt : k.key_mode = kOtcryptoKeyModeRsaEncryptOaep →
      rsa_encrypt_key_check k = .ok size.code := by
    intro hoaep
    unfold rsa_encrypt_key_check public_key_structural_check
    rw [hmode, hintegrity, if_neg (not_not.mpr hoaep), ← hsize]
    rfl
  refine ⟨hn, hverify, ?_, hencrypt, ?_⟩
  · intro u signature hu hdata hsiglen hlt
    refine Does.get ?_
    rw [hu]
    dsimp only
    rw [if_neg (by simp [hkey, hdata])]
    refine Does.step_bind (Does.ofExcept_bind hverify ?_)
    rw [if_pos size.known_code]
    exact start_below_modulus_does hsiglen hn hlt
  · intro hoaep u hu
    refine Does.get ?_
    rw [hu]
    dsimp only
    rw [if_neg hkey]
    refine Does.step_bind (Does.ofExcept_bind (hencrypt hoaep) ?_)
    rw [if_neg (by simp [size.size_words_code, hlen, size.known_code])]
    exact Does.step rfl

/-- The checks of a private key come down to its version and its checksum. -/
theorem sign_key_check_iff {k : BlindedKey} {padding_mode : u32} (hk : Structured size k)
    (hpadding : matching_padding k.config.key_mode = some padding_mode) :
    rsa_sign_key_check k padding_mode = .ok size.code ↔
      integrity_blinded_key_check k = kHardenedBoolTrue := by
  unfold rsa_sign_key_check
  rw [rsa_size_from_private_key_eq hk.key_length]
  change (do
    private_key_structural_check size.code k
    key_mode_padding_check k.config.key_mode padding_mode
    if integrity_blinded_key_check k ≠ kHardenedBoolTrue then .error .OTCRYPTO_BAD_ARGS
    else pure size.code) = _ ↔ _
  rw [(private_key_structural_check_iff size k).mpr hk, key_mode_padding_check_matching hpadding]
  change (if _ then _ else _) = _ ↔ _
  split_ifs with hintegrity
  · exact iff_of_false nofun hintegrity
  · exact iff_of_true rfl (not_not.mp hintegrity)

theorem decrypt_key_check_iff {k : BlindedKey} (hk : Structured size k)
    (hoaep : k.config.key_mode = kOtcryptoKeyModeRsaEncryptOaep) :
    rsa_decrypt_key_check k = .ok size.code ↔
      integrity_blinded_key_check k = kHardenedBoolTrue := by
  unfold rsa_decrypt_key_check
  rw [rsa_size_from_private_key_eq hk.key_length]
  change (do
    private_key_structural_check size.code k
    if integrity_blinded_key_check k ≠ kHardenedBoolTrue then .error .OTCRYPTO_BAD_ARGS
    else if k.config.key_mode ≠ kOtcryptoKeyModeRsaEncryptOaep then .error .OTCRYPTO_BAD_ARGS
    else pure size.code) = _ ↔ _
  rw [(private_key_structural_check_iff size k).mpr hk, if_neg (not_not.mpr hoaep)]
  change (if _ then _ else _) = _ ↔ _
  split_ifs with hintegrity
  · exact iff_of_false nofun hintegrity
  · exact iff_of_true rfl (not_not.mp hintegrity)

/-- A private key with the version of the library and a right checksum is usable, and no
other is. -/
theorem private_usable_iff {n d0 d1 : List u32} {k : BlindedKey} (hkeyblob : k.keyblob ≠ none)
    (hk : Structured size k) (hholds : Holds size.num_words.toNat n d0 d1 k.words)
    (hsum : k.checksum = integrity_blinded_checksum k) :
    PrivateUsable size n d0 d1 k ↔ k.config.version = kOtcryptoLibVersion1 := by
  have hversion : integrity_blinded_key_check k = kHardenedBoolTrue ↔
      k.config.version = kOtcryptoLibVersion1 := by
    rw [integrity_blinded_key_check_iff]
    exact and_iff_left hsum
  rw [← hversion]
  constructor
  · intro h
    rcases private_mode_cases hk.mode with ⟨padding_mode, hpadding⟩ | hoaep
    · exact (sign_key_check_iff hk hpadding).mp (h.sign_check padding_mode hpadding)
    · exact (decrypt_key_check_iff hk hoaep).mp (h.decrypt_check hoaep)
  · intro hintegrity
    refine ⟨hholds, fun p hp => (sign_key_check_iff hk hp).mpr hintegrity, ?_,
      fun hoaep => (decrypt_key_check_iff hk hoaep).mpr hintegrity, ?_⟩
    · intro padding_mode hpadding u digest hu
      refine Does.get ?_
      rw [hu]
      dsimp only
      rw [if_neg (by simp [hkeyblob])]
      refine Does.step_bind
        (Does.ofExcept_bind ((sign_key_check_iff hk hpadding).mpr hintegrity) ?_)
      rw [if_pos size.known_code]
      exact Does.step rfl
    · intro hoaep u ciphertext hu hdata hlen hlt
      refine Does.get ?_
      rw [hu]
      dsimp only
      rw [if_neg (by simp [hkeyblob, hdata])]
      refine Does.step_bind
        (Does.ofExcept_bind ((decrypt_key_check_iff hk hoaep).mpr hintegrity) ?_)
      rw [if_neg (by simp [size.size_words_code, hk.keyblob_length, size.known_code])]
      refine start_below_modulus_does hlen ?_ hlt
      rw [size.size_words_code]
      exact hholds.modulus

end

/-! ## Keys that are produced -/

inductive Producer where
  | public_key_construct (modulus : Word32Buf)
  | private_key_from_exponents (modulus d_share0 d_share1 : Word32Buf)
  | keygen

/-- The arguments and the key buffers pass the checks of the function. -/
def Ready (size : RsaSize) (s : State) : Producer → Prop
  | .public_key_construct modulus =>
      ∃ k, s.public_key = some k ∧ k.key ≠ none ∧ rsa_mode_check k.key_mode = .ok () ∧
        k.key_length = 4 * size.num_words ∧ modulus.data ≠ none ∧ modulus.len = size.num_words
  | .private_key_from_exponents modulus d_share0 d_share1 =>
      ∃ k, s.private_key = some k ∧ k.keyblob ≠ none ∧
        private_key_structural_check size.code k = .ok () ∧ modulus.data ≠ none ∧
        d_share0.data ≠ none ∧ d_share1.data ≠ none ∧ modulus.len = size.num_words ∧
        d_share0.len = modulus.len ∧ d_share1.len = modulus.len
  | .keygen =>
      ∃ public_key private_key, key_pair s = some (public_key, private_key) ∧
        key_pair_check public_key private_key = .ok size.code

section

variable (program : OtbnApp → Dmem → Numbers) (size : RsaSize)

def Producer.run : Producer → Proc State CryptoError Unit
  | .public_key_construct modulus => otcrypto_rsa_public_key_construct size.code modulus
  | .private_key_from_exponents modulus d_share0 d_share1 =>
      otcrypto_rsa_private_key_from_exponents size.code modulus d_share0 d_share1
  | .keygen => otcrypto_rsa_keygen program size.code

/-- The numbers that OTBN computes for a key pair. -/
def keygen_numbers : Numbers :=
  program .run_rsa { Dmem.wiped with mode := some size.keygen_mode }

/-- What is left in the key buffers. -/
def Producer.Stored (t : State) : Producer → Prop
  | .public_key_construct modulus => ∃ k, t.public_key = some k ∧ PublicUsable size modulus.words k
  | .private_key_from_exponents modulus d_share0 d_share1 =>
      ∃ k, t.private_key = some k ∧
        PrivateUsable size modulus.words d_share0.words d_share1.words k
  | .keygen =>
      let numbers := keygen_numbers program size
      let n := variable_words size.num_words numbers.n
      (∃ k, t.public_key = some k ∧ PublicUsable size n k) ∧
        ∃ k, t.private_key = some k ∧ PrivateUsable size n
          (variable_words size.num_words numbers.d0) (variable_words size.num_words numbers.d1) k

/-- A function that is called with what it asks for returns, and the keys that it stores
can be used. -/
def Usable (producer : Producer) (s : State) : Prop :=
  Ready size s producer → Does (producer.run program size) s fun _ t =>
    producer.Stored program size t

/-- The version that the caller has put in the private key. -/
def version (s : State) : Option u32 := s.private_key.map fun k => k.config.version

/-- The keys that come out usable. -/
def Sound (s : State) : Producer → Prop
  | .public_key_construct _ => True
  | .private_key_from_exponents _ _ _ => version s = some kOtcryptoLibVersion1
  | .keygen => size = .rsa2048 ∧ version s = some kOtcryptoLibVersion1

end

section

variable {size : RsaSize} {s : State}

theorem public_key_case_code (modulus : Word32Buf) (k : UnblindedKey) :
    public_key_case size.code modulus k =
      public_key_copy (4 * size.num_words) size.num_words modulus k := by
  cases size <;> rfl

theorem private_key_case_code (modulus d_share0 d_share1 : Word32Buf) (k : BlindedKey) :
    private_key_case size.code modulus d_share0 d_share1 k =
      private_key_copy (12 * size.num_words) size.num_words modulus d_share0 d_share1 k := by
  cases size <;> rfl

theorem public_key_construct_does {modulus : Word32Buf}
    (h : Ready size s (.public_key_construct modulus)) :
    Does (otcrypto_rsa_public_key_construct size.code modulus) s fun _ t =>
      ∃ k, t.public_key = some k ∧ PublicUsable size modulus.words k := by
  obtain ⟨k, hk, hkey, hmode, hlen, hdata, hmodulus⟩ := h
  refine Does.get ?_
  rw [hk]
  dsimp only
  rw [if_neg (by simp [hkey, hdata])]
  refine Does.step_bind (Does.ofExcept_bind hmode ?_)
  rw [public_key_case_code, public_key_copy, if_neg (by simp [hlen, hmodulus])]
  let stored := k.write modulus.words
  refine Does.modify_bind (Does.modify
    ⟨{ stored with checksum := integrity_unblinded_checksum stored }, ?_, ?_⟩)
  · simp only [State.on_public, hk, Option.map_some]
    rfl
  · refine public_usable ?_ hmode hlen ?_ rfl
    · exact UnblindedKey.key_write hkey _
    · show slice (k.write modulus.words).words 0 size.num_words.toNat = modulus.words
      rw [UnblindedKey.words_write hkey]
      exact slice_splice (by rw [Word32Buf.length_words hdata, hmodulus]) (Nat.zero_le _)

/-- The key that `otcrypto_rsa_private_key_from_exponents` stores. -/
theorem private_key_from_exponents_does {modulus d_share0 d_share1 : Word32Buf} {k : BlindedKey}
    (hk : s.private_key = some k)
    (h : Ready size s (.private_key_from_exponents modulus d_share0 d_share1)) :
    Does (otcrypto_rsa_private_key_from_exponents size.code modulus d_share0 d_share1) s fun _ t =>
      ∃ k', t.private_key = some k' ∧ (PrivateUsable size modulus.words d_share0.words
        d_share1.words k' ↔ k.config.version = kOtcryptoLibVersion1) := by
  obtain ⟨k', hk', hkeyblob, hcheck, hmodulus, hd0, hd1, hmlen, hd0len, hd1len⟩ := h
  obtain rfl : k = k' := Option.some.inj (hk.symm.trans hk')
  have hstructured := (private_key_structural_check_iff size k).mp hcheck
  refine Does.get ?_
  rw [hk]
  dsimp only
  rw [if_neg (by simp [hkeyblob, hmodulus, hd0, hd1])]
  refine Does.step_bind (Does.ofExcept_bind hstructured.mode ?_)
  rw [if_neg (by simp [hd0len, hd1len])]
  refine Does.ofExcept_bind hcheck (Does.modify_bind ?_)
  rw [private_key_case_code, private_key_copy,
    if_neg (by simp [hstructured.keyblob_length, hmlen]), hstructured.keyblob_length]
  set random := s.entropy.words (ceil_div (12 * size.num_words) 4).toNat with hrandom
  have hshred := BlindedKey.keyblob_write hkeyblob 0 random
  -- Shredding leaves room for the three numbers, whatever the buffer was.
  have hroom : 3 * size.num_words.toNat ≤ (k.write 0 random).words.length := by
    rw [BlindedKey.words_write hkeyblob, ← size.ceil_div_keyblob]
    refine le_trans (le_of_eq ?_) (length_le_splice k.words random)
    rw [hrandom, EntropySource.length_words]
  have hwords : ∀ {b : Word32Buf}, b.data ≠ none → b.len = size.num_words →
      b.words.length = size.num_words.toNat := by
    intro b hdata hlen
    rw [Word32Buf.length_words hdata, hlen]
  let stored := (((k.write 0 random).write (2 * size.num_words.toNat) modulus.words).write 0
    d_share0.words).write size.num_words.toNat d_share1.words
  refine Does.bind (R := fun _ t => t.private_key = some stored) ?_ ?_
  · refine Does.modify_bind (Does.modify_bind (Does.modify ?_))
    simp only [State.on_private, hk, Option.map_some]
    rfl
  · intro _ t ht
    refine Does.modify ⟨{ stored with checksum := integrity_blinded_checksum stored }, ?_, ?_⟩
    · simp only [State.on_private, ht, Option.map_some]
    refine private_usable_iff ?_ ?_ ?_ rfl
    · exact BlindedKey.keyblob_write (BlindedKey.keyblob_write
        (BlindedKey.keyblob_write hshred _ _) _ _) _ _
    · exact ⟨hstructured.mode, hstructured.software, hstructured.key_length,
        hstructured.keyblob_length⟩
    · exact holds_write hshred hroom (hwords hmodulus hmlen) (hwords hd0 (hd0len.trans hmlen))
        (hwords hd1 (hd1len.trans hmlen))

/-! ## Keys that OTBN computes -/

variable (program : OtbnApp → Dmem → Numbers)

/-- The state that the first half of a computation leaves. -/
def keygen_started (size : RsaSize) (s : State) : State :=
  let numbers := keygen_numbers program size
  { s with
    app := some .run_rsa
    dmem := { Dmem.wiped with
      mode := some size.keygen_mode
      rsa_n := numbers.n
      rsa_d0 := numbers.d0
      rsa_d1 := numbers.d1 } }

theorem keygen_async_start_does (size : RsaSize) (s : State) :
    Does (otcrypto_rsa_keygen_async_start program size.code) s fun _ t =>
      t = keygen_started program size s := by
  have hcase : keygen_start_case program size.code = keygen_start program size.keygen_mode := by
    cases size <;> rfl
  unfold otcrypto_rsa_keygen_async_start
  rw [hcase]
  refine Does.step_bind ?_
  unfold keygen_start otbn_load_app otbn_dmem_write_mode otbn_execute driver
  exact Does.step_bind (Does.step_bind (Does.step rfl))

/-- The size that the second half records as used is 2048 bits, whatever the size was. -/
theorem keygen_finalize_case_does {s : State} (h : s.dmem.mode = some size.keygen_mode) :
    Does (keygen_finalize_case size.code) s fun size_used t =>
      size_used = kOtcryptoRsaSize2048 ∧ t = finished size.num_words s := by
  have hcase : keygen_finalize_case size.code = (do
      keygen_finalize_copy size.keygen_mode size.num_words
      pure (0 ||| kOtcryptoRsaSize2048)) := by
    cases size <;> rfl
  rw [hcase]
  refine Does.bind (keygen_finalize_copy_does size.num_words h) fun _ t ht => ?_
  exact Does.pure ⟨by decide, ht⟩

/-- With buffers for 2048 bits the computed pair is stored. -/
theorem keygen_2048_does {public_key : UnblindedKey} {private_key : BlindedKey}
    (hpair : key_pair s = some (public_key, private_key))
    (hcheck : key_pair_check public_key private_key = .ok (RsaSize.code .rsa2048)) :
    Does (otcrypto_rsa_keygen program (RsaSize.code .rsa2048)) s fun _ t =>
      let numbers := keygen_numbers program .rsa2048
      let n := variable_words kRsa2048NumWords numbers.n
      (∃ k, t.public_key = some k ∧ PublicUsable .rsa2048 n k) ∧
        ∃ k, t.private_key = some k ∧ (PrivateUsable .rsa2048 n
          (variable_words kRsa2048NumWords numbers.d0)
          (variable_words kRsa2048NumWords numbers.d1) k ↔
            private_key.config.version = kOtcryptoLibVersion1) := by
  obtain ⟨hlen, hmode, hstructured⟩ := (key_pair_check_iff .rsa2048 _ _).mp hcheck
  refine Does.bind (keygen_async_start_does program .rsa2048 s) ?_
  rintro _ _ rfl
  have hpair' : key_pair (keygen_started program .rsa2048 s) = some (public_key, private_key) :=
    hpair
  refine Does.get ?_
  rw [hpair']
  refine Does.step_bind (Does.ofExcept_bind hcheck (Does.modify_bind ?_))
  refine Does.bind (keygen_finalize_case_does rfl) ?_
  rintro size_used _ ⟨hused, rfl⟩
  rw [if_neg (by simp [hused, RsaSize.code]), hstructured.keyblob_length]
  obtain ⟨public_key', private_key', hpublic, hprivate, hstored⟩ :=
    @finished_keys (keygen_started program .rsa2048 s) .rsa2048 _ _ hpair'
  refine (set_checksums_does _).mono ?_
  rintro _ _ rfl
  refine ⟨⟨{ public_key' with checksum := integrity_unblinded_checksum public_key' }, ?_, ?_⟩,
    { private_key' with checksum := integrity_blinded_checksum private_key' }, ?_, ?_⟩
  · exact congrArg (Option.map _) hpublic
  · exact public_usable hstored.public_key (hstored.public_mode ▸ hmode)
      (hstored.public_length.trans hlen) hstored.public_modulus rfl
  · exact congrArg (Option.map _) hprivate
  · rw [← hstored.config]
    refine private_usable_iff hstored.keyblob ?_ hstored.numbers rfl
    exact ⟨hstored.config ▸ hstructured.mode, hstored.config ▸ hstructured.software,
      hstored.config ▸ hstructured.key_length,
      hstored.keyblob_length.trans hstructured.keyblob_length⟩

/-- With buffers for another size the two sizes differ. -/
theorem keygen_traps (hsize : size ≠ .rsa2048) (h : Ready size s .keygen) :
    Traps (otcrypto_rsa_keygen program size.code) s := by
  obtain ⟨public_key, private_key, hpair, hcheck⟩ := h
  refine Traps.bind (keygen_async_start_does program size s) ?_
  rintro _ _ rfl
  have hpair' : key_pair (keygen_started program size s) = some (public_key, private_key) := hpair
  refine Traps.get ?_
  rw [hpair']
  refine Traps.bind (R := fun _ t => t = keygen_started program size s) (Does.step rfl) ?_
  rintro _ _ rfl
  refine Traps.bind (R := fun code t => code = size.code ∧ t = keygen_started program size s)
    (Does.ofExcept hcheck ⟨rfl, rfl⟩) ?_
  rintro _ _ ⟨rfl, rfl⟩
  refine Traps.bind (R := fun _ t => t.dmem.mode = some size.keygen_mode) (Does.modify rfl) ?_
  intro _ t ht
  refine Traps.bind (keygen_finalize_case_does ht) ?_
  rintro size_used _ ⟨hused, -⟩
  have hne : size_used ≠ size.code := fun heq =>
    hsize (RsaSize.code_injective (heq.symm.trans hused))
  rw [if_pos hne]
  exact Traps.trap

/-- A function that produces keys keeps its promise exactly if there is no private key
among them, or the private key has the version of the library and was not computed for
more than 2048 bits. -/
theorem usable_iff (size : RsaSize) (s : State) (producer : Producer) :
    Usable program size producer s ↔ (Ready size s producer → Sound size s producer) := by
  cases producer with
  | public_key_construct modulus =>
      exact iff_of_true (fun h => public_key_construct_does h) fun _ => trivial
  | private_key_from_exponents modulus d_share0 d_share1 =>
      refine forall_congr' fun h => ?_
      obtain ⟨k, hk, -⟩ := id h
      have hdoes := private_key_from_exponents_does hk h
      have hversion : version s = some k.config.version := by rw [version, hk, Option.map_some]
      rw [Sound, hversion, Option.some_inj]
      constructor
      · intro husable
        obtain ⟨_, t, ⟨k', hk', hstored⟩, k'', hk'', hiff⟩ := Does.exists_and husable hdoes
        obtain rfl : k' = k'' := Option.some.inj (hk'.symm.trans hk'')
        exact hiff.mp hstored
      · intro hv
        refine hdoes.mono ?_
        rintro _ t ⟨k', hk', hiff⟩
        exact ⟨k', hk', hiff.mpr hv⟩
  | keygen =>
      refine forall_congr' fun h => ?_
      by_cases hsize : size = .rsa2048
      · subst hsize
        obtain ⟨public_key, private_key, hpair, hcheck⟩ := h
        have hdoes := keygen_2048_does program hpair hcheck
        have hversion : version s = some private_key.config.version := by
          rw [version, (key_pair_eq_some hpair).2.1, Option.map_some]
        rw [Sound, hversion, Option.some_inj]
        constructor
        · intro husable
          obtain ⟨_, t, ⟨-, k', hk', hstored⟩, -, k'', hk'', hiff⟩ :=
            Does.exists_and husable hdoes
          obtain rfl : k' = k'' := Option.some.inj (hk'.symm.trans hk'')
          exact ⟨rfl, hiff.mp hstored⟩
        · rintro ⟨-, hv⟩
          refine hdoes.mono ?_
          rintro _ t ⟨hpublic, k', hk', hiff⟩
          exact ⟨hpublic, k', hk', hiff.mpr hv⟩
      · exact iff_of_false (keygen_traps program hsize h).not_does fun hsound => hsize hsound.1

/-- Key buffers for a key pair of 3072 bits. -/
def buffers_3072 : State where
  app := none
  dmem := Dmem.wiped
  entropy := ⟨fun _ => 0, 0⟩
  modulus := ⟨none, 0, nofun⟩
  cofactor_share0 := ⟨none, 0, nofun⟩
  cofactor_share1 := ⟨none, 0, nofun⟩
  public_key := some ⟨kOtcryptoKeyModeRsaSignPkcs, 384, some (List.replicate 96 0), 0⟩
  private_key := some
    { config := ⟨kOtcryptoLibVersion1, kOtcryptoKeyModeRsaSignPkcs, 384, kHardenedBoolFalse,
        kHardenedBoolFalse, kOtcryptoKeySecurityLevelLow⟩
      keyblob_length := 1152
      keyblob := some (List.replicate 288 0)
      checksum := 0 }
  started := none

/-- The second half traps on them. -/
theorem buffers_3072_unusable :
    ¬ Usable (fun _ _ => ⟨fun _ => 0, fun _ => 0, fun _ => 0⟩) .rsa3072 .keygen buffers_3072 := by
  have hready : Ready .rsa3072 buffers_3072 .keygen :=
    ⟨_, _, rfl, (key_pair_check_iff .rsa3072 _ _).mpr
      ⟨by decide, by decide, by decide, by decide, by decide, by decide⟩⟩
  exact fun husable => (keygen_traps _ (by decide) hready).not_does (husable hready)

end

end IbexFirmware.Rsa
