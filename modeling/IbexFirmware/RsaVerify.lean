/-
The padding check of RSA signature verification (`rsa_verify.c`).

The check goes through the 96 words of the message as the ECDSA check goes through the
eight words of `r`: each word becomes its share if it is the expected one, and a pass with
a sticky difference leaves the exclusive or of the shares or all ones. What is particular
to RSA is what is expected: `expected_words_bytes` says that the words of the four loops
are the EMSA-PKCS1-v1_5 encoding of the digest, byte for byte, so that the check accepts
that encoding and nothing else.
-/
import IbexFirmware.ModExp
import IbexFirmware.Sigverify

set_option autoImplicit false

namespace IbexFirmware.RsaVerify

open Bytes ConstTime ModExp Sigverify

/-! ## Constants -/

def kSigverifyRsaSuccess : u32 := 0x2f06b4e0

def sigverify_rsa_success_to_ok (v : u32) : u32 := (v <<< 22 ^^^ v <<< 19 ^^^ v <<< 3) >>> 21

def kHmacDigestNumWords : ℕ := 8

def kSigverifyShares : Vector u32 kSigVerifyRsaNumWords :=
  #v[0xaf28073b, 0x5eb7dcfb, 0x177240b5, 0xa8469df3, 0x2e92e9c0, 0x83ed133b,
    0x0c9e99f0, 0x25611bd9, 0x411a9d85, 0x5c52b3df, 0x4347a537, 0x1e78e574,
    0x273e33af, 0x6f363bba, 0x11e4ee52, 0xd29ad9aa, 0x4fc2ac85, 0x52490c66,
    0x59c2528c, 0xef8d3ab2, 0xe74d7eb8, 0x2822259c, 0xe58efaa3, 0xe702fa04,
    0x82c670f6, 0x42be0a77, 0x3b021ea0, 0x09bd2a22, 0x26d656a4, 0x2f8e008f,
    0xefca5842, 0xfbc3a713, 0x4ce07aa1, 0xc1826ecc, 0xc697d53f, 0xf6a69161,
    0x4a7d7628, 0x87f2e957, 0x84db848d, 0xe05e01c5, 0x6188ff27, 0xbf1a2b31,
    0xb51d4166, 0x85fd6e7c, 0x59c5d2d5, 0x13c6e4e6, 0xff83c944, 0xc78cd4bb,
    0x8710d989, 0x7608c41e, 0x1061b036, 0x9c2fb244, 0x34a26844, 0x2bdc22a2,
    0xfd1d95f3, 0x94ac4e84, 0x1a99ce21, 0xd54eb8f7, 0x54c2cd9f, 0x70a967c8,
    0xde39d471, 0x652563cd, 0x3d4adea1, 0x1cf6631c, 0xb27d16ee, 0x3a18bafa,
    0xd8a86a86, 0xd839cd7b, 0xda2ab05a, 0x37fc1d99, 0xbc702308, 0x01d57596,
    0x480d3091, 0x51420446, 0xcc56d97c, 0x7aa57434, 0x7b6097ae, 0x45bca8ae,
    0xb0b1e322, 0x5487b90f, 0x1045e6ef, 0x87ad10f0, 0x4c72b7f0, 0xc527c9a3,
    0x29ed4350, 0xe345625b, 0x57063d83, 0xbb56900a, 0xbfb1be4c, 0x1c454e8f,
    0xdb27c1b7, 0xbe02c694, 0x2604d74a, 0x4d6516dd, 0x322918ab, 0x5f320b43]

def kEncodedSha256 : List u32 := [0x05000420, 0x03040201, 0x86480165, 0x0d060960, 0x00303130]

/-- Excludes the last word of the message, `0x0001ffff`. -/
def kPsLen : ℕ := kSigVerifyRsaNumWords - kEncodedSha256.length - kHmacDigestNumWords - 1

/-! ## The check -/

/-- The words that the loops of step 1 expect: the digest, the rest of the encoded digest
information with the zero byte before it, the padding, and the last word. -/
def expected_words (act_digest : Vector u32 kHmacDigestNumWords) :
    Vector u32 kSigVerifyRsaNumWords :=
  ⟨(act_digest.toList ++ kEncodedSha256 ++ List.replicate kPsLen 0xffffffff ++
    [0x0001ffff]).toArray, by simp; rfl⟩

/-- The result code and `*flash_exec`. -/
def sigverify_encoded_message_check (enc_msg : SigverifyRsaBuffer)
    (act_digest : Vector u32 kHmacDigestNumWords) (flash_exec : u32) : RomError × u32 :=
  let flash_exec_rsa := ((shared enc_msg.data (expected_words act_digest)
    kSigverifyShares).foldl check_share (0, 0)).1
  let result := sigverify_rsa_success_to_ok flash_exec_rsa
  let flash_exec := flash_exec ^^^ flash_exec_rsa
  if result = RomError.code .kErrorOk then (.kErrorOk, flash_exec)
  else (.kErrorSigverifyBadRsaSignature, flash_exec)

/-- `enc_msg` is what the stack holds where the recovered message goes. -/
def sigverify_rsa_verify (fuel : ℕ) (signature : SigverifyRsaBuffer) (key : SigverifyRsaKey)
    (act_digest : Vector u32 kHmacDigestNumWords) (enc_msg : SigverifyRsaBuffer)
    (flash_exec : u32) : Option (RomError × u32) := do
  let (error, enc_msg) ← sigverify_mod_exp_ibex fuel key signature enc_msg
  if error ≠ .kErrorOk then some (error, flash_exec ^^^ BitVec.allOnes 32)
  else some (sigverify_encoded_message_check enc_msg act_digest flash_exec)

/-! ## What the check compares -/

/-- The pass over the shares: the success value, or all ones. -/
theorem fold_rsa_shares (enc_msg expected : Vector u32 kSigVerifyRsaNumWords) :
    ((shared enc_msg expected kSigverifyShares).foldl check_share (0, 0)).1 =
      if enc_msg = expected then kSigverifyRsaSuccess else BitVec.allOnes 32 := by
  refine (fold_check_share _ _).trans ?_
  rw [map_snd_shared]
  exact if_congr (shared_correct_iff _ _ _) (by decide +kernel) rfl

/-- The result is read off that value. -/
theorem message_check_value (enc_msg : SigverifyRsaBuffer)
    (act_digest : Vector u32 kHmacDigestNumWords) (flash_exec : u32) :
    sigverify_encoded_message_check enc_msg act_digest flash_exec =
      if enc_msg.data = expected_words act_digest then
        (.kErrorOk, flash_exec ^^^ kSigverifyRsaSuccess)
      else (.kErrorSigverifyBadRsaSignature, flash_exec ^^^ BitVec.allOnes 32) := by
  unfold sigverify_encoded_message_check
  rw [fold_rsa_shares]
  by_cases hagree : enc_msg.data = expected_words act_digest
  · rw [if_pos hagree, if_pos hagree]
    exact if_pos (by decide)
  · rw [if_neg hagree, if_neg hagree]
    exact if_neg (by decide)

/-! ## The encoding -/

/-- The DER encoding of a `DigestInfo` for SHA-256, up to the digest. -/
def digestInfoSha256 : List u8 :=
  [0x30, 0x31, 0x30, 0x0d, 0x06, 0x09, 0x60, 0x86, 0x48, 0x01, 0x65, 0x03, 0x04, 0x02, 0x01,
    0x05, 0x00, 0x04, 0x20]

/-- EMSA-PKCS1-v1_5: `EM = 0x00 || 0x01 || PS || 0x00 || T` with as much padding as a
message of `emLen` bytes needs, the most significant byte first. -/
def emsaPkcs1 (emLen : ℕ) (digest : List u8) : List u8 :=
  let t := digestInfoSha256 ++ digest
  [0x00, 0x01] ++ List.replicate (emLen - t.length - 3) 0xff ++ [0x00] ++ t

/-- The bytes of a word buffer as they lie in memory. -/
def wordBytes {n : ℕ} (ws : Vector u32 n) : List u8 := ws.toList.flatMap le32

/-- The little-endian encoding of the digest whose little-endian words are `act_digest`. -/
def encoding (act_digest : Vector u32 kHmacDigestNumWords) : List u8 :=
  (emsaPkcs1 kSigVerifyRsaNumBytes (wordBytes act_digest).reverse).reverse

theorem length_wordBytes {n : ℕ} (ws : Vector u32 n) : (wordBytes ws).length = 4 * n := by
  rw [wordBytes, length_flatMap_le32, Vector.length_toList]

/-- The loops expect the encoding, and all of it. -/
theorem expected_words_bytes (act_digest : Vector u32 kHmacDigestNumWords) :
    wordBytes (expected_words act_digest) = encoding act_digest := by
  have hlen : (digestInfoSha256 ++ (wordBytes act_digest).reverse).length = 51 := by
    rw [List.length_append, List.length_reverse, length_wordBytes]
    rfl
  have hrest : (kEncodedSha256 ++ List.replicate kPsLen 0xffffffff ++ [0x0001ffff]).flatMap le32 =
      digestInfoSha256.reverse ++
        ([0x00, 0x01] ++ List.replicate (kSigVerifyRsaNumBytes - 51 - 3) 0xff ++ [0x00] :
          List u8).reverse := by
    decide +kernel
  calc wordBytes (expected_words act_digest)
      = (act_digest.toList ++ (kEncodedSha256 ++ List.replicate kPsLen 0xffffffff ++
          [0x0001ffff])).flatMap le32 := by
        simp only [wordBytes, expected_words, Vector.toList_mk, List.append_assoc]
    _ = wordBytes act_digest ++ (digestInfoSha256.reverse ++
          ([0x00, 0x01] ++ List.replicate (kSigVerifyRsaNumBytes - 51 - 3) 0xff ++
            [0x00] : List u8).reverse) := by
        rw [List.flatMap_append, hrest]
        rfl
    _ = encoding act_digest := by
        simp only [encoding, emsaPkcs1, hlen]
        simp only [List.reverse_append, List.reverse_reverse, List.append_assoc]

/-- The message is the expected one when its bytes are those of the encoding. -/
theorem data_eq_expected_iff (enc_msg : SigverifyRsaBuffer)
    (act_digest : Vector u32 kHmacDigestNumWords) :
    enc_msg.data = expected_words act_digest ↔ wordBytes enc_msg.data = encoding act_digest := by
  rw [← expected_words_bytes]
  constructor
  · exact congrArg wordBytes
  · exact fun h => Vector.toList_inj.mp (flatMap_le32_injective h)

/-- The check accepts the encoding of the digest and nothing else, and `*flash_exec` tells
which of the two it was. -/
theorem message_check_exact (enc_msg : SigverifyRsaBuffer)
    (act_digest : Vector u32 kHmacDigestNumWords) (flash_exec : u32) :
    let r := sigverify_encoded_message_check enc_msg act_digest flash_exec
    (r.1 = .kErrorOk ↔ wordBytes enc_msg.data = encoding act_digest) ∧
      (r.1 = .kErrorOk → r.2 = flash_exec ^^^ kSigverifyRsaSuccess) ∧
      (r.1 ≠ .kErrorOk → r.2 = flash_exec ^^^ 0xffffffff) := by
  intro r
  have hr : r = _ := message_check_value enc_msg act_digest flash_exec
  rw [hr, ← data_eq_expected_iff]
  by_cases hagree : enc_msg.data = expected_words act_digest
  · rw [if_pos hagree]
    exact ⟨iff_of_true rfl hagree, fun _ => rfl, fun hne => absurd rfl hne⟩
  · rw [if_neg hagree]
    exact ⟨iff_of_false nofun hagree, nofun, fun _ => rfl⟩

/-! ## The whole verification -/

/-- A signature verifies when it is below the modulus and its power is the encoding of the
digest; only then does the value that unlocks flash execution come out. -/
theorem rsa_verify_exact {key : SigverifyRsaKey} (h : key.WellFormed)
    (signature : SigverifyRsaBuffer) (act_digest : Vector u32 kHmacDigestNumWords)
    (enc_msg : SigverifyRsaBuffer) (flash_exec : u32) {fuel : ℕ} (hfuel : 2 ≤ fuel) :
    ∃ e f, sigverify_rsa_verify fuel signature key act_digest enc_msg flash_exec = some (e, f) ∧
      (e = .kErrorOk ↔ signature.value < key.n.value ∧ ∃ em : SigverifyRsaBuffer,
        em.value = signature.value ^ 65537 % key.n.value ∧
          wordBytes em.data = encoding act_digest) ∧
      f = flash_exec ^^^ (if e = .kErrorOk then kSigverifyRsaSuccess else BitVec.allOnes 32) := by
  by_cases hlarge : key.n.value ≤ signature.value
  · have hout : sigverify_rsa_verify fuel signature key act_digest enc_msg flash_exec =
        some (.kErrorSigverifyLargeRsaSignature, flash_exec ^^^ BitVec.allOnes 32) := by
      unfold sigverify_rsa_verify
      rw [mod_exp_large enc_msg fuel hlarge]
      rfl
    refine ⟨_, _, hout, iff_of_false nofun ?_, rfl⟩
    exact fun hok => absurd hlarge (Nat.not_le.mpr hok.1)
  · have hsmall := Nat.not_le.mp hlarge
    obtain ⟨em, hrun, hvalue⟩ := mod_exp_small h enc_msg hfuel hsmall
    let r := sigverify_encoded_message_check em act_digest flash_exec
    have hout : sigverify_rsa_verify fuel signature key act_digest enc_msg flash_exec =
        some (r.1, r.2) := by
      unfold sigverify_rsa_verify
      rw [hrun]
      rfl
    have hr : r = _ := message_check_value em act_digest flash_exec
    refine ⟨r.1, r.2, hout, ?_, ?_⟩
    · have hpow : (∃ em : SigverifyRsaBuffer, em.value = signature.value ^ 65537 % key.n.value ∧
          wordBytes em.data = encoding act_digest) ↔ wordBytes em.data = encoding act_digest := by
        constructor
        · rintro ⟨em', hvalue', hbytes⟩
          rwa [SigverifyRsaBuffer.value_injective (hvalue.trans hvalue'.symm)]
        · exact fun hbytes => ⟨em, hvalue, hbytes⟩
      rw [hr, hpow, ← data_eq_expected_iff]
      by_cases hagree : em.data = expected_words act_digest
      · rw [if_pos hagree]
        exact iff_of_true rfl ⟨hsmall, hagree⟩
      · rw [if_neg hagree]
        exact iff_of_false nofun fun hok => hagree hok.2
    · rw [hr]
      by_cases hagree : em.data = expected_words act_digest
      · rw [if_pos hagree]
        rfl
      · rw [if_neg hagree]
        rfl

/-- The modulus `2 ^ 3072 - 1103717`, of which roots are easily taken: it is a prime. -/
def prime_key : SigverifyRsaKey where
  n := .ofWords (0xffef289b :: List.replicate 95 (BitVec.allOnes 32)) (by simp; rfl)
  n0_inv := #v[0x25f7826d, 0, 0, 0, 0, 0, 0, 0]

theorem prime_key_value : prime_key.n.value = 2 ^ 3072 - 1103717 := by decide +kernel

theorem prime_key_wellFormed : prime_key.WellFormed where
  odd := by
    rw [prime_key_value, Nat.odd_iff]
    decide +kernel
  n0_inv := by
    have hinv : (((2 ^ 3072 - 1103717 : ℕ) : ZMod (2 ^ 32)))⁻¹ = _ :=
      ZMod.inv_eq_of_mul_eq_one _ _ (0xda087d93 : ℕ) (by rw [← Nat.cast_mul]; decide +kernel)
    rw [prime_key_value, hinv]
    decide +kernel
  lower := by
    rw [prime_key_value]
    decide +kernel
  upper := by
    rw [prime_key_value]
    decide +kernel

def sample_digest : Vector u32 kHmacDigestNumWords := Vector.ofFn fun i => BitVec.ofNat 32 (i + 1)

/-- Its signature with that key. -/
def sample_signature : SigverifyRsaBuffer where
  data := #v[
    0x02e713d9, 0x9f6e072b, 0xb950c279, 0xa43f591a, 0xbb992884, 0xf52dd488, 0xad78be4b,
    0xa1b74f98, 0x668a9354, 0x6a19aef5, 0xee6f1bf8, 0x310c832e, 0xc3067029, 0x73fc9e5d,
    0x8492e25b, 0xa8e322d6, 0xcaedeacc, 0xd168318b, 0xf1d9cf39, 0xcd038327, 0x8b263935,
    0xf1b6f327, 0xdb4b7de6, 0xc900a5c9, 0xe0da61a1, 0xe0fa23e8, 0x625812c9, 0xfa34fc5d,
    0x6fd37256, 0x4078debc, 0x616d75d8, 0x2c0e8448, 0xa4d74d7c, 0x6dea72b7, 0x953d544d,
    0xc2e22429, 0x4e7df8dc, 0xe29664a6, 0x2c95069d, 0xef1ca75e, 0x7b778f52, 0xd2151892,
    0x440d788f, 0xa9f1f677, 0xe7e836cf, 0xc05fa32a, 0x97d110c7, 0xec827a79, 0x8245e91d,
    0xb824a758, 0xac1b0f1c, 0x6395e103, 0x871c7636, 0x2fd61032, 0xc21cb964, 0x66287e86,
    0xd3ac0062, 0x2f2403b7, 0x397650e8, 0x0e53c590, 0x74b9cd7b, 0x78b2ec7b, 0x8806139f,
    0x0e34e0a2, 0x513da3a5, 0xa75638ea, 0xd552c4e6, 0xb63c5933, 0x0c292353, 0x94b768db,
    0xce7deade, 0xd13f1636, 0x46989b01, 0x31a67832, 0x24d31a64, 0x02c4aa6c, 0x2991c9dc,
    0x25b1236e, 0x1aa76d3a, 0xfacfa8ef, 0x49c116e7, 0xc7f27e12, 0xf24074b2, 0xf95d0804,
    0x19277f1b, 0x17681355, 0x5ba0227d, 0x692b6f66, 0x9656cc23, 0x5a4d6e92, 0x3f7dba03,
    0xb4058576, 0x83e25ddd, 0x749424aa, 0x560b95c2, 0x7576585a]

/-- The encoded digest. -/
def sample_message : SigverifyRsaBuffer := ⟨expected_words sample_digest⟩

theorem sample_signature_power :
    sample_message.value = sample_signature.value ^ 65537 % prime_key.n.value := by decide +kernel

/-- The signature of one digest is accepted for it, and refused for another. -/
theorem rsa_verify_exact_prime :
    sigverify_rsa_verify 2 sample_signature prime_key sample_digest zero_buffer 0 =
        some (.kErrorOk, kSigverifyRsaSuccess) ∧
      ∃ e, e ≠ .kErrorOk ∧
        sigverify_rsa_verify 2 sample_signature prime_key (Vector.replicate 8 0) zero_buffer 0 =
          some (e, BitVec.allOnes 32) := by
  have hexact := fun digest =>
    rsa_verify_exact prime_key_wellFormed sample_signature digest zero_buffer 0 le_rfl
  have hsmall : sample_signature.value < prime_key.n.value := by decide +kernel
  constructor
  · obtain ⟨e, f, hrun, hok, hf⟩ := hexact sample_digest
    obtain rfl := hok.mpr ⟨hsmall, sample_message, sample_signature_power, expected_words_bytes _⟩
    rw [hrun, hf]
    rfl
  · obtain ⟨e, f, hrun, hok, hf⟩ := hexact (Vector.replicate 8 0)
    have hbad : e ≠ .kErrorOk := by
      intro he
      obtain ⟨-, em, hem, hbytes⟩ := hok.mp he
      obtain rfl := SigverifyRsaBuffer.value_injective (hem.trans sample_signature_power.symm)
      have hdata := (data_eq_expected_iff _ _).mpr hbytes
      exact absurd hdata (by decide +kernel)
    refine ⟨e, hbad, ?_⟩
    rw [hrun, hf, if_neg hbad]
    rfl

end IbexFirmware.RsaVerify
