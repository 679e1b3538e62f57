/-
The paddings of RSA signatures (`rsa_padding.c`): PKCS1-v1_5 and PSS.

Both leave the encoding of RFC 8017 with its bytes in reverse. The encoder of PKCS1-v1_5 fills
the buffer and writes over what it has filled (`pkcs1v15_encode_yields`). Its verifier encodes
again and compares. The verifier of PSS takes the encoding apart; that what it checks is exactly
what makes a string an encoding is `Pkcs1.emsa_pss_iff`.
-/
import IbexFirmware.RsaPadding

set_option autoImplicit false

namespace IbexFirmware.RsaPadding

open Bytes PowerFail Crypto HardenedMemory Arrays

/-! ## The digest info -/

/-! The identifiers of the hash functions, in little-endian. -/

def kSha256DigestIdentifier : List u8 :=
  [0x20, 0x04, 0x00, 0x05, 0x01, 0x02, 0x04, 0x03, 0x65, 0x01, 0x48, 0x86, 0x60, 0x09, 0x06, 0x0d,
    0x30, 0x31, 0x30]

def kSha384DigestIdentifier : List u8 :=
  [0x30, 0x04, 0x00, 0x05, 0x02, 0x02, 0x04, 0x03, 0x65, 0x01, 0x48, 0x86, 0x60, 0x09, 0x06, 0x0d,
    0x30, 0x41, 0x30]

def kSha512DigestIdentifier : List u8 :=
  [0x40, 0x04, 0x00, 0x05, 0x03, 0x02, 0x04, 0x03, 0x65, 0x01, 0x48, 0x86, 0x60, 0x09, 0x06, 0x0d,
    0x30, 0x51, 0x30]

def kSha3_224DigestIdentifier : List u8 :=
  [0x1c, 0x04, 0x00, 0x05, 0x07, 0x02, 0x04, 0x03, 0x65, 0x01, 0x48, 0x86, 0x60, 0x09, 0x06, 0x0d,
    0x30, 0x2d, 0x30]

def kSha3_256DigestIdentifier : List u8 :=
  [0x20, 0x04, 0x00, 0x05, 0x08, 0x02, 0x04, 0x03, 0x65, 0x01, 0x48, 0x86, 0x60, 0x09, 0x06, 0x0d,
    0x30, 0x31, 0x30]

def kSha3_384DigestIdentifier : List u8 :=
  [0x30, 0x04, 0x00, 0x05, 0x09, 0x02, 0x04, 0x03, 0x65, 0x01, 0x48, 0x86, 0x60, 0x09, 0x06, 0x0d,
    0x30, 0x41, 0x30]

def kSha3_512DigestIdentifier : List u8 :=
  [0x40, 0x04, 0x00, 0x05, 0x0a, 0x02, 0x04, 0x03, 0x65, 0x01, 0x48, 0x86, 0x60, 0x09, 0x06, 0x0d,
    0x30, 0x51, 0x30]

/-- `otcrypto_hash_digest_t`. -/
structure HashDigest where
  mode : HashMode
  data : List u32

def HashDigest.len (d : HashDigest) : ℕ := d.data.length

/-- The digest in the order of the hash function. -/
def HashDigest.bytes (d : HashDigest) : List u8 := word_bytes d.data

@[simp] theorem HashDigest.length_bytes (d : HashDigest) : d.bytes.length = 4 * d.len :=
  length_word_bytes d.data

def digest_info_length_get : HashMode → Except CryptoError ℕ
  | .kOtcryptoHashModeSha256 => .ok (kSha256DigestIdentifier.length + 256 / 8)
  | .kOtcryptoHashModeSha384 => .ok (kSha384DigestIdentifier.length + 384 / 8)
  | .kOtcryptoHashModeSha512 => .ok (kSha512DigestIdentifier.length + 512 / 8)
  | .kOtcryptoHashModeSha3_224 => .ok (kSha3_224DigestIdentifier.length + 224 / 8)
  | .kOtcryptoHashModeSha3_256 => .ok (kSha3_256DigestIdentifier.length + 256 / 8)
  | .kOtcryptoHashModeSha3_384 => .ok (kSha3_384DigestIdentifier.length + 384 / 8)
  | .kOtcryptoHashModeSha3_512 => .ok (kSha512DigestIdentifier.length + 512 / 8)
  | _ => .error .OTCRYPTO_BAD_ARGS

/-- The switch of `digest_info_write`: the words of a digest and what stands behind it. -/
def digest_identifier : HashMode → Except CryptoError (ℕ × List u8)
  | .kOtcryptoHashModeSha256 => .ok (256 / 32, kSha256DigestIdentifier)
  | .kOtcryptoHashModeSha384 => .ok (384 / 32, kSha384DigestIdentifier)
  | .kOtcryptoHashModeSha512 => .ok (512 / 32, kSha512DigestIdentifier)
  | .kOtcryptoHashModeSha3_224 => .ok (224 / 32, kSha3_224DigestIdentifier)
  | .kOtcryptoHashModeSha3_256 => .ok (256 / 32, kSha3_256DigestIdentifier)
  | .kOtcryptoHashModeSha3_384 => .ok (384 / 32, kSha3_384DigestIdentifier)
  | .kOtcryptoHashModeSha3_512 => .ok (512 / 32, kSha3_512DigestIdentifier)
  | _ => .error .OTCRYPTO_BAD_ARGS

/-- The loop of `digest_info_write`, with `turns` left. -/
def digest_info_loop (data : List u32) : ℕ → ℕ → Buffer Local → Prog (Buffer Local)
  | 0, _, encoding => pure encoding
  | turns + 1, i, encoding => do
      let last := data.length - 1 - i
      let encoding ← encoding.write (4 * i) (le32 (Memory.bswap32 (data.getD last 0)))
      let encoding ← encoding.write (4 * last) (le32 (Memory.bswap32 (data.getD i 0)))
      digest_info_loop data turns (i + 1) encoding

def digest_info_write (message_digest : HashDigest) (encoding : Buffer Local) :
    Prog (Buffer Local) := do
  let (digest_wordlen, identifier) ← Proc.ofExcept (digest_identifier message_digest.mode)
  let encoding ← encoding.write (4 * digest_wordlen) identifier
  if message_digest.len ≠ digest_wordlen then Proc.throw .OTCRYPTO_BAD_ARGS
  else digest_info_loop message_digest.data ((message_digest.len + 1) / 2) 0 encoding

/-! ## PKCS1-v1_5 -/

def rsa_padding_pkcs1v15_encode (message_digest : HashDigest) (encoded_message_len : ℕ)
    (encoded_message : Buffer Local) : Prog (Buffer Local) := do
  let encoded_message_bytelen := encoded_message_len * 4
  let buf ← encoded_message.write 0 (List.replicate encoded_message_bytelen 0xff)
  let buf ← buf.write (encoded_message_bytelen - 1) [0x00]
  let buf ← buf.write (encoded_message_bytelen - 2) [0x01]
  let tlen ← Proc.ofExcept (digest_info_length_get message_digest.mode)
  if tlen + 3 + 8 ≥ encoded_message_bytelen then Proc.throw .OTCRYPTO_BAD_ARGS
  else do
    let buf ← digest_info_write message_digest buf
    buf.write tlen [0x00]

def rsa_padding_pkcs1v15_verify (stack : Local → Mem) (message_digest : HashDigest)
    (encoded_message : Buffer Local) (encoded_message_len : ℕ) : Prog u32 := do
  let expected := alloc stack .expected_encoded_message (encoded_message_len * 4)
  let expected ← rsa_padding_pkcs1v15_encode message_digest encoded_message_len expected
  let lhs ← encoded_message.read 0 expected.len
  let rhs ← expected.read 0 expected.len
  pure (hardened_memeq lhs rhs)

/-! ## PSS -/

def pss_construct_h (H : HashFunction) (stack : Local → Mem) (message_digest : HashDigest)
    (salt : List u8) : Prog (List u8) := do
  let m_prime := alloc stack .m_prime (8 + 4 * message_digest.len + salt.length)
  let m_prime ← m_prime.write 0 (List.replicate 4 0)
  let m_prime ← m_prime.write 4 (List.replicate 4 0)
  let m_prime ← m_prime.write 8 message_digest.bytes
  let m_prime ←
    (if salt.length > 0 then m_prime.write (8 + 4 * message_digest.len) salt else pure m_prime)
  let message ← m_prime.read 0 m_prime.len
  hash H message_digest.mode message

/-- The salt is an array of words and is given by its bytes. -/
def rsa_padding_pss_encode (H : HashFunction) (stack : Local → Mem) (message_digest : HashDigest)
    (salt : List u8) (encoded_message_len : ℕ) (encoded_message : Buffer Local) :
    Prog (Buffer Local) :=
  let digest_bytelen := message_digest.len * 4
  let salt_bytelen := salt.length
  let encoded_message_bytelen := encoded_message_len * 4
  if encoded_message_bytelen < salt_bytelen + digest_bytelen + 2 then
    Proc.throw .OTCRYPTO_BAD_ARGS
  else do
    let bytes ← pss_construct_h H stack message_digest salt
    let h ← (alloc stack .h digest_bytelen).write 0 bytes
    let db_bytelen := encoded_message_bytelen - digest_bytelen - 1
    let db_size := word_sizeof db_bytelen
    let db ← (alloc stack .db db_size).write 0 (List.replicate db_size 0)
    let db ← db.write (db_bytelen - 1 - salt_bytelen) [0x01]
    let db ← (if salt_bytelen > 0 then db.write (db_bytelen - salt_bytelen) salt else pure db)
    let seed ← h.read 0 digest_bytelen
    let mask ← mgf1 H stack message_digest.mode seed db_bytelen (alloc stack .mask db_size)
    let db ← xor_in_place db mask db_size
    let first ← db.read 0 1
    let db ← db.write 0 (first.map fun byte => byte &&& 0x7f)
    let encoded_message ← copy encoded_message 0 db 0 db_size
    let encoded_message ← copy encoded_message db_bytelen h 0 digest_bytelen
    check_copied encoded_message db_bytelen h 0 digest_bytelen
    let encoded_message ← encoded_message.write (encoded_message_bytelen - 1) [0xbc]
    reverse_bytes (BitVec.ofNat 32 encoded_message_len) encoded_message

/-- The trailing bytes of an array of words, behind the first `n` bytes. -/
def zero_trailing (a : Buffer Local) (n : ℕ) : Prog (Buffer Local) :=
  if a.len > n then a.write n (List.replicate (a.len - n) 0) else pure a

def rsa_padding_pss_verify (H : HashFunction) (stack : Local → Mem) (message_digest : HashDigest)
    (encoded_message : Buffer Local) (encoded_message_len : ℕ) : Prog u32 :=
  let digest_bytelen := message_digest.len * 4
  let salt_bytelen := digest_bytelen
  let encoded_message_bytelen := encoded_message_len * 4
  if encoded_message_bytelen < salt_bytelen + digest_bytelen + 2 then
    Proc.throw .OTCRYPTO_BAD_ARGS
  else do
    let encoded_message ← reverse_bytes (BitVec.ofNat 32 encoded_message_len) encoded_message
    let last ← encoded_message.read (encoded_message_bytelen - 1) 1
    let first ← encoded_message.read 0 1
    if last ≠ [0xbc] ∨ first.map (fun byte : u8 => byte >>> 7) ≠ [0] then pure kHardenedBoolFalse
    else do
      let db_bytelen := encoded_message_bytelen - digest_bytelen - 1
      let db_size := word_sizeof db_bytelen
      let db ← copy (alloc stack .db db_size) 0 encoded_message 0 db_bytelen
      let db ← zero_trailing db db_bytelen
      let h ← copy (alloc stack .h digest_bytelen) 0 encoded_message db_bytelen digest_bytelen
      check_copied h 0 encoded_message db_bytelen digest_bytelen
      let seed ← h.read 0 digest_bytelen
      let mask ← mgf1 H stack message_digest.mode seed db_bytelen (alloc stack .mask db_size)
      let mask ← zero_trailing mask db_bytelen
      let db ← xor_in_place db mask db_size
      let first ← db.read 0 1
      let db ← db.write 0 (first.map fun byte => byte &&& 0x7f)
      let padding_bytelen := db_bytelen - salt_bytelen
      let padding_size := word_sizeof padding_bytelen
      let exp_padding ← (alloc stack .exp_padding padding_size).write 0
        (List.replicate (padding_bytelen - 1) 0)
      let exp_padding ← exp_padding.write (padding_bytelen - 1) [0x01]
      -- enough of what follows to fill the last word
      let exp_padding ← copy exp_padding padding_bytelen db padding_bytelen
        (padding_size - padding_bytelen)
      check_copied exp_padding padding_bytelen db padding_bytelen (padding_size - padding_bytelen)
      let lhs ← db.read 0 padding_size
      let rhs ← exp_padding.read 0 padding_size
      if hardened_memeq lhs rhs ≠ kHardenedBoolTrue then pure kHardenedBoolFalse
      else do
        let salt ← copy (alloc stack .salt salt_bytelen) 0 db (db_bytelen - salt_bytelen) salt_bytelen
        check_copied salt 0 db (db_bytelen - salt_bytelen) salt_bytelen
        let bytes ← salt.read 0 salt_bytelen
        let bytes ← pss_construct_h H stack message_digest bytes
        let exp_h ← (alloc stack .exp_h digest_bytelen).write 0 bytes
        let lhs ← h.read 0 digest_bytelen
        let rhs ← exp_h.read 0 digest_bytelen
        pure (hardened_memeq lhs rhs)

/-! ## What the encoder of PKCS1-v1_5 leaves -/

/-- The object identifiers of the hash functions: 2.16.840.1.101.3.4.2 and the last arc. -/
def hash_oid (mode : HashMode) : List u8 :=
  let arc : u8 :=
    match mode with
    | .kOtcryptoHashModeSha256 => 1
    | .kOtcryptoHashModeSha384 => 2
    | .kOtcryptoHashModeSha512 => 3
    | .kOtcryptoHashModeSha3_224 => 7
    | .kOtcryptoHashModeSha3_256 => 8
    | .kOtcryptoHashModeSha3_384 => 9
    | .kOtcryptoHashModeSha3_512 => 10
    | _ => 0
  [0x60, 0x86, 0x48, 0x01, 0x65, 0x03, 0x04, 0x02, arc]

/-- The digest has the length of its mode. -/
structure HashDigest.Fits (d : HashDigest) (words : ℕ) : Prop where
  fixed : d.mode.Fixed words
  len : d.len = words

/-- `T`, for a digest. -/
def HashDigest.info (d : HashDigest) : List u8 := Pkcs1.digest_info (hash_oid d.mode) d.bytes

/-- The identifier of a mode is what DER has in front of a digest, backwards. -/
theorem digest_identifier_exact {mode : HashMode} {words : ℕ} (h : mode.Fixed words) :
    ∃ identifier, digest_identifier mode = .ok (words, identifier) ∧
      digest_info_length_get mode = .ok (19 + 4 * words) ∧ identifier.length = 19 ∧
      ∀ digest : List u8, digest.length = 4 * words →
        Pkcs1.digest_info (hash_oid mode) digest = identifier.reverse ++ digest := by
  have hshort : ∀ digest : List u8, digest.length = 4 * words →
      (hash_oid mode).length + digest.length ≤ 110 := fun digest hd => by
    have hle := h.le
    have hoid : (hash_oid mode).length = 9 := rfl
    omega
  cases mode <;> cases h
  all_goals
    refine ⟨_, rfl, rfl, rfl, fun digest hd => ?_⟩
    rw [Pkcs1.digest_info_short (hshort digest hd), hd]
    rfl

section encode

variable {P : Touch Local → Prop} (hP : ∀ x, x.Inside → P x) {s : Device} {words : ℕ}

/-- The bytes of an array of words. -/
def bytes_of (data : List u32) : Mem := fun x => byteOf (data.getD (x / 4) 0) (x % 4)

theorem readBytes_bytes_of (data : List u32) (k : ℕ) :
    readBytes (bytes_of data) (4 * k) 4 = le32 (data.getD k 0) := by
  have hbyte (i : ℕ) (hi : i < 4) : bytes_of data (4 * k + i) = byteOf (data.getD k 0) i := by
    have hword : (4 * k + i) / 4 = k := by omega
    have hrest : (4 * k + i) % 4 = i := by omega
    rw [bytes_of, hword, hrest]
  simp only [readBytes, List.range_succ, List.range_zero, List.nil_append, List.map_append,
    List.map_cons, List.map_nil, hbyte 0 (by decide), hbyte 1 (by decide), hbyte 2 (by decide),
    hbyte 3 (by decide)]
  rfl

theorem readBytes_bytes_of_all (data : List u32) :
    readBytes (bytes_of data) 0 (4 * data.length) = word_bytes data := by
  have hfront (n : ℕ) : readBytes (bytes_of data) 0 (4 * n) =
      (List.range n).flatMap fun k => le32 (data.getD k 0) := by
    induction n with
    | zero => rfl
    | succ n ih =>
        rw [Nat.mul_succ, readBytes_add, ih, Nat.zero_add, readBytes_bytes_of, List.range_succ,
          List.flatMap_append, List.flatMap_singleton]
  have hwords : (List.range data.length).map (fun k => data.getD k 0) = data := by
    apply List.ext_getElem
    · simp
    · intro i hi hlt
      rw [List.getElem_map, List.getElem_range, List.getD_eq_getElem _ _ hlt]
  rw [hfront, ← List.flatMap_map (fun k => data.getD k 0) le32, hwords]
  rfl

theorem le32_bswap32 (w : u32) : le32 (Memory.bswap32 w) = (le32 w).reverse := by
  simp only [le32, Memory.byteOf_bswap32 w (show 0 < 4 by decide),
    Memory.byteOf_bswap32 w (show 1 < 4 by decide), Memory.byteOf_bswap32 w (show 2 < 4 by decide),
    Memory.byteOf_bswap32 w (show 3 < 4 by decide)]
  rfl

include hP

theorem digest_info_loop_yields {data : List u32} {a : Buffer Local} (ha : 4 * data.length ≤ a.len)
    (turns i : ℕ) (vs : List ℕ) (hi : i + turns ≤ data.length) :
    Yields P (digest_info_loop data turns i (reversed_from data.length (bytes_of data) a vs)) s
      (reversed_from data.length (bytes_of data) a
        (vs ++ (List.range' i turns).map fun k => data.length - 1 - k)) := by
  induction turns generalizing i vs s with
  | zero =>
      rw [List.range'_zero, List.map_nil, List.append_nil]
      exact Yields.pure
  | succ turns ih =>
      have hturn := @reversed_from_turn data.length (bytes_of data) a vs (data.length - 1 - i)
        (by omega)
      have hback : data.length - 1 - (data.length - 1 - i) = i := by omega
      rw [hback, readBytes_bytes_of, readBytes_bytes_of, ← le32_bswap32, ← le32_bswap32] at hturn
      have hlen : (reversed_from data.length (bytes_of data) a vs).len = a.len := rfl
      have hfour (w : u32) : (le32 w).length = 4 := rfl
      refine Yields.seq (yields_write hP (by rw [hfour, hlen]; omega)) fun t _ => ?_
      refine Yields.seq (yields_write hP (by rw [hfour, Buffer.len_put, hlen]; omega)) fun t _ => ?_
      rw [List.range'_succ, List.map_cons, List.append_cons, hturn]
      exact ih (i + 1) _ (by omega)

/-- The digest and its identifier, both backwards. -/
theorem digest_info_write_yields {d : HashDigest} (hd : d.Fits words) {a : Buffer Local}
    (ha : 19 + 4 * words ≤ a.len) :
    Yields P (digest_info_write d a) s (a.put 0 d.info.reverse) := by
  obtain ⟨identifier, hident, -, hlen, hinfo⟩ := digest_identifier_exact hd.fixed
  have hbytes : d.bytes.length = 4 * words := by rw [d.length_bytes, hd.len]
  have hrev : d.info.reverse = d.bytes.reverse ++ identifier := by
    rw [HashDigest.info, hinfo _ hbytes, List.reverse_append, List.reverse_reverse]
  refine Yields.seq (Yields.ofExcept hident) fun t _ => ?_
  refine Yields.seq (yields_write hP (by omega)) fun t _ => ?_
  rw [if_neg (not_not.mpr hd.len)]
  have hdata : d.data.length = words := hd.len
  have hloop := @digest_info_loop_yields _ hP t d.data (a.put (4 * words) identifier)
    (by rw [Buffer.len_put]; omega) ((d.len + 1) / 2) 0 []
    (by rw [hd.len]; have := hd.fixed.pos; omega)
  have hstart : reversed_from d.data.length (bytes_of d.data) (a.put (4 * words) identifier) [] =
      a.put (4 * words) identifier := by
    simp only [reversed_from, List.not_mem_nil, or_self, and_false, if_false]
  have hall : reversed_from d.data.length (bytes_of d.data) (a.put (4 * words) identifier)
      ([] ++ (List.range' 0 ((d.len + 1) / 2)).map fun k => d.data.length - 1 - k) =
        (a.put (4 * words) identifier).put 0 d.bytes.reverse := by
    rw [reversed_from_all, readBytes_bytes_of_all]
    · rfl
    · intro w hw
      simp only [List.nil_append, List.mem_map, List.mem_range'_1]
      by_cases hlow : d.data.length - 1 - w < (d.len + 1) / 2
      · exact .inl ⟨d.data.length - 1 - w, ⟨by omega, by omega⟩, by omega⟩
      · rw [hd.len] at hlow
        exact .inr ⟨w, ⟨by omega, by rw [hd.len]; omega⟩, rfl⟩
  rw [hstart, hall] at hloop
  have hcomm : (a.put (4 * words) identifier).put 0 d.bytes.reverse = a.put 0 d.info.reverse := by
    have hrevlen : d.bytes.reverse.length = 4 * words := by rw [List.length_reverse, hbytes]
    rw [hrev, ← Buffer.put_append identifier rfl]
    refine congrArg (Buffer.mk a.array a.len) ?_
    change writeBytes (writeBytes a.mem _ _) _ _ = writeBytes (writeBytes a.mem _ _) _ _
    rw [Cells.writeBytes_comm _ _ _ (.inr (by omega)), hrevlen, Nat.zero_add]
  rw [hcomm] at hloop
  exact hloop

/-- The buffer of the encoder of PKCS1-v1_5 as it leaves it. -/
def pkcs1v15_encoded (d : HashDigest) (n : ℕ) (a : Buffer Local) : Buffer Local :=
  ((((a.put 0 (List.replicate (n * 4) 0xff)).put (n * 4 - 1) [0x00]).put (n * 4 - 2) [0x01]).put 0
    d.info.reverse).put d.info.length [0x00]

omit hP in
theorem length_info {d : HashDigest} (hd : d.Fits words) : d.info.length = 19 + 4 * words := by
  obtain ⟨identifier, -, -, hlen, hinfo⟩ := digest_identifier_exact hd.fixed
  have hbytes : d.bytes.length = 4 * words := by rw [d.length_bytes, hd.len]
  rw [HashDigest.info, hinfo _ hbytes, List.length_append, List.length_reverse, hlen, hbytes]

/-- The first write goes over the whole buffer. -/
theorem pkcs1v15_encode_spec {d : HashDigest} (hd : d.Fits words) {n : ℕ} {a : Buffer Local}
    (hlong : 19 + 4 * words + 11 < 4 * n) (ha : a.len = 4 * n) :
    Leads P (rsa_padding_pkcs1v15_encode d n a) s fun r t =>
      (r = pkcs1v15_encoded d n a ∧ t.rest = s.rest) ∧
        ∀ x ∈ a.places true 0 (4 * n), x ∈ t.touched := by
  obtain ⟨-, -, htlen, -, -⟩ := digest_identifier_exact hd.fixed
  have hinfo := length_info hd
  have hfill : (List.replicate (n * 4) (0xff : u8)).length = 4 * n := by
    rw [List.length_replicate, Nat.mul_comm]
  refine Leads.bind (Buffer.leads_write fun x hx =>
    hP x (Buffer.places_inside true (by omega) x hx)) ?_
  rintro _ t ⟨rfl, hrest, hnoted⟩
  rw [hfill] at hnoted
  rw [← hrest]
  refine Leads.keep (Yields.lead ?_) hnoted
  refine Yields.seq (yields_write hP (by simp; omega)) fun t _ => ?_
  refine Yields.seq (yields_write hP (by simp; omega)) fun t _ => ?_
  refine Yields.seq (Yields.ofExcept htlen) fun t _ => ?_
  rw [if_neg (by omega)]
  refine Yields.seq (digest_info_write_yields hP hd (by simp only [Buffer.len_put]; omega))
    fun t _ => ?_
  rw [← hinfo]
  exact yields_write hP (by simp; omega)

theorem pkcs1v15_encode_yields {d : HashDigest} (hd : d.Fits words) {n : ℕ} {a : Buffer Local}
    (hlong : 19 + 4 * words + 11 < 4 * n) (ha : a.len = 4 * n) :
    Yields P (rsa_padding_pkcs1v15_encode d n a) s (pkcs1v15_encoded d n a) :=
  ((pkcs1v15_encode_spec hP hd hlong ha).mono fun _ _ h => h.1).yields

omit hP in
/-- It is the encoding of the RFC, backwards. -/
theorem part_pkcs1v15_encoded {d : HashDigest} (hd : d.Fits words) {n : ℕ} (a : Buffer Local)
    (hlong : 19 + 4 * words + 11 < 4 * n) :
    (pkcs1v15_encoded d n a).part 0 (4 * n) = (Pkcs1.emsa_pkcs1_v1_5 d.info (4 * n)).reverse := by
  have hinfo := length_info hd
  obtain ⟨k, hk⟩ : ∃ k, 4 * n = d.info.length + 1 + (k + 1 + 1) :=
    ⟨4 * n - d.info.length - 3, by omega⟩
  have hpad : 4 * n - d.info.length - 3 = k := by omega
  have hrev : d.info.reverse.length = d.info.length := List.length_reverse
  have hfront : (pkcs1v15_encoded d n a).part 0 d.info.length = d.info.reverse := by
    rw [pkcs1v15_encoded, Buffer.part_put_one_of_apart (by omega), Buffer.part_put hrev]
  have hzero : (pkcs1v15_encoded d n a).part d.info.length 1 = [0x00] := Buffer.part_put_one
  have hones : (pkcs1v15_encoded d n a).part (d.info.length + 1) k = List.replicate k 0xff := by
    rw [pkcs1v15_encoded, Buffer.part_put_one_of_apart (by omega),
      Buffer.part_put_of_apart (by omega), Buffer.part_put_one_of_apart (by omega),
      Buffer.part_put_one_of_apart (by omega), Buffer.part_put_replicate (by omega)]
  have hone : (pkcs1v15_encoded d n a).part (n * 4 - 2) 1 = [0x01] := by
    rw [pkcs1v15_encoded, Buffer.part_put_one_of_apart (by omega),
      Buffer.part_put_of_apart (by omega), Buffer.part_put_one]
  have hlast : (pkcs1v15_encoded d n a).part (n * 4 - 1) 1 = [0x00] := by
    rw [pkcs1v15_encoded, Buffer.part_put_one_of_apart (by omega),
      Buffer.part_put_of_apart (by omega), Buffer.part_put_one_of_apart (by omega),
      Buffer.part_put_one]
  have hplaces : n * 4 - 2 = d.info.length + 1 + k ∧ n * 4 - 1 = d.info.length + 1 + k + 1 := by omega
  rw [hplaces.1] at hone
  rw [hplaces.2] at hlast
  rw [Pkcs1.emsa_pkcs1_v1_5, hpad, hk, Buffer.part_add, Buffer.part_add, Buffer.part_add,
    Buffer.part_add]
  simp only [Nat.zero_add, ← Nat.add_assoc]
  rw [hfront, hzero, hones, hone, hlast]
  simp

end encode

/-! ## What the verifier of PKCS1-v1_5 accepts -/

section verify

variable {P : Touch Local → Prop} (hP : ∀ x, x.Inside → P x) {s : Device} {words : ℕ}

include hP

theorem pkcs1v15_verify_yields (stack : Local → Mem) {d : HashDigest} (hd : d.Fits words) {n : ℕ}
    {a : Buffer Local} (hlong : 19 + 4 * words + 11 < 4 * n) (ha : 4 * n ≤ a.len) :
    Yields P (rsa_padding_pkcs1v15_verify stack d a n) s
      (if a.part 0 (4 * n) = (Pkcs1.emsa_pkcs1_v1_5 d.info (4 * n)).reverse then kHardenedBoolTrue
      else kHardenedBoolFalse) := by
  have hlen : (alloc stack .expected_encoded_message (n * 4)).len = 4 * n := Nat.mul_comm n 4
  have henclen : (pkcs1v15_encoded d n (alloc stack .expected_encoded_message (n * 4))).len = 4 * n :=
    hlen
  refine Yields.seq (pkcs1v15_encode_yields hP hd hlong hlen) fun t _ => ?_
  refine Yields.seq (yields_read hP (by omega)) fun t _ => ?_
  refine Yields.seq (yields_read hP (by omega)) fun t _ => ?_
  rw [henclen, part_pkcs1v15_encoded hd _ hlong, hardened_memeq_eq]
  · exact Yields.pure
  · rw [← part_pkcs1v15_encoded hd (alloc stack .expected_encoded_message (n * 4)) hlong]
    simp

end verify

/-! ## What the encoder of PSS leaves -/

section pss

variable {P : Touch Local → Prop} (hP : ∀ x, x.Inside → P x) {s : Device} {words : ℕ}
  (H : HashFunction) (stack : Local → Mem) {d : HashDigest} (hd : d.Fits words)

include hP

theorem pss_construct_h_yields (salt : List u8) :
    Yields P (pss_construct_h H stack d salt) s
      (Pkcs1.pss_h (H.hash hd.fixed) d.bytes salt) := by
  refine Yields.seq (yields_write hP (by simp [alloc]; omega)) fun t _ => ?_
  refine Yields.seq (yields_write hP (by simp [alloc]; omega)) fun t _ => ?_
  refine Yields.seq (yields_write hP (by simp [alloc])) fun t _ => ?_
  refine Yields.seq (yields_write_nonempty hP (by simp [alloc])) fun t _ => ?_
  refine Yields.seq (yields_read hP (by simp)) fun t _ => ?_
  rw [Buffer.put_append _ (by simp), Buffer.put_append _ (by simp),
    Buffer.put_append _ (by simp), Buffer.part_put (by simp [alloc]; omega)]
  exact yields_hash H hd.fixed _

section values

omit hP

variable {a b : Buffer Local} {salt : List u8} {n size : ℕ}

/-- `DB` in its array. -/
theorem part_pss_db (hsalt : salt.length < n) (hsize : n ≤ size) :
    (((a.put 0 (List.replicate size 0)).put (n - 1 - salt.length) [0x01]).put (n - salt.length)
      salt).part 0 n = Pkcs1.pss_db salt n := by
  obtain ⟨k, rfl⟩ : ∃ k, n = k + 1 + salt.length := ⟨n - salt.length - 1, by omega⟩
  have hone : k + 1 + salt.length - 1 - salt.length = k := by omega
  have hback : k + 1 + salt.length - salt.length = k + 1 := by omega
  have hzeros : k + 1 + salt.length - salt.length - 1 = k := by omega
  have hfront : (((a.put 0 (List.replicate size 0)).put k [0x01]).put (k + 1) salt).part 0 k =
      List.replicate k 0 := by
    rw [Buffer.part_put_of_apart (by omega), Buffer.part_put_one_of_apart (by omega),
      Buffer.part_put_replicate (by omega)]
  have hmark : (((a.put 0 (List.replicate size 0)).put k [0x01]).put (k + 1) salt).part k 1 =
      [0x01] := by
    rw [Buffer.part_put_of_apart (by omega), Buffer.part_put_one]
  rw [hone, hback, Buffer.part_add, Buffer.part_add, Nat.zero_add, Nat.zero_add,
    Buffer.part_put rfl, hfront, hmark, Pkcs1.pss_db, hzeros]

/-- Of an exclusive or of whole words, the part that counts. -/
theorem part_xor (h : n ≤ size) :
    (a.put 0 (Pkcs1.xor_bytes (a.part 0 size) (b.part 0 size))).part 0 n =
      Pkcs1.xor_bytes (a.part 0 n) (b.part 0 n) := by
  rw [Buffer.part_put_take (by simpa using h), Pkcs1.xor_bytes, List.take_zipWith,
    Buffer.take_part h, Buffer.take_part h]
  rfl

theorem part_clear_first (h : 0 < n) :
    (a.put 0 ((a.part 0 1).map fun byte => byte &&& 0x7f)).part 0 n =
      Pkcs1.clear_top (a.part 0 n) := by
  have hlen : ((a.part 0 1).map fun byte => byte &&& 0x7f).length = 1 := by simp
  rw [Buffer.part_split (n := n) (k := 1) h, Buffer.part_put hlen,
    Buffer.part_put_of_apart (by omega), Buffer.part_split (a := a) (n := n) (k := 1) h]
  rfl

/-- The mask in its array. -/
theorem part_mask (hash : Pkcs1.Hash) {w : ℕ} (hw : hash.len = 4 * w) (seed : List u8) :
    (a.put 0 (mask_written hash seed 0 n)).part 0 n = Pkcs1.mgf1 hash seed n := by
  have hlen : n ≤ (mask_written hash seed 0 n).length := by
    rw [length_mask_written seed 0 hw, word_sizeof]
    omega
  rw [Buffer.part_put_take hlen, take_mask_written]

end values

/-- The mask of the seed that is in `h`. -/
theorem leads_mask {h : Buffer Local} {m : ℕ} (hlen : h.len = 4 * words) {β : Type}
    {k : Buffer Local → Prog β} {Q : β → Device → Prop}
    (hk : ∀ mask t, mask.len = word_sizeof m →
      mask.part 0 m = Pkcs1.mgf1 (H.hash hd.fixed) (h.part 0 (4 * words)) m → Leads P (k mask) t Q) :
    Leads P (h.read 0 (4 * words) >>= fun seed =>
      mgf1 H stack d.mode seed m (alloc stack .mask (word_sizeof m)) >>= k) s Q := by
  refine Yields.leads (yields_read hP (by omega)) fun t _ => ?_
  refine Yields.leads (mgf1_yields hP H stack hd.fixed _ (by simp [alloc])) fun t _ => ?_
  exact hk _ t rfl (part_mask (H.hash hd.fixed) rfl _)

omit hd in
/-- A mask is added, and the top bit is cleared. -/
theorem leads_masked {db mask : Buffer Local} {m size : ℕ} (hsize : m ≤ size) (hm : 0 < m)
    (hdb : db.len = size) (hmask : size ≤ mask.len) {β : Type} {k : Buffer Local → Prog β}
    {Q : β → Device → Prop}
    (hk : ∀ r t, r.len = size →
      r.part 0 m = Pkcs1.clear_top (Pkcs1.xor_bytes (db.part 0 m) (mask.part 0 m)) →
      Leads P (k r) t Q) :
    Leads P (xor_in_place db mask size >>= fun db => db.read 0 1 >>= fun first =>
      db.write 0 (first.map fun byte => byte &&& 0x7f) >>= k) s Q := by
  refine Yields.abstract (R := fun r => r.len = size ∧
    r.part 0 m = Pkcs1.xor_bytes (db.part 0 m) (mask.part 0 m))
    (yields_xor_in_place hP (by omega) (by omega)) ⟨hdb, part_xor hsize⟩ ?_
  rintro masked t ⟨hlen, hmasked⟩ -
  refine Yields.leads (yields_read hP (by omega)) fun t _ => ?_
  refine Yields.leads (yields_write hP (by simp; omega)) fun t _ => ?_
  refine hk _ t hlen ?_
  rw [part_clear_first hm, hmasked]

omit hP in
/-- The three parts of the encoding, one written over the end of the other. -/
theorem part_pss_encoded {a cleared h : Buffer Local} {m size w : ℕ} (hsize : m ≤ size) :
    (((a.put 0 (cleared.part 0 size)).put m (h.part 0 (4 * w))).put (m + 4 * w) [0xbc]).part 0
      (m + 4 * w + 1) = cleared.part 0 m ++ h.part 0 (4 * w) ++ [0xbc] := by
  rw [Buffer.part_add, Buffer.part_add, Nat.zero_add, Nat.zero_add, Buffer.part_put_one]
  congr 2
  · rw [Buffer.part_put_one_of_apart (by omega), Buffer.part_put_of_apart (by omega),
      Buffer.part_put_take (by simpa using hsize), Buffer.take_part hsize]
  · rw [Buffer.part_put_one_of_apart (by omega), Buffer.part_put (by simp)]

/-- The encoding of the RFC, backwards, and every byte of it written. -/
theorem pss_encode_spec (salt : List u8) {n : ℕ} {a : Buffer Local} (hn : n < 2 ^ 30)
    (hlong : salt.length + 4 * words + 2 ≤ 4 * n) (ha : a.len = 4 * n) :
    Leads P (rsa_padding_pss_encode H stack d salt n a) s fun r t =>
      r.len = a.len ∧ r.part 0 (4 * n) = (Pkcs1.emsa_pss (H.hash hd.fixed) d.bytes salt (4 * n)).reverse ∧
        ∀ x ∈ a.places true 0 (4 * n), x ∈ t.touched := by
  have hwords := hd.len
  have hdigest : (Pkcs1.pss_h (H.hash hd.fixed) d.bytes salt).length = 4 * words :=
    (H.hash hd.fixed).length_digest _
  unfold rsa_padding_pss_encode
  rw [if_neg (by omega)]
  have hbytes : d.len * 4 = 4 * words := by omega
  obtain ⟨m, hm⟩ : ∃ m, n * 4 - 4 * words - 1 = m := ⟨_, rfl⟩
  have hplaces : 4 * n = m + 4 * words + 1 ∧ n * 4 - 1 = m + 4 * words := by omega
  simp only [hbytes, hm, hplaces.2]
  have hle : m ≤ word_sizeof m ∧ word_sizeof m ≤ 4 * n := by
    unfold word_sizeof
    omega
  refine Yields.leads (pss_construct_h_yields hP H stack hd salt) fun t _ => ?_
  refine Yields.abstract (R := fun h => h.len = 4 * words ∧
    h.part 0 (4 * words) = Pkcs1.pss_h (H.hash hd.fixed) d.bytes salt)
    (yields_write hP (by rw [hdigest]; simp [alloc])) ⟨rfl, Buffer.part_put hdigest⟩ ?_
  rintro h t ⟨hlen, hpart⟩ -
  refine Yields.leads (yields_write hP (by simp [alloc])) fun t _ => ?_
  refine Yields.leads (yields_write hP (by simp [alloc]; omega)) fun t _ => ?_
  refine Yields.abstract (R := fun db => db.len = word_sizeof m ∧ db.part 0 m = Pkcs1.pss_db salt m)
    (yields_write_nonempty hP (by simp [alloc]; omega)) ⟨rfl, part_pss_db (by omega) hle.1⟩ ?_
  rintro db t ⟨hdblen, hdb⟩ -
  refine leads_mask hP H stack hd hlen fun mask t hmasklen hmask => ?_
  refine leads_masked hP hle.1 (by omega) hdblen hmasklen.ge fun cleared t hclearedlen hcleared => ?_
  refine Yields.leads (yields_copy hP (by omega) (by omega)) fun t _ => ?_
  refine Yields.leads (yields_copy hP (by simp; omega) (by omega)) fun t _ => ?_
  refine Yields.leads (yields_check_copied hP (by simp; omega) (by omega) ?_) fun t _ => ?_
  · exact Buffer.part_put (by simp)
  refine Yields.leads (yields_write hP (by simp; omega)) fun t _ => ?_
  refine (reverse_bytes_spec hP hn (by simp; omega)).mono fun r t hr => ?_
  obtain ⟨rfl, -, hwritten⟩ := hr
  refine ⟨rfl, ?_, hwritten⟩
  have hdbl : 4 * n - (H.hash hd.fixed).len - 1 = m := by
    have hhash : (H.hash hd.fixed).len = 4 * words := rfl
    omega
  rw [Buffer.part_put (by simp), hplaces.1, part_pss_encoded hle.1, ← hplaces.1, hcleared, hdb, hmask,
    hpart]
  simp only [Pkcs1.emsa_pss, hdbl]

/-! ### What the verifier accepts -/

omit hP in
theorem top_clear_iff (b : u8) (bytes : List u8) : Pkcs1.TopClear (b :: bytes) ↔ b >>> 7 = 0 := by
  have hbyte : b &&& 0x7f = b ↔ b >>> 7 = 0 := by
    revert b
    decide
  rw [Pkcs1.TopClear, Pkcs1.clear_top, List.cons.injEq, eq_self_iff_true, and_true]
  exact hbyte

theorem yields_zero_trailing {a : Buffer Local} {n : ℕ} (h : n ≤ a.len) :
    Yields P (zero_trailing a n) s (a.put n (List.replicate (a.len - n) 0)) := by
  unfold zero_trailing
  by_cases hlt : a.len > n
  · rw [if_pos hlt]
    exact yields_write hP (by rw [List.length_replicate]; omega)
  · have hzero : a.len - n = 0 := by omega
    rw [if_neg hlt, hzero, List.replicate_zero, Buffer.put_nil]
    exact Yields.pure

omit hP in
/-- `DB` starts with the padding, and the rest is the salt. -/
theorem append_eq_pss_db {front back salt : List u8} {m : ℕ} (hm : salt.length < m)
    (hfront : front.length = m - salt.length) :
    front ++ back = Pkcs1.pss_db salt m ↔
      front = List.replicate (m - salt.length - 1) 0 ++ [0x01] ∧ back = salt := by
  unfold Pkcs1.pss_db
  refine ⟨fun h => List.append_inj h ?_, ?_⟩
  · rw [hfront]
    simp
    omega
  · rintro ⟨rfl, rfl⟩
    rfl

/-- The parts of an array that has been turned round, as the verifier takes them. -/
structure PssParts (a : Buffer Local) (m words : ℕ) (x : List u8) : Prop where
  long : 4 * words < m
  len : m + 4 * words + 1 ≤ a.len
  whole : a.part 0 m ++ a.part m (4 * words) ++ a.part (m + 4 * words) 1 = x

/-- The masked `DB` of `em` without its mask. -/
def unmasked_db (hash : Pkcs1.Hash) (em : Buffer Local) (m words : ℕ) : List u8 :=
  Pkcs1.clear_top (Pkcs1.xor_bytes (em.part 0 m) (Pkcs1.mgf1 hash (em.part m (4 * words)) m))

omit hP in
include hd in
/-- What makes the parts an encoding: the two checks of bytes, and a salt for the rest. -/
theorem PssParts.encoding_iff {em : Buffer Local} {m n : ℕ} {x : List u8}
    (h : PssParts em m words x) (hn : 4 * n = m + 4 * words + 1) :
    (∃ salt, salt.length = 4 * words ∧ x = Pkcs1.emsa_pss (H.hash hd.fixed) d.bytes salt (4 * n)) ↔
      (em.part (m + 4 * words) 1 = [0xbc] ∧
        (em.part 0 1).map (fun byte : u8 => byte >>> 7) = [0]) ∧
      ∃ salt : List u8, salt.length = 4 * words ∧
        unmasked_db (H.hash hd.fixed) em m words = Pkcs1.pss_db salt m ∧
        em.part m (4 * words) = Pkcs1.pss_h (H.hash hd.fixed) d.bytes salt := by
  have hlong := h.long
  obtain ⟨last, hlast⟩ : ∃ last, em.part (m + 4 * words) 1 = [last] :=
    List.length_eq_one_iff.mp Buffer.length_part
  obtain ⟨first, hfirst⟩ : ∃ first, em.part 0 1 = [first] :=
    List.length_eq_one_iff.mp Buffer.length_part
  have hmasked : em.part 0 m = first :: em.part 1 (m - 1) := by
    rw [Buffer.part_split (k := 1) (by omega), hfirst]
    rfl
  have hhash : (H.hash hd.fixed).len = 4 * words := rfl
  have hdbl : 4 * n - (H.hash hd.fixed).len - 1 = m := by omega
  have hiff := @Pkcs1.emsa_pss_iff (H.hash hd.fixed) d.bytes (em.part 0 m) (em.part m (4 * words))
    last (4 * n) (4 * words) (by omega) (Buffer.length_part.trans hdbl.symm) Buffer.length_part
  rw [← h.whole, hlast, hiff, hdbl, hmasked, top_clear_iff, ← hmasked, hfirst, List.map_singleton,
    List.singleton_inj, List.singleton_inj, and_assoc]
  rfl

omit hP hd in
/-- The salt of an unmasked `DB` can only be what is behind the padding. -/
theorem pss_salt_iff {db : Buffer Local} {m pad w : ℕ} {P : List u8 → Prop} (hpad : m = pad + 4 * w)
    (hpos : 0 < pad) :
    (∃ salt : List u8, salt.length = 4 * w ∧ db.part 0 m = Pkcs1.pss_db salt m ∧ P salt) ↔
      db.part 0 pad = List.replicate (pad - 1) 0 ++ [0x01] ∧ P (db.part pad (4 * w)) := by
  have hsplit : db.part 0 m = db.part 0 pad ++ db.part pad (4 * w) := by
    rw [hpad, Buffer.part_add, Nat.zero_add]
  have hfits {salt : List u8} (hsalt : salt.length = 4 * w) : salt.length < m ∧
      (db.part 0 pad).length = m - salt.length ∧ m - salt.length - 1 = pad - 1 := by
    rw [Buffer.length_part]
    omega
  rw [hsplit]
  constructor
  · rintro ⟨salt, hsalt, hdb, hP⟩
    obtain ⟨hfront, rfl⟩ := (append_eq_pss_db (hfits hsalt).1 (hfits hsalt).2.1).mp hdb
    rw [(hfits hsalt).2.2] at hfront
    exact ⟨hfront, hP⟩
  · rintro ⟨hfront, hP⟩
    have hsalt : (db.part pad (4 * w)).length = 4 * w := Buffer.length_part
    refine ⟨_, hsalt, (append_eq_pss_db (hfits hsalt).1 (hfits hsalt).2.1).mpr ⟨?_, rfl⟩, hP⟩
    rw [(hfits hsalt).2.2]
    exact hfront

/-- `DB` without its mask, and `H`, each in an array of its own. -/
theorem leads_unmask {em : Buffer Local} {m : ℕ} (hm : 0 < m) (hem : m + 4 * words ≤ em.len) {β : Type}
    {k : Buffer Local → Buffer Local → Prog β} {Q : β → Device → Prop}
    (hk : ∀ h db t, h.len = 4 * words → h.part 0 (4 * words) = em.part m (4 * words) →
      db.len = word_sizeof m → db.part 0 m = unmasked_db (H.hash hd.fixed) em m words →
      Leads P (k h db) t Q) :
    Leads P (copy (alloc stack .db (word_sizeof m)) 0 em 0 m >>= fun db =>
      zero_trailing db m >>= fun db =>
      copy (alloc stack .h (4 * words)) 0 em m (4 * words) >>= fun h =>
      check_copied h 0 em m (4 * words) >>= fun _ =>
      h.read 0 (4 * words) >>= fun seed =>
      mgf1 H stack d.mode seed m (alloc stack .mask (word_sizeof m)) >>= fun mask =>
      zero_trailing mask m >>= fun mask =>
      xor_in_place db mask (word_sizeof m) >>= fun db =>
      db.read 0 1 >>= fun first =>
      db.write 0 (first.map fun byte => byte &&& 0x7f) >>= k h) s Q := by
  have hle : m ≤ word_sizeof m := by
    unfold word_sizeof
    omega
  refine Yields.leads (yields_copy hP (by simp [alloc]; omega) (by omega)) fun t _ => ?_
  refine Yields.abstract (R := fun db => db.len = word_sizeof m ∧ db.part 0 m = em.part 0 m)
    (yields_zero_trailing hP (by simp [alloc]; omega)) ⟨rfl, ?_⟩ ?_
  · rw [Buffer.part_put_of_apart (by omega), Buffer.part_put (by simp)]
  rintro db t ⟨hdblen, hdb⟩ -
  refine Yields.abstract (R := fun h => h.len = 4 * words ∧
    h.part 0 (4 * words) = em.part m (4 * words))
    (yields_copy hP (by simp [alloc]) (by omega)) ⟨rfl, Buffer.part_put (by simp)⟩ ?_
  rintro h t ⟨hlen, hpart⟩ -
  refine Yields.leads (yields_check_copied hP (by omega) (by omega) hpart) fun t _ => ?_
  refine leads_mask hP H stack hd hlen fun mask t hmasklen hmask => ?_
  refine Yields.abstract (R := fun zeroed => zeroed.len = word_sizeof m ∧
    zeroed.part 0 m = mask.part 0 m) (yields_zero_trailing hP (by omega))
    ⟨hmasklen, Buffer.part_put_of_apart (by omega)⟩ ?_
  rintro zeroed t ⟨hzeroedlen, hzeroed⟩ -
  refine leads_masked hP hle hm hdblen hzeroedlen.ge fun r t hrlen hr => ?_
  refine hk h r t hlen hpart hrlen ?_
  rw [hr, hdb, hzeroed, hmask, hpart]
  rfl

omit hd in
/-- The padding is compared by whole words, filled up with the bytes behind it. -/
theorem leads_padding {db : Buffer Local} {pad : ℕ} (hpad : 0 < pad) (hdb : word_sizeof pad ≤ db.len)
    {Q : u32 → Device → Prop} {k : Prog u32}
    (hdiffers : db.part 0 pad ≠ List.replicate (pad - 1) 0 ++ [0x01] → ∀ t, Q kHardenedBoolFalse t)
    (hsame : db.part 0 pad = List.replicate (pad - 1) 0 ++ [0x01] → ∀ t, Leads P k t Q) :
    Leads P ((alloc stack .exp_padding (word_sizeof pad)).write 0 (List.replicate (pad - 1) 0) >>=
      fun e => e.write (pad - 1) [0x01] >>= fun e =>
      copy e pad db pad (word_sizeof pad - pad) >>= fun e =>
      check_copied e pad db pad (word_sizeof pad - pad) >>= fun _ =>
      db.read 0 (word_sizeof pad) >>= fun lhs => e.read 0 (word_sizeof pad) >>= fun rhs =>
      if hardened_memeq lhs rhs ≠ kHardenedBoolTrue then pure kHardenedBoolFalse else k) s Q := by
  obtain ⟨psize, hpsize⟩ : ∃ psize, word_sizeof pad = psize := ⟨_, rfl⟩
  have hle : pad ≤ psize := by
    unfold word_sizeof at hpsize
    omega
  rw [hpsize] at hdb ⊢
  refine Yields.leads (yields_write hP (by simp [alloc]; omega)) fun t _ => ?_
  refine Yields.leads (yields_write hP (by simp [alloc]; omega)) fun t _ => ?_
  refine Yields.abstract (R := fun e => e.len = psize ∧
    e.part 0 pad = List.replicate (pad - 1) 0 ++ [0x01] ∧
    e.part pad (psize - pad) = db.part pad (psize - pad))
    (yields_copy hP (by simp [alloc]; omega) (by omega)) ⟨rfl, ?_, Buffer.part_put (by simp)⟩ ?_
  · rw [Buffer.part_put_of_apart (by omega), Buffer.part_split (n := pad) (k := pad - 1) (by omega),
      Buffer.part_put_one_of_apart (by omega), Buffer.part_put_replicate (by omega), Nat.zero_add,
      show pad - (pad - 1) = 1 by omega, Buffer.part_put_one]
  rintro e t ⟨helen, hefront, heback⟩ -
  refine Yields.leads (yields_check_copied hP (by omega) (by omega) heback) fun t _ => ?_
  refine Yields.leads (yields_read hP (by omega)) fun t _ => ?_
  refine Yields.leads (yields_read hP (by omega)) fun t _ => ?_
  have hcompare : db.part 0 psize = e.part 0 psize ↔
      db.part 0 pad = List.replicate (pad - 1) 0 ++ [0x01] := by
    rw [Buffer.part_split (a := db) (k := pad) hle, Buffer.part_split (a := e) (k := pad) hle,
      Nat.zero_add, heback, hefront, List.append_left_inj]
  have hne : kHardenedBoolFalse ≠ kHardenedBoolTrue := by decide
  rw [hardened_memeq_eq _ _ (by simp)]
  by_cases hfront : db.part 0 pad = List.replicate (pad - 1) 0 ++ [0x01]
  · rw [if_pos (hcompare.mpr hfront), if_neg (not_not.mpr rfl)]
    exact hsame hfront _
  · rw [if_neg (hcompare.not.mpr hfront), if_pos hne]
    exact Leads.pure (hdiffers hfront _)

/-- The answer is one of the two, and yes for an encoding with a salt of the digest's length. -/
theorem pss_verify_spec {n : ℕ} {a : Buffer Local} (hn : n < 2 ^ 30)
    (hlong : 8 * words + 2 ≤ 4 * n) (ha : 4 * n ≤ a.len) :
    Leads P (rsa_padding_pss_verify H stack d a n) s fun r _ =>
      (r = kHardenedBoolTrue ∨ r = kHardenedBoolFalse) ∧
        (r = kHardenedBoolTrue ↔ ∃ salt, salt.length = 4 * words ∧
          a.part 0 (4 * n) = (Pkcs1.emsa_pss (H.hash hd.fixed) d.bytes salt (4 * n)).reverse) := by
  have hwords := hd.len
  have hbytes : d.len * 4 = 4 * words := by omega
  obtain ⟨m, hm⟩ : ∃ m, n * 4 - 4 * words - 1 = m := ⟨_, rfl⟩
  obtain ⟨pad, hpad⟩ : ∃ pad, m - 4 * words = pad := ⟨_, rfl⟩
  have hplaces : 4 * n = m + 4 * words + 1 ∧ n * 4 - 1 = m + 4 * words ∧ m = pad + 4 * words ∧
      0 < pad := by omega
  have hsizes : m ≤ word_sizeof m ∧ word_sizeof pad ≤ word_sizeof m := by
    unfold word_sizeof
    omega
  have hne : kHardenedBoolFalse ≠ kHardenedBoolTrue := by decide
  unfold rsa_padding_pss_verify
  rw [if_neg (by omega)]
  simp only [hbytes, hm, hpad, hplaces.2.1]
  refine Leads.bind (R := fun em _ => PssParts em m words (a.part 0 (4 * n)).reverse)
    ((reverse_bytes_spec hP hn ha).mono fun r t hr => ?_) ?_
  · obtain ⟨rfl, -, -⟩ := hr
    refine ⟨by omega, by simp; omega, ?_⟩
    have hparts (b : Buffer Local) : b.part 0 m ++ b.part m (4 * words) ++ b.part (m + 4 * words) 1 =
        b.part 0 (4 * n) := by
      rw [hplaces.1, Buffer.part_add, Buffer.part_add, Nat.zero_add, Nat.zero_add]
    rw [hparts, Buffer.part_put (by simp)]
  rintro em t hem
  have hlen := hem.len
  -- what there is to show, in terms of the parts
  simp only [← List.reverse_eq_iff, hem.encoding_iff H hd hplaces.1]
  refine Yields.leads (yields_read hP (by omega)) fun t _ => ?_
  refine Yields.leads (yields_read hP (by omega)) fun t _ => ?_
  split
  case isTrue hbad =>
    exact Leads.pure ⟨.inr rfl, fun h => absurd h hne, fun h => absurd h.1 (not_and_or.mpr hbad)⟩
  case isFalse hok =>
    simp only [not_not.mp (not_and_or.not.mpr hok), true_and]
    refine leads_unmask hP H stack hd (by omega) (by omega) fun h db t hhlen hh hdblen hdb => ?_
    simp only [← hdb, pss_salt_iff hplaces.2.2.1 hplaces.2.2.2]
    refine leads_padding hP stack hplaces.2.2.2 (by omega)
      (fun hdiffers t => ⟨.inr rfl, fun h => absurd h hne, fun h => absurd h.1 hdiffers⟩)
      fun hsame t => ?_
    simp only [hsame, true_and]
    -- the salt is what is behind the padding, and the hash is made again with it
    refine Yields.abstract (R := fun salt => salt.len = 4 * words ∧
      salt.part 0 (4 * words) = db.part pad (4 * words))
      (yields_copy hP (by simp [alloc]) (by omega)) ⟨rfl, Buffer.part_put (by simp)⟩ ?_
    rintro salt t ⟨hsaltlen, hsalt⟩ -
    refine Yields.leads (yields_check_copied hP (by omega) (by omega) hsalt) fun t _ => ?_
    refine Yields.leads (yields_read hP (by omega)) fun t _ => ?_
    rw [hsalt]
    refine Yields.leads (pss_construct_h_yields hP H stack hd _) fun t _ => ?_
    have hdigest : (Pkcs1.pss_h (H.hash hd.fixed) d.bytes
        (db.part pad (4 * words))).length = 4 * words := (H.hash hd.fixed).length_digest _
    refine Yields.leads (yields_write hP (by rw [hdigest]; simp [alloc])) fun t _ => ?_
    refine Yields.leads (yields_read hP (by omega)) fun t _ => ?_
    refine Yields.leads (yields_read hP (by simp [alloc])) fun t _ => ?_
    rw [hh, Buffer.part_put hdigest, hardened_memeq_eq _ _ (by rw [Buffer.length_part, hdigest])]
    refine Leads.pure ?_
    split
    case isTrue heq => exact ⟨.inl rfl, fun _ => heq, fun _ => rfl⟩
    case isFalse hdiffers => exact ⟨.inr rfl, fun h => absurd h hne, fun h => absurd h hdiffers⟩

end pss

/-! ## The paddings of signatures -/

/-- The encoder and the verifier of PKCS1-v1_5, on a machine: the encoding, and who is accepted. -/
structure Pkcs1v15Exact (stack : Local → Mem) (d : HashDigest) (n : ℕ) (a : Buffer Local)
    (m : Machine Device) : Prop where
  encode : ∃ r m', rsa_padding_pkcs1v15_encode d n a m = (.ret r, m') ∧
    r.part 0 (4 * n) = (Pkcs1.emsa_pkcs1_v1_5 d.info (4 * n)).reverse
  verify : ∃ r m', rsa_padding_pkcs1v15_verify stack d a n m = (.ret r, m') ∧
    (r = kHardenedBoolTrue ↔ a.part 0 (4 * n) = (Pkcs1.emsa_pkcs1_v1_5 d.info (4 * n)).reverse)

/-- The same of PSS, where the salt is free. What the encoder leaves is accepted. -/
structure PssExact (H : HashFunction) (stack : Local → Mem) (d : HashDigest) (hash : Pkcs1.Hash)
    (n : ℕ) (a : Buffer Local) (m : Machine Device) : Prop where
  verify : ∃ r m', rsa_padding_pss_verify H stack d a n m = (.ret r, m') ∧
    (r = kHardenedBoolTrue ↔ ∃ salt, salt.length = hash.len ∧
      a.part 0 (4 * n) = (Pkcs1.emsa_pss hash d.bytes salt (4 * n)).reverse)
  encode : ∀ salt : List u8, salt.length = hash.len →
    ∃ r m', rsa_padding_pss_encode H stack d salt n a m = (.ret r, m') ∧
      r.part 0 (4 * n) = (Pkcs1.emsa_pss hash d.bytes salt (4 * n)).reverse ∧
      ∀ m₂ : Machine Device, m₂.Under (· = .done) →
        ∃ m', rsa_padding_pss_verify H stack d r n m₂ = (.ret kHardenedBoolTrue, m')

/-- Both paddings are those of the RFC, for every hash, digest and modulus, on every machine
whose operations are carried out. -/
theorem signature_paddings_exact (H : HashFunction) (stack : Local → Mem) (d : HashDigest)
    (words n : ℕ) (hd : d.Fits words) (hn : ModulusWords n) (a : Buffer Local)
    (ha : a.len = 4 * n) (m : Machine Device) (hm : m.Under (· = .done)) :
    Pkcs1v15Exact stack d n a m ∧ PssExact H stack d (H.hash hd.fixed) n a m := by
  have hP : ∀ x : Touch Local, x.Inside → True := fun _ _ => trivial
  obtain ⟨hlow, hhigh⟩ := hn.bounds
  have hwords := hd.fixed.le
  have hhash : (H.hash hd.fixed).len = 4 * words := rfl
  refine ⟨⟨?_, ?_⟩, ⟨?_, fun salt hsalt => ?_⟩⟩
  · obtain ⟨m', hrun, -⟩ := (pkcs1v15_encode_yields hP hd (by omega) ha).run (m := m) rfl hm
    exact ⟨_, m', hrun, part_pkcs1v15_encoded hd a (by omega)⟩
  · obtain ⟨m', hrun, -⟩ :=
      (pkcs1v15_verify_yields hP stack hd (by omega) ha.ge).run (m := m) rfl hm
    refine ⟨_, m', hrun, ?_⟩
    split
    · case isTrue h => exact ⟨fun _ => h, fun _ => rfl⟩
    · case isFalse h => exact ⟨fun hfalse => absurd hfalse (by decide), fun heq => absurd heq h⟩
  · obtain ⟨r, m', hrun, ⟨-, hiff⟩, -⟩ :=
      (pss_verify_spec hP H stack hd (by omega) (by omega) ha.ge).run (m := m) rfl hm
    exact ⟨r, m', hrun, hiff⟩
  · rw [hhash] at hsalt
    obtain ⟨r, m', hrun, ⟨hlen, hr, -⟩, -⟩ :=
      (pss_encode_spec hP H stack hd salt (by omega) (by omega) ha).run (m := m) rfl hm
    refine ⟨r, m', hrun, hr, fun m₂ hm₂ => ?_⟩
    obtain ⟨v, m₂', hverify, ⟨-, hiff⟩, -⟩ :=
      (pss_verify_spec hP H stack hd (by omega) (by omega) (hlen.trans ha).ge).run (m := m₂) rfl hm₂
    obtain rfl := hiff.mpr ⟨salt, hsalt, hr⟩
    exact ⟨m₂', hverify⟩

/-- A hash with digests of the right length. -/
def repeating_hash : HashFunction where
  digest := fun mode m =>
    match digest_wordlen_get mode with
    | .ok words => List.replicate (4 * words) (BitVec.ofNat 8 m.length)
    | .error _ => []
  length_digest := fun mode words m h => by
    rw [HashMode.Fixed] at h
    rw [h]
    exact List.length_replicate

/-- A SHA-384 digest and a modulus of 3072 bits. -/
theorem signature_paddings_exact_sha384 :
    let d : HashDigest := ⟨.kOtcryptoHashModeSha384, List.replicate 12 0x01020304⟩
    let a : Buffer Local := ⟨.encoded_message, 384, fun i => BitVec.ofNat 8 i⟩
    let m : Machine Device := Machine.on ⟨⟨⟨fun _ => 0, 0⟩, ⟨fun _ => 0, 0⟩⟩, []⟩ fun _ => .done
    Pkcs1v15Exact (fun _ _ => 0) d 96 a m ∧
      PssExact repeating_hash (fun _ _ => 0) d
        (repeating_hash.hash (show HashMode.kOtcryptoHashModeSha384.Fixed 12 from rfl)) 96 a m :=
  signature_paddings_exact repeating_hash (fun _ _ => 0)
    ⟨.kOtcryptoHashModeSha384, List.replicate 12 0x01020304⟩ 12 96 ⟨rfl, rfl⟩ (by decide)
    ⟨.encoded_message, 384, fun i => BitVec.ofNat 8 i⟩ rfl
    (Machine.on ⟨⟨⟨fun _ => 0, 0⟩, ⟨fun _ => 0, 0⟩⟩, []⟩ fun _ => .done) fun _ => rfl

end IbexFirmware.RsaPadding
