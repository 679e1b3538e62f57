/-
The padding of RSA encryption (`rsa_padding.c`): OAEP.

The encoder adds its parts onto a mask that is there first, and copies the whole words of `DB`
into the encoded message, with the byte that fills the last of them. The decoder looks for the
message in constant time: `oaep_scan_eq` says what the words of its loop come to, and
`Pkcs1.eme_oaep_iff` that what it checks is exactly what makes a string an encoding. The last
section puts the three encoders side by side and says which of them keep to their output.
-/
import IbexFirmware.RsaSignaturePadding

set_option autoImplicit false

namespace IbexFirmware.RsaPadding

open Bytes PowerFail Crypto HardenedMemory Arrays
open Traversal (ct_sltz32 ct_cmov32 ct_sltz32_eq ct_cmov32_eq)

/-! ## The encoder -/

def rsa_padding_oaep_max_message_bytelen (hash_mode : HashMode) (rsa_wordlen : ℕ) :
    Except CryptoError ℕ := do
  let digest_wordlen ← digest_wordlen_get hash_mode
  let digest_bytelen := digest_wordlen * 4
  let rsa_bytelen := rsa_wordlen * 4
  if 2 * digest_bytelen + 2 > rsa_bytelen then throw .OTCRYPTO_BAD_ARGS
  pure (rsa_bytelen - 2 * digest_bytelen - 2)

def entropy_complex_check : Prog Unit := Proc.step .OTCRYPTO_RECOV_ERR fun s => ((), s)

def entropy_csrng_instantiate : Prog Unit := Proc.step .OTCRYPTO_RECOV_ERR fun s => ((), s)

def entropy_csrng_uninstantiate : Prog Unit := Proc.step .OTCRYPTO_RECOV_ERR fun s => ((), s)

/-- The next words of the CSRNG, which may lack the FIPS flag. -/
def entropy_csrng_generate (len : ℕ) : Prog (List u32) :=
  Proc.step .OTCRYPTO_RECOV_ERR fun s =>
    (s.rest.csrng.words len, { s with rest := { s.rest with csrng := s.rest.csrng.after len } })

/-- `randomized_bytexor_in_place`, into an array from `start` on. -/
def bytexor_in_place (x : Buffer Local) (start : ℕ) (bytes : List u8) : Prog (Buffer Local) := do
  let xs ← x.read start bytes.length
  x.write start (Pkcs1.xor_bytes xs bytes)

def rsa_padding_oaep_encode (H : HashFunction) (stack : Local → Mem) (hash_mode : HashMode)
    (message label : List u8) (encoded_message_len : ℕ) (encoded_message : Buffer Local) :
    Prog (Buffer Local) := do
  let max_message_bytelen ← Proc.ofExcept
    (rsa_padding_oaep_max_message_bytelen hash_mode encoded_message_len)
  if message.length > max_message_bytelen then Proc.throw .OTCRYPTO_BAD_ARGS
  else do
    let digest_wordlen ← Proc.ofExcept (digest_wordlen_get hash_mode)
    let digest_bytelen := digest_wordlen * 4
    let bytes ← hash H hash_mode label
    let lhash ← (alloc stack .lhash digest_bytelen).write 0 bytes
    entropy_complex_check
    entropy_csrng_instantiate
    let words ← entropy_csrng_generate digest_wordlen
    let seed ← (alloc stack .seed digest_bytelen).write 0 (word_bytes words)
    entropy_csrng_uninstantiate
    let encoded_message_bytelen := encoded_message_len * 4
    let db_bytelen := encoded_message_bytelen - digest_bytelen - 1
    let db_size := word_sizeof db_bytelen
    let bytes ← seed.read 0 digest_bytelen
    let db ← mgf1 H stack hash_mode bytes db_bytelen (alloc stack .db db_size)
    let db ← xor_in_place db lhash digest_bytelen
    let message_start_idx := db_bytelen - message.length
    let db ← bytexor_in_place db (message_start_idx - 1) [0x01]
    let db ← bytexor_in_place db message_start_idx message
    let bytes ← db.read 0 db_bytelen
    let seed_mask ← mgf1 H stack hash_mode bytes digest_bytelen (alloc stack .seed_mask digest_bytelen)
    let seed ← xor_in_place seed seed_mask digest_bytelen
    let encoded_message ← encoded_message.write 0 [0x00]
    let encoded_message ← copy encoded_message 1 seed 0 digest_bytelen
    check_copied encoded_message 1 seed 0 digest_bytelen
    -- `sizeof(db)` bytes, and not `db_bytelen`
    let encoded_message ← copy encoded_message (1 + digest_bytelen) db 0 db_size
    check_copied encoded_message (1 + digest_bytelen) db 0 db_size
    reverse_bytes (BitVec.ofNat 32 encoded_message_len) encoded_message

/-! ## The decoder -/

def ct_seqz32 (a : u32) : u32 := ct_sltz32 (~~~a &&& (a - 1))

def ct_seq32 (a b : u32) : u32 := ct_seqz32 (a ^^^ b)

/-- The loop that looks for the message, from index `i` on, with `message_start_idx` and
`decode_failure`. -/
def oaep_scan : List u8 → u32 → u32 × u32 → u32 × u32
  | [], _, state => state
  | byte :: bytes, i, (message_start_idx, decode_failure) =>
      let byte : u32 := byte.setWidth 32
      let is_one := ct_seq32 byte 0x01
      let is_before_message := ct_seqz32 message_start_idx
      let is_message_start := is_one &&& is_before_message
      let message_start_idx := ct_cmov32 is_message_start (i + 1) message_start_idx
      let is_zero := ct_seqz32 byte
      let padding_failure := is_before_message &&& ~~~is_zero &&& ~~~is_one
      oaep_scan bytes (i + 1) (message_start_idx, decode_failure ||| padding_failure)

/-- The status, and where the message starts. -/
def oaep_check_padding_and_find_message_start (db lhash : Buffer Local)
    (digest_bytelen : ℕ) (encoded_message : Buffer Local) (db_bytelen : ℕ)
    (message_start_idx : u32) : Prog (Except CryptoError Unit × u32) := do
  let bytes ← db.read digest_bytelen (db_bytelen - digest_bytelen)
  let (message_start_idx, decode_failure) :=
    oaep_scan bytes (BitVec.ofNat 32 digest_bytelen) (message_start_idx, 0)
  hardened_check (message_start_idx ≤ BitVec.ofNat 32 db_bytelen)
  let message_start_not_found := ct_seqz32 message_start_idx
  let decode_failure := decode_failure ||| message_start_not_found
  let lhs ← lhash.read 0 digest_bytelen
  let rhs ← db.read 0 digest_bytelen
  let lhash_matches := hardened_memeq lhs rhs
  let lhash_match := ct_seq32 lhash_matches kHardenedBoolTrue
  let decode_failure := decode_failure ||| ~~~lhash_match
  let first ← encoded_message.read 0 1
  let leading_byte : u32 := (first.headD 0).setWidth 32
  let decode_failure := decode_failure ||| ~~~ct_seqz32 leading_byte
  if decode_failure ≠ 0 then pure (.error .OTCRYPTO_BAD_ARGS, message_start_idx)
  else pure (.ok (), message_start_idx)

/-- Overwrite an array of words with random ones. -/
def hardened_memshred (a : Buffer Local) : Prog (Buffer Local) := do
  let s ← Proc.get
  let words := s.rest.rnd.words (a.len / 4)
  Proc.modify fun s => { s with rest := { s.rest with rnd := s.rest.rnd.after (a.len / 4) } }
  a.write 0 (word_bytes words)

/-- The buffer with the message, and its length. -/
def rsa_padding_oaep_decode (H : HashFunction) (stack : Local → Mem) (hash_mode : HashMode)
    (label : List u8) (encoded_message : Buffer Local) (encoded_message_len : ℕ)
    (message : Buffer Local) : Prog (Buffer Local × ℕ) := do
  let encoded_message ← reverse_bytes (BitVec.ofNat 32 encoded_message_len) encoded_message
  let digest_wordlen ← Proc.ofExcept (digest_wordlen_get hash_mode)
  let digest_bytelen := digest_wordlen * 4
  let seed ← copy (alloc stack .seed digest_bytelen) 0 encoded_message 1 digest_bytelen
  check_copied seed 0 encoded_message 1 digest_bytelen
  let encoded_message_bytelen := encoded_message_len * 4
  let db_bytelen := encoded_message_bytelen - digest_bytelen - 1
  let db_size := word_sizeof db_bytelen
  let db ← copy (alloc stack .db db_size) 0 encoded_message (1 + digest_bytelen) db_bytelen
  check_copied db 0 encoded_message (1 + digest_bytelen) db_bytelen
  let bytes ← db.read 0 db_bytelen
  let seed_mask ← mgf1 H stack hash_mode bytes digest_bytelen (alloc stack .seed_mask digest_bytelen)
  let seed ← xor_in_place seed seed_mask digest_bytelen
  let bytes ← seed.read 0 digest_bytelen
  let db_mask ← mgf1 H stack hash_mode bytes db_bytelen (alloc stack .db_mask db_size)
  let db ← zero_trailing db db_bytelen
  let db_mask ← zero_trailing db_mask db_bytelen
  let db ← xor_in_place db db_mask db_size
  let bytes ← hash H hash_mode label
  let lhash ← (alloc stack .lhash digest_bytelen).write 0 bytes
  let (status, message_start_idx0) ← oaep_check_padding_and_find_message_start db lhash
    digest_bytelen encoded_message db_bytelen 0
  if status ≠ .ok () then Proc.throw .OTCRYPTO_BAD_ARGS
  else do
    let (status, message_start_idx1) ← oaep_check_padding_and_find_message_start db lhash
      digest_bytelen encoded_message db_bytelen 0
    if status ≠ .ok () then Proc.throw .OTCRYPTO_BAD_ARGS
    else do
      hardened_check (message_start_idx0 = message_start_idx1)
      let start := message_start_idx0.toNat
      let message_bytelen := db_bytelen - start
      let message ←
        (if message_bytelen > 0 then do
          let message ← copy message 0 db start message_bytelen
          check_copied message 0 db start message_bytelen
          pure message
        else pure message)
      let _ ← hardened_memshred db
      pure (message, message_bytelen)

/-! ## What the encoder leaves -/

theorem max_message_bytelen_exact {mode : HashMode} {words n : ℕ} (hm : mode.Fixed words)
    (hlong : 8 * words + 2 ≤ 4 * n) :
    rsa_padding_oaep_max_message_bytelen mode n = .ok (n * 4 - 2 * (words * 4) - 2) := by
  rw [HashMode.Fixed] at hm
  unfold rsa_padding_oaep_max_message_bytelen
  rw [hm]
  change (do
    if 2 * (words * 4) + 2 > n * 4 then throw CryptoError.OTCRYPTO_BAD_ARGS
    pure (n * 4 - 2 * (words * 4) - 2) : Except CryptoError ℕ) = _
  rw [if_neg (by omega)]
  rfl

section encode

variable {a : Buffer Local} {lhash message : List u8} {len gap m : ℕ}

/-- `DB` is added onto a mask in three places, and its zeros are where nothing is added. -/
theorem part_oaep_db (hlhash : lhash.length = len) (hm : len + gap + 1 + message.length = m) :
    let hashed := a.put 0 (Pkcs1.xor_bytes (a.part 0 len) lhash)
    let marked := hashed.put (len + gap) (Pkcs1.xor_bytes (hashed.part (len + gap) 1) [0x01])
    let masked := marked.put (len + gap + 1)
      (Pkcs1.xor_bytes (marked.part (len + gap + 1) message.length) message)
    masked.part 0 m = Pkcs1.xor_bytes (Pkcs1.oaep_db lhash message m) (a.part 0 m) := by
  intro hashed marked masked
  have hlen₀ : (Pkcs1.xor_bytes (a.part 0 len) lhash).length = len := by simp [hlhash]
  have hlen₁ : (Pkcs1.xor_bytes (hashed.part (len + gap) 1) [0x01]).length = 1 := by simp
  have hlen₂ : (Pkcs1.xor_bytes (marked.part (len + gap + 1) message.length) message).length =
      message.length := by simp
  have hmark : hashed.part (len + gap) 1 = a.part (len + gap) 1 := Buffer.part_put_of_apart (by omega)
  have hrest : marked.part (len + gap + 1) message.length =
      a.part (len + gap + 1) message.length := by
    rw [Buffer.part_put_of_apart (by omega), Buffer.part_put_of_apart (by omega)]
  have hfront : masked.part 0 len = Pkcs1.xor_bytes lhash (a.part 0 len) := by
    rw [Buffer.part_put_of_apart (by omega), Buffer.part_put_of_apart (by omega),
      Buffer.part_put hlen₀, Pkcs1.xor_bytes_comm]
  have hgap : masked.part len gap = Pkcs1.xor_bytes (List.replicate gap 0) (a.part len gap) := by
    rw [Buffer.part_put_of_apart (by omega), Buffer.part_put_of_apart (by omega),
      Buffer.part_put_of_apart (by omega), Pkcs1.xor_zeros Buffer.length_part]
  have hone : masked.part (len + gap) 1 = Pkcs1.xor_bytes [0x01] (a.part (len + gap) 1) := by
    rw [Buffer.part_put_of_apart (by omega), Buffer.part_put hlen₁, hmark, Pkcs1.xor_bytes_comm]
  have hback : masked.part (len + gap + 1) message.length =
      Pkcs1.xor_bytes message (a.part (len + gap + 1) message.length) := by
    rw [Buffer.part_put hlen₂, hrest, Pkcs1.xor_bytes_comm]
  have hzeros : m - lhash.length - message.length - 1 = gap := by omega
  have hsplit (b : Buffer Local) : b.part 0 m = b.part 0 len ++ b.part len gap ++
      b.part (len + gap) 1 ++ b.part (len + gap + 1) message.length := by
    rw [← hm, Buffer.part_add, Buffer.part_add, Buffer.part_add]
    simp only [Nat.zero_add]
  rw [hsplit masked, hsplit a, hfront, hgap, hone, hback, Pkcs1.oaep_db, hzeros,
    Pkcs1.xor_bytes_append (by simp [hlhash]), Pkcs1.xor_bytes_append (by simp [hlhash]),
    Pkcs1.xor_bytes_append (by simp [hlhash])]

variable {P : Touch Local → Prop} (hP : ∀ x, x.Inside → P x) {s : Device} {words n : ℕ}

theorem entropy_csrng_generate_spec :
    Leads P (entropy_csrng_generate n) s fun ws _ => ws = s.rest.csrng.words n :=
  Guarded.step ⟨rfl, [], (List.append_nil _).symm, nofun⟩ Goes.refl

include hP

/-- What runs one place beyond the end. -/
theorem places_beyond {write : Bool} (h : n + len ≤ a.len + 1) (hout : P ⟨a.array, a.len, a.len, write⟩) :
    ∀ x ∈ a.places write n len, P x := by
  intro x hx
  obtain ⟨i, -, hlt, rfl⟩ := Buffer.mem_places.mp hx
  by_cases hi : i = a.len
  · subst hi
    exact hout
  · exact hP _ (show i < a.len by omega)

include hP

theorem yields_bytexor_in_place (h : n + message.length ≤ a.len) :
    Yields P (bytexor_in_place a n message) s
      (a.put n (Pkcs1.xor_bytes (a.part n message.length) message)) := by
  refine Yields.seq (yields_read hP h) fun t _ => ?_
  exact yields_write hP (by simpa using h)

/-- A copy to wherever it may be written, with its notes. -/
theorem copy_leads {b : Buffer Local} {start from_ : ℕ} (ha : ∀ x ∈ a.places true start n, P x)
    (hb : from_ + n ≤ b.len) :
    Leads P (copy a start b from_ n) s fun r t =>
      r = a.put start (b.part from_ n) ∧ ∀ x ∈ a.places true start n, x ∈ t.touched := by
  refine Yields.leads (yields_read hP hb) fun t _ => ?_
  refine (Buffer.leads_write (by rwa [Buffer.length_part])).mono fun r t hr => ?_
  rw [Buffer.length_part] at hr
  exact ⟨hr.1, hr.2.2⟩

theorem check_copied_yields {b : Buffer Local} {start from_ : ℕ}
    (ha : ∀ x ∈ a.places false start n, P x) (hb : from_ + n ≤ b.len)
    (heq : a.part start n = b.part from_ n) : Yields P (check_copied a start b from_ n) s () := by
  refine Yields.seq (yields_read hP hb) fun t _ => ?_
  refine Yields.seq (Buffer.yields_read ha) fun t _ => ?_
  rw [heq]
  exact yields_hardened_check (hardened_memeq_self _)

variable (H : HashFunction) (stack : Local → Mem) {mode : HashMode} (hm : mode.Fixed words)

omit hP in
/-- The three parts of an encoding, the last of which runs past the end. -/
theorem part_encoded {seed db : List u8} {w k : ℕ} (hseed : seed.length = w) (hdb : k ≤ db.length) :
    (((a.put 0 [0x00]).put 1 seed).put (1 + w) db).part 0 (1 + w + k) =
      [0x00] ++ seed ++ db.take k := by
  obtain ⟨em, hem⟩ : ∃ em, ((a.put 0 [0x00]).put 1 seed).put (1 + w) db = em := ⟨_, rfl⟩
  have hfirst : em.part 0 1 = [0x00] := by
    rw [← hem, Buffer.part_put_of_apart (by omega), Buffer.part_put_of_apart (by omega),
      Buffer.part_put_one]
  have hmiddle : em.part 1 w = seed := by
    rw [← hem, Buffer.part_put_of_apart (by omega), Buffer.part_put hseed]
  have hback : em.part (1 + w) k = db.take k := by
    rw [← hem, Buffer.part_put_take hdb]
  rw [hem, Buffer.part_add, Buffer.part_add, Nat.zero_add, Nat.zero_add, hfirst, hmiddle, hback]

/-- The encoding of the RFC, backwards, with one byte written behind it. -/
theorem oaep_encode_spec (message label : List u8) (hn : n < 2 ^ 30)
    (hlong : message.length + 8 * words + 2 ≤ 4 * n) (ha : a.len = 4 * n)
    (hout : ∀ write, P ⟨a.array, a.len, a.len, write⟩) :
    Leads P (rsa_padding_oaep_encode H stack mode message label n a) s fun r t =>
      (r.len = a.len ∧ r.part 0 (4 * n) = (Pkcs1.eme_oaep (H.hash hm) label message
        (word_bytes (s.rest.csrng.words words)) (4 * n)).reverse) ∧
        ∀ x ∈ a.places true a.len 1, x ∈ t.touched := by
  have hdigest (bytes : List u8) : (H.digest mode bytes).length = words * 4 := by
    rw [H.length_digest mode words bytes hm, Nat.mul_comm]
  have hhash : (H.hash hm).len = words * 4 := Nat.mul_comm 4 words
  have hmax := max_message_bytelen_exact hm (show 8 * words + 2 ≤ 4 * n by omega)
  obtain ⟨k, hk⟩ : ∃ k, n * 4 - words * 4 - 1 = k := ⟨_, rfl⟩
  obtain ⟨size, hsize⟩ : ∃ size, word_sizeof k = size := ⟨_, rfl⟩
  obtain ⟨gap, hgap⟩ : ∃ gap, words * 4 + gap + 1 + message.length = k :=
    ⟨k - message.length - 1 - words * 4, by omega⟩
  have hstart : k - message.length = words * 4 + gap + 1 := by omega
  -- the words of `DB` are one byte longer than `DB`
  have hle : size = k + 1 ∧ 1 + words * 4 + k = 4 * n := by
    unfold word_sizeof at hsize
    omega
  have hwhole : word_sizeof (words * 4) = words * 4 := by
    unfold word_sizeof
    omega
  refine Yields.leads (Yields.ofExcept hmax) fun t ht => ?_
  rw [if_neg (by omega)]
  refine Yields.leads (Yields.ofExcept hm) fun t₁ ht₁ => ?_
  simp only [hk, hsize, hstart, Nat.add_sub_cancel]
  refine Yields.leads (yields_hash H hm label) fun t₂ ht₂ => ?_
  refine Yields.abstract (R := fun lhash => lhash.len = words * 4 ∧
    lhash.part 0 (words * 4) = H.digest mode label)
    (yields_write hP (by rw [hdigest]; simp [alloc])) ⟨rfl, Buffer.part_put (hdigest _)⟩ ?_
  rintro lhash t₃ ⟨hlhashlen, hlhash⟩ ht₃
  refine Yields.leads Yields.step fun t₄ ht₄ => ?_
  refine Yields.leads Yields.step fun t₅ ht₅ => ?_
  have hcsrng : t₅.rest.csrng = s.rest.csrng := by rw [ht₅, ht₄, ht₃, ht₂, ht₁, ht]
  refine Leads.bind entropy_csrng_generate_spec fun seedwords t₆ hseedwords => ?_
  rw [hcsrng] at hseedwords
  subst hseedwords
  have hseedlen : (word_bytes (s.rest.csrng.words words)).length = words * 4 := by
    rw [length_word_bytes, EntropySource.length_words, Nat.mul_comm]
  generalize word_bytes (s.rest.csrng.words words) = random at hseedlen ⊢
  refine Yields.abstract (R := fun seed => seed.len = words * 4 ∧ seed.part 0 (words * 4) = random)
    (yields_write hP (by rw [hseedlen]; simp [alloc])) ⟨rfl, Buffer.part_put hseedlen⟩ ?_
  rintro seed t ⟨hseedbuf, hseed⟩ -
  refine Yields.leads Yields.step fun t _ => ?_
  refine Yields.leads (yields_read hP (by omega)) fun t _ => ?_
  rw [hseed]
  refine Yields.abstract (R := fun db => db.len = size ∧ db.part 0 k = Pkcs1.mgf1 (H.hash hm) random k)
    (mgf1_yields hP H stack hm random (by simp [alloc, hsize])) ⟨rfl, part_mask (H.hash hm) rfl random⟩ ?_
  rintro db t ⟨hdblen, hdb⟩ -
  refine Yields.leads (yields_xor_in_place hP (by omega) (by omega)) fun t _ => ?_
  refine Yields.leads (yields_bytexor_in_place hP (by simp; omega)) fun t _ => ?_
  refine Yields.abstract (R := fun masked => masked.len = size ∧ masked.part 0 k =
    Pkcs1.xor_bytes (Pkcs1.oaep_db (H.digest mode label) message k) (db.part 0 k))
    (yields_bytexor_in_place hP (by simp; omega)) ⟨hdblen, ?_⟩ ?_
  · rw [hlhash]
    exact part_oaep_db (hdigest _) hgap
  rintro masked t ⟨hmaskedlen, hmasked⟩ -
  rw [hdb] at hmasked
  refine Yields.leads (yields_read hP (by omega)) fun t _ => ?_
  refine Yields.abstract (R := fun seed_mask => seed_mask.len = words * 4 ∧
    seed_mask.part 0 (words * 4) = Pkcs1.mgf1 (H.hash hm) (masked.part 0 k) (words * 4))
    (mgf1_yields hP H stack hm _ (by simp [alloc, hwhole])) ⟨rfl, part_mask (H.hash hm) rfl _⟩ ?_
  rintro seed_mask t ⟨hseedmasklen, hseedmask⟩ -
  refine Yields.abstract (R := fun hidden => hidden.len = words * 4 ∧ hidden.part 0 (words * 4) =
    Pkcs1.xor_bytes (seed.part 0 (words * 4)) (seed_mask.part 0 (words * 4)))
    (yields_xor_in_place hP (by omega) (by omega)) ⟨hseedbuf, part_xor (le_refl _)⟩ ?_
  rintro hidden t ⟨hhiddenlen, hhidden⟩ -
  rw [hseed, hseedmask] at hhidden
  refine Yields.leads (yields_write hP (by simp; omega)) fun t _ => ?_
  refine Yields.leads (yields_copy hP (by simp; omega) (by omega)) fun t _ => ?_
  refine Yields.leads (yields_check_copied hP (by simp; omega) (by omega)
    (Buffer.part_put (by simp))) fun t _ => ?_
  -- the copy that runs past the end
  have hbeyond (write : Bool) : ∀ x ∈ a.places write (1 + words * 4) size, P x :=
    places_beyond hP (by omega) (hout write)
  refine Leads.bind (copy_leads hP (hbeyond true) (by omega)) ?_
  rintro em t ⟨rfl, hnoted⟩
  have hlast : ∀ x ∈ a.places true a.len 1, x ∈ t.touched := by
    intro x hx
    obtain ⟨i, hle, hlt, rfl⟩ := Buffer.mem_places.mp hx
    exact hnoted _ (Buffer.mem_places.mpr ⟨i, by omega, by omega, rfl⟩)
  refine Leads.keep ?_ hlast
  refine Yields.leads (check_copied_yields hP (hbeyond false) (by omega)
    (Buffer.part_put (by simp))) fun t _ => ?_
  refine (reverse_bytes_spec hP hn (by simp; omega)).mono fun r t hr => ?_
  obtain ⟨rfl, -, -⟩ := hr
  refine ⟨rfl, ?_⟩
  rw [Buffer.part_put (by simp), ← hle.2, part_encoded (by simp) (by simp; omega),
    Buffer.take_part (by omega), hhidden, hmasked]
  have hdbl : 1 + words * 4 + k - (H.hash hm).len - 1 = k := by omega
  simp only [Pkcs1.eme_oaep, hdbl]
  rw [hhash]
  rfl

end encode

/-! ## What the decoder finds -/

theorem ct_seqz32_eq (a : u32) : ct_seqz32 a = if a = 0 then BitVec.allOnes 32 else 0 := by
  have hmsb : (~~~a &&& (a - 1)).msb = decide (a = 0) := by
    rw [BitVec.msb_and, BitVec.msb_not, BitVec.msb_eq_decide, BitVec.msb_eq_decide, BitVec.toNat_sub,
      show (1 : u32).toNat = 1 from rfl]
    by_cases hzero : a = 0
    · subst hzero
      rfl
    · have hne : a.toNat ≠ 0 := fun h => hzero (BitVec.eq_of_toNat_eq h)
      -- either the highest bit is set or it is not set in the word one below either
      by_cases hhigh : 2 ^ (32 - 1) ≤ a.toNat
      · rw [decide_eq_true hhigh, decide_eq_false hzero]
        rfl
      · have hbelow : ¬2 ^ (32 - 1) ≤ (2 ^ 32 - 1 + a.toNat) % 2 ^ 32 := by omega
        rw [decide_eq_false hbelow, decide_eq_false hzero, Bool.and_false]
  rw [ct_seqz32, ct_sltz32_eq, hmsb]
  simp only [decide_eq_true_eq]

theorem ct_seq32_eq (a b : u32) : ct_seq32 a b = if a = b then BitVec.allOnes 32 else 0 := by
  have hiff : a ^^^ b = 0 ↔ a = b := BitVec.xor_eq_zero_iff
  rw [ct_seq32, ct_seqz32_eq]
  simp only [hiff]

theorem not_mask (p : Prop) [Decidable p] :
    ~~~(if p then BitVec.allOnes 32 else (0 : u32)) = if ¬p then BitVec.allOnes 32 else 0 := by
  by_cases hp : p
  · simp only [hp, not_true, if_true, if_false]
    rfl
  · simp only [hp, not_false_eq_true, if_true, if_false]
    rfl

theorem or_mask_eq_zero {a : u32} {p : Prop} [Decidable p] :
    (a ||| if p then BitVec.allOnes 32 else 0) = 0 ↔ a = 0 ∧ ¬p := by
  by_cases hp : p
  · rw [if_pos hp, BitVec.or_allOnes]
    exact ⟨fun h => absurd h (by decide), fun h => absurd hp h.2⟩
  · rw [if_neg hp]
    have hkeep : a ||| (0 : u32) = a := BitVec.or_zero
    rw [hkeep]
    exact ⟨fun h => ⟨h, hp⟩, fun h => h.1⟩

/-- The message behind the first one, when only zeros are in front of it. -/
def find_message : List u8 → Option (List u8)
  | [] => none
  | byte :: bytes => if byte = 0 then find_message bytes else if byte = 1 then some bytes else none

/-- The induction is on the bytes: zeros, then a one, then the message. -/
theorem find_message_eq_some {bytes message : List u8} :
    find_message bytes = some message ↔ ∃ gap, bytes = List.replicate gap 0 ++ [0x01] ++ message := by
  induction bytes with
  | nil =>
      constructor
      · nofun
      · rintro ⟨gap, h⟩
        simp at h
  | cons byte bytes ih =>
      rw [find_message]
      by_cases hzero : byte = 0
      · subst hzero
        rw [if_pos rfl, ih]
        constructor
        · rintro ⟨gap, rfl⟩
          exact ⟨gap + 1, rfl⟩
        · rintro ⟨_ | gap, h⟩
          · cases h
          · exact ⟨gap, (List.cons.inj h).2⟩
      · rw [if_neg hzero]
        by_cases hone : byte = 1
        · subst hone
          rw [if_pos rfl, Option.some.injEq]
          constructor
          · rintro rfl
            exact ⟨0, rfl⟩
          · rintro ⟨_ | gap, h⟩
            · exact (List.cons.inj h).2
            · cases h
        · rw [if_neg hone]
          constructor
          · nofun
          · rintro ⟨_ | gap, h⟩
            · exact absurd (List.cons.inj h).1 hone
            · exact absurd (List.cons.inj h).1 hzero

section scan

theorem setWidth_eq_zero (byte : u8) : byte.setWidth 32 = (0 : u32) ↔ byte = 0 := by
  revert byte
  decide

variable {bytes : List u8} {i idx failure : u32}

/-- One turn, without the masks. -/
theorem oaep_scan_cons (byte : u8) :
    oaep_scan (byte :: bytes) i (idx, failure) = oaep_scan bytes (i + 1)
      (if byte = 1 ∧ idx = 0 then i + 1 else idx,
        failure ||| if idx = 0 ∧ byte ≠ 0 ∧ byte ≠ 1 then BitVec.allOnes 32 else 0) := by
  have hzero := setWidth_eq_zero byte
  have hone : byte.setWidth 32 = (1 : u32) ↔ byte = 1 := by
    revert byte
    decide
  have hand (p q : Prop) [Decidable p] [Decidable q] :
      (if p then BitVec.allOnes 32 else 0) &&& (if q then BitVec.allOnes 32 else 0) =
        if p ∧ q then BitVec.allOnes 32 else (0 : u32) := by
    by_cases hp : p <;> by_cases hq : q <;> simp [hp, hq]
  simp only [oaep_scan, ct_seq32_eq, ct_seqz32_eq, hzero, hone, hand, not_mask, ct_cmov32_eq, and_assoc]

/-- Once the start is known nothing changes. -/
theorem oaep_scan_behind (h : idx ≠ 0) : oaep_scan bytes i (idx, failure) = (idx, failure) := by
  induction bytes generalizing i with
  | nil => rfl
  | cons byte bytes ih =>
      have hkeep : failure ||| (0 : u32) = failure := BitVec.or_zero
      rw [oaep_scan_cons, if_neg (fun hc => h hc.2), if_neg (fun hc => h hc.1), hkeep, ih]

/-- The start is within the array whatever is in it. -/
theorem oaep_scan_le (hidx : idx.toNat ≤ i.toNat) (hlen : i.toNat + bytes.length < 2 ^ 32) :
    (oaep_scan bytes i (idx, failure)).1.toNat ≤ i.toNat + bytes.length := by
  induction bytes generalizing i idx failure with
  | nil => exact hidx
  | cons byte bytes ih =>
      rw [List.length_cons] at hlen
      have hnext : (i + 1).toNat = i.toNat + 1 := by
        rw [BitVec.toNat_add, show (1 : u32).toNat = 1 from rfl]
        omega
      rw [oaep_scan_cons, List.length_cons]
      have hrest := @ih (i + 1) (if byte = 1 ∧ idx = 0 then i + 1 else idx)
        (failure ||| if idx = 0 ∧ byte ≠ 0 ∧ byte ≠ 1 then BitVec.allOnes 32 else 0)
        (by split_ifs <;> omega) (by omega)
      omega

/-- A failure stays. -/
theorem oaep_scan_failed :
    (oaep_scan bytes i (idx, BitVec.allOnes 32)).2 = BitVec.allOnes 32 := by
  induction bytes generalizing i idx with
  | nil => rfl
  | cons byte bytes ih => rw [oaep_scan_cons, BitVec.allOnes_or, ih]

/-- What the loop comes to: where the message starts and no failure, or a failure, or nothing. -/
theorem oaep_scan_eq (hlen : i.toNat + bytes.length < 2 ^ 32) :
    (∃ message, find_message bytes = some message ∧
      oaep_scan bytes i (0, 0) = (i + BitVec.ofNat 32 (bytes.length - message.length), 0)) ∨
    find_message bytes = none ∧
      (oaep_scan bytes i (0, 0) = (0, 0) ∨ (oaep_scan bytes i (0, 0)).2 = BitVec.allOnes 32) := by
  induction bytes generalizing i with
  | nil => exact .inr ⟨rfl, .inl rfl⟩
  | cons byte bytes ih =>
      rw [List.length_cons] at hlen
      have hnext : (i + 1).toNat = i.toNat + 1 := by
        rw [BitVec.toNat_add, show (1 : u32).toNat = 1 from rfl]
        omega
      rw [oaep_scan_cons, find_message]
      by_cases hzero : byte = 0
      · subst hzero
        obtain ⟨message, hfind, hscan⟩ | ⟨hfind, hscan⟩ := ih (i := i + 1) (by omega)
        · refine .inl ⟨message, by rw [if_pos rfl, hfind], ?_⟩
          obtain ⟨gap, hgap⟩ := find_message_eq_some.mp hfind
          have hle : message.length ≤ bytes.length := by
            rw [hgap]
            simp
            omega
          have hplace : i + BitVec.ofNat 32 (bytes.length + 1 - message.length) =
              i + 1 + BitVec.ofNat 32 (bytes.length - message.length) := by
            apply BitVec.eq_of_toNat_eq
            simp only [BitVec.toNat_add, BitVec.toNat_ofNat, show (1 : u32).toNat = 1 from rfl]
            omega
          rw [List.length_cons, hplace, ← hscan]
          rfl
        · exact .inr ⟨by rw [if_pos rfl, hfind], hscan⟩
      · by_cases hone : byte = 1
        · subst hone
          refine .inl ⟨bytes, by rw [if_neg hzero, if_pos rfl], ?_⟩
          have hne : i + 1 ≠ 0 := fun h => by
            rw [h] at hnext
            simp at hnext
          have hplace : bytes.length + 1 - bytes.length = 1 := by omega
          rw [if_pos ⟨rfl, rfl⟩, oaep_scan_behind hne, List.length_cons, hplace]
          rfl
        · refine .inr ⟨by rw [if_neg hzero, if_neg hone], .inr ?_⟩
          rw [if_neg (fun h => hone h.1), if_pos ⟨rfl, hzero, hone⟩, BitVec.or_allOnes,
            oaep_scan_failed]

end scan

/-! ### The check -/

/-- `DB` starts with the digest, and the message is found in the rest. -/
theorem append_eq_oaep_db {front back lhash message : List u8} (hfront : front.length = lhash.length) :
    lhash.length + message.length < (front ++ back).length ∧
        front ++ back = Pkcs1.oaep_db lhash message (front ++ back).length ↔
      front = lhash ∧ find_message back = some message := by
  rw [find_message_eq_some, List.length_append]
  constructor
  · rintro ⟨hlen, h⟩
    rw [Pkcs1.oaep_db, List.append_assoc, List.append_assoc] at h
    obtain ⟨rfl, hback⟩ := List.append_inj h hfront
    exact ⟨rfl, _, by rw [hback, List.append_assoc]⟩
  · rintro ⟨rfl, gap, rfl⟩
    have hgap : front.length + (List.replicate gap (0 : u8) ++ [0x01] ++ message).length -
        front.length - message.length - 1 = gap := by
      simp
      omega
    refine ⟨by simp; omega, ?_⟩
    rw [Pkcs1.oaep_db, hgap]
    simp

section check

variable {P : Touch Local → Prop} (hP : ∀ x, x.Inside → P x)

/-- What the check says about `DB` and the first byte of the encoding. -/
structure OaepChecked (lhash db : List u8) (first : u8) (v : Except CryptoError Unit × u32) :
    Prop where
  ok : v.1 = .ok () → first = 0 ∧ ∃ message, lhash.length + message.length < db.length ∧
    db = Pkcs1.oaep_db lhash message db.length ∧
    v.2 = BitVec.ofNat 32 (db.length - message.length)
  refused : v.1 ≠ .ok () → ∀ message, lhash.length + message.length < db.length →
    ¬(first = 0 ∧ db = Pkcs1.oaep_db lhash message db.length)

include hP

/-- The check of the decoder, whose answer depends on the arrays alone. -/
theorem oaep_check_yields {db lhash em : Buffer Local} {len m : ℕ} {first : u8} (hlen : len ≤ m)
    (hm : m < 2 ^ 32) (hdb : m ≤ db.len) (hlhash : len ≤ lhash.len) (hem : 0 < em.len)
    (hfirst : em.part 0 1 = [first]) :
    ∃ v, OaepChecked (lhash.part 0 len) (db.part 0 m) first v ∧
      ∀ s, Yields P (oaep_check_padding_and_find_message_start db lhash len em m 0) s v := by
  have hi : (BitVec.ofNat 32 len).toNat = len := by
    rw [BitVec.toNat_ofNat]
    exact Nat.mod_eq_of_lt (by omega)
  have hbound : (BitVec.ofNat 32 len).toNat + (db.part len (m - len)).length = m := by
    rw [hi, Buffer.length_part]
    omega
  have hscan := oaep_scan_eq (hbound.trans_lt hm)
  have hle := @oaep_scan_le _ _ 0 0 (Nat.zero_le _) (hbound.trans_lt hm)
  rw [hbound] at hle
  rcases hr : oaep_scan (db.part len (m - len)) (BitVec.ofNat 32 len) (0, 0) with ⟨idx, failure⟩
  rw [hr] at hscan hle
  have hcheck : idx ≤ BitVec.ofNat 32 m := by
    rw [BitVec.le_def, BitVec.toNat_ofNat, Nat.mod_eq_of_lt hm]
    exact hle
  have hmatch : ct_seq32 (hardened_memeq (lhash.part 0 len) (db.part 0 len)) kHardenedBoolTrue =
      if lhash.part 0 len = db.part 0 len then BitVec.allOnes 32 else 0 := by
    rw [hardened_memeq_eq _ _ (by simp), ct_seq32_eq]
    by_cases heq : lhash.part 0 len = db.part 0 len
    · rw [if_pos heq, if_pos heq, if_pos rfl]
    · rw [if_neg heq, if_neg heq, if_neg (by decide)]
  have hfailure : failure ||| ct_seqz32 idx |||
      ~~~ct_seq32 (hardened_memeq (lhash.part 0 len) (db.part 0 len)) kHardenedBoolTrue |||
      ~~~ct_seqz32 (first.setWidth 32) = 0 ↔
        failure = 0 ∧ idx ≠ 0 ∧ lhash.part 0 len = db.part 0 len ∧ first = 0 := by
    rw [hmatch, ct_seqz32_eq, ct_seqz32_eq, not_mask, not_mask, or_mask_eq_zero, or_mask_eq_zero,
      or_mask_eq_zero, not_not, not_not, setWidth_eq_zero, and_assoc, and_assoc]
  obtain ⟨word, hword⟩ : ∃ word, failure ||| ct_seqz32 idx |||
      ~~~ct_seq32 (hardened_memeq (lhash.part 0 len) (db.part 0 len)) kHardenedBoolTrue |||
      ~~~ct_seqz32 (first.setWidth 32) = word := ⟨_, rfl⟩
  rw [hword] at hfailure
  refine ⟨if word ≠ 0 then (.error .OTCRYPTO_BAD_ARGS, idx) else (.ok (), idx), ?_, fun s => ?_⟩
  · have hdblen : (db.part 0 len ++ db.part len (m - len)).length = m := by
      rw [List.length_append, Buffer.length_part, Buffer.length_part]
      omega
    have hsplit : db.part 0 m = db.part 0 len ++ db.part len (m - len) := by
      rw [Buffer.part_split hlen, Nat.zero_add]
    have hplace (message : List u8) (hlt : len + message.length < m) : BitVec.ofNat 32 len +
        BitVec.ofNat 32 ((db.part len (m - len)).length - message.length) =
          BitVec.ofNat 32 (m - message.length) := by
      rw [Buffer.length_part, ← BitVec.ofNat_add]
      congr 1
      omega
    have hiff (message : List u8) := @append_eq_oaep_db (db.part 0 len) (db.part len (m - len))
      (lhash.part 0 len) message (by simp)
    rw [hsplit]
    simp only [hdblen, Buffer.length_part] at hiff
    refine ⟨?_, ?_⟩ <;> simp only [hdblen, Buffer.length_part]
    · intro hok
      have hzero : word = 0 := by
        by_contra hne
        rw [if_pos hne] at hok
        cases hok
      obtain ⟨rfl, hidx, hlh, hfirst0⟩ := hfailure.mp hzero
      obtain ⟨message, hfind, hstart⟩ | ⟨-, hstart | hstart⟩ := hscan
      · obtain ⟨hlt, heq⟩ := (hiff message).mpr ⟨hlh.symm, hfind⟩
        refine ⟨hfirst0, message, hlt, heq, ?_⟩
        rw [if_neg (not_not.mpr hzero)]
        exact (Prod.ext_iff.mp hstart).1.trans (hplace message hlt)
      · exact absurd (Prod.ext_iff.mp hstart).1 hidx
      · cases hstart
    · intro hrefused message hlt hmessage
      refine hrefused ?_
      obtain ⟨hlh, hfind⟩ := (hiff message).mp ⟨hlt, hmessage.2⟩
      obtain ⟨found, hfound, hstart⟩ | ⟨hnone, -⟩ := hscan
      · obtain ⟨hidx, rfl⟩ := Prod.ext_iff.mp hstart
        rw [hfind, Option.some.injEq] at hfound
        subst hfound
        rw [if_neg (not_not.mpr (hfailure.mpr ⟨rfl, ?_, hlh.symm, hmessage.1⟩))]
        intro hidx0
        have hnat := congrArg BitVec.toNat ((hplace message hlt).symm.trans (hidx.symm.trans hidx0))
        rw [BitVec.toNat_ofNat, Nat.mod_eq_of_lt (by omega), show (0 : u32).toNat = 0 from rfl] at hnat
        omega
      · rw [hfind] at hnone
        cases hnone
  · refine Yields.seq (yields_read hP (by omega)) fun t _ => ?_
    rw [hr]
    refine Yields.seq (yields_hardened_check hcheck) fun t _ => ?_
    refine Yields.seq (yields_read hP (by omega)) fun t _ => ?_
    refine Yields.seq (yields_read hP (by omega)) fun t _ => ?_
    refine Yields.seq (yields_read hP (by omega)) fun t _ => ?_
    rw [hfirst]
    dsimp only [List.headD_cons]
    rw [hword]
    by_cases hne : word ≠ 0
    · rw [if_pos hne, if_pos hne]
      exact Yields.pure
    · rw [if_neg hne, if_neg hne]
      exact Yields.pure

theorem hardened_memshred_leads {a : Buffer Local} {s : Device} :
    Leads P (hardened_memshred a) s fun _ _ => True := by
  unfold hardened_memshred
  refine Guarded.get (Guarded.modify_bind ?_)
  have hwrite := @yields_write _ hP { s with rest := { s.rest with rnd := s.rest.rnd.after (a.len / 4) } }
    a 0 (word_bytes (s.rest.rnd.words (a.len / 4)))
    (by rw [length_word_bytes, EntropySource.length_words]; omega)
  exact Guarded.mono hwrite (fun _ _ h => ⟨trivial, h.2.1⟩) fun _ => id

end check

/-! ## What the decoder accepts -/

/-- The array holds an encoding of a message, backwards. -/
def OaepEncodes (hash : Pkcs1.Hash) (label : List u8) (n : ℕ) (a : Buffer Local)
    (message : List u8) : Prop :=
  message.length + 2 * hash.len + 2 ≤ 4 * n ∧ ∃ seed, seed.length = hash.len ∧
    a.part 0 (4 * n) = (Pkcs1.eme_oaep hash label message seed (4 * n)).reverse

section decode

variable {hash : Pkcs1.Hash} {label : List u8} {n len k : ℕ} {a em : Buffer Local} {first : u8}

/-- What there is to check, in terms of the parts. -/
theorem oaepEncodes_iff (hlen : hash.len = len) (hk : 1 + len + k = 4 * n)
    (hem : em.part 0 (4 * n) = (a.part 0 (4 * n)).reverse) (hfirst : em.part 0 1 = [first])
    (message : List u8) :
    OaepEncodes hash label n a message ↔ len + message.length < k ∧ first = 0 ∧
      Pkcs1.xor_bytes (em.part (1 + len) k) (Pkcs1.mgf1 hash (Pkcs1.xor_bytes (em.part 1 len)
        (Pkcs1.mgf1 hash (em.part (1 + len) k) len)) k) =
          Pkcs1.oaep_db (hash.digest label) message k := by
  subst hlen
  have hparts : (a.part 0 (4 * n)).reverse = [first] ++ em.part 1 hash.len ++
      em.part (1 + hash.len) k := by
    rw [← hem, ← hk, Buffer.part_add, Buffer.part_add, Nat.zero_add, Nat.zero_add, hfirst]
  have hdbl : 4 * n - hash.len - 1 = k := by omega
  have hroom : message.length + 2 * hash.len + 2 ≤ 4 * n ↔ hash.len + message.length < k := by omega
  unfold OaepEncodes
  rw [hroom]
  refine and_congr_right fun hlt => ?_
  have hiff := @Pkcs1.eme_oaep_iff hash label message (em.part 1 hash.len) (em.part (1 + hash.len) k)
    first (4 * n) (hroom.mpr hlt) Buffer.length_part (by rw [hdbl, Buffer.length_part])
  rw [hdbl, ← hparts] at hiff
  rw [← hiff]
  simp only [List.reverse_eq_iff]

/-- An encoding is one of one message. -/
theorem OaepEncodes.unique {x y : List u8} (hx : OaepEncodes hash label n a x)
    (hy : OaepEncodes hash label n a y) : x = y := by
  obtain ⟨em, hem⟩ : ∃ em : Buffer Local, em.part 0 (4 * n) = (a.part 0 (4 * n)).reverse :=
    ⟨a.put 0 (a.part 0 (4 * n)).reverse, Buffer.part_put (by simp)⟩
  obtain ⟨first, hfirst⟩ : ∃ first, em.part 0 1 = [first] :=
    List.length_eq_one_iff.mp Buffer.length_part
  have hk : 1 + hash.len + (4 * n - hash.len - 1) = 4 * n := by
    have hroom := hx.1
    omega
  obtain ⟨hxlt, -, hxdb⟩ := (oaepEncodes_iff rfl hk hem hfirst x).mp hx
  obtain ⟨hylt, -, hydb⟩ := (oaepEncodes_iff rfl hk hem hfirst y).mp hy
  have hlhash := hash.length_digest label
  obtain ⟨back, hback⟩ : ∃ back, Pkcs1.oaep_db (hash.digest label) x (4 * n - hash.len - 1) =
      hash.digest label ++ back := ⟨_, by rw [Pkcs1.oaep_db, List.append_assoc, List.append_assoc]⟩
  have hlength : (hash.digest label ++ back).length = 4 * n - hash.len - 1 := by
    rw [← hback, Pkcs1.length_oaep_db (by omega)]
  have hfound (z : List u8) (hz : hash.len + z.length < 4 * n - hash.len - 1)
      (heq : hash.digest label ++ back = Pkcs1.oaep_db (hash.digest label) z (4 * n - hash.len - 1)) :
      find_message back = some z :=
    (@append_eq_oaep_db (hash.digest label) back (hash.digest label) z rfl).mp
      ⟨by omega, by rw [hlength]; exact heq⟩ |>.2
  have hxf := hfound x hxlt hback.symm
  rw [hfound y hylt (hback.symm.trans (hxdb.symm.trans hydb)), Option.some.injEq] at hxf
  exact hxf.symm

variable (H : HashFunction) (stack : Local → Mem) {mode : HashMode} {words : ℕ} (hm : mode.Fixed words)
  {s : Device}

include hm in
/-- The seed without its mask, and then `DB` without the mask of the seed. -/
theorem answers_unmask {α : Type} {Q : α → Prop} {R : CryptoError → Prop}
    {next : Buffer Local → Prog α} (hem : 1 + words * 4 + k ≤ em.len)
    (hnext : ∀ db t, db.len = word_sizeof k →
      db.part 0 k = Pkcs1.xor_bytes (em.part (1 + words * 4) k) (Pkcs1.mgf1 (H.hash hm)
        (Pkcs1.xor_bytes (em.part 1 (words * 4))
          (Pkcs1.mgf1 (H.hash hm) (em.part (1 + words * 4) k) (words * 4))) k) →
      Answers (next db) t Q R) :
    Answers (copy (alloc stack .seed (words * 4)) 0 em 1 (words * 4) >>= fun seed =>
      check_copied seed 0 em 1 (words * 4) >>= fun _ =>
      copy (alloc stack .db (word_sizeof k)) 0 em (1 + words * 4) k >>= fun db =>
      check_copied db 0 em (1 + words * 4) k >>= fun _ =>
      db.read 0 k >>= fun bytes =>
      mgf1 H stack mode bytes (words * 4) (alloc stack .seed_mask (words * 4)) >>= fun seed_mask =>
      xor_in_place seed seed_mask (words * 4) >>= fun seed =>
      seed.read 0 (words * 4) >>= fun bytes =>
      mgf1 H stack mode bytes k (alloc stack .db_mask (word_sizeof k)) >>= fun db_mask =>
      zero_trailing db k >>= fun db =>
      zero_trailing db_mask k >>= fun db_mask =>
      xor_in_place db db_mask (word_sizeof k) >>= next) s Q R := by
  have hP : ∀ x : Touch Local, x.Inside → True := fun _ _ => trivial
  have hle : k ≤ word_sizeof k ∧ word_sizeof (words * 4) = words * 4 := by
    unfold word_sizeof
    omega
  refine Yields.answers_of (S := fun seed => seed.len = words * 4 ∧
    seed.part 0 (words * 4) = em.part 1 (words * 4)) (yields_copy hP (by simp [alloc]) (by omega))
    ⟨rfl, Buffer.part_put (by simp)⟩ ?_
  rintro seed t ⟨hseedlen, hseed⟩
  refine Yields.answers (yields_check_copied hP (by omega) (by omega) hseed) fun t => ?_
  refine Yields.answers_of (S := fun db => db.len = word_sizeof k ∧
    db.part 0 k = em.part (1 + words * 4) k)
    (yields_copy hP (by simp [alloc]; omega) (by omega)) ⟨rfl, Buffer.part_put (by simp)⟩ ?_
  rintro db t ⟨hdblen, hdb⟩
  refine Yields.answers (yields_check_copied hP (by omega) (by omega) hdb) fun t => ?_
  refine Yields.answers (yields_read hP (by omega)) fun t => ?_
  refine Yields.answers_of (S := fun mask => mask.len = words * 4 ∧
    mask.part 0 (words * 4) = Pkcs1.mgf1 (H.hash hm) (db.part 0 k) (words * 4))
    (mgf1_yields hP H stack hm _ (by simp [alloc, hle])) ⟨rfl, part_mask (H.hash hm) rfl _⟩ ?_
  rintro seed_mask t ⟨hseedmasklen, hseedmask⟩
  refine Yields.answers_of (S := fun shown => shown.len = words * 4 ∧ shown.part 0 (words * 4) =
    Pkcs1.xor_bytes (seed.part 0 (words * 4)) (seed_mask.part 0 (words * 4)))
    (yields_xor_in_place hP (by omega) (by omega)) ⟨hseedlen, part_xor (le_refl _)⟩ ?_
  rintro shown t ⟨hshownlen, hshown⟩
  refine Yields.answers (yields_read hP (by omega)) fun t => ?_
  refine Yields.answers_of (S := fun mask => mask.len = word_sizeof k ∧
    mask.part 0 k = Pkcs1.mgf1 (H.hash hm) (shown.part 0 (words * 4)) k)
    (mgf1_yields hP H stack hm _ (by simp [alloc])) ⟨rfl, part_mask (H.hash hm) rfl _⟩ ?_
  rintro db_mask t ⟨hmasklen, hmask⟩
  refine Yields.answers_of (S := fun zeroed => zeroed.len = word_sizeof k ∧
    zeroed.part 0 k = db.part 0 k) (yields_zero_trailing hP (by omega))
    ⟨hdblen, Buffer.part_put_of_apart (by omega)⟩ ?_
  rintro zeroed t ⟨hzeroedlen, hzeroed⟩
  refine Yields.answers_of (S := fun zeroed => zeroed.len = word_sizeof k ∧
    zeroed.part 0 k = db_mask.part 0 k) (yields_zero_trailing hP (by omega))
    ⟨hmasklen, Buffer.part_put_of_apart (by omega)⟩ ?_
  rintro zeroed_mask t ⟨hzeroedmasklen, hzeroedmask⟩
  refine Yields.answers (yields_xor_in_place hP (by omega) (by omega)) fun t => ?_
  refine hnext _ t hzeroedlen ?_
  rw [part_xor hle.1, hzeroed, hzeroedmask, hmask, hshown, hseedmask, hseed, hdb]

/-- The message is at the end of `DB`, and an empty one is not copied. -/
theorem copy_message_leads {db message : Buffer Local} {lhash found : List u8}
    (hdb : k ≤ db.len) (hlt : lhash.length + found.length < k)
    (hfound : db.part 0 k = Pkcs1.oaep_db lhash found k) :
    Leads (fun _ => True) (if found.length > 0 then do
        let message ← copy message 0 db (k - found.length) found.length
        check_copied message 0 db (k - found.length) found.length
        pure message
      else pure message) s fun r _ => r.part 0 found.length = found := by
  have hP : ∀ x : Touch Local, x.Inside → True := fun _ _ => trivial
  have hlength : k - (k - found.length) = found.length := by omega
  have hback : db.part (k - found.length) found.length = found := by
    rw [Buffer.part_split (n := k) (k := k - found.length) (by omega), Nat.zero_add, hlength,
      Pkcs1.oaep_db] at hfound
    exact (List.append_inj' hfound Buffer.length_part).2
  by_cases hempty : found.length > 0
  · rw [if_pos hempty]
    refine Leads.bind (copy_leads hP (fun _ _ => trivial) (by omega)) ?_
    rintro r t ⟨rfl, -⟩
    have hcopied : (message.put 0 (db.part (k - found.length) found.length)).part 0 found.length =
        db.part (k - found.length) found.length := Buffer.part_put (by simp)
    refine Yields.leads (check_copied_yields hP (fun _ _ => trivial) (by omega) hcopied) fun t _ => ?_
    exact Leads.pure (hcopied.trans hback)
  · rw [if_neg hempty]
    obtain rfl : found = [] := List.eq_nil_of_length_eq_zero (Nat.eq_zero_of_not_pos hempty)
    exact Leads.pure rfl

/-- The decoder hands out the message of an encoding and refuses what is not one. -/
theorem oaep_decode_answers (label : List u8) (hn : n < 2 ^ 30) (hlong : 8 * words + 2 ≤ 4 * n)
    (ha : 4 * n ≤ a.len) (message : Buffer Local) :
    Answers (rsa_padding_oaep_decode H stack mode label a n message) s
      (fun r => OaepEncodes (H.hash hm) label n a (r.1.part 0 r.2))
      fun e => e = .OTCRYPTO_BAD_ARGS ∧ ∀ message, ¬OaepEncodes (H.hash hm) label n a message := by
  have hP : ∀ x : Touch Local, x.Inside → True := fun _ _ => trivial
  have hhash : (H.hash hm).len = words * 4 := Nat.mul_comm 4 words
  have hdigest : (H.digest mode label).length = words * 4 :=
    ((H.hash hm).length_digest label).trans hhash
  obtain ⟨k, hk⟩ : ∃ k, n * 4 - words * 4 - 1 = k := ⟨_, rfl⟩
  have hle : k ≤ word_sizeof k ∧ 1 + words * 4 + k = 4 * n ∧ words * 4 ≤ k := by
    unfold word_sizeof
    omega
  refine Leads.answers (S := fun em _ => em.len = a.len ∧
    em.part 0 (4 * n) = (a.part 0 (4 * n)).reverse) ((reverse_bytes_spec hP hn ha).mono ?_) ?_
  · rintro em t ⟨rfl, -, -⟩
    exact ⟨rfl, Buffer.part_put (by simp)⟩
  rintro em t ⟨hemlen, hem⟩
  obtain ⟨first, hfirst⟩ : ∃ first, em.part 0 1 = [first] :=
    List.length_eq_one_iff.mp Buffer.length_part
  simp only [oaepEncodes_iff hhash hle.2.1 hem hfirst]
  refine Yields.answers (Yields.ofExcept (P := fun _ => True) hm) fun t => ?_
  simp only [hk]
  refine answers_unmask H stack hm (by omega) fun db t hdblen hdb => ?_
  simp only [← hdb]
  refine Yields.answers (yields_hash (P := fun _ => True) H hm label) fun t => ?_
  refine Yields.answers_of (S := fun lhash => lhash.len = words * 4 ∧
    lhash.part 0 (words * 4) = H.digest mode label) (yields_write hP (by rw [hdigest]; simp [alloc]))
    ⟨rfl, Buffer.part_put hdigest⟩ ?_
  rintro lhash t ⟨hlhashlen, hlhash⟩
  -- the check is made twice, and says the same both times
  obtain ⟨⟨status, start⟩, ⟨hok, hrefused⟩, hcheck⟩ := oaep_check_yields (P := fun _ => True) hP
    hle.2.2 (by omega) (show k ≤ db.len by omega) (show words * 4 ≤ lhash.len by omega)
    (show 0 < em.len by omega) hfirst
  simp only [hlhash, hdigest, Buffer.length_part] at hok hrefused
  refine Yields.answers (hcheck t) fun t => ?_
  by_cases hstatus : status = .ok ()
  · obtain ⟨hzero, found, hlt, hfound, rfl⟩ := hok hstatus
    rw [if_neg (not_not.mpr hstatus)]
    refine Yields.answers (hcheck t) fun t => ?_
    rw [if_neg (not_not.mpr hstatus)]
    refine Yields.answers (yields_hardened_check (P := fun _ => True) rfl) fun t => ?_
    have hstart : (BitVec.ofNat 32 (k - found.length)).toNat = k - found.length := by
      rw [BitVec.toNat_ofNat]
      exact Nat.mod_eq_of_lt (by omega)
    have hlength : k - (k - found.length) = found.length := by omega
    simp only [hstart, hlength]
    have hlhashlt : (H.digest mode label).length + found.length < k := by omega
    refine Leads.answers (copy_message_leads (show k ≤ db.len by omega) hlhashlt hfound)
      fun r t hr => ?_
    refine Leads.answers (hardened_memshred_leads hP) fun _ t _ => Answers.pure ?_
    rw [hr]
    exact ⟨hlt, hzero, hfound⟩
  · dsimp only
    rw [if_pos hstatus]
    exact Answers.throw ⟨rfl, fun message h => hrefused hstatus message h.1 h.2⟩

end decode

/-! ## Encoding and decoding -/

/-- The message is not too long for the encoder. -/
def OaepAccepts (mode : HashMode) (n : ℕ) (message : List u8) : Prop :=
  ∃ max, rsa_padding_oaep_max_message_bytelen mode n = .ok max ∧ message.length ≤ max

theorem OaepAccepts.room {mode : HashMode} {words n : ℕ} {message : List u8} (hm : mode.Fixed words)
    (hn : ModulusWords n) (h : OaepAccepts mode n message) :
    message.length + 8 * words + 2 ≤ 4 * n := by
  obtain ⟨max, hmax, hle⟩ := h
  have hwords := hm.le
  have hbounds := hn.bounds
  rw [max_message_bytelen_exact hm (by omega), Except.ok.injEq] at hmax
  omega

/-- The encoder and the decoder, on machines: what the one leaves the other takes back, and what
the decoder accepts is an encoding of what it returns. -/
structure OaepInverse (H : HashFunction) (stack : Local → Mem) (mode : HashMode)
    (hash : Pkcs1.Hash) (label : List u8) (n : ℕ) : Prop where
  encode : ∀ message, OaepAccepts mode n message → ∀ a : Buffer Local, a.len = 4 * n →
    ∀ m : Machine Device, m.Under (· = .done) → ∃ r m',
      rsa_padding_oaep_encode H stack mode message label n a m = (.ret r, m') ∧
      r.part 0 (4 * n) = (Pkcs1.eme_oaep hash label message
        (word_bytes (m.mem.rest.csrng.words (hash.len / 4))) (4 * n)).reverse ∧
      ∀ (out : Buffer Local) (m₂ : Machine Device), m₂.Under (· = .done) → ∃ out' m₂',
        rsa_padding_oaep_decode H stack mode label r n out m₂ =
          (.ret (out', message.length), m₂') ∧ out'.part 0 message.length = message
  decode : ∀ (a out out' : Buffer Local) (length : ℕ) (m m' : Machine Device), a.len = 4 * n →
    rsa_padding_oaep_decode H stack mode label a n out m = (.ret (out', length), m') →
      OaepEncodes hash label n a (out'.part 0 length)

/-- OAEP is undone by its decoder, which accepts nothing else, for every hash, modulus and
label. -/
theorem oaep_decode_inverts (H : HashFunction) (stack : Local → Mem) (mode : HashMode)
    (words n : ℕ) (hm : mode.Fixed words) (hn : ModulusWords n) (label : List u8) :
    OaepInverse H stack mode (H.hash hm) label n := by
  have hP : ∀ x : Touch Local, x.Inside → True := fun _ _ => trivial
  have hwords := hm.le
  have hbounds := hn.bounds
  have hanswers (s : Device) (a out : Buffer Local) (ha : a.len = 4 * n) :=
    @oaep_decode_answers n a H stack mode words hm s label (by omega) (by omega) ha.ge out
  constructor
  · intro message haccepts a ha m hdone
    have hroom := haccepts.room hm hn
    obtain ⟨r, m', hrun, ⟨⟨hlen, hr⟩, -⟩, -⟩ :=
      (oaep_encode_spec hP H stack hm message label (by omega) hroom ha fun _ => trivial).run
        (m := m) rfl hdone
    have hquotient : (H.hash hm).len / 4 = words := Nat.mul_div_cancel_left words (by decide)
    refine ⟨r, m', hrun, by rw [hquotient]; exact hr, fun out m₂ hdone₂ => ?_⟩
    have hencodes : OaepEncodes (H.hash hm) label n r message := by
      refine ⟨?_, _, ?_, hr⟩
      · rw [show (H.hash hm).len = 4 * words from rfl]
        omega
      · rw [length_word_bytes, EntropySource.length_words]
        rfl
    obtain ⟨⟨out', length⟩, m₂', hdecode, hback⟩ | ⟨e, m₂', -, -, hnone⟩ :=
      (hanswers m₂.mem r out (hlen.trans ha)).run rfl hdone₂
    · obtain rfl := hencodes.unique hback
      exact ⟨out', m₂', by rw [Buffer.length_part]; exact hdecode, by rw [Buffer.length_part]⟩
    · exact absurd hencodes (hnone message)
  · intro a out out' length m m' ha hrun
    obtain ⟨hmeets, -⟩ := hanswers m.mem a out ha (fun _ => True) m rfl fun _ => trivial
    rw [hrun] at hmeets
    exact hmeets

/-- SHA-256, 2048 bits and a label of two bytes. -/
theorem oaep_decode_inverts_sha256 :
    OaepInverse repeating_hash (fun _ _ => 0) .kOtcryptoHashModeSha256
      (repeating_hash.hash (show HashMode.kOtcryptoHashModeSha256.Fixed 8 from rfl)) [0x61, 0x62] 64 :=
  oaep_decode_inverts repeating_hash (fun _ _ => 0) .kOtcryptoHashModeSha256 8 64 rfl (by decide)
    [0x61, 0x62]

/-! ## What the encoders write -/

/-- A call of an encoder. -/
inductive Encoder where
  | rsa_padding_pkcs1v15_encode (message_digest : HashDigest)
  | rsa_padding_pss_encode (message_digest : HashDigest) (salt : List u8)
  | rsa_padding_oaep_encode (hash_mode : HashMode) (message label : List u8)

namespace Encoder

def run (H : HashFunction) (stack : Local → Mem) (n : ℕ) (a : Buffer Local) :
    Encoder → Prog (Buffer Local)
  | .rsa_padding_pkcs1v15_encode d => RsaPadding.rsa_padding_pkcs1v15_encode d n a
  | .rsa_padding_pss_encode d salt => RsaPadding.rsa_padding_pss_encode H stack d salt n a
  | .rsa_padding_oaep_encode mode message label =>
      RsaPadding.rsa_padding_oaep_encode H stack mode message label n a

/-- The hash is one that is supported, and the lengths fit. -/
def Accepted (n : ℕ) : Encoder → Prop
  | .rsa_padding_pkcs1v15_encode d => ∃ words, d.Fits words
  | .rsa_padding_pss_encode d salt =>
      ∃ words, d.Fits words ∧ salt.length + 4 * words + 2 ≤ 4 * n
  | .rsa_padding_oaep_encode mode message _ =>
      (∃ words, mode.Fixed words) ∧ OaepAccepts mode n message

/-- The encoding of PSS or of PKCS1-v1_5. -/
def OfSignature : Encoder → Prop
  | .rsa_padding_oaep_encode .. => False
  | _ => True

end Encoder

/-- From a machine without notes the call writes every byte of the buffer, and every place that
it reads or writes is one of an array that it has. -/
def KeepsToOutput (H : HashFunction) (stack : Local → Mem) (n : ℕ) (a : Buffer Local) (e : Encoder)
    (m : Machine Device) : Prop :=
  ∃ r m', e.run H stack n a m = (.ret r, m') ∧
    (∀ x ∈ a.places true 0 (4 * n), x ∈ m'.mem.touched) ∧ ∀ x ∈ m'.mem.touched, x.Inside

section encoders

variable {n : ℕ} {a : Buffer Local} {m : Machine Device}

theorem keepsToOutput_of_leads {H : HashFunction} {stack : Local → Mem} {e : Encoder}
    {Q : Buffer Local → Device → Prop}
    (h : Leads Touch.Inside (e.run H stack n a) m.mem Q)
    (hQ : ∀ r t, Q r t → ∀ x ∈ a.places true 0 (4 * n), x ∈ t.touched)
    (hdone : m.Under (· = .done)) (hm : m.mem.touched = []) : KeepsToOutput H stack n a e m := by
  obtain ⟨r, m', hrun, hr, hgoes⟩ := h.run rfl hdone
  exact ⟨r, m', hrun, hQ r _ hr, hgoes.all hm⟩

/-- The encoder of OAEP writes one byte behind the buffer. -/
theorem oaep_encode_beyond (H : HashFunction) (stack : Local → Mem) {mode : HashMode} {words : ℕ}
    (hm : mode.Fixed words) (message label : List u8) (hn : n < 2 ^ 30)
    (hlong : message.length + 8 * words + 2 ≤ 4 * n) (ha : a.len = 4 * n)
    (hdone : m.Under (· = .done)) :
    ¬KeepsToOutput H stack n a (.rsa_padding_oaep_encode mode message label) m := by
  rintro ⟨r, m', hrun, -, hinside⟩
  have hP : ∀ x : Touch Local, x.Inside → True := fun _ _ => trivial
  obtain ⟨r₂, m₂, hrun₂, ⟨-, hnoted⟩, -⟩ :=
    (oaep_encode_spec hP H stack hm message label hn hlong ha fun _ => trivial).run (m := m) rfl hdone
  obtain ⟨-, rfl⟩ := Prod.ext_iff.mp (hrun.symm.trans hrun₂)
  have hlast := hinside ⟨a.array, a.len, a.len, true⟩
    (hnoted _ (Buffer.mem_places.mpr ⟨a.len, le_refl _, by omega, rfl⟩))
  exact lt_irrefl _ hlast

/-- The encoders of signatures keep to their output and the encoder of OAEP does not, for every
hash, modulus, salt and message that they accept. -/
theorem encoders_keep_to_output_iff (H : HashFunction) (stack : Local → Mem) (e : Encoder)
    (hn : ModulusWords n) (he : e.Accepted n) (ha : a.len = 4 * n) (hdone : m.Under (· = .done))
    (hm : m.mem.touched = []) : KeepsToOutput H stack n a e m ↔ e.OfSignature := by
  have hbounds := hn.bounds
  have hP : ∀ x : Touch Local, x.Inside → x.Inside := fun _ => id
  cases e with
  | rsa_padding_pkcs1v15_encode d =>
      obtain ⟨words, hd⟩ := he
      have hwords := hd.fixed.le
      refine iff_of_true ?_ trivial
      exact keepsToOutput_of_leads (pkcs1v15_encode_spec hP hd (by omega) ha)
        (fun _ _ h => h.2) hdone hm
  | rsa_padding_pss_encode d salt =>
      obtain ⟨words, hd, hlong⟩ := he
      refine iff_of_true ?_ trivial
      exact keepsToOutput_of_leads (pss_encode_spec hP H stack hd salt (by omega) hlong ha)
        (fun _ _ h => h.2.2) hdone hm
  | rsa_padding_oaep_encode mode message label =>
      obtain ⟨⟨words, hmode⟩, haccepts⟩ := he
      refine iff_of_false ?_ id
      exact oaep_encode_beyond H stack hmode message label (by omega) (haccepts.room hmode hn) ha
        hdone

end encoders

/-- A machine that carries out every operation. -/
def idle : Machine Device := Machine.on ⟨⟨⟨fun _ => 0, 0⟩, ⟨fun _ => 0, 0⟩⟩, []⟩ fun _ => .done

/-- PSS with SHA-256, 2048 bits and a salt of four bytes. -/
theorem encoders_keep_to_output_iff_pss :
    KeepsToOutput repeating_hash (fun _ _ => 0) 64 ⟨.encoded_message, 256, fun _ => 0⟩
      (.rsa_padding_pss_encode ⟨.kOtcryptoHashModeSha256, List.replicate 8 7⟩ [1, 2, 3, 4]) idle :=
  (encoders_keep_to_output_iff repeating_hash (fun _ _ => 0)
    (.rsa_padding_pss_encode ⟨.kOtcryptoHashModeSha256, List.replicate 8 7⟩ [1, 2, 3, 4]) (by decide)
    ⟨8, ⟨rfl, rfl⟩, by decide⟩ rfl (fun _ => rfl) rfl).mpr trivial

/-- OAEP with SHA-256 and 2048 bits, of a message of one byte: byte 256 is written. -/
theorem oaep_encode_leaves_output :
    Encoder.Accepted 64 (.rsa_padding_oaep_encode .kOtcryptoHashModeSha256 [0x61] []) ∧
      ¬KeepsToOutput repeating_hash (fun _ _ => 0) 64 ⟨.encoded_message, 256, fun _ => 0⟩
        (.rsa_padding_oaep_encode .kOtcryptoHashModeSha256 [0x61] []) idle :=
  ⟨⟨⟨8, rfl⟩, 190, rfl, by decide⟩, oaep_encode_beyond repeating_hash (fun _ _ => 0)
    (show HashMode.kOtcryptoHashModeSha256.Fixed 8 from rfl) [0x61] [] (by decide) (by decide) rfl
    fun _ => rfl⟩

end IbexFirmware.RsaPadding
