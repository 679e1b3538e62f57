/-
What the checksums of keys cover (`hmac.c`, `aes.c`, `ecc/p256.c`, `integrity.c`).

Every checksum is the CRC-32 of some words and of the first bytes of a buffer, and a change of a
word shows in it exactly when one of these bytes changes (`crc32_of_ne_iff`). How many bytes they
are is where the functions differ. The lengths of a blinded and of an unblinded key are in bytes,
and all of the key is covered. That of an HMAC key and of an AES key is in words, of which
`crc32_add` takes as many bytes, and for a P-256 scalar it is the length of a coordinate, which is
shorter than a share.
-/
import IbexFirmware.HmacBlock
import IbexFirmware.Lib.Burst

set_option autoImplicit false

namespace IbexFirmware.Checksum

open Bytes Crypto Crc32 Splice
open Aes (AesKey Device aes_key_integrity_checksum)
open Hmac (HmacKey hmac_key_integrity_checksum)

/-! ## The checks -/

def hmac_key_integrity_checksum_check (key : HmacKey) : u32 :=
  if key.checksum = hmac_key_integrity_checksum key.key_len key.key_block then kHardenedBoolTrue
  else kHardenedBoolFalse

def aes_key_integrity_checksum_check (s : Device) (key : AesKey) : u32 :=
  if key.checksum = aes_key_integrity_checksum s key then kHardenedBoolTrue else kHardenedBoolFalse

def kP256CoordBytes : ℕ := 256 / 8
def kP256MaskedScalarShareWords : ℕ := (256 + 64) / 32

/-- `p256_masked_scalar_t`. -/
structure P256MaskedScalar where
  share0 : Vector u32 kP256MaskedScalarShareWords
  share1 : Vector u32 kP256MaskedScalarShareWords
  checksum : u32

def p256_masked_scalar_checksum (scalar : P256MaskedScalar) : u32 :=
  crc32_finish (crc32_add crc32_init 0 ((word_bytes scalar.share0.toList).take kP256CoordBytes))

def p256_masked_scalar_checksum_check (scalar : P256MaskedScalar) : u32 :=
  if scalar.checksum = p256_masked_scalar_checksum scalar then kHardenedBoolTrue
  else kHardenedBoolFalse

/-! ## One word of a buffer -/

/-- The CRC-32 of words and of a buffer behind them. -/
def crc32_of (fields : List u32) (buf : List u8) : u32 :=
  crc32_finish (crc32_add (fields.foldl crc32_add32 crc32_init) 0 buf)

theorem crc32_of_eq (fields : List u32) (buf : List u8) :
    crc32_of fields buf = Crc.check kCrc32Poly (word_bytes fields ++ buf) := by
  have hfields : fields.foldl crc32_add32 crc32_init =
      (word_bytes fields).foldl crc32_add8 crc32_init := by
    have hpieces := pieces_foldl (fields.map Piece.add32) crc32_init
    rw [List.foldl_map, List.flatMap_map] at hpieces
    exact hpieces
  rw [crc32_of, hfields, crc32_add_eq, ← List.foldl_append]
  rfl

theorem msb_kCrc32Poly : kCrc32Poly.msb = true := by decide

/-- One word in front of the buffer. -/
theorem crc32_of_field_ne {pre post : List u32} {old new : u32} {buf : List u8} (h : old ≠ new) :
    crc32_of (pre ++ old :: post) buf ≠ crc32_of (pre ++ new :: post) buf := by
  have hsplit : ∀ w, word_bytes (pre ++ w :: post) ++ buf =
      word_bytes pre ++ le32 w ++ (word_bytes post ++ buf) := by
    intro w
    rw [word_bytes_append, word_bytes_cons]
    simp only [List.append_assoc]
  rw [crc32_of_eq, crc32_of_eq, hsplit, hsplit]
  exact Crc.check_ne_of_burst msb_kCrc32Poly rfl (le_refl 32) fun heq => h (le32_injective heq)

/-- One of the first `n` bytes of a buffer changes with its bytes `a` to `a + 4`. -/
def TouchesFirst (n a : ℕ) (old new : List u8) : Prop := old.take (n - a) ≠ new.take (n - a)

instance (n a : ℕ) (old new : List u8) : Decidable (TouchesFirst n a old new) :=
  inferInstanceAs (Decidable (_ ≠ _))

/-- Four bytes of the buffer: the checksum of its first `n` bytes changes with them. -/
theorem crc32_of_ne_iff {fields : List u32} {buf new : List u8} {a n : ℕ} (ha : a + 4 ≤ buf.length)
    (hnew : new.length = 4) :
    crc32_of fields (buf.take n) ≠ crc32_of fields ((splice buf a new).take n) ↔
      TouchesFirst n a (slice buf a 4) new := by
  have hpre : (buf.take a).length = a := by rw [List.length_take]; omega
  have hold : (slice buf a 4).length = 4 := length_slice_of_le ha
  have hbuf : buf = buf.take a ++ slice buf a 4 ++ buf.drop (a + 4) := by
    rw [slice, List.append_assoc, ← List.drop_drop, List.take_append_drop, List.take_append_drop]
  have htake : ∀ mid : List u8, mid.length = 4 →
      (buf.take a ++ mid ++ buf.drop (a + 4)).take n =
        (buf.take a).take n ++ mid.take (n - a) ++ (buf.drop (a + 4)).take (n - a - 4) := by
    intro mid hmid
    rw [List.append_assoc, List.take_append, List.take_append, hpre, hmid, List.append_assoc]
  have hleft : buf.take n =
      (buf.take a).take n ++ (slice buf a 4).take (n - a) ++ (buf.drop (a + 4)).take (n - a - 4) := by
    rw [← htake _ hold, ← hbuf]
  have hright : (splice buf a new).take n =
      (buf.take a).take n ++ new.take (n - a) ++ (buf.drop (a + 4)).take (n - a - 4) := by
    rw [splice, hnew, htake _ hnew]
  rw [hleft, hright, TouchesFirst]
  constructor
  · intro hne heq
    rw [heq] at hne
    exact hne rfl
  · intro hne
    rw [crc32_of_eq, crc32_of_eq]
    simp only [List.append_assoc]
    rw [← List.append_assoc, ← List.append_assoc (word_bytes fields),
      ← List.append_assoc (_ ++ _) (new.take (n - a)), ← List.append_assoc (_ ++ _) _ (List.take _ _)]
    refine Crc.check_ne_of_burst msb_kCrc32Poly ?_ ?_ hne
    · rw [List.length_take, List.length_take, hold, hnew]
    · rw [List.length_take, hold]
      omega

theorem drop_word_bytes {ws : List u32} {n : ℕ} (h : n ≤ ws.length) :
    word_bytes (ws.drop n) = (word_bytes ws).drop (4 * n) := by
  have hlen : (word_bytes (ws.take n)).length = 4 * n := by
    rw [length_word_bytes, List.length_take, Nat.min_eq_left h]
  conv_rhs => rw [← List.take_append_drop n ws, word_bytes_append, ← hlen, List.drop_left]

/-- A word of a row of words, in its bytes. -/
theorem word_bytes_set {ws : List u32} {i : ℕ} (hi : i < ws.length) (new : u32) :
    word_bytes (ws.set i new) = splice (word_bytes ws) (4 * i) (le32 new) := by
  rw [List.set_eq_take_append_cons_drop, if_pos hi, word_bytes_append, word_bytes_cons, splice,
    take_word_bytes, drop_word_bytes hi, List.append_assoc]
  rfl

theorem slice_word_bytes {ws : List u32} {i : ℕ} (hi : i < ws.length) :
    slice (word_bytes ws) (4 * i) 4 = le32 ws[i] := by
  rw [slice, ← drop_word_bytes hi.le, List.drop_eq_getElem_cons hi, word_bytes_cons]
  rfl

/-- A word of a row of words whose first bytes are covered. -/
theorem crc32_of_set_ne_iff {fields ws : List u32} {i n : ℕ} (hi : i < ws.length) (new : u32) :
    crc32_of fields ((word_bytes ws).take n) ≠ crc32_of fields ((word_bytes (ws.set i new)).take n) ↔
      TouchesFirst n (4 * i) (le32 ws[i]) (le32 new) := by
  have hroom : 4 * i + 4 ≤ (word_bytes ws).length := by
    rw [length_word_bytes]
    omega
  rw [word_bytes_set hi, crc32_of_ne_iff hroom rfl, slice_word_bytes hi]

/-! ## Changes -/

/-- The words of a configuration other than its length. -/
inductive ConfigField where
  | version
  | key_mode
  | hw_backed
  | exportable
  | security_level
  deriving DecidableEq

def ConfigField.get (config : KeyConfig) : ConfigField → u32
  | version => config.version
  | key_mode => config.key_mode
  | hw_backed => config.hw_backed
  | exportable => config.exportable
  | security_level => config.security_level

def ConfigField.set (config : KeyConfig) (new : u32) : ConfigField → KeyConfig
  | version => { config with version := new }
  | key_mode => { config with key_mode := new }
  | hw_backed => { config with hw_backed := new }
  | exportable => { config with exportable := new }
  | security_level => { config with security_level := new }

/-- A key, and a word of it that becomes `new`. -/
inductive Change where
  | hmac (key : HmacKey) (i : ℕ) (new : u32)
  | aes (s : Device) (key : AesKey) (i : ℕ) (new : u32)
  | p256 (scalar : P256MaskedScalar) (i : Fin kP256MaskedScalarShareWords) (new : u32)
  | unblinded_mode (key : UnblindedKey) (new : u32)
  | unblinded_data (key : UnblindedKey) (i : ℕ) (new : u32)
  | blinded_config (key : BlindedKey) (field : ConfigField) (new : u32)
  | blinded_data (key : BlindedKey) (i : ℕ) (new : u32)

namespace Change

/-- The key has a supported length and the checksum that its function computes, and the word is one of
the key and changes. The data of a blinded or unblinded key may end within a word. -/
def Given : Change → Prop
  | hmac key i new =>
      (key.key_len = 16 ∨ key.key_len = 32) ∧ 4 * key.key_len.toNat ≤ key.key_block.length ∧
        key.checksum = hmac_key_integrity_checksum key.key_len key.key_block ∧
        i < key.key_len.toNat ∧ slice key.key_block (4 * i) 4 ≠ le32 new
  | aes s key i new =>
      (key.key_len = 4 ∨ key.key_len = 6 ∨ key.key_len = 8) ∧ key.sideload = kHardenedBoolFalse ∧
        key.key_len.toNat ≤ (s.keys key.blob).words.length ∧
        key.checksum = aes_key_integrity_checksum s key ∧
        i < key.key_len.toNat ∧ (key.share0 s).getD i 0 ≠ new
  | p256 scalar i new =>
      scalar.checksum = p256_masked_scalar_checksum scalar ∧ scalar.share0[i] ≠ new
  | unblinded_mode key new => key.checksum = integrity_unblinded_checksum key ∧ key.key_mode ≠ new
  | unblinded_data key i new =>
      key.checksum = integrity_unblinded_checksum key ∧ i < key.words.length ∧
        TouchesFirst key.key_length.toNat (4 * i) (le32 (key.words.getD i 0)) (le32 new)
  | blinded_config key field new =>
      key.checksum = integrity_blinded_checksum key ∧ field.get key.config ≠ new
  | blinded_data key i new =>
      key.checksum = integrity_blinded_checksum key ∧ i < key.words.length ∧
        TouchesFirst key.keyblob_length.toNat (4 * i) (le32 (key.words.getD i 0)) (le32 new)

/-- The check that belongs to the key, after the change. -/
def check : Change → u32
  | hmac key i new =>
      hmac_key_integrity_checksum_check { key with key_block := splice key.key_block (4 * i) (le32 new) }
  | aes s key i new =>
      let blob := s.keys key.blob
      let blob := { blob with keyblob := blob.keyblob.map (·.set i new) }
      aes_key_integrity_checksum_check (s.set_key key.blob blob) key
  | p256 scalar i new =>
      p256_masked_scalar_checksum_check { scalar with share0 := scalar.share0.set i new }
  | unblinded_mode key new => integrity_unblinded_key_check { key with key_mode := new }
  | unblinded_data key i new =>
      integrity_unblinded_key_check { key with key := key.key.map (·.set i new) }
  | blinded_config key field new =>
      integrity_blinded_key_check { key with config := field.set key.config new }
  | blinded_data key i new =>
      integrity_blinded_key_check { key with keyblob := key.keyblob.map (·.set i new) }

/-- One of the bytes that `crc32_add` is given changes: of an HMAC key or an AES key as many as the key
has words, of a share of a P-256 scalar as many as a coordinate has. -/
def Covered : Change → Prop
  | hmac key i new =>
      TouchesFirst key.key_len.toNat (4 * i) (slice key.key_block (4 * i) 4) (le32 new)
  | aes s key i new =>
      TouchesFirst key.key_len.toNat (4 * i) (le32 ((key.share0 s).getD i 0)) (le32 new)
  | p256 scalar i new => TouchesFirst kP256CoordBytes (4 * i) (le32 scalar.share0[i]) (le32 new)
  | _ => True

end Change

/-! ## What is detected -/

/-- A check compares the checksum that was set with that of the changed key. -/
theorem ite_eq_false_iff {old new : u32} :
    (if old = new then kHardenedBoolTrue else kHardenedBoolFalse) = kHardenedBoolFalse ↔ old ≠ new := by
  split_ifs with h
  · exact iff_of_false (by decide) fun hne => hne h
  · exact iff_of_true rfl h

section

variable {i : ℕ} {new : u32}

theorem hmac_check_iff {key : HmacKey} (h : (Change.hmac key i new).Given) :
    (Change.hmac key i new).check = kHardenedBoolFalse ↔ (Change.hmac key i new).Covered := by
  obtain ⟨-, hroom, hsum, hi, -⟩ := h
  have hin : 4 * i + 4 ≤ key.key_block.length := by omega
  refine ite_eq_false_iff.trans ?_
  rw [hsum]
  exact (crc32_of_ne_iff hin (length_le32 new) : crc32_of [key.key_len] _ ≠ crc32_of [key.key_len] _ ↔ _)

theorem words_set {blob : BlindedKey} :
    ({ blob with keyblob := blob.keyblob.map (·.set i new) } : BlindedKey).words =
      blob.words.set i new := by
  cases hblob : blob.keyblob <;> simp [BlindedKey.words, hblob]

theorem unblinded_words_set {key : UnblindedKey} :
    ({ key with key := key.key.map (·.set i new) } : UnblindedKey).words = key.words.set i new := by
  cases hkey : key.key <;> simp [UnblindedKey.words, hkey]

theorem aes_check_iff {s : Device} {key : AesKey} (h : (Change.aes s key i new).Given) :
    (Change.aes s key i new).check = kHardenedBoolFalse ↔ (Change.aes s key i new).Covered := by
  obtain ⟨-, -, hroom, hsum, hi, -⟩ := h
  have hin : i < (s.keys key.blob).words.length := by omega
  have hshare : (key.share0 s).getD i 0 = (s.keys key.blob).words[i] := by
    have hlt : i < (key.share0 s).length := by
      rw [AesKey.share0, length_slice]
      omega
    rw [List.getD_eq_getElem _ _ hlt]
    simp [AesKey.share0, slice]
  refine ite_eq_false_iff.trans ?_
  rw [hsum, Change.Covered, hshare, aes_key_integrity_checksum, aes_key_integrity_checksum,
    Device.set_key_self, words_set]
  exact (crc32_of_set_ne_iff hin new : crc32_of [key.mode, key.sideload, key.key_len] _ ≠
    crc32_of [key.mode, key.sideload, key.key_len] _ ↔ _)

end

theorem p256_check_iff {scalar : P256MaskedScalar} {i : Fin kP256MaskedScalarShareWords} {new : u32}
    (h : (Change.p256 scalar i new).Given) :
    (Change.p256 scalar i new).check = kHardenedBoolFalse ↔ (Change.p256 scalar i new).Covered := by
  have hin : i.val < scalar.share0.toList.length := by simp
  refine ite_eq_false_iff.trans ?_
  rw [h.1, p256_masked_scalar_checksum, p256_masked_scalar_checksum, Vector.toList_set]
  refine (crc32_of_set_ne_iff hin new : crc32_of [] _ ≠ crc32_of [] _ ↔ _).trans ?_
  simp [Change.Covered]

theorem unblinded_check_false {key : UnblindedKey} (h : key.checksum ≠ integrity_unblinded_checksum key) :
    integrity_unblinded_key_check key = kHardenedBoolFalse := if_neg h

theorem blinded_check_false {key : BlindedKey} (h : key.checksum ≠ integrity_blinded_checksum key) :
    integrity_blinded_key_check key = kHardenedBoolFalse := by
  rw [integrity_blinded_key_check]
  split_ifs
  · rfl
  · rfl

/-- Whichever word of the configuration changes, it is one of those in front of the keyblob. -/
theorem blinded_config_check {key : BlindedKey} {field : ConfigField} {new : u32}
    (h : (Change.blinded_config key field new).Given) :
    (Change.blinded_config key field new).check = kHardenedBoolFalse := by
  obtain ⟨hsum, hne⟩ := h
  apply blinded_check_false
  show key.checksum ≠ _
  rw [hsum]
  obtain ⟨⟨version, key_mode, key_length, hw_backed, exportable, security_level⟩, keyblob_length,
    keyblob, checksum⟩ := key
  cases field with
  | version =>
      exact (crc32_of_field_ne hne : crc32_of ([] ++ version :: [key_mode, key_length, hw_backed,
        exportable, security_level, keyblob_length]) _ ≠ _)
  | key_mode =>
      exact (crc32_of_field_ne hne : crc32_of ([version] ++ key_mode :: [key_length, hw_backed,
        exportable, security_level, keyblob_length]) _ ≠ _)
  | hw_backed =>
      exact (crc32_of_field_ne hne : crc32_of ([version, key_mode, key_length] ++ hw_backed ::
        [exportable, security_level, keyblob_length]) _ ≠ _)
  | exportable =>
      exact (crc32_of_field_ne hne : crc32_of ([version, key_mode, key_length, hw_backed] ++
        exportable :: [security_level, keyblob_length]) _ ≠ _)
  | security_level =>
      exact (crc32_of_field_ne hne : crc32_of ([version, key_mode, key_length, hw_backed,
        exportable] ++ security_level :: [keyblob_length]) _ ≠ _)

/-- A change of one word of a key is detected where it reaches the bytes that are covered, and nowhere
else. -/
theorem key_change_detected_iff (c : Change) (h : c.Given) :
    c.check = kHardenedBoolFalse ↔ c.Covered := by
  cases c with
  | hmac key i new => exact hmac_check_iff h
  | aes s key i new => exact aes_check_iff h
  | p256 scalar i new => exact p256_check_iff h
  | unblinded_mode key new =>
      refine iff_of_true (unblinded_check_false ?_) trivial
      show key.checksum ≠ _
      rw [h.1]
      exact (crc32_of_field_ne h.2 : crc32_of ([] ++ key.key_mode :: [key.key_length]) _ ≠ _)
  | unblinded_data key i new =>
      obtain ⟨hsum, hi, hdata⟩ := h
      refine iff_of_true (unblinded_check_false ?_) trivial
      intro heq
      have hsame := hsum.symm.trans heq
      rw [integrity_unblinded_checksum, integrity_unblinded_checksum, unblinded_words_set] at hsame
      rw [List.getD_eq_getElem _ _ hi] at hdata
      exact (crc32_of_set_ne_iff hi new : crc32_of [key.key_mode, key.key_length] _ ≠ _ ↔ _).mpr hdata
        hsame
  | blinded_config key field new => exact iff_of_true (blinded_config_check h) trivial
  | blinded_data key i new =>
      obtain ⟨hsum, hi, hdata⟩ := h
      refine iff_of_true (blinded_check_false ?_) trivial
      intro heq
      have hsame := hsum.symm.trans heq
      rw [integrity_blinded_checksum, integrity_blinded_checksum, words_set] at hsame
      rw [List.getD_eq_getElem _ _ hi] at hdata
      exact (crc32_of_set_ne_iff hi new : crc32_of [key.config.version, key.config.key_mode,
        key.config.key_length, key.config.hw_backed, key.config.exportable, key.config.security_level,
        key.keyblob_length] _ ≠ _ ↔ _).mpr hdata hsame

/-- An HMAC-SHA256 key of zeros. -/
def zero_hmac_key : HmacKey :=
  ⟨16, List.replicate 64 0, hmac_key_integrity_checksum 16 (List.replicate 64 0)⟩

/-- Its first word is covered. -/
theorem key_change_detected_first :
    (Change.hmac zero_hmac_key 0 1).check = kHardenedBoolFalse := by
  refine (key_change_detected_iff (Change.hmac zero_hmac_key 0 1)
    ⟨Or.inl rfl, by decide, rfl, by decide, by decide⟩).mpr ?_
  unfold Change.Covered TouchesFirst
  decide

/-- Its last word may be anything. -/
theorem key_change_undetected :
    (Change.hmac zero_hmac_key 15 1).Given ∧
      (Change.hmac zero_hmac_key 15 1).check ≠ kHardenedBoolFalse := by
  refine ⟨⟨Or.inl rfl, by decide, rfl, by decide, by decide⟩, ?_⟩
  decide +kernel

end IbexFirmware.Checksum
