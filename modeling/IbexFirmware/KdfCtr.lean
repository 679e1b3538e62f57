/-
The counter mode of SP 800-108 over HMAC (`kdf_ctr.c`), and the bounds of both derivations.

The output array of `otcrypto_kdf_ctr_hmac` has room for whole digests, the one of
`otcrypto_hkdf_expand` only for the words of the output, and the mask of both has the length of
one digest, from which as many words are read as the output has. `kdf_places_inside` and
`hkdf_places_inside` are what follows for the lengths of the output.
-/
import IbexFirmware.Hkdf
import IbexFirmware.Lib.Hmac
import IbexFirmware.Lib.Sha256

set_option autoImplicit false

namespace IbexFirmware.Kdf

open Bytes PowerFail Checks Crypto HardenedMemory Splice
open Aes (keyblob_share_num_words keyblob_num_words keyblob_ensure_xor_masked check_keyblob_length
  unmasked key_type)

/-! ## The functions -/

def check_zero_byte (buffer : ByteBuf) : Except CryptoError Unit :=
  buffer.bytes.forM fun byte => if byte = 0 then .error .OTCRYPTO_BAD_ARGS else .ok ()

/-- The checks of the output key, once the digest is known. -/
def kdf_ctr_check_output (digest_words : u32) (okm : BlindedKey) : Except CryptoError Unit := do
  keyblob_ensure_xor_masked okm.config
  if okm.config.hw_backed = kHardenedBoolTrue then throw .OTCRYPTO_BAD_ARGS
  else if okm.config.hw_backed = kHardenedBoolFalse then
    if okm.keyblob_length ≠ keyblob_num_words okm.config * 4 then throw .OTCRYPTO_BAD_ARGS
  else throw .OTCRYPTO_BAD_ARGS
  let required_byte_len := okm.config.key_length
  let required_word_len := ceil_div required_byte_len 4
  let num_iterations := ceil_div required_word_len digest_words
  if num_iterations > BitVec.allOnes 32 ∨ required_byte_len > BitVec.allOnes 32 / 8 then
    throw .OTCRYPTO_BAD_ARGS

/-- The checks at the start of `otcrypto_kdf_ctr_hmac`, with the number of words of a digest. -/
def kdf_ctr_checks (kdk : BlindedKey) (label context : ByteBuf) (okm : BlindedKey) :
    Except CryptoError u32 := do
  if okm.keyblob = none ∨ kdk.keyblob = none then throw .OTCRYPTO_BAD_ARGS
  if okm.config.security_level ≠ kOtcryptoKeySecurityLevelLow ∨
      kdk.config.security_level ≠ kOtcryptoKeySecurityLevelLow then
    throw .OTCRYPTO_NOT_IMPLEMENTED
  if label.dangling then throw .OTCRYPTO_BAD_ARGS
  if context.dangling then throw .OTCRYPTO_BAD_ARGS
  if integrity_blinded_key_check kdk ≠ kHardenedBoolTrue then throw .OTCRYPTO_BAD_ARGS
  if okm.config.key_length = 0 then throw .OTCRYPTO_BAD_ARGS
  let digest_words ← digest_num_words_from_key_mode kdk.config.key_mode
  kdf_ctr_check_output digest_words okm
  check_zero_byte label
  check_zero_byte context
  pure digest_words

section

variable (H : HmacFunction)

/-- The loop of `otcrypto_kdf_ctr_hmac` with `n` turns left. -/
def kdf_ctr_loop (kdk : BlindedKey) (label context : ByteBuf) (required_bit_len digest_words : u32) :
    ℕ → u32 → Words → Proc Device CryptoError Words
  | 0, _, data => pure data
  | n + 1, i, data => do
      let ctx ← Proc.ofExcept (otcrypto_hmac_init kdk)
      let counter_be := bswap32 (i + 1)
      let ctx ← otcrypto_hmac_update ctx (le32 counter_be)
      let ctx ← otcrypto_hmac_update ctx label.bytes
      let ctx ← otcrypto_hmac_update ctx [0]
      let ctx ← otcrypto_hmac_update ctx context.bytes
      let ctx ← otcrypto_hmac_update ctx (le32 required_bit_len)
      let tag_dest := (i * digest_words).toNat
      let tag ← otcrypto_hmac_final H ctx digest_words
      let data ← data.write tag_dest tag
      kdf_ctr_loop kdk label context required_bit_len digest_words n (i + 1) data

def otcrypto_kdf_ctr_hmac (stack : ℕ → u32) (kdk : BlindedKey) (label context : ByteBuf)
    (okm : BlindedKey) : Proc Device CryptoError BlindedKey := do
  let digest_word_len ← Proc.ofExcept (kdf_ctr_checks kdk label context okm)
  let required_byte_len := okm.config.key_length
  let required_word_len := ceil_div required_byte_len 4
  let num_iterations := ceil_div required_word_len digest_word_len
  let required_bit_len := bswap32 (required_byte_len * 8)
  let output_key_material_len :=
    required_word_len + digest_word_len - required_word_len % digest_word_len
  let output_key_material_data : Words :=
    ⟨.output_key_material_data, output_key_material_len.toNat, stack⟩
  let output_key_material_data ←
    kdf_ctr_loop H kdk label context required_bit_len digest_word_len num_iterations.toNat 0
      output_key_material_data
  let mask := zeroed stack .mask digest_word_len.toNat
  touch (mask.places 0 mask.len)
  let keyblob ← keyblob_from_key_and_mask output_key_material_data mask okm.config (keyblob_words okm)
  pure (with_keyblob okm keyblob)

end

/-! ## SP 800-108 -/

/-- A number as a 32-bit big-endian string. -/
def be32 (n : ℕ) : List u8 :=
  [BitVec.ofNat 8 (n / 2 ^ 24), BitVec.ofNat 8 (n / 2 ^ 16), BitVec.ofNat 8 (n / 2 ^ 8),
    BitVec.ofNat 8 n]

/-- `K(i)`, for an output of `len` bytes. -/
def sp800_108_block (H : HmacFunction) (mode : u32) (key label context : List u8) (len i : ℕ) :
    List u8 :=
  H.mac mode key (be32 i ++ label ++ [0] ++ context ++ be32 (8 * len))

/-- The first `n` blocks of the output. -/
def sp800_108_blocks (H : HmacFunction) (mode : u32) (key label context : List u8) (len n : ℕ) :
    List u8 :=
  (List.range n).flatMap fun i => sp800_108_block H mode key label context len (i + 1)

def sp800_108_ctr (H : HmacFunction) (mode : u32) (digest_len : ℕ) (key label context : List u8)
    (len : ℕ) : List u8 :=
  (sp800_108_blocks H mode key label context len ((len + digest_len - 1) / digest_len)).take len

theorem byteOf_eq (w : u32) (j : ℕ) : byteOf w j = BitVec.ofNat 8 (w.toNat / 2 ^ (8 * j)) := by
  apply BitVec.eq_of_toNat_eq
  rw [byteOf, BitVec.extractLsb'_toNat, Nat.shiftRight_eq_div_pow, BitVec.toNat_ofNat]

/-- The bytes of a word whose bytes are swapped: the word from its most significant byte on. -/
theorem le32_bswap32 (w : u32) : le32 (bswap32 w) = be32 w.toNat := by
  rw [le32, byteOf_bswap32 w 0 (by decide), byteOf_bswap32 w 1 (by decide),
    byteOf_bswap32 w 2 (by decide), byteOf_bswap32 w 3 (by decide), byteOf_eq, byteOf_eq,
    byteOf_eq, byteOf_eq, be32]
  simp

theorem sp800_108_blocks_succ (H : HmacFunction) (mode : u32) (key label context : List u8)
    (len i : ℕ) :
    sp800_108_blocks H mode key label context len (i + 1) =
      sp800_108_blocks H mode key label context len i ++
        sp800_108_block H mode key label context len (i + 1) := by
  simp [sp800_108_blocks, List.range_succ]

/-! ## The loop -/

section loop

variable {H : HmacFunction} {kdk : BlindedKey} {label context : ByteBuf} {d B len : u32}
  {base : List Touch} {P : Touch → Prop}

/-- Where the turns from `i` on write. -/
def counter_places (a : Words) (d i n : ℕ) : List Touch :=
  (List.range' i n).flatMap fun i => a.places (i * d) d

/-- What one turn gives to HMAC. -/
theorem counter_message {i : ℕ} (hi : i + 1 < 2 ^ 32) (hlen : len.toNat * 8 < 2 ^ 32)
    (label context : List u8) :
    [] ++ le32 (bswap32 (BitVec.ofNat 32 i + 1)) ++ label ++ [0] ++ context ++
      le32 (bswap32 (len * 8)) =
      be32 (i + 1) ++ label ++ [0] ++ context ++ be32 (8 * len.toNat) := by
  have hcounter : (BitVec.ofNat 32 i + 1 : u32).toNat = i + 1 := by
    rw [BitVec.toNat_add, BitVec.toNat_ofNat, show (1 : u32).toNat = 1 from rfl,
      Nat.mod_add_mod, Nat.mod_eq_of_lt hi]
  have hbits : (len * 8).toNat = 8 * len.toNat := by
    rw [BitVec.toNat_mul, show (8 : u32).toNat = 8 from rfl, Nat.mod_eq_of_lt hlen, Nat.mul_comm]
  rw [List.nil_append, le32_bswap32, le32_bswap32, hcounter, hbits]

/-- The induction is over the rounds that are left: each puts one digest behind those there. -/
theorem kdf_ctr_loop_exact (label context : ByteBuf) (hmode : HmacMode kdk.config.key_mode d B)
    (hkdk : UsableKey kdk)
    (hlen : len.toNat * 8 < 2 ^ 32) (n : ℕ) :
    ∀ {i : ℕ} {a : Words} {s : Device}, (i + n) * d.toNat < 2 ^ 32 →
      word_bytes (a.at 0 (i * d.toNat)) = sp800_108_blocks H kdk.config.key_mode (key_bytes kdk)
        label.bytes context.bytes len.toNat i →
      Noted base P s → (∀ x ∈ counter_places a d.toNat i n, P x) →
      Guarded (kdf_ctr_loop H kdk label context (bswap32 (len * 8)) d n (BitVec.ofNat 32 i) a) s
        (fun r t => word_bytes (r.at 0 ((i + n) * d.toNat)) =
            sp800_108_blocks H kdk.config.key_mode (key_bytes kdk) label.bytes context.bytes
              len.toNat (i + n) ∧
          r.array = a.array ∧ r.len = a.len ∧
          t.touched = s.touched ++ counter_places a d.toNat i n) (Noted base P) := by
  obtain ⟨k, hinit, htag⟩ := otcrypto_hmac_init_exact H hmode hkdk
  induction n with
  | zero =>
      intro i a s _ hblocks _ _
      exact Guarded.pure ⟨hblocks, rfl, rfl, (List.append_nil _).symm⟩
  | succ n ih =>
      intro i a s hle hblocks hs hP
      have hplaces : counter_places a d.toNat i (n + 1) =
          a.places (i * d.toNat) d.toNat ++ counter_places a d.toNat (i + 1) n := by
        rw [counter_places, List.range'_succ, List.flatMap_cons]
        rfl
      rw [hplaces] at hP ⊢
      have hd := hmode.digest_pos
      have hi : i + 1 < 2 ^ 32 := by
        have hmul : i + (n + 1) ≤ (i + (n + 1)) * d.toNat := Nat.le_mul_of_pos_right _ hd
        omega
      have hdest : (BitVec.ofNat 32 i * d).toNat = i * d.toNat := by
        have hmul : i * d.toNat ≤ (i + (n + 1)) * d.toNat := Nat.mul_le_mul_right _ (by omega)
        rw [BitVec.toNat_mul, BitVec.toNat_ofNat, Nat.mod_mul_mod, Nat.mod_eq_of_lt (by omega)]
      refine Guarded.ofExcept_bind hinit ?_
      refine Guarded.step_bind (Guarded.step_bind (Guarded.step_bind (Guarded.step_bind
        (Guarded.step_bind ?_ hs) hs) hs) hs) hs
      rw [otcrypto_hmac_final, if_neg (not_not.mpr rfl)]
      refine Guarded.step_bind (Words.write_bind ?_) hs
      rw [counter_message hi hlen, htag, hdest]
      set tag := H.tag kdk.config.key_mode (key_bytes kdk)
        (be32 (i + 1) ++ label.bytes ++ [0] ++ context.bytes ++ be32 (8 * len.toNat)) with htagdef
      have htaglen : tag.length = d.toNat := H.length_tag _ _ hmode.digest
      have hsucc : word_bytes ((a.set (i * d.toNat) tag).at 0 ((i + 1) * d.toNat)) =
          sp800_108_blocks H kdk.config.key_mode (key_bytes kdk) label.bytes context.bytes
            len.toNat (i + 1) := by
        rw [Nat.add_mul, Nat.one_mul, Words.at_add, Nat.zero_add, Words.at_set htaglen,
          Words.at_set_of_apart (.inl (by omega)), word_bytes_append, hblocks,
          sp800_108_blocks_succ]
        rfl
      have hturn : Noted base P { s with touched := s.touched ++ a.places (i * d.toNat) d.toNat } :=
        hs.add fun x hx => hP x (List.mem_append_left _ hx)
      rw [htaglen]
      have hrest := ih (a := a.set (i * d.toNat) tag) (by rwa [Nat.add_assoc, Nat.add_comm 1 n])
        hsucc hturn fun x hx => hP x (List.mem_append_right _ hx)
      rw [BitVec.ofNat_add] at hrest
      refine Guarded.mono hrest ?_ fun _ => id
      rintro r t ⟨hr, harray, hrlen, htouched⟩
      rw [Nat.add_assoc i 1 n, Nat.add_comm 1 n] at hr
      refine ⟨hr, harray, hrlen, ?_⟩
      rw [htouched, List.append_assoc]
      rfl

end loop

/-! ## What the checks say -/

structure KdfCtrChecks (d : u32) (kdk : BlindedKey) (okm : BlindedKey) : Prop where
  okm_keyblob : okm.keyblob ≠ none
  low : kdk.config.security_level = kOtcryptoKeySecurityLevelLow
  nonzero : okm.config.key_length ≠ 0
  digest : digest_num_words_from_key_mode kdk.config.key_mode = .ok d
  masked : keyblob_ensure_xor_masked okm.config = .ok ()
  keyblob_length : okm.keyblob_length = keyblob_num_words okm.config * 4
  bits : okm.config.key_length.toNat * 8 < 2 ^ 32

theorem kdf_ctr_check_output_ok {d : u32} {okm : BlindedKey}
    (h : kdf_ctr_check_output d okm = .ok ()) :
    keyblob_ensure_xor_masked okm.config = .ok () ∧
      okm.keyblob_length = keyblob_num_words okm.config * 4 ∧
      okm.config.key_length.toNat * 8 < 2 ^ 32 := by
  unfold kdf_ctr_check_output at h
  obtain ⟨_, hmasked, h⟩ := ok_of_bind h
  simp only [bind, Except.bind, throw, throwThe, MonadExceptOf.throw, pure, Except.pure] at h
  split_ifs at h with htrue hfalse hlen hlarge
  obtain ⟨-, hbytes⟩ := not_or.mp hlarge
  rw [gt_iff_lt, BitVec.lt_def, BitVec.toNat_udiv, BitVec.toNat_allOnes,
    show (8 : u32).toNat = 8 from rfl] at hbytes
  exact ⟨hmasked, not_not.mp hlen, by omega⟩

theorem kdfCtrChecks_of_ok {d : u32} {kdk okm : BlindedKey} {label context : ByteBuf}
    (h : kdf_ctr_checks kdk label context okm = .ok d) : KdfCtrChecks d kdk okm := by
  unfold kdf_ctr_checks at h
  obtain ⟨hnull, h⟩ := ok_of_throw h
  obtain ⟨hlow, h⟩ := ok_of_throw h
  obtain ⟨-, h⟩ := ok_of_throw h
  obtain ⟨-, h⟩ := ok_of_throw h
  obtain ⟨-, h⟩ := ok_of_throw h
  obtain ⟨hzero, h⟩ := ok_of_throw h
  obtain ⟨v, hdigest, h⟩ := ok_of_bind h
  obtain ⟨_, houtput, h⟩ := ok_of_bind h
  obtain ⟨_, -, h⟩ := ok_of_bind h
  obtain ⟨_, -, h⟩ := ok_of_bind h
  obtain rfl := Except.ok.inj h
  obtain ⟨hmasked, hlen, hbits⟩ := kdf_ctr_check_output_ok houtput
  exact ⟨(not_or.mp hnull).1, not_not.mp (not_or.mp hlow).2, hzero, hdigest, hmasked, hlen, hbits⟩

/-! ## The derivation -/

section derivation

variable {H : HmacFunction} {stack : ℕ → u32} {kdk okm : BlindedKey} {label context : ByteBuf}
  {d : u32} {base : List Touch} {P : Touch → Prop} {s : Device}

/-- The words of the array that the digests are written to: one digest more than needed, where the
output has a whole number of them. -/
def output_key_material_len (okm : BlindedKey) (d : u32) : ℕ :=
  okm_words okm + d.toNat - okm_words okm % d.toNat

/-- Everything that a derivation touches. -/
def kdf_ctr_places (okm : BlindedKey) (d : u32) : List Touch :=
  let data : Words := ⟨.output_key_material_data, output_key_material_len okm d, fun _ => 0⟩
  counter_places data d.toNat 0 (okm_turns okm d) ++ keyblob_places data okm d

theorem toNat_output_key_material_len {B : u32} (hmode : HmacMode kdk.config.key_mode d B)
    (hbits : okm.config.key_length.toNat * 8 < 2 ^ 32) :
    (ceil_div okm.config.key_length 4 + d - ceil_div okm.config.key_length 4 % d).toNat =
      output_key_material_len okm d := by
  have hwords := toNat_okm_wordlen okm
  have hd := hmode.digest_le.trans hmode.block_le
  have hsmall : okm_words okm < 2 ^ 28 := by
    rw [okm_words]
    omega
  have hsum : (ceil_div okm.config.key_length 4 + d).toNat = okm_words okm + d.toNat := by
    rw [BitVec.toNat_add, hwords, Nat.mod_eq_of_lt (by omega)]
  have hmod : (ceil_div okm.config.key_length 4 % d).toNat = okm_words okm % d.toNat := by
    rw [BitVec.toNat_umod, hwords]
  have hle := Nat.mod_le (okm_words okm) d.toNat
  rw [BitVec.toNat_sub_of_le, hsum, hmod, output_key_material_len]
  rw [BitVec.le_def, hsum, hmod]
  omega

/-- The blocks of the counter, cut to the length of the output key, and its keyblob made of them. -/
theorem otcrypto_kdf_ctr_hmac_exact (hchecks : kdf_ctr_checks kdk label context okm = .ok d)
    (hkdk : UsableKey kdk) (hokm : Allocated okm) (hs : Noted base P s)
    (hP : ∀ x ∈ kdf_ctr_places okm d, P x) :
    Guarded (otcrypto_kdf_ctr_hmac H stack kdk label context okm) s (fun r t =>
      key_bytes r = sp800_108_ctr H kdk.config.key_mode (4 * d.toNat) (key_bytes kdk) label.bytes
        context.bytes okm.config.key_length.toNat ∧
      t.touched = s.touched ++ kdf_ctr_places okm d) (Noted base P) := by
  have hok := kdfCtrChecks_of_ok hchecks
  obtain ⟨B, hmode⟩ := hmacMode_of_digest hok.digest
  have hbits := hok.bits
  have hcover := okm_words_le okm hmode.digest_pos
  have hdle := hmode.digest_le.trans hmode.block_le
  have hsmall : okm_words okm < 2 ^ 28 := by
    rw [okm_words]
    omega
  have hturns : okm_turns okm d * d.toNat < 2 ^ 32 := by
    have hmul := Nat.div_mul_le_self (okm_words okm + d.toNat - 1) d.toNat
    rw [okm_turns]
    omega
  have hlen := length_okm_words hokm hok.masked hok.keyblob_length (by omega)
  set data : Words := ⟨.output_key_material_data, output_key_material_len okm d, stack⟩
  have hloop : ∀ x ∈ counter_places data d.toNat 0 (okm_turns okm d), P x := fun x hx =>
    hP x (List.mem_append_left _ hx)
  refine Guarded.ofExcept_bind hchecks ?_
  dsimp only
  rw [toNat_num_iterations hmode, toNat_output_key_material_len hmode hbits]
  have hblocks := kdf_ctr_loop_exact (H := H) label context hmode hkdk hbits
    (okm_turns okm d) (i := 0) (a := data) (by rwa [Nat.zero_add]) (by rw [Nat.zero_mul]; rfl) hs hloop
  rw [Nat.zero_add] at hblocks
  refine Guarded.bind hblocks ?_
  rintro r t ⟨hr, harray, hrlen, htouched⟩
  have ht : Noted base P t := by
    intro x hx
    rw [htouched] at hx
    exact (hs.add hloop) x hx
  have hplaces : keyblob_places r okm d = keyblob_places data okm d :=
    keyblob_places_congr harray hrlen
  refine Guarded.mono (derived_key_exact hok.okm_keyblob hok.masked hlen hcover ht fun x hx => ?_) ?_
    fun _ => id
  · rw [hplaces] at hx
    exact hP x (List.mem_append_right _ hx)
  · rintro k t' ⟨hk, htouched'⟩
    refine ⟨?_, ?_⟩
    · rw [hk, hr, sp800_108_ctr, okm_turns_eq okm hmode.digest_pos]
    · rw [htouched', htouched, hplaces, List.append_assoc]
      rfl

/-- The arguments pass the checks: those of the derivation, and those that HMAC makes of the key. -/
def KdfCtrAccepts (kdk : BlindedKey) (label context : ByteBuf) (okm : BlindedKey) : Prop :=
  ∃ d, kdf_ctr_checks kdk label context okm = .ok d ∧ check_key kdk = .ok () ∧
    check_keyblob_length kdk = .ok ()

theorem KdfCtrAccepts.usable (h : KdfCtrAccepts kdk label context okm) (hkdk : HoldsShares kdk) :
    UsableKey kdk := by
  obtain ⟨d, hchecks, hkey, hlen⟩ := h
  exact ⟨hkey, hlen, (kdfCtrChecks_of_ok hchecks).low, hkdk⟩

/-- HMAC does not start with a key that it does not take. -/
theorem otcrypto_hmac_init_refuses (h : ¬(check_key kdk = .ok () ∧ check_keyblob_length kdk = .ok ())) :
    ∃ e, otcrypto_hmac_init kdk = .error e := by
  cases hinit : otcrypto_hmac_init kdk with
  | error e => exact ⟨e, rfl⟩
  | ok ctx =>
      unfold otcrypto_hmac_init hmac_key_construct at hinit
      obtain ⟨_, hkey, hinit⟩ := ok_of_bind hinit
      obtain ⟨-, hinit⟩ := ok_of_throw hinit
      obtain ⟨_, -, hinit⟩ := ok_of_bind hinit
      obtain ⟨_, -, hinit⟩ := ok_of_bind hinit
      obtain ⟨_, hconstruct, -⟩ := ok_of_bind hinit
      obtain ⟨_, hunmask, -⟩ := ok_of_bind hconstruct
      rw [keyblob_key_unmask_eq] at hunmask
      obtain ⟨_, hlen, -⟩ := ok_of_map hunmask
      exact absurd ⟨hkey, hlen⟩ h

/-- The output has a turn, since it is not empty. -/
theorem okm_turns_pos (hd : 0 < d.toNat) (hlen : okm.config.key_length ≠ 0) :
    0 < okm_turns okm d := by
  have hne : okm.config.key_length.toNat ≠ 0 := fun h => hlen (BitVec.eq_of_toNat_eq h)
  refine Nat.div_pos ?_ hd
  rw [okm_words]
  omega

theorem otcrypto_kdf_ctr_hmac_refuses (h : ¬KdfCtrAccepts kdk label context okm) :
    Refuses (otcrypto_kdf_ctr_hmac H stack kdk label context okm) s fun t => t = s := by
  refine Refuses.ofExcept rfl fun d hd => ?_
  have hok := kdfCtrChecks_of_ok hd
  obtain ⟨B, hmode⟩ := hmacMode_of_digest hok.digest
  obtain ⟨e, hinit⟩ : ∃ e, otcrypto_hmac_init kdk = .error e :=
    otcrypto_hmac_init_refuses fun hkey => h ⟨d, hd, hkey⟩
  obtain ⟨n, hn⟩ := Nat.exists_eq_succ_of_ne_zero (okm_turns_pos hmode.digest_pos hok.nonzero).ne'
  dsimp only
  rw [toNat_num_iterations hmode, hn]
  exact Refuses.bind_left (Refuses.ofExcept_bind hinit rfl)

/-- What is derived is the output of SP 800-108. -/
theorem otcrypto_kdf_ctr_hmac_derives (H : HmacFunction) (stack : ℕ → u32) (kdk okm : BlindedKey)
    (label context : ByteBuf) (s : Device) (hkdk : HoldsShares kdk) (hokm : Allocated okm) :
    Derives (otcrypto_kdf_ctr_hmac H stack kdk label context okm) s
      (KdfCtrAccepts kdk label context okm)
      (sp800_108_ctr H kdk.config.key_mode (digest_bytes kdk.config.key_mode) (key_bytes kdk)
        label.bytes context.bytes okm.config.key_length.toNat) := by
  by_cases haccepts : KdfCtrAccepts kdk label context okm
  · have husable := haccepts.usable hkdk
    obtain ⟨d, hchecks, -, -⟩ := haccepts
    have hbytes : digest_bytes kdk.config.key_mode = 4 * d.toNat := by
      rw [digest_bytes, (kdfCtrChecks_of_ok hchecks).digest]
    rw [hbytes]
    refine Guarded.derives (I := Noted [] fun _ => True) (Guarded.mono
      (otcrypto_kdf_ctr_hmac_exact hchecks husable hokm
        (fun _ _ => .inr trivial) fun _ _ => trivial) ?_ fun _ => id)
    rintro r _ ⟨hr, -⟩
    exact hr
  · exact Refuses.derives (otcrypto_kdf_ctr_hmac_refuses haccepts) haccepts

end derivation

/-! ## Both derivations compute their standards -/

/-- An object of the address space: it does not begin at the null address, and the address behind it
is one. -/
def Placed (b : ByteBuf) : Prop := ∃ start : ℕ, 0 < start ∧ start + b.len.toNat < 2 ^ 32

theorem Placed.room {b : ByteBuf} (h : Placed b) : b.len ≠ BitVec.allOnes 32 := by
  obtain ⟨start, hpos, hlt⟩ := h
  rintro hall
  rw [hall, BitVec.toNat_allOnes] at hlt
  omega

/-- The unmasked keys that are derived are the first bytes of RFC 5869 and of the counter mode of
SP 800-108. -/
theorem kdfs_derive_standard_keys (H : HmacFunction) (stack : ℕ → u32) (s : Device) (okm : BlindedKey)
    (hokm : Allocated okm) :
    (∀ (ikm : BlindedKey) (salt info : ByteBuf), Placed info →
      Derives (otcrypto_hkdf H stack ikm salt info okm) s (HkdfAccepts stack ikm salt info okm)
        (rfc5869_hkdf H ikm.config.key_mode (digest_bytes ikm.config.key_mode) salt.bytes
          (key_bytes ikm) info.bytes okm.config.key_length.toNat)) ∧
    ∀ (kdk : BlindedKey) (label context : ByteBuf), HoldsShares kdk →
      Derives (otcrypto_kdf_ctr_hmac H stack kdk label context okm) s
        (KdfCtrAccepts kdk label context okm)
        (sp800_108_ctr H kdk.config.key_mode (digest_bytes kdk.config.key_mode) (key_bytes kdk)
          label.bytes context.bytes okm.config.key_length.toNat) :=
  ⟨fun ikm salt info hinfo => otcrypto_hkdf_derives H stack ikm okm salt info s hokm hinfo.room,
    fun kdk label context hkdk =>
      otcrypto_kdf_ctr_hmac_derives H stack kdk okm label context s hkdk hokm⟩

/-- The bytes of a digest as they lie in memory. -/
def sha256_bytes (data : List u8) : List u8 :=
  (Sha256.sha256 data).toList.flatMap fun w => le32 (bswap32 w)

/-- HMAC-SHA-256, with tags of zeros for the other modes. -/
def hmac_sha256 : HmacFunction where
  tag mode key msg :=
    if mode = kOtcryptoKeyModeHmacSha256 then zero_padded 8 (HmacOf.mac sha256_bytes 64 key msg)
    else if mode = kOtcryptoKeyModeHmacSha384 then List.replicate 12 0
    else List.replicate 16 0
  length_tag key msg h := by
    unfold digest_num_words_from_key_mode at h
    split_ifs at h with h256 h384 h512 <;> obtain rfl := Except.ok.inj h
    · rw [if_pos h256, length_zero_padded]
      rfl
    · rw [if_neg h256, if_pos h384]
      rfl
    · rw [if_neg h256, if_neg h384]
      rfl
  zero_padded key msg k h hle := by
    unfold block_words_from_key_mode at h
    split_ifs at h with h256 h384 h512 <;> obtain rfl := Except.ok.inj h
    · have hblock : key.length + k ≤ 64 := hle
      rw [if_pos h256, if_pos h256, HmacOf.mac_append_zeros hblock]
    · rw [if_neg h256, if_neg h256]
    · rw [if_neg h256, if_neg h256]

/-- A key of `len` bytes for HMAC-SHA-256. -/
def sample_key (len : u32) : BlindedKey :=
  with_keyblob (local_key (fun _ => 0) (hmac_key_config kOtcryptoKeyModeHmacSha256 len))
    ⟨.keyblob, 0, BitVec.ofNat 32⟩

theorem usable_sample_key (len : u32) : UsableKey (sample_key len) :=
  usable_with_keyblob (Option.some_ne_none _) rfl rfl rfl rfl (holdsShares_local_key _ _ _).ge

def sample_bytes (bytes : List u8) (h : bytes.length < 2 ^ 32) : ByteBuf :=
  ⟨some bytes, BitVec.ofNat 32 bytes.length, fun _ hxs => by
    obtain rfl := Option.some.inj hxs
    rw [BitVec.toNat_ofNat, Nat.mod_eq_of_lt h]⟩

/-- Both derivations with a short key, label and context accept, and derive what the standards do.
-/
theorem kdfs_derive_standard_keys_sha256 :
    Derives (otcrypto_hkdf hmac_sha256 (fun _ => 0) (sample_key 20) (sample_bytes [1, 2] (by decide))
        (sample_bytes [3] (by decide)) (sample_key 30)) ⟨⟨fun _ => 7, 0⟩, []⟩
      (HkdfAccepts (fun _ => 0) (sample_key 20) (sample_bytes [1, 2] (by decide))
        (sample_bytes [3] (by decide)) (sample_key 30))
      (rfc5869_hkdf hmac_sha256 kOtcryptoKeyModeHmacSha256 32 [1, 2] (key_bytes (sample_key 20)) [3]
        30) ∧
    Derives (otcrypto_kdf_ctr_hmac hmac_sha256 (fun _ => 0) (sample_key 20)
        (sample_bytes [1, 2] (by decide)) (sample_bytes [3] (by decide)) (sample_key 30))
      ⟨⟨fun _ => 7, 0⟩, []⟩
      (KdfCtrAccepts (sample_key 20) (sample_bytes [1, 2] (by decide))
        (sample_bytes [3] (by decide)) (sample_key 30))
      (sp800_108_ctr hmac_sha256 kOtcryptoKeyModeHmacSha256 32 (key_bytes (sample_key 20)) [1, 2] [3]
        30) ∧
    HkdfAccepts (fun _ => 0) (sample_key 20) (sample_bytes [1, 2] (by decide))
      (sample_bytes [3] (by decide)) (sample_key 30) ∧
    KdfCtrAccepts (sample_key 20) (sample_bytes [1, 2] (by decide))
      (sample_bytes [3] (by decide)) (sample_key 30) := by
  have hallocated : Allocated (sample_key 30) := by
    unfold Allocated
    decide
  have husable := usable_sample_key 20
  have hboth :=
    kdfs_derive_standard_keys hmac_sha256 (fun _ => 0) ⟨⟨fun _ => 7, 0⟩, []⟩ (sample_key 30) hallocated
  refine ⟨hboth.1 _ _ _ ⟨1, by decide, by decide⟩, hboth.2 _ _ _ husable.holds,
    ⟨8, rfl, ?_, husable.length, ?_⟩, ⟨8, ?_, husable.check, husable.length⟩⟩
  · decide +kernel
  · decide
  · decide +kernel

/-! ## Bounds -/

/-- In every run that keeps its power no place is touched but those of the arrays. -/
def StaysInBounds {α : Type} (p : Proc Device CryptoError α) : Prop :=
  ∀ m : Machine Device, m.mem.touched = [] → m.Under (· ≠ .lost) →
    ∀ x ∈ (p m).2.mem.touched, x.Inside

theorem stays_in_bounds_iff {α : Type} {p : Proc Device CryptoError α} {places : List Touch}
    (h : ∀ (P : Touch → Prop) (s : Device), Noted [] P s → (∀ x ∈ places, P x) →
      Guarded p s (fun _ t => t.touched = s.touched ++ places) (Noted [] P)) :
    StaysInBounds p ↔ ∀ x ∈ places, x.Inside := by
  constructor
  · intro hstays
    let m : Machine Device := Machine.on ⟨⟨fun _ => 0, 0⟩, []⟩ fun _ => .done
    have hclean : Noted [] (fun _ => True) m.mem := fun x hx => absurd hx (List.not_mem_nil)
    obtain ⟨r, m', hrun, htouched, -⟩ :=
      (h (fun _ => True) m.mem hclean fun _ _ => trivial).does.run (m := m) rfl fun _ => rfl
    have hin := hstays m rfl fun _ => Fate.noConfusion
    rw [hrun, htouched] at hin
    exact hin
  · intro hplaces m hm hpower x hx
    have hclean : Noted [] Touch.Inside m.mem := by
      intro y hy
      rw [hm] at hy
      exact absurd hy List.not_mem_nil
    obtain ⟨r, -, htouched⟩ | ⟨e, -, hnoted⟩ := (h _ _ hclean hplaces).run rfl hpower
    · rw [htouched, hm] at hx
      exact hplaces x hx
    · exact (hnoted x hx).resolve_left List.not_mem_nil

/-- Places from `start` on lie in the array when the last one does. -/
theorem places_inside_iff {a : Words} {start n : ℕ} :
    (∀ x ∈ a.places start n, x.Inside) ↔ n = 0 ∨ start + n ≤ a.len := by
  have hmem : (∀ x ∈ a.places start n, x.Inside) ↔ ∀ i, start ≤ i → i < start + n → i < a.len := by
    simp only [Words.places, List.mem_map, List.mem_range'_1, forall_exists_index, and_imp]
    constructor
    · intro h i hlo hhi
      exact h _ i hlo hhi rfl
    · rintro h _ i hlo hhi rfl
      exact h i hlo hhi
  rw [hmem]
  constructor
  · intro h
    by_cases hn : n = 0
    · exact .inl hn
    · have hlast := h (start + n - 1) (by omega) (by omega)
      exact .inr (by omega)
  · rintro (rfl | hle) i hlo hhi <;> omega

theorem inside_append_iff {xs ys : List Touch} : (∀ x ∈ xs ++ ys, x.Inside) ↔
    (∀ x ∈ xs, x.Inside) ∧ ∀ x ∈ ys, x.Inside := List.forall_mem_append

section bounds

variable {okm : BlindedKey} {d : u32} {a : Words}

/-- The mask is as long as a digest, and one word of it is read for every word of the output. The
keyblob is as long as the output needs. -/
theorem keyblob_places_inside_iff (hlen : okm.keyblob_length.toNat = 4 * (2 * okm_words okm))
    (ha : okm_words okm ≤ a.len) :
    (∀ x ∈ keyblob_places a okm d, x.Inside) ↔ okm_words okm ≤ d.toNat := by
  have hblob : (keyblob_words okm).len = 2 * okm_words okm := by
    rw [keyblob_words, hlen, Nat.mul_div_cancel_left _ (by decide)]
  simp only [keyblob_places, masked_places, shares_places, inside_append_iff, places_inside_iff, hblob]
  omega

theorem turns_inside_iff {f : ℕ → List Touch} {len : ℕ}
    (hf : ∀ i, (∀ x ∈ f i, x.Inside) ↔ (i + 1) * d.toNat ≤ len) (n : ℕ) :
    (∀ x ∈ (List.range' 0 n).flatMap f, x.Inside) ↔ n * d.toNat ≤ len := by
  have hall : (∀ x ∈ (List.range' 0 n).flatMap f, x.Inside) ↔ ∀ i < n, (i + 1) * d.toNat ≤ len := by
    simp only [List.mem_flatMap, List.mem_range'_1, forall_exists_index, and_imp, zero_add]
    constructor
    · intro h i hi
      exact (hf i).mp fun x hx => h x i (Nat.zero_le i) hi hx
    · intro h x i _ hi hx
      exact (hf i).mpr (h i hi) x hx
  rw [hall]
  constructor
  · intro h
    cases n with
    | zero =>
        rw [Nat.zero_mul]
        exact Nat.zero_le len
    | succ n => exact h n (Nat.lt_succ_self n)
  · intro h i hi
    exact (Nat.mul_le_mul_right _ hi).trans h

/-- The turns of the expansion write whole digests. -/
theorem expand_places_inside_iff (hd : 0 < d.toNat) (n : ℕ) :
    (∀ x ∈ expand_places a d.toNat 0 n, x.Inside) ↔ n * d.toNat ≤ a.len := by
  refine turns_inside_iff (fun i => ?_) n
  have hnext : (i + 1) * d.toNat = i * d.toNat + d.toNat := Nat.succ_mul i d.toNat
  rw [turn_places, inside_append_iff, places_inside_iff, hnext]
  by_cases hi : i = 0
  · rw [if_pos hi]
    simp [hd.ne']
  · have hprev : (i - 1) * d.toNat + d.toNat = i * d.toNat := by
      rw [← Nat.succ_mul, Nat.succ_eq_add_one, Nat.sub_add_cancel (Nat.pos_of_ne_zero hi)]
    rw [if_neg hi, places_inside_iff, hprev]
    omega

theorem counter_places_inside_iff (hd : 0 < d.toNat) (n : ℕ) :
    (∀ x ∈ counter_places a d.toNat 0 n, x.Inside) ↔ n * d.toNat ≤ a.len := by
  refine turns_inside_iff (fun i => ?_) n
  rw [places_inside_iff, Nat.succ_mul]
  omega

/-- The array of the expansion has room for the words of the output, and the turns fill whole
digests. -/
theorem hkdf_places_inside_iff (hd : 0 < d.toNat)
    (hlen : okm.keyblob_length.toNat = 4 * (2 * okm_words okm)) :
    (∀ x ∈ hkdf_places okm d, x.Inside) ↔ okm_words okm = 0 ∨ okm_words okm = d.toNat := by
  rw [hkdf_places, inside_append_iff, expand_places_inside_iff hd,
    keyblob_places_inside_iff hlen le_rfl]
  dsimp only
  constructor
  · rintro ⟨hturns, hmask⟩
    by_cases hzero : okm_words okm = 0
    · exact .inl hzero
    · have hone : 1 ≤ okm_turns okm d := Nat.div_pos (by omega) hd
      have hmul : d.toNat ≤ okm_turns okm d * d.toNat := Nat.le_mul_of_pos_left _ hone
      exact .inr (by omega)
  · rintro (hzero | hall)
    · have hnone : okm_turns okm d = 0 := by
        rw [okm_turns, hzero]
        exact Nat.div_eq_of_lt (by omega)
      rw [hnone, hzero]
      omega
    · have hone : okm_turns okm d = 1 := by
        rw [okm_turns, hall]
        exact Nat.div_eq_of_lt_le (by omega) (by omega)
      rw [hone, hall]
      omega

/-- The array of the counter mode has room for whole digests, so that only the mask is left. -/
theorem kdf_ctr_places_inside_iff (hd : 0 < d.toNat)
    (hlen : okm.keyblob_length.toNat = 4 * (2 * okm_words okm)) :
    (∀ x ∈ kdf_ctr_places okm d, x.Inside) ↔ okm_words okm ≤ d.toNat := by
  have hmod := Nat.mod_lt (okm_words okm) hd
  have hroom : okm_turns okm d * d.toNat ≤ output_key_material_len okm d := by
    have hsplit := Nat.div_add_mod (okm_words okm) d.toNat
    have hnext : d.toNat * (okm_words okm / d.toNat + 1) =
        d.toNat * (okm_words okm / d.toNat) + d.toNat := Nat.mul_succ _ _
    have hturns : okm_turns okm d ≤ okm_words okm / d.toNat + 1 := by
      rw [okm_turns, ← Nat.add_div_right _ hd]
      exact Nat.div_le_div_right (by omega)
    have hmul := Nat.mul_le_mul_right d.toNat hturns
    rw [Nat.mul_comm (okm_words okm / d.toNat + 1)] at hmul
    rw [output_key_material_len]
    omega
  have hwords : okm_words okm ≤ output_key_material_len okm d := by
    rw [output_key_material_len]
    omega
  rw [kdf_ctr_places, inside_append_iff, counter_places_inside_iff hd,
    keyblob_places_inside_iff hlen hwords]
  exact and_iff_right hroom

end bounds

section derivations

variable {H : HmacFunction} {stack : ℕ → u32} {prk kdk okm : BlindedKey}
  {info label context : ByteBuf} {d : u32}

/-- The arguments pass the checks of the expansion and, where there is something to expand, those
that HMAC makes of the key. -/
def HkdfExpandAccepts (prk : BlindedKey) (info : ByteBuf) (okm : BlindedKey) (d : u32) : Prop :=
  hkdf_expand_checks prk info okm = .ok d ∧ (0 < okm_words okm → check_key prk = .ok ())

theorem HkdfExpandAccepts.usable (h : HkdfExpandAccepts prk info okm d) (hprk : Allocated prk)
    (hwords : 0 < okm_words okm) : UsableKey prk := by
  have hok := expandChecks_of_ok h.1
  obtain ⟨B, hmode⟩ := hmacMode_of_digest hok.digest
  have hmasked : keyblob_ensure_xor_masked prk.config = .ok () :=
    xor_masked_iff.mpr ⟨hok.prk.hw_backed, .inr (.inl hok.prk.type)⟩
  have hsmall : okm_words prk ≤ 32 := by
    have hd := hmode.digest_le.trans hmode.block_le
    rw [okm_words, hok.prk.key_length, hmode.toNat_digest_bytes]
    omega
  have hlen := length_okm_words hprk hmasked hok.prk.keyblob_length (by omega)
  refine ⟨h.2 hwords, if_pos hok.prk.keyblob_length, hok.low, ?_⟩
  rw [HoldsShares, hlen, share_words_eq hmasked]

theorem hkdf_expand_in_bounds_iff (hinfo : Placed info) (hprk : Allocated prk)
    (hokm : Allocated okm) (haccepts : HkdfExpandAccepts prk info okm d) :
    StaysInBounds (otcrypto_hkdf_expand H stack prk info okm) ↔
      okm_words okm = 0 ∨ okm_words okm = d.toNat := by
  have hok := expandChecks_of_ok haccepts.1
  obtain ⟨B, hmode⟩ := hmacMode_of_digest hok.digest
  have hturns : okm_turns okm d ≤ 255 := by
    have hle := hok.iterations
    rw [gt_iff_lt, BitVec.lt_def, toNat_num_iterations hmode] at hle
    exact Nat.not_lt.mp hle
  have hsmall : okm_words okm ≤ 255 * 32 := (okm_words_le okm hmode.digest_pos).trans
    (Nat.mul_le_mul hturns (hmode.digest_le.trans hmode.block_le))
  have hlen := toNat_keyblob_length (xor_masked_iff.mp hok.masked).1 hok.keyblob_length
    (share_words_eq hok.masked) (by omega)
  rw [← hkdf_places_inside_iff hmode.digest_pos hlen]
  refine stays_in_bounds_iff fun P s hs hP => ?_
  exact Guarded.mono (otcrypto_hkdf_expand_exact haccepts.1 (haccepts.usable hprk) hokm hinfo.room
    hs hP) (fun _ _ h => h.2) fun _ => id

theorem kdf_ctr_in_bounds_iff (hkdk : HoldsShares kdk) (hokm : Allocated okm)
    (hdigest : digest_num_words_from_key_mode kdk.config.key_mode = .ok d)
    (haccepts : KdfCtrAccepts kdk label context okm) :
    StaysInBounds (otcrypto_kdf_ctr_hmac H stack kdk label context okm) ↔
      okm_words okm ≤ d.toNat := by
  have husable := haccepts.usable hkdk
  obtain ⟨d', hchecks, -, -⟩ := haccepts
  have hok := kdfCtrChecks_of_ok hchecks
  obtain rfl := Except.ok.inj (hdigest.symm.trans hok.digest)
  obtain ⟨B, hmode⟩ := hmacMode_of_digest hok.digest
  have hsmall : 8 * okm_words okm < 2 ^ 32 := by
    have hbits := hok.bits
    rw [okm_words]
    omega
  have hlen := toNat_keyblob_length (xor_masked_iff.mp hok.masked).1 hok.keyblob_length
    (share_words_eq hok.masked) hsmall
  rw [← kdf_ctr_places_inside_iff hmode.digest_pos hlen]
  refine stays_in_bounds_iff fun P s hs hP => ?_
  exact Guarded.mono (otcrypto_kdf_ctr_hmac_exact hchecks husable hokm hs hP) (fun _ _ h => h.2)
    fun _ => id

/-- The places that the derivations touch lie in their arrays when the output is one digest, or
nothing, for HKDF, and when it is at most one digest for the counter mode. -/
theorem kdfs_in_bounds_iff (H : HmacFunction) (stack : ℕ → u32) (okm : BlindedKey) (d : u32)
    (hokm : Allocated okm) :
    (∀ (prk : BlindedKey) (info : ByteBuf), Placed info → Allocated prk →
      HkdfExpandAccepts prk info okm d →
      (StaysInBounds (otcrypto_hkdf_expand H stack prk info okm) ↔
        okm_words okm = 0 ∨ okm_words okm = d.toNat)) ∧
    ∀ (kdk : BlindedKey) (label context : ByteBuf), HoldsShares kdk →
      digest_num_words_from_key_mode kdk.config.key_mode = .ok d →
      KdfCtrAccepts kdk label context okm →
      (StaysInBounds (otcrypto_kdf_ctr_hmac H stack kdk label context okm) ↔
        okm_words okm ≤ d.toNat) :=
  ⟨fun _ _ hinfo hprk haccepts => hkdf_expand_in_bounds_iff hinfo hprk hokm haccepts,
    fun _ _ _ hkdk hdigest haccepts => kdf_ctr_in_bounds_iff hkdk hokm hdigest haccepts⟩

/-- 32 bytes of output are one digest. -/
theorem kdfs_in_bounds_32 :
    StaysInBounds (otcrypto_hkdf_expand hmac_sha256 (fun _ => 0) (sample_key 32)
        (sample_bytes [3] (by decide)) (sample_key 32)) ∧
      StaysInBounds (otcrypto_kdf_ctr_hmac hmac_sha256 (fun _ => 0) (sample_key 20)
        (sample_bytes [1, 2] (by decide)) (sample_bytes [3] (by decide)) (sample_key 32)) := by
  have hallocated : Allocated (sample_key 32) := by
    unfold Allocated
    decide
  have hboth := kdfs_in_bounds_iff hmac_sha256 (fun _ => 0) (sample_key 32) 8 hallocated
  have husable := usable_sample_key 20
  refine ⟨(hboth.1 _ _ ⟨1, by decide, by decide⟩ hallocated
      ⟨?_, fun _ => (usable_sample_key 32).check⟩).mpr (.inr rfl),
    (hboth.2 _ _ _ husable.holds rfl ⟨8, ?_, husable.check, husable.length⟩).mpr (by decide)⟩
  all_goals decide +kernel

/-- Of 48 bytes the last four words of the second digest do not fit, and the mask ends after eight
words. -/
theorem kdfs_overrun_48 :
    (HkdfExpandAccepts (sample_key 32) (sample_bytes [3] (by decide)) (sample_key 48) 8 ∧
      ¬StaysInBounds (otcrypto_hkdf_expand hmac_sha256 (fun _ => 0) (sample_key 32)
        (sample_bytes [3] (by decide)) (sample_key 48))) ∧
    KdfCtrAccepts (sample_key 20) (sample_bytes [1, 2] (by decide)) (sample_bytes [3] (by decide))
        (sample_key 48) ∧
      ¬StaysInBounds (otcrypto_kdf_ctr_hmac hmac_sha256 (fun _ => 0) (sample_key 20)
        (sample_bytes [1, 2] (by decide)) (sample_bytes [3] (by decide)) (sample_key 48)) := by
  have hallocated : Allocated (sample_key 48) := by
    unfold Allocated
    decide
  have hkey : Allocated (sample_key 32) := by
    unfold Allocated
    decide
  have husable := usable_sample_key 20
  have hexpand : HkdfExpandAccepts (sample_key 32) (sample_bytes [3] (by decide)) (sample_key 48) 8 :=
    ⟨by decide, fun _ => (usable_sample_key 32).check⟩
  have hctr : KdfCtrAccepts (sample_key 20) (sample_bytes [1, 2] (by decide))
      (sample_bytes [3] (by decide)) (sample_key 48) :=
    ⟨8, by decide +kernel, husable.check, husable.length⟩
  refine ⟨⟨hexpand, ?_⟩, hctr, ?_⟩
  · rw [hkdf_expand_in_bounds_iff ⟨1, by decide, by decide⟩ hkey hallocated hexpand]
    decide
  · rw [kdf_ctr_in_bounds_iff husable.holds hallocated rfl hctr]
    decide

end derivations

end IbexFirmware.Kdf
