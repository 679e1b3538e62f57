/-
AES in its basic modes for callers (`impl/aes.c`).

A call constructs the key, which gives a key in shares a fresh mask and loads any other into its
slot, and sends the text through the pipeline (`otcrypto_aes_impl_does`). Above the lowest level of
security the output goes through the other direction as well and has to come out as the input. It
always does, for every mode, padding and direction. But the IV is copied first, even in ECB mode,
which takes no IV and is allowed to have NULL for it: `otcrypto_aes_exact` has both.
-/
import IbexFirmware.AesModes

set_option autoImplicit false

namespace IbexFirmware.Aes

open Bytes PowerFail Crypto HardenedMemory Splice BlockMode

/-! ## The code -/

/-- The cipher mode that a key is for. -/
def aes_mode_of_key_mode (key_mode : u32) : Option u32 :=
  if key_mode = kOtcryptoKeyModeAesEcb then some kAesCipherModeEcb
  else if key_mode = kOtcryptoKeyModeAesCbc then some kAesCipherModeCbc
  else if key_mode = kOtcryptoKeyModeAesCfb then some kAesCipherModeCfb
  else if key_mode = kOtcryptoKeyModeAesOfb then some kAesCipherModeOfb
  else if key_mode = kOtcryptoKeyModeAesCtr then some kAesCipherModeCtr
  else none

/-- What is on the stack where nothing is written to it: the IV in ECB mode, the checksum of a key
that is loaded from its slot, and the number of blocks for an operation that does not exist. -/
structure Uninitialised where
  aes_iv : Block
  checksum : u32
  input_nblocks : ℕ

section code

variable (hw : Hardware) (uninit : Uninitialised)

/-- Where the key comes from. -/
def aes_key_load (addr : ℕ) (blinded_key : BlindedKey) : Proc Device CryptoError Unit :=
  if blinded_key.config.hw_backed = kHardenedBoolTrue then do
    let diversification ← keyblob_to_keymgr_diversification blinded_key
    keymgr_generate_key_aes hw diversification
  else if blinded_key.config.hw_backed = kHardenedBoolFalse then do
    keyblob_remask addr
    let s ← Proc.get
    let _share1 ← Proc.ofExcept (keyblob_to_shares (s.keys addr))
    pure ()
  else Proc.throw .OTCRYPTO_BAD_ARGS

def aes_key_finish (addr : ℕ) (config : KeyConfig) (mode : u32) :
    Proc Device CryptoError AesKey := do
  let s ← Proc.get
  let aes_key : AesKey :=
    ⟨mode, config.hw_backed, keyblob_share_num_words config, addr, uninit.checksum⟩
  hardened_check (integrity_blinded_key_check (s.keys addr) = kHardenedBoolTrue)
  if aes_key.sideload = kHardenedBoolFalse then
    pure { aes_key with checksum := aes_key_integrity_checksum s aes_key }
  else pure aes_key

def aes_key_construct (addr : ℕ) (aes_mode : u32) : Proc Device CryptoError AesKey := do
  let s ← Proc.get
  let blinded_key := s.keys addr
  if integrity_blinded_key_check blinded_key ≠ kHardenedBoolTrue then
    Proc.throw .OTCRYPTO_BAD_ARGS
  else do
    aes_key_load hw addr blinded_key
    if blinded_key.keyblob = none ∨
        aes_mode_of_key_mode blinded_key.config.key_mode ≠ some aes_mode then
      Proc.throw .OTCRYPTO_BAD_ARGS
    else aes_key_finish uninit addr blinded_key.config aes_mode

def input_nblocks_get (aes_operation : u32) (len : ℕ) (aes_padding : u32) :
    Except CryptoError ℕ :=
  if aes_operation = kOtcryptoAesOperationEncrypt then num_padded_blocks_get len aes_padding
  else if aes_operation = kOtcryptoAesOperationDecrypt then
    if len % kAesBlockNumBytes ≠ 0 then .error .OTCRYPTO_BAD_ARGS
    else .ok (len / kAesBlockNumBytes)
  else .ok uninit.input_nblocks

def missing (key : Option ℕ) (iv : Word32Buf) (aes_mode : u32) (input output : Option (List u8)) :
    Prop :=
  key = none ∨ (aes_mode ≠ kAesCipherModeEcb ∧ iv.data = none) ∨ input = none ∨ output = none

instance (key : Option ℕ) (iv : Word32Buf) (aes_mode : u32) (input output : Option (List u8)) :
    Decidable (missing key iv aes_mode input output) := instDecidableOr

/-- The operation for the control register. -/
def encrypt_of (aes_operation : u32) : u32 :=
  if aes_operation = kOtcryptoAesOperationDecrypt then kHardenedBoolFalse else kHardenedBoolTrue

/-- What is done when the key has been constructed, up to the IV for the caller. -/
def aes_run (aes_key : AesKey) (aes_iv : Block) (aes_operation : u32) (input : List u8)
    (padding : u32) (input_nblocks : ℕ) (output : List u8) :
    Proc Pipeline CryptoError (Block × List u8) := do
  aes_mode_begin aes_operation aes_key aes_iv
  let output ← cipher_blocks hw input padding input_nblocks output
  zoom aes_block (aes_verify_ctrl_reg aes_key (encrypt_of aes_operation))
  let aes_iv ← aes_mode_end
  zoom aes_block keymgr_sideload_clear_aes
  pure (aes_iv, output)

/-- The IV and the output buffer afterwards. The lengths of buffers are those of the texts in them,
and NULL is `none`. -/
def otcrypto_aes_impl (key : Option ℕ) (iv : Word32Buf) (aes_mode aes_operation : u32)
    (cipher_input : Option (List u8)) (aes_padding : u32) (cipher_output : Option (List u8)) :
    Proc Pipeline CryptoError (List u32 × List u8) :=
  if missing key iv aes_mode cipher_input cipher_output then Proc.throw .OTCRYPTO_BAD_ARGS
  else do
    let input := cipher_input.getD []
    let output := cipher_output.getD []
    zoom aes_block entropy_complex_check
    let input_nblocks ←
      Proc.ofExcept (input_nblocks_get uninit aes_operation input.length aes_padding)
    if input.length = 0 ∨ output.length ≠ input_nblocks * kAesBlockNumBytes % 2 ^ 32 then
      Proc.throw .OTCRYPTO_BAD_ARGS
    else if aes_mode ≠ kAesCipherModeEcb ∧ iv.len ≠ 4 then Proc.throw .OTCRYPTO_BAD_ARGS
    else do
      let aes_iv := if aes_mode = kAesCipherModeEcb then uninit.aes_iv else Block.of_words iv.words
      let aes_key ← zoom aes_block (aes_key_construct hw uninit (key.getD 0) aes_mode)
      let r ← aes_run hw aes_key aes_iv aes_operation input aes_padding input_nblocks output
      pure (if aes_mode = kAesCipherModeEcb then iv.words else r.1.words, r.2)

/-- The operation that undoes another one, and the length of its output. -/
def inverse_operation (aes_operation aes_padding : u32) (len : ℕ) : Except CryptoError (u32 × ℕ) :=
  if aes_operation = kOtcryptoAesOperationEncrypt then .ok (kOtcryptoAesOperationDecrypt, len)
  else do
    let len_bytes ← otcrypto_aes_padded_plaintext_length len aes_padding
    pure (kOtcryptoAesOperationEncrypt, len_bytes)

/-- The copy of the IV is four words from where its pointer points, whatever its length. The stack of
the second operation is another one, and has its output buffer on it. -/
def otcrypto_aes (uninit' : Uninitialised) (output_buf : ℕ → u8) (key : Option ℕ)
    (iv : Word32Buf) (aes_mode aes_operation : u32) (cipher_input : Option (List u8))
    (aes_padding : u32) (cipher_output : Option (List u8)) :
    Proc Pipeline CryptoError (List u32 × List u8) :=
  if missing key iv aes_mode cipher_input cipher_output then Proc.throw .OTCRYPTO_BAD_ARGS
  else do
    zoom aes_block entropy_complex_check
    let p ← Proc.get
    if (p.dev.keys (key.getD 0)).config.security_level = kOtcryptoKeySecurityLevelLow then
      otcrypto_aes_impl hw uninit key iv aes_mode aes_operation cipher_input aes_padding
        cipher_output
    -- the IV is copied before the mode is looked at
    else if iv.data = none then Proc.trap
    else do
      let r ← otcrypto_aes_impl hw uninit key iv aes_mode aes_operation cipher_input aes_padding
        cipher_output
      let inverse ← Proc.ofExcept (inverse_operation aes_operation aes_padding r.2.length)
      let recomputed ← otcrypto_aes_impl hw uninit' key iv aes_mode inverse.1 (some r.2)
        aes_padding (some ((List.range inverse.2).map output_buf))
      let input := cipher_input.getD []
      zoom aes_block (hardened_check (input = recomputed.2.take input.length))
      pure r

end code

/-! ## Keys -/

/-- The words of the AES key that a key structure stands for. -/
def mode_words (hw : Hardware) (k : BlindedKey) : List u32 :=
  if k.config.hw_backed = kHardenedBoolTrue then
    (hw.aes_key (diversification_of k.words k.config.key_mode)).take
      (keyblob_share_num_words k.config).toNat
  else unmasked k.words (keyblob_share_num_words k.config).toNat

/-- A key structure for a mode, which stands for `K`. -/
structure ModeKey (hw : Hardware) (mode : u32) (K : List u32) (k : BlindedKey) : Prop where
  integrity : integrity_blinded_key_check k = kHardenedBoolTrue
  mode : aes_mode_of_key_mode k.config.key_mode = some mode
  keyblob : k.keyblob ≠ none
  stored : Stored k
  key_len : keyblob_share_num_words k.config = 4 ∨ keyblob_share_num_words k.config = 6 ∨
    keyblob_share_num_words k.config = 8
  fits : k.keyblob_length.toNat ≤ 4 * k.words.length
  words : mode_words hw k = K

section keys

variable {hw : Hardware} {uninit : Uninitialised} {mode : u32} {K : List u32} {k : BlindedKey}
  {s : Device} {addr : ℕ}

theorem type_of_mode {key_mode : u32} (h : aes_mode_of_key_mode key_mode = some mode) :
    key_type key_mode = kOtcryptoKeyTypeAes ∧ known_mode mode := by
  unfold aes_mode_of_key_mode at h
  split_ifs at h with h1 h2 h3 h4 h5
  all_goals
    obtain rfl := Option.some.inj h
    subst key_mode
    decide

/-- A key in shares: its keyblob holds the two of them. -/
theorem ModeKey.shares (h : ModeKey hw mode K k) (hsoft : k.config.hw_backed = kHardenedBoolFalse) :
    2 * (keyblob_share_num_words k.config).toNat ≤ k.words.length ∧
      keyblob_to_shares k = .ok (keyblob_share_num_words k.config) := by
  exact ⟨h.stored.two_shares hsoft h.key_len h.fits, h.stored.to_shares hsoft⟩

/-- The key with a fresh mask is a key for the same words. -/
theorem ModeKey.remask (h : ModeKey hw mode K k) (hsoft : k.config.hw_backed = kHardenedBoolFalse)
    (mask : List u32) : ModeKey hw mode K (BlindedKey.update_checksum
      (BlindedKey.xor_shares k (keyblob_share_num_words k.config).toNat mask)) := by
  have hwords := words_xor_shares h.keyblob (keyblob_share_num_words k.config).toNat mask
  have htwo := (h.shares hsoft).1
  have hne : ¬k.config.hw_backed = kHardenedBoolTrue := by
    rw [hsoft]
    decide
  refine ⟨?_, h.mode, keyblob_xor_shares h.keyblob _ mask, h.stored, h.key_len, ?_, ?_⟩
  · exact (integrity_blinded_key_check_iff _).mpr
      ⟨((integrity_blinded_key_check_iff _).mp h.integrity).1, rfl⟩
  · refine le_of_le_of_eq h.fits (congrArg (4 * ·) ?_)
    rw [← length_xor_shares mask htwo, ← hwords]
    rfl
  · rw [← h.words, mode_words, mode_words]
    refine (if_neg hne).trans (Eq.trans ?_ (if_neg hne).symm)
    rw [← unmasked_xor_shares htwo, ← hwords]
    rfl

/-- The key for the driver, but for its checksum where the checksum is not looked at. -/
structure Constructed (hw : Hardware) (mode : u32) (K : List u32) (addr : ℕ) (key : AesKey)
    (s : Device) : Prop where
  held : ModeKey hw mode K (s.keys addr)
  mode : key.mode = mode
  valid : KeyValid s { key with checksum := aes_key_integrity_checksum s key } K
  checksum : key.sideload = kHardenedBoolFalse → key.checksum = aes_key_integrity_checksum s key

/-- A key in software stays where it is, and a sideloaded one is made in the slot. -/
theorem aes_key_load_does (h : ModeKey hw mode K (s.keys addr)) :
    Does (aes_key_load hw addr (s.keys addr)) s fun _ t =>
      ModeKey hw mode K (t.keys addr) ∧ (t.keys addr).config = (s.keys addr).config ∧
        ((s.keys addr).config.hw_backed = kHardenedBoolTrue → t.aes_slot.key.getD [] =
          hw.aes_key (diversification_of (t.keys addr).words (t.keys addr).config.key_mode)) := by
  have hne : ¬kHardenedBoolFalse = kHardenedBoolTrue := by decide
  unfold aes_key_load
  rcases h.stored with ⟨hhw, hlen⟩ | ⟨hsoft, -⟩
  · rw [if_pos hhw, keyblob_to_keymgr_diversification, if_neg (not_or.mpr
      ⟨not_not.mpr hhw, h.keyblob⟩), if_neg (not_not.mpr hlen)]
    refine Does.bind (R := fun d t => t = s ∧
      d = diversification_of (s.keys addr).words (s.keys addr).config.key_mode)
        (Does.step_bind (Does.pure ⟨rfl, rfl⟩)) ?_
    rintro _ _ ⟨rfl, rfl⟩
    exact Does.step_bind (Does.step_bind (Does.step ⟨h, rfl, fun _ => rfl⟩))
  · have htype := (type_of_mode h.mode).1
    have hmasked : keyblob_ensure_xor_masked (s.keys addr).config = .ok () := by
      rw [keyblob_ensure_xor_masked, if_neg (not_not.mpr hsoft), if_pos (.inl htype)]
    rw [if_neg (by rw [hsoft]; exact hne), if_pos hsoft]
    refine Does.bind (R := fun _ t => ModeKey hw mode K (t.keys addr) ∧
      (t.keys addr).config = (s.keys addr).config) ?_ ?_
    · refine Does.get (Does.ofExcept_bind hmasked (Does.step_bind ?_))
      refine Does.ofExcept_bind (h.shares hsoft).2 (memshred_bind fun mask entropy _ => ?_)
      refine Does.modify ?_
      rw [Device.set_key_self]
      exact ⟨h.remask hsoft mask, rfl⟩
    · rintro _ t ⟨ht, hconfig⟩
      have hsoft' : (t.keys addr).config.hw_backed = kHardenedBoolFalse := by rw [hconfig, hsoft]
      refine Does.get (Does.ofExcept_bind (ht.shares hsoft').2 ?_)
      refine Does.pure ⟨ht, hconfig, fun hhw => ?_⟩
      exact absurd (hsoft.symm.trans hhw) hne

/-- The key the driver gets is the caller's, in whichever mode was asked for. -/
theorem aes_key_construct_does (h : ModeKey hw mode K (s.keys addr)) :
    Does (aes_key_construct hw uninit addr mode) s
      fun key t => Constructed hw mode K addr key t := by
  have hne : ¬kHardenedBoolFalse = kHardenedBoolTrue := by decide
  have hne' : ¬kHardenedBoolTrue = kHardenedBoolFalse := by decide
  refine Does.get ?_
  rw [if_neg (not_not.mpr h.integrity)]
  refine Does.bind (aes_key_load_does h) ?_
  rintro _ t ⟨ht, hconfig, hslot⟩
  rw [if_neg (not_or.mpr ⟨h.keyblob, not_not.mpr h.mode⟩)]
  refine Does.get (hardened_check_bind ht.integrity ?_)
  rw [← hconfig] at hslot ⊢
  rcases ht.stored.imp And.left And.left with hhw | hsoft
  · rw [if_neg (by rw [hhw]; exact hne')]
    refine Does.pure ⟨ht, rfl, ⟨.inl hhw, ht.key_len,
      fun hsoft => absurd (hhw.symm.trans hsoft) hne', rfl, ?_⟩,
      fun hsoft => absurd (hhw.symm.trans hsoft) hne'⟩
    rw [← ht.words, mode_words, if_pos hhw, ← hslot hhw]
    exact if_pos hhw
  · rw [if_pos hsoft]
    refine Does.pure ⟨ht, rfl, ⟨.inr hsoft, ht.key_len, fun _ => (ht.shares hsoft).1, rfl, ?_⟩,
      fun _ => rfl⟩
    have hside : ¬(t.keys addr).config.hw_backed = kHardenedBoolTrue := by
      rw [hsoft]
      exact hne
    rw [← ht.words, mode_words, if_neg hside]
    exact if_neg hside

/-- The checksum of a key in its slot makes no difference. -/
theorem Constructed.begins {key : AesKey} (h : Constructed hw mode K addr key s) (iv : Block)
    {encrypt : u32} (henc : encrypt = kHardenedBoolTrue ∨ encrypt = kHardenedBoolFalse) :
    Does (aes_begin key iv encrypt) s fun _ t =>
      Started s t key K encrypt ∧ (key.mode ≠ kAesCipherModeEcb → t.regs.iv = iv) := by
  have hknown : known_mode key.mode := h.mode ▸ (type_of_mode h.held.mode).2
  have hsame : aes_begin key iv encrypt =
      aes_begin { key with checksum := aes_key_integrity_checksum s key } iv encrypt := by
    rcases h.valid.sideload with hside | hside
    · have hne : key.sideload ≠ kHardenedBoolFalse := by
        rw [show key.sideload = kHardenedBoolTrue from hside]
        decide
      have hwrite : ∀ key' : AesKey, key'.sideload = key.sideload →
          aes_write_key key' = hardened_check (key.sideload = kHardenedBoolTrue) := by
        intro key' hkey'
        rw [aes_write_key, hkey', if_pos hne]
      unfold aes_begin
      rw [hwrite key rfl, hwrite { key with checksum := aes_key_integrity_checksum s key } rfl]
      rfl
    · rw [← h.checksum hside]
  rw [hsame]
  refine (aes_begin_started h.valid hknown iv henc).mono ?_
  rintro _ t ⟨hstarted, hiv⟩
  exact ⟨⟨hstarted.kept, hstarted.ctrl, hstarted.active⟩, hiv⟩

end keys

/-! ## Texts -/

/-- Arguments that go together. -/
structure Accepted (aes_operation padding : u32) (input : List u8) : Prop where
  operation : aes_operation = kOtcryptoAesOperationEncrypt ∨
    aes_operation = kOtcryptoAesOperationDecrypt
  scheme : padding = kOtcryptoAesPaddingPkcs7 ∨ padding = kOtcryptoAesPaddingIso9797M2 ∨
    padding = kOtcryptoAesPaddingNull
  input_ne : input ≠ []
  full : aes_operation = kOtcryptoAesOperationDecrypt ∨ padding = kOtcryptoAesPaddingNull →
    input.length % 16 = 0

/-- The text through the mode, from the IV on. -/
def cipher_run (E : Equiv.Perm (BitVec 128)) (aes_mode aes_operation : u32) (iv : BitVec 128)
    (text : List u8) : BitVec 128 × List (BitVec 128) :=
  run ((mode_automaton E aes_mode).step (aes_operation = kOtcryptoAesOperationEncrypt)) iv
    (Gcm.blocks text)

section texts

variable {aes_operation padding : u32} {input : List u8}

theorem decrypt_ne_encrypt : kOtcryptoAesOperationDecrypt ≠ kOtcryptoAesOperationEncrypt := by
  decide

/-- The padding of an input that is accepted fills up its last block, and the code counts its blocks
right. -/
theorem Accepted.text (h : Accepted aes_operation padding input) (uninit : Uninitialised) :
    Supplies input padding (cipher_text aes_operation padding input) ∧
      (cipher_text aes_operation padding input).length ≤ input.length + 16 ∧
      input_nblocks_get uninit aes_operation input.length padding =
        .ok ((cipher_text aes_operation padding input).length / 16) := by
  have hplain : input.length % 16 = 0 → Supplies input padding input :=
    fun hfull => ⟨[], (List.append_nil input).symm, hfull, .inl rfl⟩
  unfold cipher_text input_nblocks_get num_padded_blocks_get kAesBlockNumBytes
  rcases h.operation with rfl | rfl
  · rw [if_pos rfl, if_pos rfl]
    by_cases hnull : padding = kOtcryptoAesPaddingNull
    · have hfull := h.full (.inr hnull)
      have hnil : padding_bytes padding input.length = [] := by
        rw [hnull]
        rfl
      rw [hnil, List.append_nil, if_pos hnull, if_neg (by omega)]
      exact ⟨hplain hfull, by omega, rfl⟩
    · have hpads := (or_assoc.mpr h.scheme).resolve_right hnull
      have hlen := @length_padding_bytes padding input.length hpads
      rw [if_neg hnull, List.length_append, hlen]
      refine ⟨⟨_, rfl, ?_, .inr ⟨rfl, hpads⟩⟩, by omega, congrArg Except.ok (by omega)⟩
      rw [List.length_append, hlen]
      omega
  · have hfull := h.full (.inl rfl)
    rw [if_neg decrypt_ne_encrypt, if_neg decrypt_ne_encrypt, if_pos rfl, if_neg (not_not.mpr hfull)]
    exact ⟨hplain hfull, by omega, rfl⟩

end texts

/-! ## Calls -/

section calls

variable {hw : Hardware} {uninit uninit' : Uninitialised} {output_buf : ℕ → u8}
  {mode aes_operation padding : u32} {K : List u32} {addr : ℕ} {key : AesKey} {p : Pipeline}
  {input output : List u8} {iv : Word32Buf}

theorem aes_mode_begin_does (h : Constructed hw mode K addr key p.dev)
    (hop : aes_operation = kOtcryptoAesOperationEncrypt ∨
      aes_operation = kOtcryptoAesOperationDecrypt) (aes_iv : Block) :
    Does (aes_mode_begin aes_operation key aes_iv) p fun _ q => ∃ c,
      Flow p.dev key K (encrypt_of aes_operation) c [] q ∧
        (mode ≠ kAesCipherModeEcb → c = aes_iv.val) := by
  have hbegin : ∀ encrypt, encrypt = kHardenedBoolTrue ∨ encrypt = kHardenedBoolFalse →
      Does (do
        zoom aes_block (aes_begin key aes_iv encrypt)
        Proc.modify fun p => { p with in_flight := [] }) p fun _ q => ∃ c,
          Flow p.dev key K encrypt c [] q ∧ (mode ≠ kAesCipherModeEcb → c = aes_iv.val) := by
    intro encrypt henc
    refine Does.bind (R := fun _ q => Started p.dev q.dev key K encrypt ∧
      (key.mode ≠ kAesCipherModeEcb → q.dev.regs.iv = aes_iv)) (Does.zoom (h.begins aes_iv henc)) ?_
    rintro _ q ⟨hstarted, hiv⟩
    refine Does.modify ⟨_, ⟨hstarted.kept, hstarted.ctrl, hstarted.active, rfl, rfl⟩,
      fun hmode => ?_⟩
    exact congrArg Block.val (hiv (by rw [h.mode]; exact hmode))
  unfold aes_mode_begin
  rcases hop with rfl | rfl
  · rw [if_pos rfl]
    exact hbegin _ (.inl rfl)
  · rw [if_neg decrypt_ne_encrypt, if_pos rfl]
    exact hbegin _ (.inr rfl)

/-- The text has been put through the mode. -/
structure Ciphered (hw : Hardware) (mode aes_operation : u32) (K : List u32) (addr : ℕ)
    (iv : BitVec 128) (text : List u8) (iv' : BitVec 128) (output : List u8) (q : Pipeline) :
    Prop where
  held : ModeKey hw mode K (q.dev.keys addr)
  chained : mode ≠ kAesCipherModeEcb → iv' = (cipher_run (hw.cipher K) mode aes_operation iv text).1
  written : output = (cipher_run (hw.cipher K) mode aes_operation iv text).2.flatMap Gcm.bytes

theorem Ciphered.length {v0 v1 : BitVec 128} {text : List u8}
    (h : Ciphered hw mode aes_operation K addr v0 text v1 output p) (hmod : text.length % 16 = 0) :
    output.length = text.length := by
  rw [h.written, length_flatMap_bytes, cipher_run, length_run, Gcm.length_blocks]
  omega

theorem mode_step_eq (hop : aes_operation = kOtcryptoAesOperationEncrypt ∨
    aes_operation = kOtcryptoAesOperationDecrypt) (h : key.mode = mode) (E : Equiv.Perm (BitVec 128)) :
    mode_step E (key.ctrl (encrypt_of aes_operation)) =
      (mode_automaton E mode).step (aes_operation = kOtcryptoAesOperationEncrypt) := by
  subst h
  rcases hop with rfl | rfl
  · rfl
  · rfl

/-- In ECB mode the IV is whatever was in the registers, and makes no difference. -/
theorem cipher_run_ecb (E : Equiv.Perm (BitVec 128)) (aes_operation : u32) (c iv : BitVec 128)
    (text : List u8) : (cipher_run E kAesCipherModeEcb aes_operation c text).2 =
      (cipher_run E kAesCipherModeEcb aes_operation iv text).2 :=
  run_ecb E _ c iv _

/-- The device is started, the blocks go through it, and the key is unloaded again. -/
theorem aes_run_does (h : Constructed hw mode K addr key p.dev)
    (ha : Accepted aes_operation padding input)
    (hout : output.length = (cipher_text aes_operation padding input).length) {aes_iv : Block}
    {v0 : BitVec 128} (hv0 : mode ≠ kAesCipherModeEcb → aes_iv.val = v0) :
    Does (aes_run hw key aes_iv aes_operation input padding
      ((cipher_text aes_operation padding input).length / 16) output) p fun r q =>
        Ciphered hw mode aes_operation K addr v0 (cipher_text aes_operation padding input)
          r.1.val r.2 q := by
  obtain ⟨hsupplies, -, -⟩ := ha.text ⟨Block.zero, 0, 0⟩
  generalize cipher_text aes_operation padding input = text at hsupplies hout ⊢
  have hpos : 0 < text.length / 16 := by
    obtain ⟨tail, htext, hmod, -⟩ := hsupplies
    have hin := List.length_pos_iff.mpr ha.input_ne
    have hlen := congrArg List.length htext
    rw [List.length_append] at hlen
    omega
  refine Does.bind (aes_mode_begin_does h ha.operation aes_iv) ?_
  rintro _ q ⟨c, hflow, hc⟩
  refine Does.bind (cipher_blocks_does hsupplies hpos hflow hout) ?_
  rintro output' u ⟨hu, rfl⟩
  rw [mode_step_eq ha.operation h.mode] at hu ⊢
  have hctrl_reg := compute_ctrl_reg_eq h.valid (h.mode ▸ (type_of_mode h.held.mode).2)
    (show encrypt_of aes_operation = kHardenedBoolTrue ∨ _ = kHardenedBoolFalse from
      (ite_eq_or_eq _ _ _).symm)
  refine Does.bind (R := fun _ v => v = u) (Does.zoom (Does.ofExcept_bind hctrl_reg
    (Does.get (hardened_check_does hu.ctrl rfl)))) ?_
  rintro _ v rfl
  refine Does.bind (R := fun aes_iv v' => aes_iv = v.dev.regs.iv ∧ Kept p.dev v'.dev)
    (Does.get (Does.bind (R := fun _ v' => Kept p.dev v'.dev) (Does.zoom (aes_end_does hu.kept))
      fun _ _ hv' => Does.pure ⟨rfl, hv'⟩)) ?_
  rintro _ v' ⟨rfl, hv'⟩
  refine Does.bind (R := fun _ w => w.dev.keys = v'.dev.keys)
    (Does.zoom (Does.step_bind (Does.step_bind (Does.step rfl)))) fun _ w hw' => Does.pure ?_
  have hheld : ModeKey hw mode K (w.dev.keys addr) := by
    rw [hw', hv'.keys]
    exact h.held
  by_cases hecb : mode = kAesCipherModeEcb
  -- nothing is written to the registers for the IV in this mode
  · subst hecb
    exact ⟨hheld, fun hne => absurd rfl hne, congrArg (List.flatMap Gcm.bytes) (cipher_run_ecb ..)⟩
  · rw [← hv0 hecb, ← hc hecb]
    exact ⟨hheld, fun _ => hu.iv, rfl⟩

/-! ### The other direction -/

theorem blocks_flatMap_bytes (ys : List (BitVec 128)) (xs : List u8) :
    Gcm.blocks (ys.flatMap Gcm.bytes ++ xs) = ys ++ Gcm.blocks xs := by
  induction ys with
  | nil => rfl
  | cons y ys ih =>
      rw [List.flatMap_cons, List.append_assoc, Gcm.blocks_append (by rw [Gcm.length_bytes]),
        Gcm.blocks_bytes, ih, List.singleton_append, List.cons_append]

theorem flatMap_bytes_blocks (n : ℕ) {xs : List u8} (h : xs.length = 16 * n) :
    (Gcm.blocks xs).flatMap Gcm.bytes = xs := by
  induction n generalizing xs with
  | zero =>
      obtain rfl := List.eq_nil_of_length_eq_zero h
      rfl
  | succ n ih =>
      have htake : (xs.take 16).length = 16 := by
        rw [List.length_take]
        omega
      have hdrop : (xs.drop 16).length = 16 * n := by
        rw [List.length_drop]
        omega
      rw [← List.take_append_drop 16 xs, Gcm.blocks_append (by rw [htake]), List.flatMap_append,
        ih hdrop, Gcm.blocks_of_le (by omega) (by omega), List.flatMap_singleton,
        Gcm.bytes_of_bytes htake]

/-- The other direction gives the text back, whatever is behind it. -/
theorem cipher_run_inverse (E : Equiv.Perm (BitVec 128)) {aes_operation inverse : u32}
    (hinv : decide (inverse = kOtcryptoAesOperationEncrypt) =
      !decide (aes_operation = kOtcryptoAesOperationEncrypt)) (mode : u32) (v0 : BitVec 128)
    {text : List u8} (hmod : text.length % 16 = 0) (tail : List u8) :
    ∃ rest, (cipher_run E mode inverse v0 ((cipher_run E mode aes_operation v0 text).2.flatMap
      Gcm.bytes ++ tail)).2.flatMap Gcm.bytes = text ++ rest := by
  unfold cipher_run
  rw [blocks_flatMap_bytes, run_append, hinv, Automaton.run_run, List.flatMap_append,
    flatMap_bytes_blocks (text.length / 16) (by omega)]
  exact ⟨_, rfl⟩

/-- The output can be handed back, and is the text of the inverse operation. -/
theorem inverse_operation_eq (ha : Accepted aes_operation padding input) (hne : output ≠ [])
    (hmod : output.length % 16 = 0) (hfits : output.length + 16 < 2 ^ 32 ∨
      aes_operation = kOtcryptoAesOperationEncrypt ∧ output.length < 2 ^ 32) :
    ∃ inverse, inverse_operation aes_operation padding output.length =
        .ok (inverse, (cipher_text inverse padding output).length) ∧
      Accepted inverse padding output ∧ (cipher_text inverse padding output).length < 2 ^ 32 ∧
      (∃ tail, cipher_text inverse padding output = output ++ tail) ∧
      decide (inverse = kOtcryptoAesOperationEncrypt) =
        !decide (aes_operation = kOtcryptoAesOperationEncrypt) := by
  unfold inverse_operation
  rcases ha.operation with rfl | rfl
  · have htext : cipher_text kOtcryptoAesOperationDecrypt padding output = output :=
      if_neg decrypt_ne_encrypt
    refine ⟨kOtcryptoAesOperationDecrypt, ?_⟩
    rw [htext]
    exact ⟨if_pos rfl, ⟨.inr rfl, ha.scheme, hne, fun _ => hmod⟩, by omega,
      ⟨[], (List.append_nil _).symm⟩, rfl⟩
  · have hinv : Accepted kOtcryptoAesOperationEncrypt padding output :=
      ⟨.inl rfl, ha.scheme, hne, fun _ => hmod⟩
    obtain ⟨⟨tail, htext, hmod', -⟩, hle, hblocks⟩ := hinv.text ⟨Block.zero, 0, 0⟩
    have hlt := hfits.resolve_right fun h => decrypt_ne_encrypt h.1
    rw [input_nblocks_get, if_pos rfl] at hblocks
    refine ⟨kOtcryptoAesOperationEncrypt, ?_, hinv, by omega, ⟨tail, htext⟩, rfl⟩
    rw [if_neg decrypt_ne_encrypt, otcrypto_aes_padded_plaintext_length, hblocks]
    refine congrArg (fun n => Except.ok (kOtcryptoAesOperationEncrypt, n)) ?_
    rw [kAesBlockNumBytes, Nat.div_mul_cancel (Nat.dvd_of_mod_eq_zero hmod'),
      Nat.mod_eq_of_lt (by omega)]

theorem present_of (hiv : mode ≠ kAesCipherModeEcb → iv.data ≠ none ∧ iv.len = 4) :
    ¬missing (some addr) iv mode (some input) (some output) := by
  rintro (h | ⟨hmode, h⟩ | h | h)
  · cases h
  · exact (hiv hmode).1 h
  · cases h
  · cases h

/-! ### A key -/

/-- A cipher that adds the first word of its key. -/
def adding_hardware : Hardware :=
  ⟨fun K => Equiv.addRight ((K.getD 0 0).setWidth 128), fun _ => [], fun _ => []⟩

/-- An AES-128 key for CBC mode, above the lowest level of security. -/
def cbc_key : BlindedKey :=
  BlindedKey.update_checksum
    ⟨⟨kOtcryptoLibVersion1, kOtcryptoKeyModeAesCbc, 16, kHardenedBoolFalse, kHardenedBoolFalse,
      kOtcryptoKeySecurityLevelHigh⟩, 32, some [1, 2, 3, 4, 5, 6, 7, 8], 0⟩

theorem cbc_key_stands : ModeKey adding_hardware kAesCipherModeCbc
    [1 ^^^ 5, 2 ^^^ 6, 3 ^^^ 7, 4 ^^^ 8] cbc_key :=
  { integrity := by decide +kernel
    mode := rfl
    keyblob := nofun
    stored := .inr ⟨rfl, rfl⟩
    key_len := .inl rfl
    fits := by decide
    words := rfl }

/-- Three blocks and two bytes. -/
def sample_text : List u8 := (List.range 50).map (BitVec.ofNat 8)

theorem sample_text_accepted :
    Accepted kOtcryptoAesOperationEncrypt kOtcryptoAesPaddingPkcs7 sample_text :=
  ⟨.inl rfl, .inl rfl, by decide, by decide⟩

def sample_iv : Word32Buf := ⟨some [0x01020304, 0x05060708, 0x090a0b0c, 0x0d0e0f10], 4, by simp⟩

theorem sample_iv_data : sample_iv.data ≠ none := Option.some_ne_none _

def nothing_on_stack : Uninitialised := ⟨Block.zero, 0, 0⟩

/-- A call for CBC mode with the padding of PKCS #7. -/
def sample_call (aes_operation : u32) (input : List u8) :
    Proc Pipeline CryptoError (List u32 × List u8) :=
  otcrypto_aes adding_hardware nothing_on_stack nothing_on_stack (fun _ => 0) (some 0) sample_iv
    kAesCipherModeCbc aes_operation (some input) kOtcryptoAesPaddingPkcs7
    (some (List.replicate 64 0))

/-! ### Calls that are accepted -/

section accepted

variable (hkey : ModeKey hw mode K (p.dev.keys addr)) (ha : Accepted aes_operation padding input)
  (hout : output.length = (cipher_text aes_operation padding input).length)
  (hiv : mode ≠ kAesCipherModeEcb → iv.data ≠ none ∧ iv.len = 4)

include hkey ha hout hiv

theorem otcrypto_aes_impl_does (hfits : (cipher_text aes_operation padding input).length < 2 ^ 32) :
    Does (otcrypto_aes_impl hw uninit (some addr) iv mode aes_operation (some input) padding
      (some output)) p fun r q => Ciphered hw mode aes_operation K addr (Block.of_words iv.words).val
        (cipher_text aes_operation padding input) (Block.of_words r.1).val r.2 q := by
  obtain ⟨⟨tail, -, hmod, -⟩, -, hnblocks⟩ := ha.text uninit
  unfold otcrypto_aes_impl
  rw [if_neg (present_of hiv)]
  refine Does.bind (R := fun _ q => q = p) (Does.zoom (Does.step rfl)) ?_
  rintro _ q rfl
  refine Does.ofExcept_bind hnblocks ?_
  dsimp only [Option.getD_some]
  rw [if_neg (not_or.mpr ⟨fun h => ha.input_ne (List.eq_nil_of_length_eq_zero h),
    not_not.mpr (by rw [hout, kAesBlockNumBytes, Nat.div_mul_cancel (Nat.dvd_of_mod_eq_zero hmod),
      Nat.mod_eq_of_lt hfits])⟩), if_neg fun h => h.2 (hiv h.1).2]
  refine Does.bind (R := fun key u => Constructed hw mode K addr key u.dev)
    (Does.zoom (aes_key_construct_does hkey)) fun key u hu => ?_
  have hv0 : mode ≠ kAesCipherModeEcb → (if mode = kAesCipherModeEcb then uninit.aes_iv
      else Block.of_words iv.words).val = (Block.of_words iv.words).val := fun hecb => by
    rw [if_neg hecb]
  refine Does.bind (aes_run_does hu ha hout hv0) fun r u' hr =>
    Does.pure ⟨hr.held, fun hecb => ?_, hr.written⟩
  rw [if_neg hecb]
  exact hr.chained hecb

/-- A call that is accepted puts the text through the mode, and its check of the result passes. -/
theorem otcrypto_aes_does (hfits : input.length + 16 < 2 ^ 32)
    (hsafe : (p.dev.keys addr).config.security_level = kOtcryptoKeySecurityLevelLow ∨
      iv.data ≠ none) :
    Does (otcrypto_aes hw uninit uninit' output_buf (some addr) iv mode aes_operation (some input)
      padding (some output)) p fun r q => Ciphered hw mode aes_operation K addr
        (Block.of_words iv.words).val (cipher_text aes_operation padding input)
        (Block.of_words r.1).val r.2 q := by
  obtain ⟨⟨tail, htext, hmod, -⟩, hle, -⟩ := ha.text uninit
  have hfirst := @otcrypto_aes_impl_does hw uninit mode aes_operation padding K addr p input output iv
    hkey ha hout hiv (by omega)
  unfold otcrypto_aes
  rw [if_neg (present_of hiv)]
  refine Does.bind (R := fun _ q => q = p) (Does.zoom (Does.step rfl)) ?_
  rintro _ q rfl
  refine Does.get ?_
  dsimp only [Option.getD_some]
  split_ifs with hlow hnull
  · exact hfirst
  · exact absurd hnull (hsafe.resolve_left hlow)
  · refine Does.bind hfirst fun r u hr => ?_
    have hlen := hr.length hmod
    have hpos := List.length_pos_iff.mpr ha.input_ne
    have htextlen := congrArg List.length htext
    rw [List.length_append] at htextlen
    obtain ⟨inverse, hinverse, hinv, hfits', ⟨tail', htail'⟩, hflip⟩ := inverse_operation_eq ha
      (show r.2 ≠ [] from List.length_pos_iff.mp (by omega)) (by omega) (by
        rcases ha.operation with h | rfl
        · exact .inr ⟨h, by omega⟩
        · rw [cipher_text, if_neg decrypt_ne_encrypt] at hlen
          exact .inl (by omega))
    refine Does.ofExcept_bind hinverse ?_
    refine Does.bind (otcrypto_aes_impl_does hr.held hinv
      (by rw [List.length_map, List.length_range]) hiv hfits') ?_
    intro recomputed v hv
    refine Does.bind (R := fun _ v' => v' = v) (Does.zoom (hardened_check_does ?_ rfl)) ?_
    · obtain ⟨rest, hrest⟩ := cipher_run_inverse (hw.cipher K) hflip mode
        (Block.of_words iv.words).val hmod tail'
      rw [hv.written, htail', hr.written, hrest, htext, List.append_assoc, List.take_left]
    · rintro _ v' rfl
      exact Does.pure ⟨hv.held, hr.chained, hr.written⟩

/-- A call that is accepted either puts the text through the mode, or it is for ECB mode without an
IV and for a key above the lowest level of security, and reads through NULL. -/
theorem otcrypto_aes_exact (hfits : input.length + 16 < 2 ^ 32) :
    ((p.dev.keys addr).config.security_level = kOtcryptoKeySecurityLevelLow ∨ iv.data ≠ none →
      Does (otcrypto_aes hw uninit uninit' output_buf (some addr) iv mode aes_operation (some input)
        padding (some output)) p fun r q => Ciphered hw mode aes_operation K addr
          (Block.of_words iv.words).val (cipher_text aes_operation padding input)
          (Block.of_words r.1).val r.2 q) ∧
    ((p.dev.keys addr).config.security_level ≠ kOtcryptoKeySecurityLevelLow → iv.data = none →
      Traps (otcrypto_aes hw uninit uninit' output_buf (some addr) iv mode aes_operation (some input)
        padding (some output)) p) := by
  refine ⟨otcrypto_aes_does hkey ha hout hiv hfits, fun hlevel hnull => ?_⟩
  unfold otcrypto_aes
  rw [if_neg (present_of hiv)]
  refine Traps.bind (R := fun _ q => q = p) (Does.zoom (Does.step rfl)) ?_
  rintro _ q rfl
  refine Traps.get ?_
  rw [Option.getD_some, if_neg hlevel, if_pos hnull]
  exact Traps.trap

end accepted

/-- Four blocks, of which the last one is mostly padding. -/
theorem otcrypto_aes_exact_four_blocks :
    Does (sample_call kOtcryptoAesOperationEncrypt sample_text)
      ⟨Device.holding fun _ => cbc_key, []⟩ fun r _ => r.2 = [
        4, 2, 0, 2, 12, 2, 0, 2, 4, 2, 0, 2, 28, 2, 0, 6,
        20, 19, 18, 17, 24, 23, 22, 21, 28, 27, 26, 25, 0, 31, 30, 29,
        52, 50, 48, 50, 60, 50, 48, 50, 52, 50, 48, 50, 44, 50, 48, 54,
        4, 3, 62, 60, 50, 60, 62, 60, 58, 60, 62, 60, 34, 60, 62, 60] := by
  have h := (@otcrypto_aes_exact adding_hardware nothing_on_stack nothing_on_stack (fun _ => 0)
    kAesCipherModeCbc kOtcryptoAesOperationEncrypt kOtcryptoAesPaddingPkcs7 _ 0
    ⟨Device.holding fun _ => cbc_key, []⟩ sample_text (List.replicate 64 0) sample_iv cbc_key_stands
    sample_text_accepted rfl (fun _ => ⟨sample_iv_data, rfl⟩) (by decide)).1 (.inr sample_iv_data)
  exact h.mono fun _ _ h => h.written.trans (by decide +kernel)

/-- What is encrypted is decrypted again, with its padding. -/
theorem otcrypto_aes_round_trip {output' : List u8} (hkey : ModeKey hw mode K (p.dev.keys addr))
    (ha : Accepted kOtcryptoAesOperationEncrypt padding input) (hfits : input.length + 32 < 2 ^ 32)
    (hout : output.length = (cipher_text kOtcryptoAesOperationEncrypt padding input).length)
    (hout' : output'.length = output.length) (hnull : iv.data ≠ none)
    (hiv : mode ≠ kAesCipherModeEcb → iv.len = 4) :
    Does (do
      let r ← otcrypto_aes hw uninit uninit' output_buf (some addr) iv mode
        kOtcryptoAesOperationEncrypt (some input) padding (some output)
      otcrypto_aes hw uninit uninit' output_buf (some addr) iv mode kOtcryptoAesOperationDecrypt
        (some r.2) padding (some output')) p fun r' _ =>
          r'.2 = input ++ padding_bytes padding input.length := by
  obtain ⟨⟨tail, htext, hmod, -⟩, hle, -⟩ := ha.text uninit
  have hplain : ∀ text, cipher_text kOtcryptoAesOperationDecrypt padding text = text :=
    fun text => if_neg decrypt_ne_encrypt
  have hpos := List.length_pos_iff.mpr ha.input_ne
  have htextlen := congrArg List.length htext
  rw [List.length_append] at htextlen
  refine Does.bind (otcrypto_aes_does hkey ha hout (fun hecb => ⟨hnull, hiv hecb⟩) (by omega)
    (.inr hnull)) fun r q hr => ?_
  have hlen : r.2.length = (cipher_text kOtcryptoAesOperationEncrypt padding input).length :=
    hr.length hmod
  refine (otcrypto_aes_does hr.held ⟨.inr rfl, ha.scheme, List.length_pos_iff.mp (by omega),
    fun _ => by omega⟩ (by rw [hout', hout, hplain, hlen]) (fun hecb => ⟨hnull, hiv hecb⟩)
    (by omega) (.inr hnull)).mono fun r' q' hr' => ?_
  obtain ⟨rest, hrest⟩ := cipher_run_inverse (hw.cipher K)
    (show decide (kOtcryptoAesOperationDecrypt = kOtcryptoAesOperationEncrypt) =
      !decide (kOtcryptoAesOperationEncrypt = kOtcryptoAesOperationEncrypt) from rfl) mode
    (Block.of_words iv.words).val hmod []
  rw [List.append_nil, ← hr.written] at hrest
  have hback : r'.2 = cipher_text kOtcryptoAesOperationEncrypt padding input ++ rest := by
    rw [hr'.written, hplain, hrest]
  have hlen' := hr'.length (by rw [hplain, hlen]; exact hmod)
  have hnil : rest = [] := by
    rw [hback, List.length_append, hplain, hlen] at hlen'
    exact List.eq_nil_of_length_eq_zero (by omega)
  rw [hback, hnil, List.append_nil]
  exact if_pos rfl

/-- They come back with fourteen bytes of padding. -/
theorem otcrypto_aes_round_trip_four_blocks :
    Does (do
      let r ← sample_call kOtcryptoAesOperationEncrypt sample_text
      sample_call kOtcryptoAesOperationDecrypt r.2) ⟨Device.holding fun _ => cbc_key, []⟩
      fun r' _ => r'.2 = sample_text ++ List.replicate 14 14 :=
  otcrypto_aes_round_trip (p := ⟨Device.holding fun _ => cbc_key, []⟩) cbc_key_stands
    sample_text_accepted (by decide) rfl rfl sample_iv_data fun _ => rfl

end calls

end IbexFirmware.Aes
