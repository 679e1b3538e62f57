/-
Messages of AES-GCM in one call.

A call with arguments that pass its checks (`AcceptedArgs`) and with a key that stands for `K`
returns what the standard says (`otcrypto_aes_gcm_encrypt_guarded`,
`otcrypto_aes_gcm_decrypt_guarded`); any other call reports an error. Either way the key
structure stays valid and stands for the same words.

The full blocks of a plaintext are written before the tag is known, and when the tag is wrong
the last function zeroes its own output only, the bytes behind them. So a failed decryption
leaves zeros just where the full blocks of the ciphertext are the keystream
(`failed_decryption_zero_iff`).
-/
import IbexFirmware.AesGcmKey

set_option autoImplicit false

namespace IbexFirmware.Aes

open Bytes PowerFail Crypto HardenedMemory Splice Chunks Session

/-! ## Arguments -/

/-- Arguments that pass every check of a call for a whole message. -/
@[mk_iff]
structure AcceptedArgs (input : ByteBuf) (iv : Word32Buf) (aad : ByteBuf) (tag_len : u32)
    (auth_tag : Word32Buf) (output : ByteBuf) : Prop where
  iv_data : iv.data ≠ none
  iv_len : iv.len = 3 ∨ iv.len = 4
  tag_data : auth_tag.data ≠ none
  tag_len_check : aes_gcm_check_tag_length auth_tag.len tag_len = .ok ()
  aad_data : ¬ aad.dangling
  input_data : ¬ input.dangling
  output_data : ¬ output.dangling
  same_len : output.len = input.len

instance (input : ByteBuf) (iv : Word32Buf) (aad : ByteBuf) (tag_len : u32) (auth_tag : Word32Buf)
    (output : ByteBuf) : Decidable (AcceptedArgs input iv aad tag_len auth_tag output) :=
  decidable_of_iff _ (acceptedArgs_iff input iv aad tag_len auth_tag output).symm

section args

variable {input : ByteBuf} {iv : Word32Buf} {aad : ByteBuf} {tag_len : u32} {auth_tag : Word32Buf}
  {output : ByteBuf}

theorem words_iv_len (hdata : iv.data ≠ none) :
    (iv.words.length = 3 ∨ iv.words.length = 4) ↔ (iv.len = 3 ∨ iv.len = 4) := by
  rw [Word32Buf.length_words hdata, ← BitVec.toNat_inj, ← BitVec.toNat_inj]
  rfl

theorem tag_words_le {word_len : u32} (h : aes_gcm_check_tag_length word_len tag_len = .ok ()) :
    word_len.toNat ≤ 4 := by
  unfold aes_gcm_check_tag_length tag_bit_len at h
  split_ifs at h
  all_goals
    simp only [ne_eq, ite_not] at h
    split_ifs at h with hlen
    rw [hlen]
    decide

theorem ByteBuf.length_lt {b : ByteBuf} (h : ¬ b.dangling) : b.bytes.length < 2 ^ 32 := by
  rw [ByteBuf.length_bytes h]
  exact b.len.isLt

end args

/-! ## Results -/

section results

variable (E : BitVec 128 → BitVec 128)

/-- The ciphertext and the tag of an encryption by the cipher `E`. -/
def encrypted (tag_len : ℕ) (iv aad plaintext : List u8) : List u8 × List u32 :=
  let ciphertext := Gcm.gctr E (Gcm.inc32 (Gcm.initial_counter E iv)) plaintext
  (ciphertext, tag_words E tag_len iv aad ciphertext)

/-- What a decryption by the cipher `E` leaves in the buffer of the plaintext, and `*success`. -/
def decrypted (iv aad ciphertext : List u8) (tag : List u32) : List u8 × u32 :=
  if word_bytes tag = Gcm.tag E (4 * tag.length) iv aad ciphertext then
    (Gcm.gctr E (Gcm.inc32 (Gcm.initial_counter E iv)) ciphertext, kHardenedBoolTrue)
  else (next_output E iv [] ciphertext ++ List.replicate (rest 16 ciphertext).length 0,
    kHardenedBoolFalse)

end results

/-! ## Calls -/

section calls

variable {hw : Hardware} {config : KeyConfig} {K : List u32} {s : Device} {addr : ℕ}
  {input : ByteBuf} {iv : Word32Buf} {aad : ByteBuf} {tag_len : u32} {auth_tag : Word32Buf}
  {output : ByteBuf}

theorem aes_gcm_encrypt_guarded {key : AesKey} (hready : KeyReady s key K)
    (h : AcceptedArgs input iv aad tag_len auth_tag output) (local_ctx : AesGcmContext) :
    Guarded (aes_gcm_encrypt hw key iv.words input.bytes aad.bytes auth_tag.len.toNat local_ctx) s
      (fun r t => r = encrypted (hw.cipher K) auth_tag.len.toNat (word_bytes iv.words) aad.bytes
        input.bytes ∧ Kept s t) (Kept s) := by
  refine (aes_gcm_encrypt_frame hw _ _ _ _ _ _).guarded ((aes_gcm_encrypt_does hw hready
    ((words_iv_len h.iv_data).mpr h.iv_len) (ByteBuf.length_lt h.input_data)
    (ByteBuf.length_lt h.aad_data) (tag_words_le h.tag_len_check) local_ctx).mono ?_)
  rintro r _ ⟨-, -, hr⟩
  obtain ⟨hcipher, htag⟩ := Prod.mk.inj hr
  refine Prod.ext hcipher (word_bytes_injective ?_)
  rw [htag, encrypted, word_bytes_tag_words]

theorem aes_gcm_decrypt_guarded {key : AesKey} (hready : KeyReady s key K)
    (h : AcceptedArgs input iv aad tag_len auth_tag output) (local_ctx : AesGcmContext) :
    Guarded (aes_gcm_decrypt hw key iv.words input.bytes aad.bytes auth_tag.words local_ctx) s
      (fun r t => r = decrypted (hw.cipher K) (word_bytes iv.words) aad.bytes input.bytes
        auth_tag.words ∧ Kept s t) (Kept s) := by
  have htag : auth_tag.words.length ≤ 4 := by
    rw [Word32Buf.length_words h.tag_data]
    exact tag_words_le h.tag_len_check
  exact (aes_gcm_decrypt_frame hw _ _ _ _ _ _).guarded ((aes_gcm_decrypt_does hw hready
    ((words_iv_len h.iv_data).mpr h.iv_len) (ByteBuf.length_lt h.input_data)
    (ByteBuf.length_lt h.aad_data) htag local_ctx).mono fun _ _ hr => hr.2)

/-- An initialization vector of another length is rejected before anything is done. -/
theorem aes_gcm_init_refuses {key : AesKey} {iv : List u32} (hiv : ¬ (iv.length = 3 ∨ iv.length = 4))
    (ctx : AesGcmContext) : Refuses (aes_gcm_init hw key iv ctx) s (Kept s) := by
  unfold aes_gcm_init
  rw [if_pos (not_or.mp hiv)]
  exact Refuses.throw Kept.rfl

theorem otcrypto_aes_gcm_encrypt_guarded (h : KeyAt (Stands hw config K) addr s)
    (hargs : AcceptedArgs input iv aad tag_len auth_tag output) (local_ctx : AesGcmContext) :
    Guarded (otcrypto_aes_gcm_encrypt hw (some addr) input iv aad tag_len output auth_tag local_ctx) s
      (fun r t => r = encrypted (hw.cipher K) auth_tag.len.toNat (word_bytes iv.words) aad.bytes
        input.bytes ∧ KeyAt (Stands hw config K) addr t) (KeyAt (Stands hw config K) addr) := by
  unfold otcrypto_aes_gcm_encrypt
  dsimp only
  rw [if_neg (not_or.mpr ⟨hargs.iv_data, hargs.tag_data⟩)]
  refine memshred_guarded fun _ entropy => Guarded.step_bind ?_ h
  rw [if_neg (not_or.mpr ⟨hargs.aad_data, not_or.mpr ⟨hargs.output_data, hargs.input_data⟩⟩),
    if_neg (not_not.mpr hargs.same_len)]
  refine Guarded.ofExcept_bind hargs.tag_len_check ?_
  exact with_key_guarded h fun t key hready => aes_gcm_encrypt_guarded hready hargs local_ctx

theorem otcrypto_aes_gcm_decrypt_guarded (h : KeyAt (Stands hw config K) addr s)
    (hargs : AcceptedArgs input iv aad tag_len auth_tag output) (local_ctx : AesGcmContext) :
    Guarded (otcrypto_aes_gcm_decrypt hw (some addr) input iv aad tag_len auth_tag output local_ctx) s
      (fun r t => r = decrypted (hw.cipher K) (word_bytes iv.words) aad.bytes input.bytes
        auth_tag.words ∧ KeyAt (Stands hw config K) addr t) (KeyAt (Stands hw config K) addr) := by
  unfold otcrypto_aes_gcm_decrypt
  dsimp only
  rw [if_neg (not_or.mpr ⟨hargs.iv_data, hargs.tag_data⟩),
    if_neg (not_or.mpr ⟨hargs.aad_data, not_or.mpr ⟨hargs.input_data, hargs.output_data⟩⟩)]
  refine Guarded.step_bind (with_key_guarded h fun t key hready => ?_) h
  unfold decrypt_checked
  rw [if_neg (not_not.mpr hargs.same_len.symm)]
  exact Guarded.ofExcept_bind hargs.tag_len_check (aes_gcm_decrypt_guarded hready hargs local_ctx)

/-! ## Refused calls -/

/-- The checks in front of an encryption, for whatever `I` is to be kept. -/
theorem encrypt_checks_refuse {I : Device → Prop} (hI : ∀ t : Device, t.keys = s.keys → I t)
    (local_ctx : AesGcmContext)
    (hrest : ∀ t : Device, t.keys = s.keys → iv.data ≠ none →
      (iv.len = 3 ∨ iv.len = 4 → AcceptedArgs input iv aad tag_len auth_tag output) →
        Refuses (with_key hw addr fun key => aes_gcm_encrypt hw key iv.words input.bytes aad.bytes
          auth_tag.len.toNat local_ctx) t I) :
    Refuses (otcrypto_aes_gcm_encrypt hw (some addr) input iv aad tag_len output auth_tag local_ctx)
      s I := by
  unfold otcrypto_aes_gcm_encrypt
  refine Refuses.ite (fun _ => Refuses.throw (hI s rfl)) fun hdata => ?_
  refine Refuses.bind (R := fun _ t => t.keys = s.keys) ((memshred_entropy _).mono ?_ fun _ => id) ?_
  · rintro _ _ ⟨entropy, rfl⟩
    rfl
  intro _ t ht
  refine Refuses.step_bind (hI t ht) ?_
  refine Refuses.ite (fun _ => Refuses.throw (hI _ ht)) fun hdangling => ?_
  refine Refuses.ite (fun _ => Refuses.throw (hI _ ht)) fun hlen => ?_
  refine Refuses.ofExcept (hI _ ht) fun _ htag => ?_
  obtain ⟨hiv, htagdata⟩ := not_or.mp hdata
  obtain ⟨haad, hboth⟩ := not_or.mp hdangling
  obtain ⟨hout, hin⟩ := not_or.mp hboth
  exact hrest _ ht hiv fun hivlen =>
    ⟨hiv, hivlen, htagdata, htag, haad, hin, hout, not_not.mp hlen⟩

theorem decrypt_checks_refuse {I : Device → Prop} (hI : I s) (local_ctx : AesGcmContext)
    (hrest : iv.data ≠ none → auth_tag.data ≠ none → ¬ aad.dangling → ¬ input.dangling →
      ¬ output.dangling → Refuses (with_key hw addr fun key =>
        decrypt_checked hw key input iv aad tag_len auth_tag output local_ctx) s I) :
    Refuses (otcrypto_aes_gcm_decrypt hw (some addr) input iv aad tag_len auth_tag output local_ctx)
      s I := by
  unfold otcrypto_aes_gcm_decrypt
  refine Refuses.ite (fun _ => Refuses.throw hI) fun hdata => ?_
  refine Refuses.ite (fun _ => Refuses.throw hI) fun hdangling => ?_
  obtain ⟨hiv, htagdata⟩ := not_or.mp hdata
  obtain ⟨haad, hboth⟩ := not_or.mp hdangling
  obtain ⟨hin, hout⟩ := not_or.mp hboth
  exact Refuses.step_bind hI (hrest hiv htagdata haad hin hout)

theorem aes_gcm_encrypt_refuses {key : AesKey} (hiv : ¬ (iv.words.length = 3 ∨ iv.words.length = 4))
    (plaintext aad : List u8) (tag_len : ℕ) (ctx : AesGcmContext) :
    Refuses (aes_gcm_encrypt hw key iv.words plaintext aad tag_len ctx) s (Kept s) :=
  Refuses.bind_left (aes_gcm_init_refuses hiv _)

theorem aes_gcm_decrypt_refuses {key : AesKey} (hiv : ¬ (iv.words.length = 3 ∨ iv.words.length = 4))
    (ciphertext aad : List u8) (tag : List u32) (ctx : AesGcmContext) :
    Refuses (aes_gcm_decrypt hw key iv.words ciphertext aad tag ctx) s (Kept s) :=
  Refuses.bind_left (aes_gcm_init_refuses hiv _)

/-- Arguments that are not accepted. -/
theorem otcrypto_aes_gcm_encrypt_refuses (h : KeyAt (Stands hw config K) addr s)
    (hargs : ¬ AcceptedArgs input iv aad tag_len auth_tag output) (local_ctx : AesGcmContext) :
    Refuses (otcrypto_aes_gcm_encrypt hw (some addr) input iv aad tag_len output auth_tag local_ctx)
      s (KeyAt (Stands hw config K) addr) := by
  refine encrypt_checks_refuse (fun _ => h.congr) local_ctx fun t ht hiv hrest => ?_
  have hlen : ¬ (iv.words.length = 3 ∨ iv.words.length = 4) := fun hlen =>
    hargs (hrest ((words_iv_len hiv).mp hlen))
  exact with_key_refuses (h.congr ht) fun u key _ => aes_gcm_encrypt_refuses hlen _ _ _ _

theorem otcrypto_aes_gcm_decrypt_refuses (h : KeyAt (Stands hw config K) addr s)
    (hargs : ¬ AcceptedArgs input iv aad tag_len auth_tag output) (local_ctx : AesGcmContext) :
    Refuses (otcrypto_aes_gcm_decrypt hw (some addr) input iv aad tag_len auth_tag output local_ctx)
      s (KeyAt (Stands hw config K) addr) := by
  refine decrypt_checks_refuse h local_ctx fun hiv htag haad hin hout => ?_
  refine with_key_refuses h fun t key _ => ?_
  refine Refuses.ite (fun _ => Refuses.throw Kept.rfl) fun hlen => ?_
  refine Refuses.ofExcept Kept.rfl fun _ hcheck => ?_
  -- Only the length of the initialization vector is left to be wrong.
  refine aes_gcm_decrypt_refuses (fun hivlen => hargs ?_) _ _ _ _
  exact ⟨hiv, (words_iv_len hiv).mp hivlen, htag, hcheck, haad, hin, hout, (not_not.mp hlen).symm⟩

/-- A key whose checksum does not fit. -/
theorem otcrypto_aes_gcm_encrypt_refuses_key
    (h : integrity_blinded_key_check (s.keys addr) ≠ kHardenedBoolTrue) (local_ctx : AesGcmContext) :
    Refuses (otcrypto_aes_gcm_encrypt hw (some addr) input iv aad tag_len output auth_tag local_ctx)
      s fun t => t.keys = s.keys := by
  refine encrypt_checks_refuse (fun _ ht => ht) local_ctx fun t ht _ _ => ?_
  exact (with_key_refuses_key (by rwa [ht])).mono fun u hu => hu.trans ht

theorem otcrypto_aes_gcm_decrypt_refuses_key
    (h : integrity_blinded_key_check (s.keys addr) ≠ kHardenedBoolTrue) (local_ctx : AesGcmContext) :
    Refuses (otcrypto_aes_gcm_decrypt hw (some addr) input iv aad tag_len auth_tag output local_ctx)
      s fun t => t.keys = s.keys :=
  decrypt_checks_refuse (I := fun t => t.keys = s.keys) rfl local_ctx fun _ _ _ _ _ =>
    with_key_refuses_key h

end calls

/-! ## Wrong tags -/

/-- Whenever the call returns and reports a wrong tag, all `n` bytes of the plaintext are zero. -/
def ZeroOnFailure (p : Proc Device CryptoError (List u8 × u32)) (s : Device) (n : ℕ) : Prop :=
  ∀ (m m' : Machine Device) (r : List u8 × u32), m.mem = s → p m = (.ret r, m') →
    r.2 ≠ kHardenedBoolTrue → r.1 = List.replicate n 0

section zeros

variable {E : BitVec 128 → BitVec 128} {iv aad ciphertext : List u8} {tag : List u32}

/-- Under the keystream, zeros are the keystream. -/
theorem gctr_eq_zero_iff (icb : BitVec 128) (xs : List u8) :
    Gcm.gctr E icb xs = List.replicate xs.length 0 ↔
      xs = Gcm.gctr E icb (List.replicate xs.length 0) := by
  constructor
  · intro hzero
    rw [← hzero, Gcm.gctr_gctr]
  · intro hstream
    exact Gcm.gctr_injective ((Gcm.gctr_gctr xs).trans hstream)

/-- With a wrong tag, the bytes behind the full blocks are zero. -/
theorem decrypted_zero_iff : ((decrypted E iv aad ciphertext tag).2 ≠ kHardenedBoolTrue →
      (decrypted E iv aad ciphertext tag).1 = List.replicate ciphertext.length 0) ↔
    word_bytes tag = Gcm.tag E (4 * tag.length) iv aad ciphertext ∨
      full 16 ciphertext = Gcm.gctr E (Gcm.inc32 (Gcm.initial_counter E iv))
        (List.replicate (full 16 ciphertext).length 0) := by
  unfold decrypted
  by_cases hright : word_bytes tag = Gcm.tag E (4 * tag.length) iv aad ciphertext
  · rw [if_pos hright]
    exact iff_of_true (fun hne => absurd rfl hne) (Or.inl hright)
  · have hfalse : kHardenedBoolFalse ≠ kHardenedBoolTrue := by decide
    have hblocks : next_output E iv [] ciphertext =
        Gcm.gctr E (Gcm.inc32 (Gcm.initial_counter E iv)) (full 16 ciphertext) := by
      rw [next_output, rest_nil, List.nil_append]
      rfl
    have hlen : ciphertext.length = (full 16 ciphertext).length + (rest 16 ciphertext).length := by
      rw [← List.length_append, full_append_rest]
    rw [if_neg hright, or_iff_right hright, ← gctr_eq_zero_iff, hblocks]
    rw [hlen, List.replicate_add, List.append_left_inj]
    exact ⟨fun hzero => hzero hfalse, fun hzero _ => hzero⟩

/-- The runs of a call that has one result. -/
theorem zeroOnFailure_iff {p : Proc Device CryptoError (List u8 × u32)} {s : Device}
    {r₀ : List u8 × u32} {n : ℕ} (hp : Does p s fun r _ => r = r₀) :
    ZeroOnFailure p s n ↔ (r₀.2 ≠ kHardenedBoolTrue → r₀.1 = List.replicate n 0) := by
  constructor
  · intro hzero hfailed
    obtain ⟨r, m', hrun, hr, -⟩ := hp.run rfl (Machine.sound_under s)
    subst hr
    exact hzero _ m' r rfl hrun hfailed
  · intro hzero m m' r hm hrun hfailed
    obtain rfl := hp.of_ret hm hrun
    exact hzero hfailed

end zeros

/-- A decryption that reports a wrong tag leaves zeros exactly if the full blocks of the
ciphertext are the keystream. -/
theorem failed_decryption_zero_iff {hw : Hardware} {config : KeyConfig} {K : List u32} {s : Device}
    {addr : ℕ} (h : KeyAt (Stands hw config K) addr s) {ciphertext : ByteBuf} {iv : Word32Buf}
    {aad : ByteBuf} {tag_len : u32} {auth_tag : Word32Buf} {plaintext : ByteBuf}
    (hargs : AcceptedArgs ciphertext iv aad tag_len auth_tag plaintext)
    (local_ctx : AesGcmContext) :
    ZeroOnFailure (otcrypto_aes_gcm_decrypt hw (some addr) ciphertext iv aad tag_len auth_tag
        plaintext local_ctx) s plaintext.len.toNat ↔
      word_bytes auth_tag.words = Gcm.tag (hw.cipher K) (4 * auth_tag.words.length)
          (word_bytes iv.words) aad.bytes ciphertext.bytes ∨
        full 16 ciphertext.bytes = Gcm.gctr (hw.cipher K)
          (Gcm.inc32 (Gcm.initial_counter (hw.cipher K) (word_bytes iv.words)))
          (List.replicate (full 16 ciphertext.bytes).length 0) := by
  have hdoes := (otcrypto_aes_gcm_decrypt_guarded h hargs local_ctx).does.mono fun _ _ hr => hr.1
  rw [zeroOnFailure_iff hdoes, ← decrypted_zero_iff, ByteBuf.length_bytes hargs.input_data,
    hargs.same_len]

/-! ## A block with a wrong tag -/

/-- A buffer of zeros. -/
def zero_bytes (n : u32) : ByteBuf where
  data := some (List.replicate n.toNat 0)
  len := n
  fits := by
    intro xs hxs
    rw [← Option.mem_some_iff.mp hxs, List.length_replicate]

def zero_words (n : u32) : Word32Buf where
  data := some (List.replicate n.toNat 0)
  len := n
  fits := by
    intro ws hws
    rw [← Option.mem_some_iff.mp hws, List.length_replicate]

/-- The memory of a local context that happens to be zero. -/
def cleared_context : AesGcmContext :=
  let ghash_ctx : GhashContext := ⟨fun _ => Block.zero, fun _ => Block.zero, Block.zero, Block.zero,
    Block.zero, Block.zero, Block.zero, Block.zero, Block.zero, 0, 0⟩
  ⟨0, ⟨0, 0, 0, 0, 0⟩, 0, Block.zero, Block.zero, 0, 0, Block.zero, Block.zero, ghash_ctx⟩

theorem software_key_stands : KeyAt (Stands still_hardware software_key.config
    [1 ^^^ 5, 2 ^^^ 6, 3 ^^^ 7, 4 ^^^ 8]) 0 (Device.holding fun _ => software_key) where
  config_eq := rfl
  accepted := ⟨by decide +kernel, by decide, by decide, Or.inr ⟨rfl, by decide⟩, Or.inl (by decide)⟩
  fits := by decide
  words := rfl

theorem zeros_accepted (n : u32) : AcceptedArgs (zero_bytes n) (zero_words 3) (zero_bytes 0)
    kOtcryptoAesGcmTagLen128 (zero_words 4) (zero_bytes n) where
  iv_data := nofun
  iv_len := Or.inl rfl
  tag_data := nofun
  tag_len_check := rfl
  aad_data := nofun
  input_data := nofun
  output_data := nofun
  same_len := rfl

/-- Less than a block is zeroed as a whole. -/
theorem failed_decryption_zero_iff_short : ZeroOnFailure (otcrypto_aes_gcm_decrypt still_hardware
    (some 0) (zero_bytes 15) (zero_words 3) (zero_bytes 0) kOtcryptoAesGcmTagLen128 (zero_words 4)
    (zero_bytes 15) cleared_context) (Device.holding fun _ => software_key) 15 :=
  (failed_decryption_zero_iff software_key_stands (zeros_accepted 15) cleared_context).mpr
    (Or.inr (by decide))

/-- Sixteen zero bytes with a tag of zeros: the counter block is in the plaintext. -/
theorem wrong_tag_leaves_block : ¬ ZeroOnFailure (otcrypto_aes_gcm_decrypt still_hardware (some 0)
    (zero_bytes 16) (zero_words 3) (zero_bytes 0) kOtcryptoAesGcmTagLen128 (zero_words 4)
    (zero_bytes 16) cleared_context) (Device.holding fun _ => software_key) 16 := by
  have hdoes := (otcrypto_aes_gcm_decrypt_guarded software_key_stands (zeros_accepted 16)
    cleared_context).does
  rw [zeroOnFailure_iff (hdoes.mono fun _ _ hr => hr.1)]
  intro hzero
  have hiff := decrypted_zero_iff.mp hzero
  revert hiff
  decide +kernel

end IbexFirmware.Aes
