/-
Contexts that share a key.

A caller makes calls in any order, for whole messages and on any number of contexts, all with
the key in shares at one address. `answer` says what each call returns, from what its own
context has been given; what has been done with other contexts does not come into it.

A context holds the address of the key and a checksum of its shares, which is out of date
whenever another call has masked them (`Live`). Every operation that works with the shares
masks them first and brings that checksum up to date (`load_and_remask_guarded`), so it does
what it would have done.
-/
import IbexFirmware.AesGcmOneShot

set_option autoImplicit false

namespace IbexFirmware.Aes

open Bytes PowerFail Crypto HardenedMemory Splice Chunks Session

/-! ## Calls -/

/-- A call with the key. The memory that a local context lies in is part of it. -/
inductive Call where
  | encrypt (plaintext : ByteBuf) (iv : Word32Buf) (aad : ByteBuf) (tag_len : u32)
      (ciphertext : ByteBuf) (auth_tag : Word32Buf) (local_ctx : AesGcmContext)
  | decrypt (ciphertext : ByteBuf) (iv : Word32Buf) (aad : ByteBuf) (tag_len : u32)
      (auth_tag : Word32Buf) (plaintext : ByteBuf) (local_ctx : AesGcmContext)
  | encrypt_init (iv : Word32Buf) (ctx : Option ℕ) (local_ctx : AesGcmContext)
  | decrypt_init (iv : Word32Buf) (ctx : Option ℕ) (local_ctx : AesGcmContext)
  | update_aad (ctx : Option ℕ) (aad : ByteBuf)
  | update_encrypted_data (ctx : Option ℕ) (input output : ByteBuf)
  | encrypt_final (ctx : Option ℕ) (tag_len : u32) (ciphertext : ByteBuf) (auth_tag : Word32Buf)
  | decrypt_final (ctx : Option ℕ) (auth_tag : Word32Buf) (tag_len : u32) (plaintext : ByteBuf)

/-- What a call returns beside its status. -/
inductive Reply where
  | done
  | encrypted (message : List u8 × List u32)
  | decrypted (message : List u8 × u32)
  | written (output : List u8)
  | tagged (last : List u32 × List u8)
  | checked (last : u32 × List u8)
  deriving DecidableEq

/-- The call, with the key at address `addr`. -/
def Call.run (hw : Hardware) (layout : Layout) (addr : ℕ) : Call → Proc Caller CryptoError Reply
  | .encrypt plaintext iv aad tag_len ciphertext auth_tag local_ctx => do
      let message ← zoom device (otcrypto_aes_gcm_encrypt hw (some addr) plaintext iv aad tag_len
        ciphertext auth_tag local_ctx)
      pure (.encrypted message)
  | .decrypt ciphertext iv aad tag_len auth_tag plaintext local_ctx => do
      let message ← zoom device (otcrypto_aes_gcm_decrypt hw (some addr) ciphertext iv aad tag_len
        auth_tag plaintext local_ctx)
      pure (.decrypted message)
  | .encrypt_init iv ctx local_ctx => do
      otcrypto_aes_gcm_encrypt_init hw (some addr) iv ctx local_ctx
      pure .done
  | .decrypt_init iv ctx local_ctx => do
      otcrypto_aes_gcm_decrypt_init hw (some addr) iv ctx local_ctx
      pure .done
  | .update_aad ctx aad => do
      otcrypto_aes_gcm_update_aad hw ctx aad
      pure .done
  | .update_encrypted_data ctx input output => do
      let output ← otcrypto_aes_gcm_update_encrypted_data hw ctx input output
      pure (.written output)
  | .encrypt_final ctx tag_len ciphertext auth_tag => do
      let last ← otcrypto_aes_gcm_encrypt_final hw layout ctx tag_len ciphertext auth_tag
      pure (.tagged last)
  | .decrypt_final ctx auth_tag tag_len plaintext => do
      let last ← otcrypto_aes_gcm_decrypt_final hw layout ctx auth_tag tag_len plaintext
      pure (.checked last)

/-- The context that a call continues. -/
def Call.continues : Call → Option ℕ
  | .update_aad ctx _ => ctx
  | .update_encrypted_data ctx _ _ => ctx
  | .encrypt_final ctx _ _ _ => ctx
  | .decrypt_final ctx _ _ _ => ctx
  | _ => none

/-- The context that a call begins or continues. -/
def Call.context : Call → Option ℕ
  | .encrypt_init _ ctx _ => ctx
  | .decrypt_init _ ctx _ => ctx
  | c => c.continues

/-- The calls that are given the key structure. -/
def Call.opens : Call → Bool
  | .encrypt .. => true
  | .decrypt .. => true
  | .encrypt_init .. => true
  | .decrypt_init .. => true
  | _ => false

/-- The last call of a message, with arguments that pass the checks in front of the mask. -/
def masks_at_end (ctx : Option ℕ) (auth_tag : Word32Buf) (tag_len : u32) (output : ByteBuf) : Prop :=
  ctx ≠ none ∧ auth_tag.data ≠ none ∧ ¬ output.dangling ∧
    aes_gcm_check_tag_length auth_tag.len tag_len = .ok ()

/-- The arguments with which a call gets to `gcm_remask_key`, which has no access to the key
structure. Only a failure of `entropy_complex_check` keeps such a call from it. -/
def Call.remasks : Call → Prop
  | .update_encrypted_data ctx input output =>
      ctx ≠ none ∧ input.data ≠ none ∧ output.data ≠ none ∧ input.len ≠ 0
  | .encrypt_final ctx tag_len ciphertext auth_tag => masks_at_end ctx auth_tag tag_len ciphertext
  | .decrypt_final ctx auth_tag tag_len plaintext => masks_at_end ctx auth_tag tag_len plaintext
  | _ => False

/-! ## Answers -/

/-- What a context has been given since it was initialised. -/
structure Message where
  is_encrypt : u32
  iv : List u32
  aad : List u8
  text : List u8
  deriving DecidableEq

section answers

variable (E : BitVec 128 → BitVec 128)

/-- More associated data, if it is not too late for it and not too much. -/
def Message.take_aad (m : Message) (aad : ByteBuf) : Option Message :=
  if aad.data = none then none
  else if aad.len = 0 then some m
  else if m.text = [] ∧ m.aad.length + aad.bytes.length < 2 ^ 32 then
    some { m with aad := m.aad ++ aad.bytes }
  else none

/-- More text, and what is written for it. -/
def Message.take_text (m : Message) (input output : ByteBuf) : Option (List u8 × Message) :=
  if input.data = none ∨ output.data = none then none
  else if input.len = 0 then some ([], m)
  else if (m.text.length % 16 + input.bytes.length) / 16 * 16 ≤ output.len.toNat ∧
      m.text.length + input.bytes.length < 2 ^ 32 then
    some (next_output E (word_bytes m.iv) m.text input.bytes,
      { m with text := m.text ++ input.bytes })
  else none

/-- The tag of a message, and its last bytes of output. -/
def Message.tag (m : Message) (tag_len : ℕ) : List u32 :=
  tag_words E tag_len (word_bytes m.iv) m.aad (ciphertext_of E (word_bytes m.iv) m.is_encrypt m.text)

def Message.last (m : Message) : List u8 :=
  Gcm.gctr_from E (Gcm.inc32 (Gcm.initial_counter E (word_bytes m.iv))) (16 * (m.text.length / 16))
    (rest 16 m.text)

/-- The buffer for the end of a message can take it. -/
def Message.ends (m : Message) (auth_tag : Word32Buf) (tag_len : u32) (output : ByteBuf) : Prop :=
  auth_tag.data ≠ none ∧ ¬ output.dangling ∧
    aes_gcm_check_tag_length auth_tag.len tag_len = .ok () ∧ m.text.length % 16 ≤ output.len.toNat

instance (m : Message) (auth_tag : Word32Buf) (tag_len : u32) (output : ByteBuf) :
    Decidable (m.ends auth_tag tag_len output) := instDecidableAnd

/-- The result of the comparison of the tags, and the last bytes, or zeros in their place. -/
def Message.check (m : Message) (tag : List u32) : u32 × List u8 :=
  if tag = m.tag E tag.length then (kHardenedBoolTrue, m.last E)
  else (kHardenedBoolFalse, List.replicate (rest 16 m.text).length 0)

/-- The messages of the contexts that are in use. -/
abbrev Messages : Type := ℕ → Option Message

/-- A new message. -/
def start (messages : Messages) (is_encrypt : u32) (iv : Word32Buf) (ctx : Option ℕ) :
    Option (Reply × Messages) := do
  let ctx ← ctx
  if iv.data ≠ none ∧ (iv.len = 3 ∨ iv.len = 4) then
    some (.done, Function.update messages ctx (some ⟨is_encrypt, iv.words, [], []⟩))
  else none

/-- What a call with a valid key returns, and the messages after it. It is `none` if the call
returns `OTCRYPTO_BAD_ARGS`. -/
def answer (messages : Messages) : Call → Option (Reply × Messages)
  | .encrypt plaintext iv aad tag_len ciphertext auth_tag _ =>
      if AcceptedArgs plaintext iv aad tag_len auth_tag ciphertext then
        some (.encrypted (encrypted E auth_tag.len.toNat (word_bytes iv.words) aad.bytes
          plaintext.bytes), messages)
      else none
  | .decrypt ciphertext iv aad tag_len auth_tag plaintext _ =>
      if AcceptedArgs ciphertext iv aad tag_len auth_tag plaintext then
        some (.decrypted (decrypted E (word_bytes iv.words) aad.bytes ciphertext.bytes
          auth_tag.words), messages)
      else none
  | .encrypt_init iv ctx _ => start messages kHardenedBoolTrue iv ctx
  | .decrypt_init iv ctx _ => start messages kHardenedBoolFalse iv ctx
  | .update_aad ctx aad => do
      let ctx ← ctx
      let m ← messages ctx
      let m ← m.take_aad aad
      some (.done, Function.update messages ctx (some m))
  | .update_encrypted_data ctx input output => do
      let ctx ← ctx
      let m ← messages ctx
      let (output, m) ← m.take_text E input output
      some (.written output, Function.update messages ctx (some m))
  | .encrypt_final ctx tag_len ciphertext auth_tag => do
      let ctx ← ctx
      let m ← messages ctx
      if m.ends auth_tag tag_len ciphertext then
        some (.tagged (m.tag E auth_tag.len.toNat, m.last E), Function.update messages ctx none)
      else none
  | .decrypt_final ctx auth_tag tag_len plaintext => do
      let ctx ← ctx
      let m ← messages ctx
      if m.ends auth_tag tag_len plaintext then
        some (.checked (m.check E auth_tag.words), Function.update messages ctx none)
      else none

end answers

/-! ## Contexts in use -/

/-- The key in a context is the one at `addr`, but for its checksum. -/
def OnKey (config : KeyConfig) (addr : ℕ) (key : AesKey) : Prop :=
  ∃ checksum, key =
    ⟨kAesCipherModeCtr, config.hw_backed, keyblob_share_num_words config, addr, checksum⟩

/-- A context that has taken in a message. -/
structure Live (hw : Hardware) (config : KeyConfig) (K : List u32) (addr : ℕ) (ctx : AesGcmContext)
    (m : Message) : Prop where
  key : OnKey config addr ctx.key
  is_encrypt : ctx.is_encrypt = m.is_encrypt
  streams : Streams (hw.cipher K) (word_bytes m.iv) ctx m.aad m.text

section live

variable {hw : Hardware} {config : KeyConfig} {K : List u32} {addr : ℕ} {ctx : AesGcmContext}
  {m : Message} {s : Device}

theorem Live.sideload (h : Live hw config K addr ctx m)
    (hsoft : config.hw_backed = kHardenedBoolFalse) : ctx.key.sideload = kHardenedBoolFalse := by
  obtain ⟨c, hkey⟩ := h.key
  rw [hkey]
  exact hsoft

theorem Live.with_checksum (h : Live hw config K addr ctx m) (c : u32) :
    Live hw config K addr { ctx with key := { ctx.key with checksum := c } } m := by
  obtain ⟨c₀, hkey⟩ := h.key
  have hs := h.streams
  refine ⟨⟨c, ?_⟩, h.is_encrypt, ?_⟩
  · dsimp only
    rw [hkey]
  · exact ⟨hs.is_encrypt, hs.aad_len, hs.input_len, hs.gctr_iv, hs.partial_aes_block,
      hs.partial_ghash_block, hs.ghash_ctx⟩

/-- After an operation on the context, with more associated data and text. -/
theorem Live.next {ctx' : AesGcmContext} (h : Live hw config K addr ctx m)
    (hsame : SameMessage ctx ctx') {aad text : List u8}
    (hstreams : Streams (hw.cipher K) (word_bytes m.iv) ctx' aad text) :
    Live hw config K addr ctx' { m with aad := aad, text := text } :=
  ⟨by rw [hsame.key]; exact h.key, hsame.is_encrypt.trans h.is_encrypt, hstreams⟩

theorem load_key_soft {key : AesKey} (h : key.sideload = kHardenedBoolFalse) :
    load_key_if_sideloaded hw key = pure () := by
  rw [load_key_if_sideloaded, if_pos h]

/-- A key in shares is not cleared. -/
theorem close_key_soft {key : AesKey} (h : key.sideload = kHardenedBoolFalse)
    (icache_saved_state : Bool) {I : Device → Prop} :
    Guarded (close_key icache_saved_state key) s (fun _ t => t.keys = s.keys) I := by
  rw [close_key, clear_key_if_sideloaded, if_pos h]
  exact Guarded.modify rfl

/-- The shares get a fresh mask, and the context the checksum that goes with them. -/
theorem load_and_remask_guarded (hsoft : config.hw_backed = kHardenedBoolFalse)
    (h : KeyAt (Held hw config K) addr s) (hlive : Live hw config K addr ctx m) {I : Device → Prop} :
    Guarded (load_and_remask hw ctx) s (fun ctx' t => KeyAt (Held hw config K) addr t ∧
      KeyReady t ctx'.key K ∧ Live hw config K addr ctx' m) I := by
  obtain ⟨c, hkey⟩ := hlive.key
  have hside := hlive.sideload hsoft
  rw [load_and_remask, load_key_soft hside]
  change Guarded (if ctx.key.sideload = kHardenedBoolFalse then _ else _) _ _ _
  rw [if_pos hside]
  refine memshred_guarded fun mask entropy => Guarded.modify_bind (Guarded.get (Guarded.pure ?_))
  have hheld : KeyAt (Held hw config K) addr (Device.set_key { s with entropy := entropy } ctx.key.blob
      (BlindedKey.xor_shares (s.keys ctx.key.blob) ctx.key.key_len.toNat mask)) := by
    rw [hkey, KeyAt, Device.set_key_self]
    exact Held.remask h hsoft mask
  refine ⟨hheld, ?_, hlive.with_checksum _⟩
  have hready := Held.ready hheld hsoft
  convert hready using 1
  rw [hkey]
  rfl

/-! ## Operations on a context -/

theorem take_aad_eq {aad : ByteBuf} (hdata : aad.data ≠ none) (hlen : aad.len ≠ 0) :
    m.take_aad aad = if m.text = [] ∧ m.aad.length + aad.bytes.length < 2 ^ 32 then
      some { m with aad := m.aad ++ aad.bytes } else none := by
  rw [Message.take_aad, if_neg hdata, if_neg hlen]

theorem take_text_eq {input output : ByteBuf} (hdata : ¬ (input.data = none ∨ output.data = none))
    (hlen : input.len ≠ 0) {E : BitVec 128 → BitVec 128} :
    m.take_text E input output =
      if (m.text.length % 16 + input.bytes.length) / 16 * 16 ≤ output.len.toNat ∧
          m.text.length + input.bytes.length < 2 ^ 32 then
        some (next_output E (word_bytes m.iv) m.text input.bytes,
          { m with text := m.text ++ input.bytes })
      else none := by
  rw [Message.take_text, if_neg hdata, if_neg hlen]

theorem length_bytes_of_data {b : ByteBuf} (h : b.data ≠ none) : b.bytes.length = b.len.toNat :=
  ByteBuf.length_bytes fun hdangling => h hdangling.2

theorem update_aad_loaded_guarded (hsoft : config.hw_backed = kHardenedBoolFalse)
    (hlive : Live hw config K addr ctx m) {aad : ByteBuf} (hnil : m.text = [])
    (hlen : m.aad.length + aad.bytes.length < 2 ^ 32) :
    Guarded (update_aad_loaded hw ctx aad) s (fun ctx' t =>
      Live hw config K addr ctx' { m with aad := m.aad ++ aad.bytes } ∧ Kept s t) (Kept s) := by
  have hstreams := hlive.streams
  rw [hnil] at hstreams
  rw [update_aad_loaded, load_key_soft (hlive.sideload hsoft)]
  refine (aes_gcm_update_aad_frame ctx aad.bytes).guarded
    ((aes_gcm_update_aad_does hstreams aad.bytes hlen s).mono ?_)
  rintro ctx' _ ⟨-, hstreams', hsame⟩
  rw [← hnil] at hstreams'
  exact hlive.next hsame hstreams'

theorem update_aad_loaded_refuses (hsoft : config.hw_backed = kHardenedBoolFalse)
    (hlive : Live hw config K addr ctx m) {aad : ByteBuf} (hpos : aad.bytes.length ≠ 0)
    (hbad : ¬ (m.text = [] ∧ m.aad.length + aad.bytes.length < 2 ^ 32)) :
    Refuses (update_aad_loaded hw ctx aad) s (Kept s) := by
  rw [update_aad_loaded, load_key_soft (hlive.sideload hsoft)]
  change Refuses (aes_gcm_update_aad ctx aad.bytes) s (Kept s)
  rw [aes_gcm_update_aad, if_neg hpos]
  refine Refuses.ite (fun _ => Refuses.throw Kept.rfl) fun hlong => ?_
  refine Refuses.ite (fun _ => Refuses.throw Kept.rfl) fun htext => absurd ⟨?_, ?_⟩ hbad
  · rw [hlive.streams.input_len] at htext
    exact List.length_eq_zero_iff.mp (by omega)
  · rw [too_long, hlive.streams.aad_len] at hlong
    omega

/-- What the code compares is what `take_text` compares. -/
theorem output_fits_iff (hlive : Live hw config K addr ctx m) {input output : ByteBuf}
    (hdata : input.data ≠ none) (hlen : m.text.length + input.bytes.length < 2 ^ 32) :
    output_fits ctx input output ↔
      (m.text.length % 16 + input.bytes.length) / 16 * 16 ≤ output.len.toNat := by
  rw [output_fits, hlive.streams.input_len, ← length_bytes_of_data hdata]
  change _ ≤ 2 ^ 32 - 1 - m.text.length % 16 ∧ _ ↔ _
  refine and_iff_right ?_
  omega

theorem update_encrypted_data_loaded_guarded (hsoft : config.hw_backed = kHardenedBoolFalse)
    (h : KeyAt (Held hw config K) addr s) (hlive : Live hw config K addr ctx m)
    {input output : ByteBuf} (hdata : input.data ≠ none)
    (hfits : (m.text.length % 16 + input.bytes.length) / 16 * 16 ≤ output.len.toNat)
    (hlen : m.text.length + input.bytes.length < 2 ^ 32) :
    Guarded (update_encrypted_data_loaded hw ctx input output) s (fun r t =>
      KeyAt (Held hw config K) addr t ∧
        Live hw config K addr r.1 { m with text := m.text ++ input.bytes } ∧
        r.2 = next_output (hw.cipher K) (word_bytes m.iv) m.text input.bytes)
      (KeyAt (Held hw config K) addr) := by
  unfold update_encrypted_data_loaded
  refine Guarded.bind (load_and_remask_guarded hsoft h hlive) ?_
  rintro ctx₁ t ⟨hheld, hready, hlive₁⟩
  rw [if_neg (not_not.mpr ((output_fits_iff hlive₁ hdata hlen).mpr hfits))]
  refine ((aes_gcm_update_encrypted_data_frame hw ctx₁ input.bytes).guarded
    (aes_gcm_update_encrypted_data_does hw hlive₁.streams hready input.bytes hlen)).mono ?_
      fun u hu => hheld.kept hu
  rintro r u ⟨⟨-, hstreams, hsame, hout⟩, hkept⟩
  exact ⟨hheld.kept hkept, hlive₁.next hsame hstreams, hout⟩

theorem update_encrypted_data_loaded_refuses (hsoft : config.hw_backed = kHardenedBoolFalse)
    (h : KeyAt (Held hw config K) addr s) (hlive : Live hw config K addr ctx m)
    {input output : ByteBuf} (hdata : input.data ≠ none) (hpos : input.bytes.length ≠ 0)
    (hbad : ¬ ((m.text.length % 16 + input.bytes.length) / 16 * 16 ≤ output.len.toNat ∧
      m.text.length + input.bytes.length < 2 ^ 32)) :
    Refuses (update_encrypted_data_loaded hw ctx input output) s (KeyAt (Held hw config K) addr) := by
  unfold update_encrypted_data_loaded
  refine Refuses.bind (load_and_remask_guarded hsoft h hlive) ?_
  rintro ctx₁ t ⟨hheld, hready, hlive₁⟩
  refine Refuses.ite (fun _ => Refuses.throw hheld) fun hfits => ?_
  rw [aes_gcm_update_encrypted_data, if_neg hpos]
  refine Refuses.ite (fun _ => Refuses.throw hheld) fun hlong => absurd ?_ hbad
  -- It fits and is not too long.
  rw [too_long, hlive₁.streams.input_len] at hlong
  have hlen : m.text.length + input.bytes.length < 2 ^ 32 := by omega
  exact ⟨(output_fits_iff hlive₁ hdata hlen).mp (not_not.mp hfits), hlen⟩

/-! ## The end of a message -/

section final

variable {α : Type} {final : AesGcmContext → Proc Device CryptoError α} {result : α}

theorem final_loaded_guarded (hsoft : config.hw_backed = kHardenedBoolFalse)
    (h : KeyAt (Held hw config K) addr s) (hlive : Live hw config K addr ctx m) {output : ByteBuf}
    (hfits : m.text.length % 16 ≤ output.len.toNat)
    (hfinal : ∀ t ctx', KeyReady t ctx'.key K → Live hw config K addr ctx' m →
      Guarded (final ctx') t (fun r u => r = result ∧ Kept t u) (Kept t)) :
    Guarded (final_loaded hw final ctx output) s (fun r t => r.1.sideload = kHardenedBoolFalse ∧
      r.2 = result ∧ KeyAt (Held hw config K) addr t) (KeyAt (Held hw config K) addr) := by
  unfold final_loaded
  refine Guarded.bind (load_and_remask_guarded hsoft h hlive) ?_
  rintro ctx₁ t ⟨hheld, hready, hlive₁⟩
  rw [if_neg (by rw [hlive₁.streams.input_len]; exact not_lt.mpr hfits)]
  refine Guarded.bind ((hfinal t ctx₁ hready hlive₁).mono (fun _ _ => id) fun u hu =>
    hheld.kept hu) ?_
  rintro r u ⟨hr, hkept⟩
  exact Guarded.pure ⟨hlive₁.sideload hsoft, hr, hheld.kept hkept⟩

theorem final_loaded_refuses (hsoft : config.hw_backed = kHardenedBoolFalse)
    (h : KeyAt (Held hw config K) addr s) (hlive : Live hw config K addr ctx m) {output : ByteBuf}
    (hbad : ¬ m.text.length % 16 ≤ output.len.toNat) :
    Refuses (final_loaded hw final ctx output) s (KeyAt (Held hw config K) addr) := by
  unfold final_loaded
  refine Refuses.bind (load_and_remask_guarded hsoft h hlive) ?_
  rintro ctx₁ t ⟨hheld, hready, hlive₁⟩
  rw [if_pos (by rw [hlive₁.streams.input_len]; exact not_le.mp hbad)]
  exact Refuses.throw hheld

end final

theorem encrypt_final_guarded (hready : KeyReady s ctx.key K) (hlive : Live hw config K addr ctx m)
    (tag_len : ℕ) :
    Guarded (aes_gcm_encrypt_final hw ctx tag_len) s (fun r t =>
      r = (m.tag (hw.cipher K) tag_len, m.last (hw.cipher K)) ∧ Kept s t) (Kept s) := by
  refine (aes_gcm_final_frame hw ctx tag_len).guarded
    ((aes_gcm_final_does hw hlive.streams hready tag_len).mono ?_)
  rintro r _ ⟨-, -, htagval, hlast⟩
  refine Prod.ext (word_bytes_injective ?_) hlast
  rw [htagval, Message.tag, word_bytes_tag_words, hlive.is_encrypt]

theorem decrypt_final_guarded (hready : KeyReady s ctx.key K) (hlive : Live hw config K addr ctx m)
    {tag : List u32} (htag : tag.length ≤ 4) :
    Guarded (aes_gcm_decrypt_final hw ctx tag) s (fun r t =>
      r = m.check (hw.cipher K) tag ∧ Kept s t) (Kept s) := by
  unfold aes_gcm_decrypt_final
  refine Guarded.bind (encrypt_final_guarded hready hlive tag.length) ?_
  rintro _ t ⟨rfl, hkept⟩
  have hlen : (m.tag (hw.cipher K) tag.length).length = tag.length := length_tag_words _ htag _ _ _
  have hzeros : (m.last (hw.cipher K)).length = (rest 16 m.text).length := Gcm.length_gctr_from _ _
  dsimp only
  rw [hardened_memeq_eq _ _ hlen, Message.check, hzeros]
  by_cases heq : tag = m.tag (hw.cipher K) tag.length
  · rw [if_pos heq.symm, if_neg (not_not.mpr rfl), if_pos heq]
    exact Guarded.pure ⟨rfl, hkept⟩
  · have hne : kHardenedBoolFalse ≠ kHardenedBoolTrue := by decide
    rw [if_neg (Ne.symm heq), if_pos hne, if_neg heq]
    exact Guarded.pure ⟨rfl, hkept⟩

end live

end IbexFirmware.Aes
