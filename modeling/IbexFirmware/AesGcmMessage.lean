/-
Whole messages of AES-GCM, in one piece and in pieces.

A caller hands over associated data and text in any pieces (`Update`), the associated data
first. `updates_does` says what a context holds after all of them, by induction on the
pieces, and with the start and the end of a message it gives the algorithms of the
standard. `gcm_split` puts the two directions and the two ways to go through a message
side by side.
-/
import IbexFirmware.AesGcmStream
import IbexFirmware.Keyblob

set_option autoImplicit false

namespace IbexFirmware.Aes

open Bytes PowerFail Crypto HardenedMemory Splice Chunks

/-! ## Messages in pieces -/

/-- A call that hands over a piece of a message. -/
inductive Update where
  | update_aad (aad : List u8)
  | update_encrypted_data (input : List u8)
  deriving DecidableEq

def Update.aad : Update → List u8
  | .update_aad aad => aad
  | .update_encrypted_data _ => []

def Update.input : Update → List u8
  | .update_aad _ => []
  | .update_encrypted_data input => input

/-- The associated data of all pieces, and the text of all pieces. -/
def aad_of (us : List Update) : List u8 := us.flatMap Update.aad

def input_of (us : List Update) : List u8 := us.flatMap Update.input

/-- No associated data comes after text. A piece without bytes may stand anywhere. -/
def InOrder (us : List Update) : Prop := us.Pairwise fun u v => u.input ≠ [] → v.aad = []

instance (us : List Update) : Decidable (InOrder us) :=
  inferInstanceAs (Decidable (us.Pairwise fun u v => u.input ≠ [] → v.aad = []))

section

variable (hw : Hardware)

def update (ctx : AesGcmContext) : Update → Proc Device CryptoError (AesGcmContext × List u8)
  | .update_aad aad => do
      let ctx ← aes_gcm_update_aad ctx aad
      pure (ctx, [])
  | .update_encrypted_data input => aes_gcm_update_encrypted_data hw ctx input

/-- The pieces one after the other, the output of each behind that of those before it. -/
def updates (ctx : AesGcmContext) : List Update → Proc Device CryptoError (AesGcmContext × List u8)
  | [] => pure (ctx, [])
  | u :: us => do
      let (ctx, written) ← update hw ctx u
      let (ctx, more) ← updates ctx us
      pure (ctx, written ++ more)

/-- A message encrypted in pieces: the ciphertext and the tag. -/
def encrypt_pieces (key : AesKey) (iv : List u32) (us : List Update) (tag_len : ℕ)
    (ctx : AesGcmContext) : Proc Device CryptoError (List u8 × List u32) := do
  let ctx ← aes_gcm_encrypt_init hw key iv ctx
  let (ctx, written) ← updates hw ctx us
  let (tag, output) ← aes_gcm_encrypt_final hw ctx tag_len
  pure (written ++ output, tag)

/-- A message decrypted in pieces: the plaintext and whether the tag is right. -/
def decrypt_pieces (key : AesKey) (iv : List u32) (us : List Update) (tag : List u32)
    (ctx : AesGcmContext) : Proc Device CryptoError (List u8 × u32) := do
  let ctx ← aes_gcm_decrypt_init hw key iv ctx
  let (ctx, written) ← updates hw ctx us
  let (success, output) ← aes_gcm_decrypt_final hw ctx tag
  pure (written ++ output, success)

end

/-! ## What the pieces make -/

section

variable {E : BitVec 128 → BitVec 128} {iv : List u8} {aad text : List u8}
variable {ctx ctx' ctx'' : AesGcmContext}

@[simp] theorem aad_of_nil : aad_of [] = [] := rfl

@[simp] theorem input_of_nil : input_of [] = [] := rfl

@[simp] theorem aad_of_cons (u : Update) (us : List Update) :
    aad_of (u :: us) = u.aad ++ aad_of us := rfl

@[simp] theorem input_of_cons (u : Update) (us : List Update) :
    input_of (u :: us) = u.input ++ input_of us := rfl

theorem SameMessage.trans (h : SameMessage ctx ctx') (h' : SameMessage ctx' ctx'') :
    SameMessage ctx ctx'' :=
  ⟨h'.is_encrypt.trans h.is_encrypt, h'.key.trans h.key,
    h'.security_level.trans h.security_level⟩

/-- Behind a piece of text there is no more associated data. -/
theorem InOrder.aad_eq_nil {u : Update} {us : List Update} (h : InOrder (u :: us))
    (hinput : u.input ≠ []) : aad_of us = [] := by
  rw [aad_of, List.flatMap_eq_nil_iff]
  intro v hv
  exact (List.pairwise_cons.mp h).1 v hv hinput

theorem aes_gcm_update_aad_nil (s : Device) :
    Does (aes_gcm_update_aad ctx []) s fun ctx' t => t = s ∧ ctx' = ctx := by
  unfold aes_gcm_update_aad
  rw [if_pos List.length_nil]
  exact Does.pure ⟨rfl, rfl⟩

variable (hw : Hardware) {s : Device} {K : List u32}

/-- One piece. Associated data behind text is allowed only if there is none in it. -/
theorem update_does (h : Streams (hw.cipher K) iv ctx aad text) (hready : KeyReady s ctx.key K)
    (u : Update) (horder : text ≠ [] → u.aad = []) (haad : aad.length + u.aad.length < 2 ^ 32)
    (htext : text.length + u.input.length < 2 ^ 32) :
    Does (update hw ctx u) s fun r t => Kept s t ∧
      Streams (hw.cipher K) iv r.1 (aad ++ u.aad) (text ++ u.input) ∧ SameMessage ctx r.1 ∧
      r.2 = next_output (hw.cipher K) iv text u.input := by
  cases u with
  | update_encrypted_data input =>
    rw [Update.aad, List.append_nil]
    exact aes_gcm_update_encrypted_data_does hw h hready input htext
  | update_aad more =>
    have hnone : next_output (hw.cipher K) iv text [] = [] := by
      rw [next_output, List.append_nil, full_of_lt 16 (length_rest_lt (by decide) text),
        Gcm.gctr_from_nil]
    rw [Update.input, List.append_nil, hnone]
    by_cases hnil : text = []
    · subst hnil
      refine Does.bind (aes_gcm_update_aad_does h more haad s) ?_
      rintro ctx' _ ⟨rfl, hstreams, hsame⟩
      exact Does.pure ⟨Kept.rfl, hstreams, hsame, rfl⟩
    · obtain rfl : more = [] := horder hnil
      refine Does.bind (aes_gcm_update_aad_nil s) ?_
      rintro ctx' _ ⟨rfl, rfl⟩
      refine Does.pure ⟨Kept.rfl, ?_, ⟨rfl, rfl, rfl⟩, rfl⟩
      rwa [Update.aad, List.append_nil]

/-- All pieces, by induction: the output so far is what the full blocks of the text make. -/
theorem updates_does (us : List Update) (h : Streams (hw.cipher K) iv ctx aad text)
    (hready : KeyReady s ctx.key K) (horder : InOrder us) (hbefore : text ≠ [] → aad_of us = [])
    (haad : aad.length + (aad_of us).length < 2 ^ 32)
    (htext : text.length + (input_of us).length < 2 ^ 32) :
    Does (updates hw ctx us) s fun r t => Kept s t ∧
      Streams (hw.cipher K) iv r.1 (aad ++ aad_of us) (text ++ input_of us) ∧
      SameMessage ctx r.1 ∧
      Gcm.gctr (hw.cipher K) (Gcm.inc32 (Gcm.initial_counter (hw.cipher K) iv))
          (full 16 (text ++ input_of us)) =
        Gcm.gctr (hw.cipher K) (Gcm.inc32 (Gcm.initial_counter (hw.cipher K) iv))
          (full 16 text) ++ r.2 := by
  induction us generalizing s ctx aad text with
  | nil =>
    refine Does.pure ⟨Kept.rfl, ?_, ⟨rfl, rfl, rfl⟩, ?_⟩
    · rwa [aad_of_nil, input_of_nil, List.append_nil, List.append_nil]
    · rw [input_of_nil, List.append_nil, List.append_nil]
  | cons u us ih =>
    rw [aad_of_cons, List.length_append] at haad
    rw [input_of_cons, List.length_append] at htext
    have hfirst : text ≠ [] → u.aad = [] := fun hne =>
      (List.append_eq_nil_iff.mp (hbefore hne)).1
    refine Does.bind (update_does hw h hready u hfirst (by omega) (by omega)) ?_
    rintro ⟨ctx', written⟩ t ⟨hkept, hstreams, hsame, hwritten⟩
    have hready' : KeyReady t ctx'.key K := by
      rw [hsame.key]
      exact hready.kept hkept
    -- Text in this piece or before it ends the associated data.
    have hbefore' : text ++ u.input ≠ [] → aad_of us = [] := by
      intro hne
      by_cases hnil : text = []
      · rw [hnil, List.nil_append] at hne
        exact horder.aad_eq_nil hne
      · exact (List.append_eq_nil_iff.mp (hbefore hnil)).2
    refine Does.bind (ih hstreams hready' (List.pairwise_cons.mp horder).2 hbefore'
      (by rw [List.length_append]; omega) (by rw [List.length_append]; omega)) ?_
    rintro ⟨ctx'', more⟩ t' ⟨hkept', hstreams', hsame', hmore⟩
    dsimp only at hwritten hmore
    refine Does.pure ⟨hkept.trans hkept', ?_, hsame.trans hsame', ?_⟩
    · rwa [aad_of_cons, input_of_cons, ← List.append_assoc, ← List.append_assoc]
    · rw [input_of_cons, ← List.append_assoc, hmore, gctr_full_append, hwritten,
        List.append_assoc]

/-! ## Whole messages -/

variable {key : AesKey}

/-- A message encrypted in pieces is encrypted as the standard says. -/
theorem encrypt_pieces_does (h : KeyReady s key K) {iv : List u32}
    (hiv : iv.length = 3 ∨ iv.length = 4) {us : List Update} (horder : InOrder us)
    (haad : (aad_of us).length < 2 ^ 32) (hinput : (input_of us).length < 2 ^ 32) {tag_len : ℕ}
    (htag : tag_len ≤ 4) (ctx : AesGcmContext) :
    Does (encrypt_pieces hw key iv us tag_len ctx) s fun r t => Kept s t ∧
      r.2.length = tag_len ∧
      (r.1, word_bytes r.2) =
        Gcm.encrypt (hw.cipher K) (4 * tag_len) (word_bytes iv) (aad_of us) (input_of us) := by
  refine Does.bind (@aes_gcm_init_does hw _ _ _ h _ hiv
    { ctx with is_encrypt := kHardenedBoolTrue } (Or.inl rfl)) ?_
  rintro ctx₁ t ⟨hkept, hstreams, henc, rfl, -⟩
  refine Does.bind (updates_does hw us hstreams (h.kept hkept) horder (fun hne => absurd rfl hne)
    (by simpa using haad) (by simpa using hinput)) ?_
  rintro ⟨ctx₂, written⟩ u ⟨hkept', hstreams', hsame, hwritten⟩
  rw [List.nil_append, List.nil_append] at hstreams'
  rw [List.nil_append] at hwritten
  have hready : KeyReady u ctx₂.key K := by
    rw [hsame.key]
    exact (h.kept hkept).kept hkept'
  refine Does.bind (aes_gcm_final_does hw hstreams' hready tag_len) ?_
  rintro ⟨tag, output⟩ v ⟨hkept'', hlen, htagval, hout⟩
  have henc' : ctx₂.is_encrypt = kHardenedBoolTrue := hsame.is_encrypt.trans henc
  rw [ciphertext_of, if_pos henc'] at htagval
  dsimp only at hwritten hlen htagval hout
  refine Does.pure ⟨(hkept.trans hkept').trans hkept'', by dsimp only; omega, ?_⟩
  have hfirst : written = Gcm.gctr (hw.cipher K)
      (Gcm.inc32 (Gcm.initial_counter (hw.cipher K) (word_bytes iv))) (full 16 (input_of us)) := by
    rw [hwritten]
    rfl
  rw [Gcm.encrypt, htagval, hout, hfirst, ← gctr_full_rest]

/-- A message decrypted in pieces: the tag decides about the rest of the text only. -/
theorem decrypt_pieces_does (h : KeyReady s key K) {iv : List u32}
    (hiv : iv.length = 3 ∨ iv.length = 4) {us : List Update} (horder : InOrder us)
    (haad : (aad_of us).length < 2 ^ 32) (hinput : (input_of us).length < 2 ^ 32)
    {tag : List u32} (htag : tag.length ≤ 4) (ctx : AesGcmContext) :
    Does (decrypt_pieces hw key iv us tag ctx) s fun r t => Kept s t ∧
      r = if word_bytes tag =
          Gcm.tag (hw.cipher K) (4 * tag.length) (word_bytes iv) (aad_of us) (input_of us) then
        (Gcm.gctr (hw.cipher K) (Gcm.inc32 (Gcm.initial_counter (hw.cipher K) (word_bytes iv)))
          (input_of us), kHardenedBoolTrue)
      else (next_output (hw.cipher K) (word_bytes iv) [] (input_of us) ++
          List.replicate (rest 16 (input_of us)).length 0, kHardenedBoolFalse) := by
  refine Does.bind (@aes_gcm_init_does hw _ _ _ h _ hiv
    { ctx with is_encrypt := kHardenedBoolFalse } (Or.inr rfl)) ?_
  rintro ctx₁ t ⟨hkept, hstreams, hdec, rfl, -⟩
  refine Does.bind (updates_does hw us hstreams (h.kept hkept) horder (fun hne => absurd rfl hne)
    (by simpa using haad) (by simpa using hinput)) ?_
  rintro ⟨ctx₂, written⟩ u ⟨hkept', hstreams', hsame, hwritten⟩
  rw [List.nil_append, List.nil_append] at hstreams'
  rw [List.nil_append] at hwritten
  have hready : KeyReady u ctx₂.key K := by
    rw [hsame.key]
    exact (h.kept hkept).kept hkept'
  have hdec' : ctx₂.is_encrypt = kHardenedBoolFalse := hsame.is_encrypt.trans hdec
  refine Does.bind (aes_gcm_decrypt_final_does hw hstreams' hready hdec' htag) ?_
  rintro ⟨success, output⟩ v ⟨hkept'', hresult⟩
  have hfirst : written = next_output (hw.cipher K) (word_bytes iv) [] (input_of us) := by
    have hall := @gctr_full_append (hw.cipher K) (word_bytes iv) [] (input_of us)
    rw [List.nil_append] at hall
    exact List.append_cancel_left (hwritten.symm.trans hall)
  refine Does.pure ⟨(hkept.trans hkept').trans hkept'', ?_⟩
  split_ifs with hright
  · rw [if_pos hright] at hresult
    obtain ⟨rfl, rfl⟩ := Prod.mk.inj hresult
    rw [hfirst, Streams.nil_gctr]
  · rw [if_neg hright] at hresult
    obtain ⟨rfl, rfl⟩ := Prod.mk.inj hresult
    rw [hfirst]

/-- The two results of a decryption, for a ciphertext that is the encryption of a text. -/
theorem decrypted_of_encrypted {E : BitVec 128 → BitVec 128} {iv aad plaintext ciphertext : List u8}
    {tag tag' : List u32} (henc : (ciphertext, word_bytes tag) =
      Gcm.encrypt E (4 * tag.length) iv aad plaintext) (hlen : tag'.length = tag.length)
    {r : List u8 × u32}
    (hr : r = if word_bytes tag' = Gcm.tag E (4 * tag'.length) iv aad ciphertext then
        (Gcm.gctr E (Gcm.inc32 (Gcm.initial_counter E iv)) ciphertext, kHardenedBoolTrue)
      else (next_output E iv [] ciphertext ++
          List.replicate (rest 16 ciphertext).length 0, kHardenedBoolFalse)) :
    if tag' = tag then r = (plaintext, kHardenedBoolTrue) else r.2 = kHardenedBoolFalse := by
  obtain ⟨hcipher, htag⟩ := Prod.mk.inj henc
  have hright : word_bytes tag' = Gcm.tag E (4 * tag'.length) iv aad ciphertext ↔ tag' = tag := by
    rw [hlen, hcipher, ← htag]
    exact word_bytes_injective.eq_iff
  by_cases heq : tag' = tag
  · rw [if_pos (hright.mpr heq), hcipher, Gcm.gctr_gctr] at hr
    rwa [if_pos heq]
  · rw [if_neg fun hbytes => heq (hright.mp hbytes)] at hr
    rw [if_neg heq, hr]

/-- The words of a tag of the standard. -/
def tag_words (E : BitVec 128 → BitVec 128) (tag_len : ℕ) (iv aad ciphertext : List u8) :
    List u32 :=
  (Block.of_val (Gcm.full_tag E iv aad ciphertext)).words.take tag_len

theorem length_tag_words (E : BitVec 128 → BitVec 128) {tag_len : ℕ} (h : tag_len ≤ 4)
    (iv aad ciphertext : List u8) : (tag_words E tag_len iv aad ciphertext).length = tag_len := by
  simp [tag_words, Block.words, h]

theorem word_bytes_tag_words (E : BitVec 128 → BitVec 128) (tag_len : ℕ)
    (iv aad ciphertext : List u8) :
    word_bytes (tag_words E tag_len iv aad ciphertext) = Gcm.tag E (4 * tag_len) iv aad ciphertext := by
  have hbytes : ∀ v, word_bytes (Block.of_val v).words = Gcm.bytes v := by
    intro v
    rw [← Block.val_of_val v, Block.bytes_val, Block.val_of_val]
    rfl
  rw [tag_words, take_word_bytes, hbytes]
  rfl

/-- The tag of the standard is a row of words. -/
theorem exists_encrypt_words (E : BitVec 128 → BitVec 128) {tag_len : ℕ} (h : tag_len ≤ 4)
    (iv aad plaintext : List u8) : ∃ (ciphertext : List u8) (tag : List u32),
      tag.length = tag_len ∧
        (ciphertext, word_bytes tag) = Gcm.encrypt E (4 * tag_len) iv aad plaintext :=
  ⟨_, _, length_tag_words E h iv aad _, Prod.ext rfl (word_bytes_tag_words E tag_len iv aad _)⟩

/-- A message in one piece or in any pieces is encrypted as the standard says, and decrypted
again by either way if its tag has come with it. What lay in the memory of the context and
the level of security do not matter. -/
theorem gcm_split (h : KeyReady s key K) {iv : List u32} (hiv : iv.length = 3 ∨ iv.length = 4)
    {us : List Update} (horder : InOrder us) (haad : (aad_of us).length < 2 ^ 32)
    (hinput : (input_of us).length < 2 ^ 32) {tag_len : ℕ} (htag : tag_len ≤ 4) :
    ∃ (ciphertext : List u8) (tag : List u32), tag.length = tag_len ∧
      (ciphertext, word_bytes tag) =
        Gcm.encrypt (hw.cipher K) (4 * tag_len) (word_bytes iv) (aad_of us) (input_of us) ∧
      (∀ ctx, Does (encrypt_pieces hw key iv us tag_len ctx) s fun r _ => r = (ciphertext, tag)) ∧
      (∀ ctx, Does (aes_gcm_encrypt hw key iv (input_of us) (aad_of us) tag_len ctx) s
        fun r _ => r = (ciphertext, tag)) ∧
      ∀ (s' : Device) (key' : AesKey), KeyReady s' key' K →
        ∀ (us' : List Update), InOrder us' → aad_of us' = aad_of us → input_of us' = ciphertext →
          ∀ (tag' : List u32) (ctx : AesGcmContext), tag'.length = tag_len →
            (Does (decrypt_pieces hw key' iv us' tag' ctx) s' fun r _ =>
              if tag' = tag then r = (input_of us, kHardenedBoolTrue)
              else r.2 = kHardenedBoolFalse) ∧
            Does (aes_gcm_decrypt hw key' iv ciphertext (aad_of us) tag' ctx) s' fun r _ =>
              if tag' = tag then r = (input_of us, kHardenedBoolTrue)
              else r.2 = kHardenedBoolFalse := by
  obtain ⟨ciphertext, tag, hlen, henc⟩ := exists_encrypt_words (hw.cipher K) htag (word_bytes iv)
    (aad_of us) (input_of us)
  have hsame : ∀ r : List u8 × List u32, (r.1, word_bytes r.2) =
      Gcm.encrypt (hw.cipher K) (4 * tag_len) (word_bytes iv) (aad_of us) (input_of us) →
        r = (ciphertext, tag) := by
    intro r hr
    obtain ⟨hfst, hsnd⟩ := Prod.mk.inj (hr.trans henc.symm)
    exact Prod.ext hfst (word_bytes_injective hsnd)
  refine ⟨ciphertext, tag, hlen, henc, ?_, ?_, ?_⟩
  · intro ctx
    exact (encrypt_pieces_does hw h hiv horder haad hinput htag ctx).mono
      fun r _ hr => hsame r hr.2.2
  · intro ctx
    exact (aes_gcm_encrypt_does hw h hiv hinput haad htag ctx).mono fun r _ hr => hsame r hr.2.2
  · intro s' key' h' us' horder' haad' hinput' tag' ctx hlen'
    have hcipher : ciphertext.length < 2 ^ 32 := by
      have hlength := congrArg (fun r : List u8 × List u8 => r.1.length) henc
      simp only [Gcm.encrypt, Gcm.length_gctr] at hlength
      omega
    rw [← hlen] at henc hlen'
    refine ⟨?_, ?_⟩
    · refine (decrypt_pieces_does hw h' hiv horder' (by rw [haad']; exact haad)
        (by rw [hinput']; exact hcipher) (by omega) ctx).mono ?_
      rintro r _ ⟨-, hr⟩
      rw [haad', hinput'] at hr
      exact decrypted_of_encrypted henc hlen' hr
    · refine (aes_gcm_decrypt_does hw h' hiv hcipher haad (by omega) ctx).mono ?_
      rintro r _ ⟨-, hr⟩
      exact decrypted_of_encrypted henc hlen' hr

end

/-! ## A device -/

/-- Hardware whose cipher changes nothing. -/
def still_hardware : Hardware := ⟨fun _ => Equiv.refl _, fun _ => [], fun _ => []⟩

/-- A device that has just been switched on, with keys in its memory. -/
def Device.holding (keys : ℕ → BlindedKey) : Device :=
  ⟨⟨fun _ => 0, 0⟩, true, ⟨none, 0⟩, ⟨none, 0⟩, ⟨none, [], [], Block.zero, none⟩, keys⟩

/-- An AES-128 key of the caller, with its checksum. -/
def software_key : BlindedKey :=
  BlindedKey.update_checksum
    ⟨⟨kOtcryptoLibVersion1, kOtcryptoKeyTypeAes <<< 16 ||| 0xaa5, 16, kHardenedBoolFalse,
      kHardenedBoolFalse, kOtcryptoKeySecurityLevelLow⟩, 32, some [1, 2, 3, 4, 5, 6, 7, 8], 0⟩

/-- The same key as the driver takes it. -/
def software_aes_key (s : Device) : AesKey :=
  { mode := kAesCipherModeCtr
    sideload := kHardenedBoolFalse
    key_len := 4
    blob := 0
    checksum := aes_key_integrity_checksum s ⟨kAesCipherModeCtr, kHardenedBoolFalse, 4, 0, 0⟩ }

theorem software_aes_key_ready : KeyReady (Device.holding fun _ => software_key)
    (software_aes_key (Device.holding fun _ => software_key)) [1 ^^^ 5, 2 ^^^ 6, 3 ^^^ 7, 4 ^^^ 8] :=
  ⟨rfl, Or.inr rfl, Or.inl rfl, fun _ => by decide, rfl, rfl⟩

/-- Associated data in two pieces and a text cut in the middle of a block. -/
def some_pieces : List Update :=
  [.update_aad [1, 2, 3], .update_aad [4], .update_encrypted_data (List.replicate 5 7),
    .update_encrypted_data [], .update_encrypted_data (List.replicate 20 9)]

theorem gcm_split_some_pieces : ∃ (ciphertext : List u8) (tag : List u32), tag.length = 4 ∧
    (ciphertext, word_bytes tag) = Gcm.encrypt (Equiv.refl _) 16 (word_bytes [0, 0, 0]) [1, 2, 3, 4]
      (List.replicate 5 7 ++ List.replicate 20 9) ∧
    ∀ ctx, Does (encrypt_pieces still_hardware (software_aes_key (Device.holding fun _ => software_key))
      [0, 0, 0] some_pieces 4 ctx) (Device.holding fun _ => software_key)
        fun r _ => r = (ciphertext, tag) := by
  obtain ⟨ciphertext, tag, hlen, hstandard, hpieces, -⟩ := @gcm_split still_hardware _ _ _
    software_aes_key_ready [0, 0, 0] (Or.inl rfl) some_pieces (by decide) (by decide) (by decide) 4
    (by decide)
  exact ⟨ciphertext, tag, hlen, hstandard, hpieces⟩

end IbexFirmware.Aes
