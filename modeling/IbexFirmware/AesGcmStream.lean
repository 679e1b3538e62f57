/-
Streaming AES-GCM.

`Streams` says what a context holds after associated data `aad` and text `text`, however
both were cut into pieces: the counter is past the full blocks, the rest of the text is in
the partial block, and the hash has taken in what can be padded no more. Every operation
on a context keeps this for the longer text, and the last one gives the tag of the standard.
-/
import IbexFirmware.AesEncrypt
import IbexFirmware.GhashMasked

set_option autoImplicit false

namespace IbexFirmware.Aes

open Bytes PowerFail Crypto HardenedMemory Splice Chunks

/-! ## What a context holds -/

section

variable (E : BitVec 128 → BitVec 128) (iv : List u8)

/-- The ciphertext of a message: the text is encrypted, or it is the ciphertext. -/
def ciphertext_of (is_encrypt : u32) (text : List u8) : List u8 :=
  if is_encrypt = kHardenedBoolTrue then Gcm.gctr E (Gcm.inc32 (Gcm.initial_counter E iv)) text
  else text

/-- The blocks that the hash has taken in. The associated data is padded when the text begins. -/
def hashed_blocks (is_encrypt : u32) (aad text : List u8) : List (BitVec 128) :=
  if text = [] then Gcm.blocks (full 16 aad)
  else Gcm.blocks aad ++ Gcm.blocks (full 16 (ciphertext_of E iv is_encrypt text))

/-- What waits in the partial block of the hash. In an encryption the rest of the text waits
to be encrypted. -/
def held_back (is_encrypt : u32) (aad text : List u8) : List u8 :=
  if text = [] then rest 16 aad
  else if is_encrypt = kHardenedBoolTrue then [] else rest 16 text

/-- A context that has taken in associated data and text. -/
structure Streams (ctx : AesGcmContext) (aad text : List u8) : Prop where
  is_encrypt : ctx.is_encrypt = kHardenedBoolTrue ∨ ctx.is_encrypt = kHardenedBoolFalse
  aad_len : ctx.aad_len.toNat = aad.length
  input_len : ctx.input_len.toNat = text.length
  gctr_iv : ctx.gctr_iv.val =
    Gcm.inc32^[text.length / 16] (Gcm.inc32 (Gcm.initial_counter E iv))
  partial_aes_block :
    ctx.partial_aes_block.bytes.take (rest 16 text).length = rest 16 text
  partial_ghash_block :
    ctx.partial_ghash_block.bytes.take (held_back ctx.is_encrypt aad text).length =
      held_back ctx.is_encrypt aad text
  ghash_ctx : Hashes ctx.ghash_ctx (E 0#128) (E (Gcm.initial_counter E iv))
    (hashed_blocks E iv ctx.is_encrypt aad text)

/-- What an operation on a context leaves alone. -/
structure SameMessage (ctx ctx' : AesGcmContext) : Prop where
  is_encrypt : ctx'.is_encrypt = ctx.is_encrypt
  key : ctx'.key = ctx.key
  security_level : ctx'.security_level = ctx.security_level

end

section

variable {E : BitVec 128 → BitVec 128} {iv : List u8} {ctx : AesGcmContext} {aad text : List u8}

theorem Streams.aad_lt (h : Streams E iv ctx aad text) : aad.length < 2 ^ 32 := by
  rw [← h.aad_len]
  exact ctx.aad_len.isLt

theorem Streams.text_lt (h : Streams E iv ctx aad text) : text.length < 2 ^ 32 := by
  rw [← h.input_len]
  exact ctx.input_len.isLt

theorem Streams.input_len_eq_zero_iff (h : Streams E iv ctx aad text) :
    ctx.input_len = 0 ↔ text = [] := by
  rw [← BitVec.toNat_inj, h.input_len]
  exact List.length_eq_zero_iff

@[simp] theorem length_ciphertext_of (is_encrypt : u32) (text : List u8) :
    (ciphertext_of E iv is_encrypt text).length = text.length := by
  unfold ciphertext_of
  split_ifs
  · exact Gcm.length_gctr text
  · rfl

@[simp] theorem ciphertext_of_nil (is_encrypt : u32) : ciphertext_of E iv is_encrypt [] = [] := by
  rw [← List.length_eq_zero_iff, length_ciphertext_of]
  rfl

/-- The ciphertext is that of the full blocks and of the rest. -/
theorem gctr_full_rest (icb : BitVec 128) (text : List u8) :
    Gcm.gctr E icb text = Gcm.gctr E icb (full 16 text) ++
      Gcm.gctr_from E icb (16 * (text.length / 16)) (rest 16 text) := by
  rw [← length_full, ← Gcm.gctr_append, full_append_rest]

theorem full_gctr (icb : BitVec 128) (text : List u8) :
    full 16 (Gcm.gctr E icb text) = Gcm.gctr E icb (full 16 text) := by
  have hrest : (Gcm.gctr_from E icb (16 * (text.length / 16)) (rest 16 text)).length < 16 := by
    rw [Gcm.length_gctr_from]
    exact length_rest_lt (by decide) text
  rw [gctr_full_rest, full_append_of_mod (by decide) (by rw [Gcm.length_gctr, length_full_mod]),
    full_of_lt 16 hrest, List.append_nil]

theorem rest_gctr (icb : BitVec 128) (text : List u8) :
    rest 16 (Gcm.gctr E icb text) =
      Gcm.gctr_from E icb (16 * (text.length / 16)) (rest 16 text) := by
  have hrest : (Gcm.gctr_from E icb (16 * (text.length / 16)) (rest 16 text)).length < 16 := by
    rw [Gcm.length_gctr_from]
    exact length_rest_lt (by decide) text
  rw [gctr_full_rest, rest_append_of_mod (by decide) (by rw [Gcm.length_gctr, length_full_mod]),
    rest_of_lt 16 hrest]

end

/-! ## Associated data -/

section

variable {E : BitVec 128 → BitVec 128} {iv : List u8} {ctx : AesGcmContext} {aad text : List u8}

theorem not_too_long {len : ℕ} {sofar : u32} (h : sofar.toNat + len < 2 ^ 32) :
    ¬ too_long len sofar := by
  unfold too_long
  omega

theorem toNat_add_ofNat {x : u32} {n m : ℕ} (hx : x.toNat = n) (h : n + m < 2 ^ 32) :
    (x + BitVec.ofNat 32 m).toNat = n + m := by
  rw [BitVec.toNat_add, BitVec.toNat_ofNat, hx, Nat.mod_eq_of_lt (a := m) (by omega),
    Nat.mod_eq_of_lt h]

/-- More associated data, as long as there is no text. -/
theorem aes_gcm_update_aad_does (h : Streams E iv ctx aad []) (more : List u8)
    (hlen : aad.length + more.length < 2 ^ 32) (s : Device) :
    Does (aes_gcm_update_aad ctx more) s fun ctx' t => t = s ∧
      Streams E iv ctx' (aad ++ more) [] ∧ SameMessage ctx ctx' := by
  unfold aes_gcm_update_aad
  by_cases hempty : more.length = 0
  · rw [if_pos hempty]
    obtain rfl := List.length_eq_zero_iff.mp hempty
    refine Does.pure ⟨rfl, ?_, rfl, rfl, rfl⟩
    rwa [List.append_nil]
  · have hfits : ¬ too_long more.length ctx.aad_len := not_too_long (by rw [h.aad_len]; exact hlen)
    have hnotext : ¬ 0 < ctx.input_len.toNat := by
      rw [h.input_len]
      exact Nat.lt_irrefl 0
    rw [if_neg hempty, if_neg hfits, if_neg hnotext]
    have hpart : ctx.aad_len.toNat % kGhashBlockNumBytes = (rest 16 aad).length := by
      rw [h.aad_len, length_rest]
    have hblocks := h.ghash_ctx
    have hheld := h.partial_ghash_block
    rw [hashed_blocks, if_pos rfl] at hblocks
    rw [held_back, if_pos rfl] at hheld
    rw [hpart]
    have hcount : (Gcm.blocks (full 16 aad)).length +
        ((rest 16 aad).length + more.length) / 16 < 2 ^ 32 := by
      rw [Gcm.length_blocks, length_full, length_rest]
      omega
    refine Does.bind (ghash_process_full_blocks_does hblocks hheld
      (length_rest_lt (by decide) aad) more hcount s) ?_
    rintro ⟨ghash_ctx, part⟩ _ ⟨rfl, hblocks', hheld'⟩
    have hfull : Gcm.blocks (full 16 (aad ++ more)) =
        Gcm.blocks (full 16 aad) ++ Gcm.blocks (full 16 (rest 16 aad ++ more)) := by
      rw [full_append (by decide), Gcm.blocks_append (length_full_mod 16 aad)]
    rw [← rest_append (by decide)] at hheld'
    rw [← hfull] at hblocks'
    refine Does.pure ⟨rfl, ?_, rfl, rfl, rfl⟩
    exact {
      is_encrypt := h.is_encrypt
      aad_len := by
        rw [List.length_append]
        exact toNat_add_ofNat h.aad_len hlen
      input_len := h.input_len
      gctr_iv := h.gctr_iv
      partial_aes_block := h.partial_aes_block
      partial_ghash_block := by
        rw [held_back, if_pos rfl]
        exact hheld'
      ghash_ctx := by
        rw [hashed_blocks, if_pos rfl]
        exact hblocks' }

theorem ghash_update_level_does {ghash_ctx : GhashContext} {H S : BitVec 128}
    {Xs : List (BitVec 128)} (h : Hashes ghash_ctx H S Xs) (security_level : u32)
    (input : List u8) (hlen : Xs.length + input.length / 16 < 2 ^ 32) (s : Device) :
    Does (ghash_update_level security_level ghash_ctx input) s fun ghash_ctx' t => t = s ∧
      Hashes ghash_ctx' H S (Xs ++ Gcm.blocks input) := by
  unfold ghash_update_level
  split_ifs
  · exact ghash_update_redundant_does h input hlen s
  · exact ghash_update_does h input hlen s

/-- The associated data is padded once, before the first of the text. -/
theorem finish_aad_does (h : Streams E iv ctx aad text) (s : Device) :
    Does (finish_aad ctx) s fun ctx' t => t = s ∧
      ∃ ghash_ctx, ctx' = { ctx with ghash_ctx := ghash_ctx } ∧
        Hashes ghash_ctx (E 0#128) (E (Gcm.initial_counter E iv))
          (Gcm.blocks aad ++ Gcm.blocks (full 16 (ciphertext_of E iv ctx.is_encrypt text))) := by
  have hblocks := h.ghash_ctx
  have hheld := h.partial_ghash_block
  unfold finish_aad
  by_cases htext : text = []
  · subst htext
    rw [hashed_blocks, if_pos rfl] at hblocks
    rw [held_back, if_pos rfl] at hheld
    rw [ciphertext_of_nil, full_nil, Gcm.blocks_nil, List.append_nil]
    have hzero : ctx.input_len = 0 := h.input_len_eq_zero_iff.mpr rfl
    have hpart : ctx.aad_len.toNat % kGhashBlockNumBytes = (rest 16 aad).length := by
      rw [h.aad_len, length_rest]
    have hsplit : Gcm.blocks aad = Gcm.blocks (full 16 aad) ++ Gcm.blocks (rest 16 aad) := by
      rw [← Gcm.blocks_append (length_full_mod 16 aad), full_append_rest]
    rw [hpart]
    by_cases hrest : (rest 16 aad).length = 0
    · rw [if_neg fun hc => hc.2 hrest]
      refine Does.pure ⟨rfl, ctx.ghash_ctx, rfl, ?_⟩
      rwa [hsplit, List.length_eq_zero_iff.mp hrest, Gcm.blocks_nil, List.append_nil]
    · rw [if_pos ⟨hzero, hrest⟩, hheld]
      have hcount : (Gcm.blocks (full 16 aad)).length + (rest 16 aad).length / 16 < 2 ^ 32 := by
        have := h.aad_lt
        rw [Gcm.length_blocks, length_full, length_rest]
        omega
      refine Does.bind (ghash_update_level_does hblocks ctx.security_level _ hcount s) ?_
      rintro ghash_ctx _ ⟨rfl, hblocks'⟩
      rw [← hsplit] at hblocks'
      exact Does.pure ⟨rfl, ghash_ctx, rfl, hblocks'⟩
  · rw [if_neg fun hc => htext (h.input_len_eq_zero_iff.mp hc.1)]
    rw [hashed_blocks, if_neg htext] at hblocks
    exact Does.pure ⟨rfl, ctx.ghash_ctx, rfl, hblocks⟩

end

/-! ## Text -/

section

variable {E : BitVec 128 → BitVec 128} {iv : List u8} {ctx : AesGcmContext} {aad text : List u8}

/-- What a piece of text makes of the keystream from the last full block on. -/
def next_output (E : BitVec 128 → BitVec 128) (iv text more : List u8) : List u8 :=
  Gcm.gctr_from E (Gcm.inc32 (Gcm.initial_counter E iv)) (16 * (text.length / 16))
    (full 16 (rest 16 text ++ more))

theorem gctr_full_append (text more : List u8) :
    Gcm.gctr E (Gcm.inc32 (Gcm.initial_counter E iv)) (full 16 (text ++ more)) =
      Gcm.gctr E (Gcm.inc32 (Gcm.initial_counter E iv)) (full 16 text) ++
        next_output E iv text more := by
  rw [full_append (by decide), Gcm.gctr_append, length_full]
  rfl

theorem length_next_output_mod (text more : List u8) :
    (next_output E iv text more).length % 16 = 0 := by
  rw [next_output, Gcm.length_gctr_from, length_full_mod]

/-- The new full blocks of ciphertext, in an encryption. -/
theorem full_ciphertext_append {is_encrypt : u32} (henc : is_encrypt = kHardenedBoolTrue)
    (text more : List u8) :
    full 16 (ciphertext_of E iv is_encrypt (text ++ more)) =
      full 16 (ciphertext_of E iv is_encrypt text) ++ next_output E iv text more := by
  rw [ciphertext_of, ciphertext_of, if_pos henc, if_pos henc, full_gctr, full_gctr,
    gctr_full_append]

/-- The hash and its partial block after a piece of text. -/
theorem accumulate_does {more : List u8} (h : Streams E iv ctx aad text) {ghash_ctx : GhashContext}
    (hblocks : Hashes ghash_ctx (E 0#128) (E (Gcm.initial_counter E iv))
      (Gcm.blocks aad ++ Gcm.blocks (full 16 (ciphertext_of E iv ctx.is_encrypt text))))
    (hlen : text.length + more.length < 2 ^ 32) (hmore : more ≠ []) (s : Device) :
    Does (accumulate { ctx with ghash_ctx := ghash_ctx } more (next_output E iv text more)) s
      fun r t => t = s ∧
        Hashes r.1 (E 0#128) (E (Gcm.initial_counter E iv))
          (hashed_blocks E iv ctx.is_encrypt aad (text ++ more)) ∧
        r.2.bytes.take (held_back ctx.is_encrypt aad (text ++ more)).length =
          held_back ctx.is_encrypt aad (text ++ more) := by
  have hne : text ++ more ≠ [] := fun hnil => hmore (List.append_eq_nil_iff.mp hnil).2
  have haad := h.aad_lt
  have hcount : (Gcm.blocks aad ++
      Gcm.blocks (full 16 (ciphertext_of E iv ctx.is_encrypt text))).length ≤
        2 ^ 28 + text.length / 16 := by
    rw [List.length_append, Gcm.length_blocks, Gcm.length_blocks, length_full, length_ciphertext_of]
    omega
  rw [hashed_blocks, if_neg hne, held_back, if_neg hne]
  unfold accumulate
  by_cases henc : ctx.is_encrypt = kHardenedBoolTrue
  · -- The output is full blocks, so nothing is held back.
    have hmod : ¬ (next_output E iv text more).length % kGhashBlockNumBytes ≠ 0 :=
      not_not.mpr (length_next_output_mod text more)
    have hfull : full 16 (next_output E iv text more) = next_output E iv text more :=
      full_of_mod 16 (length_next_output_mod text more)
    rw [if_pos henc, if_neg hmod, if_pos henc]
    have hsize : (next_output E iv text more).length ≤ text.length + more.length := by
      rw [next_output, Gcm.length_gctr_from, length_full, List.length_append, length_rest]
      omega
    refine (@ghash_process_full_blocks_does _ _ _ _ hblocks ctx.partial_ghash_block [] rfl
      (by decide) (next_output E iv text more) ?_ s).mono ?_
    · rw [List.length_nil]
      omega
    · rintro ⟨ghash_ctx', part⟩ t ⟨rfl, hblocks', -⟩
      refine ⟨rfl, ?_, rfl⟩
      rw [List.nil_append, hfull, List.append_assoc,
        ← Gcm.blocks_append (length_full_mod 16 _), ← full_ciphertext_append henc] at hblocks'
      exact hblocks'
  · -- The input is what is hashed, behind what has been held back of it.
    have hdec : ctx.is_encrypt = kHardenedBoolFalse := h.is_encrypt.resolve_left henc
    have hheld : ctx.partial_ghash_block.bytes.take (rest 16 text).length = rest 16 text := by
      by_cases htext : text = []
      · subst htext
        rfl
      · have hheld := h.partial_ghash_block
        rwa [held_back, if_neg htext, if_neg henc] at hheld
    have hpart : ctx.input_len.toNat % kGhashBlockNumBytes = (rest 16 text).length := by
      rw [h.input_len, length_rest]
    rw [if_neg henc, if_pos hdec, if_neg henc, hpart]
    rw [ciphertext_of, if_neg henc] at hblocks hcount ⊢
    refine (ghash_process_full_blocks_does hblocks hheld (length_rest_lt (by decide) text) more
      ?_ s).mono ?_
    · rw [length_rest]
      omega
    · rintro ⟨ghash_ctx', part⟩ t ⟨rfl, hblocks', hheld'⟩
      refine ⟨rfl, ?_, ?_⟩
      · rwa [full_append (by decide), Gcm.blocks_append (length_full_mod 16 text),
          ← List.append_assoc]
      · rwa [rest_append (by decide)]

variable (hw : Hardware) {s : Device} {K : List u32}

/-- More text. What is written is what the full blocks so far make, behind what has been
written before. -/
theorem aes_gcm_update_encrypted_data_does (h : Streams (hw.cipher K) iv ctx aad text)
    (hready : KeyReady s ctx.key K) (more : List u8)
    (hlen : text.length + more.length < 2 ^ 32) :
    Does (aes_gcm_update_encrypted_data hw ctx more) s fun r t => Kept s t ∧
      Streams (hw.cipher K) iv r.1 aad (text ++ more) ∧ SameMessage ctx r.1 ∧
      r.2 = next_output (hw.cipher K) iv text more := by
  unfold aes_gcm_update_encrypted_data
  by_cases hempty : more.length = 0
  · rw [if_pos hempty]
    obtain rfl := List.length_eq_zero_iff.mp hempty
    refine Does.pure ⟨Kept.rfl, ?_, ⟨rfl, rfl, rfl⟩, ?_⟩
    · rwa [List.append_nil]
    · rw [next_output, List.append_nil, full_of_lt 16 (length_rest_lt (by decide) text),
        Gcm.gctr_from_nil]
  · have hfits : ¬ too_long more.length ctx.input_len :=
      not_too_long (by rw [h.input_len]; exact hlen)
    have hmore : more ≠ [] := fun hnil => hempty (by rw [hnil]; rfl)
    rw [if_neg hempty, if_neg hfits]
    refine Does.bind (finish_aad_does h s) ?_
    rintro _ _ ⟨rfl, ghash_ctx, rfl, hblocks⟩
    have hpart : ctx.input_len.toNat % kAesBlockNumBytes = (rest 16 text).length := by
      rw [h.input_len, length_rest]
    rw [hpart]
    refine Does.bind (aes_gcm_gctr_does hw hready h.gctr_iv h.partial_aes_block
      (length_rest_lt (by decide) text) more ctx.security_level) ?_
    rintro st t ⟨hkept, hcounted⟩
    have hout : st.output = next_output (hw.cipher K) iv text more := by
      rw [hcounted.output, List.nil_append]
      rfl
    rw [hout]
    refine Does.bind (accumulate_does h hblocks hlen hmore t) ?_
    rintro ⟨ghash_ctx', part⟩ _ ⟨rfl, hblocks', hheld⟩
    refine Does.pure ⟨hkept, ?_, ⟨rfl, rfl, rfl⟩, rfl⟩
    exact {
      is_encrypt := h.is_encrypt
      aad_len := h.aad_len
      input_len := by
        rw [List.length_append]
        exact toNat_add_ofNat h.input_len hlen
      gctr_iv := by
        have hcount : (text ++ more).length / 16 =
            text.length / 16 + (rest 16 text ++ more).length / 16 := by
          rw [List.length_append, List.length_append, length_rest]
          omega
        rw [hcounted.iv, hcount]
      partial_aes_block := by
        rw [rest_append (by decide)]
        exact hcounted.part
      partial_ghash_block := hheld
      ghash_ctx := hblocks' }

end

/-! ## The tag -/

section

/-- The bytes of a length in bits. -/
theorem bswap64_bytes_eq (len : u32) : bswap64_bytes len =
    (List.range 8).map fun i => (Gcm.bit_length len.toNat).extractLsb' (8 * (7 - i)) 8 := by
  have hbits : len.setWidth 64 * 8 = Gcm.bit_length len.toNat := by
    have height : (8 : u64).toNat = 8 := rfl
    apply BitVec.eq_of_toNat_eq
    simp only [Gcm.bit_length, BitVec.toNat_mul, BitVec.toNat_setWidth, BitVec.toNat_ofNat, height]
    omega
  rw [bswap64_bytes, hbits]

/-- Eight bytes of one number and eight of another. -/
theorem of_bytes_lengths (x y : u64) :
    Gcm.of_bytes (((List.range 8).map fun i => x.extractLsb' (8 * (7 - i)) 8) ++
      (List.range 8).map fun i => y.extractLsb' (8 * (7 - i)) 8) = x ++ y := by
  apply Gcm.ext_byte
  intro i hi
  rw [Gcm.byte_of_bytes _ i hi]
  by_cases hlt : i < 8
  · have hhigh : Gcm.byte (x ++ y) i = x.extractLsb' (8 * (7 - i)) 8 := by
      change (x ++ y : BitVec (64 + 64)).extractLsb' (8 * (15 - i)) 8 = _
      rw [BitVec.extractLsb'_append_eq_of_le (by omega)]
      congr 1
      omega
    rw [hhigh, List.getD_append _ _ _ _ (by simpa using hlt)]
    simp [List.getD_eq_getElem?_getD, hlt]
  · have hlow : Gcm.byte (x ++ y) i = y.extractLsb' (8 * (7 - (i - 8))) 8 := by
      change (x ++ y : BitVec (64 + 64)).extractLsb' (8 * (15 - i)) 8 = _
      rw [BitVec.extractLsb'_append_eq_of_add_le (by omega)]
      congr 1
      omega
    have hlt' : i - 8 < 8 := by omega
    rw [hlow, List.getD_append_right _ _ _ _ (by simp; omega)]
    simp [List.getD_eq_getElem?_getD, hlt']

theorem blocks_lengths (aad_len input_len : u32) :
    Gcm.blocks (bswap64_bytes aad_len ++ bswap64_bytes input_len) =
      [Gcm.bit_length aad_len.toNat ++ Gcm.bit_length input_len.toNat] := by
  rw [Gcm.blocks_of_le (by simp [bswap64_bytes]) (by simp [bswap64_bytes]), bswap64_bytes_eq,
    bswap64_bytes_eq, of_bytes_lengths]

variable {E : BitVec 128 → BitVec 128} {iv : List u8} {ctx : AesGcmContext} {aad text : List u8}

/-- The tag of what has been hashed. -/
theorem aes_gcm_get_tag_does {ciphertext : List u8} {ghash_ctx : GhashContext} (tag_len : ℕ)
    (haad : ctx.aad_len.toNat = aad.length) (hinput : ctx.input_len.toNat = ciphertext.length)
    (hblocks : Hashes ghash_ctx (E 0#128) (E (Gcm.initial_counter E iv))
      (Gcm.blocks aad ++ Gcm.blocks ciphertext)) (s : Device) :
    Does (aes_gcm_get_tag { ctx with ghash_ctx := ghash_ctx } tag_len) s fun tag t => t = s ∧
      tag.length = min tag_len 4 ∧
      word_bytes tag = Gcm.tag E (4 * tag_len) iv aad ciphertext := by
  have hcount : (Gcm.blocks aad ++ Gcm.blocks ciphertext).length +
      (bswap64_bytes ctx.aad_len ++ bswap64_bytes ctx.input_len).length / 16 < 2 ^ 32 := by
    have hlast : (bswap64_bytes ctx.aad_len ++ bswap64_bytes ctx.input_len).length = 16 := rfl
    rw [hlast, List.length_append, Gcm.length_blocks, Gcm.length_blocks]
    omega
  refine Does.bind (ghash_update_level_does hblocks ctx.security_level _ hcount s) ?_
  rintro ghash_ctx' _ ⟨rfl, hblocks'⟩
  rw [blocks_lengths, haad, hinput] at hblocks'
  refine Does.bind (ghash_final_does hblocks' (by simp) _) ?_
  rintro full_tag _ ⟨rfl, hval⟩
  refine Does.pure ⟨rfl, by simp [Block.words], ?_⟩
  rw [BitVec.xor_comm] at hval
  rw [take_word_bytes, Gcm.tag, Gcm.full_tag, ← hval, Block.bytes_val]
  rfl

/-- The last of the ciphertext is taken in with its padding. -/
theorem final_accumulate_does (h : Streams E iv ctx aad text) {ghash_ctx : GhashContext}
    (hblocks : Hashes ghash_ctx (E 0#128) (E (Gcm.initial_counter E iv))
      (Gcm.blocks aad ++ Gcm.blocks (full 16 (ciphertext_of E iv ctx.is_encrypt text))))
    {output : List u8} (hout : output = Gcm.gctr_from E
      (Gcm.inc32 (Gcm.initial_counter E iv)) (16 * (text.length / 16)) (rest 16 text))
    {gctr_iv part : Block} (s : Device) :
    Does (final_accumulate
      { ctx with ghash_ctx := ghash_ctx, gctr_iv := gctr_iv, partial_aes_block := part } output) s
      fun ghash_ctx' t => t = s ∧ Hashes ghash_ctx' (E 0#128) (E (Gcm.initial_counter E iv))
        (Gcm.blocks aad ++ Gcm.blocks (ciphertext_of E iv ctx.is_encrypt text)) := by
  have haad := h.aad_lt
  have htext := h.text_lt
  have hcount : (Gcm.blocks aad ++
      Gcm.blocks (full 16 (ciphertext_of E iv ctx.is_encrypt text))).length + 1 < 2 ^ 32 := by
    rw [List.length_append, Gcm.length_blocks, Gcm.length_blocks, length_full, length_ciphertext_of]
    omega
  have hlast : ∀ C : List u8, Gcm.blocks C = Gcm.blocks (full 16 C) ++ Gcm.blocks (rest 16 C) := by
    intro C
    rw [← Gcm.blocks_append (length_full_mod 16 C), full_append_rest]
  unfold final_accumulate
  by_cases henc : ctx.is_encrypt = kHardenedBoolTrue
  · -- The rest of the ciphertext is what has just been put out.
    have hrest : rest 16 (ciphertext_of E iv ctx.is_encrypt text) = output := by
      rw [ciphertext_of, if_pos henc, rest_gctr, hout]
    rw [if_pos henc]
    split_ifs with hpos
    · have hlen : output.length / 16 = 0 := by
        rw [hout, Gcm.length_gctr_from]
        exact Nat.div_eq_of_lt (length_rest_lt (by decide) text)
      refine (ghash_update_level_does hblocks ctx.security_level output (by omega) s).mono ?_
      rintro ghash_ctx' t ⟨rfl, hblocks'⟩
      refine ⟨rfl, ?_⟩
      rwa [hlast (ciphertext_of E iv ctx.is_encrypt text), hrest, ← List.append_assoc]
    · refine Does.pure ⟨rfl, ?_⟩
      have hnil : output = [] := List.length_eq_zero_iff.mp (by omega)
      rwa [hlast (ciphertext_of E iv ctx.is_encrypt text), hrest, hnil, Gcm.blocks_nil,
        List.append_nil]
  · have hdec : ctx.is_encrypt = kHardenedBoolFalse := h.is_encrypt.resolve_left henc
    have hheld : ctx.partial_ghash_block.bytes.take (rest 16 text).length = rest 16 text := by
      by_cases hnil : text = []
      · subst hnil
        rfl
      · have hheld := h.partial_ghash_block
        rwa [held_back, if_neg hnil, if_neg henc] at hheld
    have hpart : ctx.input_len.toNat % kGhashBlockNumBytes = (rest 16 text).length := by
      rw [h.input_len, length_rest]
    rw [if_neg henc, if_pos hdec, hpart, hheld]
    rw [ciphertext_of, if_neg henc] at hblocks hcount ⊢
    have hlen : (rest 16 text).length / 16 = 0 :=
      Nat.div_eq_of_lt (length_rest_lt (by decide) text)
    refine (ghash_update_level_does hblocks ctx.security_level _ (by omega) s).mono ?_
    rintro ghash_ctx' t ⟨rfl, hblocks'⟩
    refine ⟨rfl, ?_⟩
    rwa [hlast text, ← List.append_assoc]

variable (hw : Hardware) {s : Device} {K : List u32}

/-- The rest of the text is padded for the cipher and cut again. -/
theorem final_block_does (h : Streams (hw.cipher K) iv ctx aad text)
    (hready : KeyReady s ctx.key K) (ghash_ctx : GhashContext) :
    Does (final_block hw { ctx with ghash_ctx := ghash_ctx }) s fun r t => Kept s t ∧
      (∃ gctr_iv part, r.1 = { ctx with
        ghash_ctx := ghash_ctx, gctr_iv := gctr_iv, partial_aes_block := part }) ∧
      r.2 = Gcm.gctr_from (hw.cipher K) (Gcm.inc32 (Gcm.initial_counter (hw.cipher K) iv))
        (16 * (text.length / 16)) (rest 16 text) := by
  have hlen : ctx.input_len.toNat % kAesBlockNumBytes = (rest 16 text).length := by
    rw [h.input_len, length_rest]
  have hlt : (rest 16 text).length < 16 := length_rest_lt (by decide) text
  unfold final_block
  dsimp only
  rw [hlen]
  split_ifs with hzero
  · refine Does.pure ⟨Kept.rfl, ⟨_, _, rfl⟩, ?_⟩
    rw [List.length_eq_zero_iff.mp hzero]
    rfl
  · refine Does.bind (gctr_process_block_does hw hready ctx.gctr_iv _ ctx.security_level) ?_
    rintro ⟨iv', block_out⟩ t ⟨hkept, -, hout⟩
    refine Does.pure ⟨hkept, ⟨_, _, rfl⟩, ?_⟩
    rw [h.gctr_iv, Block.val_clear_from _ hlt.le, h.partial_aes_block, BitVec.xor_comm] at hout
    rw [Gcm.gctr_from_block _ hlt.le, ← hout, Block.bytes_val]

/-- The end of a message: the tag and the last bytes of output. -/
theorem aes_gcm_final_does (h : Streams (hw.cipher K) iv ctx aad text)
    (hready : KeyReady s ctx.key K) (tag_len : ℕ) :
    Does (aes_gcm_final hw ctx tag_len) s fun r t => Kept s t ∧ r.1.length = min tag_len 4 ∧
      word_bytes r.1 = Gcm.tag (hw.cipher K) (4 * tag_len) iv aad
        (ciphertext_of (hw.cipher K) iv ctx.is_encrypt text) ∧
      r.2 = Gcm.gctr_from (hw.cipher K) (Gcm.inc32 (Gcm.initial_counter (hw.cipher K) iv))
        (16 * (text.length / 16)) (rest 16 text) := by
  unfold aes_gcm_final
  refine Does.bind (finish_aad_does h s) ?_
  rintro _ _ ⟨rfl, ghash_ctx, rfl, hblocks⟩
  refine Does.bind (final_block_does hw h hready ghash_ctx) ?_
  rintro ⟨_, output⟩ t ⟨hkept, ⟨gctr_iv, part, rfl⟩, hout⟩
  refine Does.bind (final_accumulate_does h hblocks hout t) ?_
  rintro ghash_ctx' _ ⟨rfl, hblocks'⟩
  refine Does.bind (@aes_gcm_get_tag_does _ iv
    { ctx with ghash_ctx := ghash_ctx, gctr_iv := gctr_iv, partial_aes_block := part }
    aad _ ghash_ctx' tag_len h.aad_len ?_ hblocks' _) ?_
  · rw [length_ciphertext_of]
    exact h.input_len
  · rintro tag _ ⟨rfl, hlen, htag⟩
    exact Does.pure ⟨hkept, hlen, htag, hout⟩

/-- The tag that is expected is compared with the one that came with the message. -/
theorem aes_gcm_decrypt_final_does (h : Streams (hw.cipher K) iv ctx aad text)
    (hready : KeyReady s ctx.key K) (hdec : ctx.is_encrypt = kHardenedBoolFalse) {tag : List u32}
    (htag : tag.length ≤ 4) :
    Does (aes_gcm_decrypt_final hw ctx tag) s fun r t => Kept s t ∧
      r = if word_bytes tag = Gcm.tag (hw.cipher K) (4 * tag.length) iv aad text then
        (kHardenedBoolTrue, Gcm.gctr_from (hw.cipher K)
          (Gcm.inc32 (Gcm.initial_counter (hw.cipher K) iv)) (16 * (text.length / 16)) (rest 16 text))
      else (kHardenedBoolFalse, List.replicate (rest 16 text).length 0) := by
  refine Does.bind (aes_gcm_final_does hw h hready tag.length) ?_
  rintro ⟨expected_tag, output⟩ t ⟨hkept, hlen, hexpected, hout⟩
  have hne : ¬ kHardenedBoolFalse = kHardenedBoolTrue := by decide
  rw [ciphertext_of, hdec, if_neg hne] at hexpected
  dsimp only at hlen hexpected hout ⊢
  have hsame : hardened_memeq expected_tag tag =
      if word_bytes tag = Gcm.tag (hw.cipher K) (4 * tag.length) iv aad text then kHardenedBoolTrue
      else kHardenedBoolFalse := by
    rw [hardened_memeq_eq _ _ (by omega), ← hexpected]
    by_cases heq : expected_tag = tag
    · rw [if_pos heq, if_pos (by rw [heq])]
    · rw [if_neg heq, if_neg fun hbytes => heq (word_bytes_injective hbytes.symm)]
  rw [hsame]
  split_ifs with hright hnot
  · exact absurd rfl hnot
  · exact Does.pure ⟨hkept, by rw [hout]⟩
  · exact Does.pure ⟨hkept, by rw [hout, Gcm.length_gctr_from]⟩

end

/-! ## The start of a message -/

section

variable {H S : BitVec 128} {ghash_ctx : GhashContext} {Xs : List (BitVec 128)}

theorem Hashes.subkeyed (h : Hashes ghash_ctx H S Xs) : Subkeyed ghash_ctx H := by
  obtain ⟨H0, H1, hm, hH⟩ := h.keyed
  exact ⟨H0, H1, hm.tbl0, hm.tbl1, hH⟩

/-- The two shares of a block that a random one was added to. -/
theorem val_share (random b : Block) : random.val ^^^ (hardened_xor_block random b).val = b.val := by
  rw [hardened_xor_block_eq, val_block_xor, ← BitVec.xor_assoc, BitVec.xor_self, BitVec.zero_xor]

theorem kept_entropy (s : Device) (entropy : EntropySource) :
    Kept s { s with entropy := entropy } := ⟨rfl, rfl, rfl, rfl⟩

/-- An initialization vector of three words is the start of the counter block. -/
theorem val_counter_words {iv : List u32} (hlen : iv.length = 3) :
    (⟨iv.getD 0 0, iv.getD 1 0, iv.getD 2 0, bswap32 1⟩ : Block).val =
      Gcm.of_bytes (word_bytes iv ++ [0, 0, 0, 1]) := by
  obtain ⟨a, b, c, rfl⟩ := List.length_eq_three.mp hlen
  have hone : le32 (bswap32 1) = [0, 0, 0, 1] := by decide
  have hbytes : (⟨a, b, c, bswap32 1⟩ : Block).bytes = word_bytes [a, b, c] ++ le32 (bswap32 1) := by
    simp only [Block.bytes, Block.words, word_bytes_cons, List.append_assoc]
    rfl
  rw [hone] at hbytes
  rw [← hbytes, ← Block.bytes_val, Gcm.of_bytes_bytes]
  rfl

/-- The length block of an initialization vector of four words. -/
theorem blocks_counter_buffer : Gcm.blocks counter_buffer = [0#64 ++ Gcm.bit_length 16] := by
  have hbytes : counter_buffer = Gcm.bytes (0#64 ++ Gcm.bit_length 16) := by decide
  rw [hbytes, Gcm.blocks_bytes]

/-- The first counter block: the IV of 96 bits as it is, and the GHASH of one of 128 bits. -/
theorem aes_gcm_counter_does {E : BitVec 128 → BitVec 128} (h : Subkeyed ghash_ctx (E 0#128))
    {iv : List u32} (hiv : iv.length = 3 ∨ iv.length = 4) (s : Device) :
    Does (aes_gcm_counter iv ghash_ctx) s fun r t => Kept s t ∧
      r.1.val = Gcm.initial_counter E (word_bytes iv) ∧ Subkeyed r.2 (E 0#128) := by
  unfold aes_gcm_counter
  rw [Gcm.initial_counter, length_word_bytes]
  by_cases hthree : iv.length = 3
  · have htwelve : 4 * iv.length = 12 := by omega
    rw [if_pos hthree, if_pos htwelve]
    exact Does.pure ⟨Kept.rfl, val_counter_words hthree, h⟩
  · have hfour : iv.length = 4 := hiv.resolve_left hthree
    have hbytes : (word_bytes iv).length = 16 := by rw [length_word_bytes, hfour]
    have hnot : ¬ 4 * iv.length = 12 := by omega
    rw [if_neg hthree, if_pos hfour, if_neg hnot]
    refine memshred_block_bind fun enc entropy => memshred_block_bind fun share0 entropy' => ?_
    -- The random block takes the place of the encrypted counter and is added again at the end.
    refine Does.bind (ghash_init_does (keyed_handle h share0 _) _) ?_
    rintro ctx _ ⟨⟨entropy'', rfl⟩, hinit⟩
    refine Does.bind (ghash_update_does hinit _ (by rw [hbytes]; decide) _) ?_
    rintro ctx' _ ⟨rfl, hiv'⟩
    have hone : ([] ++ Gcm.blocks (word_bytes iv)).length = 1 := by
      rw [List.nil_append, Gcm.length_blocks, hbytes]
    refine Does.bind (ghash_update_does hiv' counter_buffer (by rw [hone]; decide) _) ?_
    rintro ctx'' _ ⟨rfl, hlast⟩
    refine Does.bind (ghash_final_does hlast (by rw [blocks_counter_buffer]; simp) _) ?_
    rintro j0 _ ⟨rfl, hj0⟩
    refine Does.pure ⟨⟨rfl, rfl, rfl, rfl⟩, ?_, hlast.subkeyed⟩
    rw [hardened_xor_block_eq, val_block_xor, hj0, val_share, blocks_counter_buffer,
      List.nil_append, hfour, BitVec.xor_assoc, BitVec.xor_self, BitVec.xor_zero]

variable (hw : Hardware) {s : Device} {key : AesKey} {K : List u32}

theorem aes_gcm_hash_subkey_does (h : KeyReady s key K) (security_level : u32)
    (ghash_ctx : GhashContext) :
    Does (aes_gcm_hash_subkey hw key security_level ghash_ctx) s fun ghash_ctx' t => Kept s t ∧
      Subkeyed ghash_ctx' (hw.cipher K 0#128) := by
  refine Does.bind (aes_encrypt_block_does hw h Block.zero Block.zero security_level) ?_
  rintro hash_subkey t ⟨hkept, hsubkey⟩
  refine memshred_block_bind fun share0 entropy => ?_
  refine Does.pure ⟨hkept.trans (kept_entropy t entropy), _, _, table_init_subkey _ _,
    table_init_subkey _ _, ?_⟩
  rw [val_share, hsubkey, Block.val_zero, BitVec.xor_zero]

theorem aes_gcm_init_masks_does (h : KeyReady s key K) {ctx : AesGcmContext}
    (hsubkey : Subkeyed ctx.ghash_ctx (hw.cipher K 0#128)) :
    Does (aes_gcm_init_masks hw key ctx) s fun ghash_ctx t => Kept s t ∧
      Hashes ghash_ctx (hw.cipher K 0#128) (hw.cipher K ctx.initial_counter_block.val) [] := by
  refine Does.bind (aes_encrypt_block_does hw h ctx.initial_counter_block Block.zero _) ?_
  rintro enc t ⟨hkept, henc⟩
  refine memshred_block_bind fun share0 entropy => ?_
  refine (ghash_init_does (keyed_handle hsubkey share0 _) _).mono ?_
  rintro ghash_ctx _ ⟨⟨entropy', rfl⟩, hinit⟩
  rw [val_share, henc, Block.val_zero, BitVec.xor_zero] at hinit
  exact ⟨hkept.trans ⟨rfl, rfl, rfl, rfl⟩, hinit⟩

/-- A new context has taken in nothing, whatever lay in the memory before. -/
theorem aes_gcm_init_does (h : KeyReady s key K) {iv : List u32}
    (hiv : iv.length = 3 ∨ iv.length = 4) {ctx : AesGcmContext}
    (hdir : ctx.is_encrypt = kHardenedBoolTrue ∨ ctx.is_encrypt = kHardenedBoolFalse) :
    Does (aes_gcm_init hw key iv ctx) s fun ctx' t => Kept s t ∧
      Streams (hw.cipher K) (word_bytes iv) ctx' [] [] ∧ ctx'.is_encrypt = ctx.is_encrypt ∧
      ctx'.key = key ∧ ctx'.security_level = ctx.security_level := by
  unfold aes_gcm_init
  have hlen : ¬ (iv.length ≠ 3 ∧ iv.length ≠ 4) := by tauto
  rw [if_neg hlen]
  refine Does.get (hardened_check_bind h.checksum ?_)
  refine Does.bind (aes_gcm_hash_subkey_does hw h ctx.security_level ctx.ghash_ctx) ?_
  rintro ghash_ctx t ⟨hkept, hsubkey⟩
  refine Does.bind (aes_gcm_counter_does hsubkey hiv t) ?_
  rintro ⟨counter, ghash_ctx'⟩ u ⟨hkept', hcounter, hsubkey'⟩
  refine Does.bind (@aes_gcm_init_masks_does hw _ _ _ (h.kept (hkept.trans hkept'))
    { ctx with initial_counter_block := counter, ghash_ctx := ghash_ctx' } hsubkey') ?_
  rintro ghash_ctx'' v ⟨hkept'', hhashes⟩
  refine Does.pure ⟨(hkept.trans hkept').trans hkept'', ?_, rfl, rfl, rfl⟩
  rw [hcounter] at hhashes
  refine ⟨hdir, rfl, rfl, ?_, rfl, rfl, hhashes⟩
  rw [← hcounter]
  exact val_block_inc32 counter

/-! ## A message in one piece -/

theorem Streams.nil_gctr {E : BitVec 128 → BitVec 128} {iv text : List u8} :
    next_output E iv [] text ++ Gcm.gctr_from E (Gcm.inc32 (Gcm.initial_counter E iv))
      (16 * (text.length / 16)) (rest 16 text) =
        Gcm.gctr E (Gcm.inc32 (Gcm.initial_counter E iv)) text := by
  rw [gctr_full_rest]
  rfl

/-- The one-shot encryption is that of the standard. -/
theorem aes_gcm_encrypt_does (h : KeyReady s key K) {iv : List u32}
    (hiv : iv.length = 3 ∨ iv.length = 4) {plaintext aad : List u8}
    (hplain : plaintext.length < 2 ^ 32) (haad : aad.length < 2 ^ 32) {tag_len : ℕ}
    (htag : tag_len ≤ 4) (ctx : AesGcmContext) :
    Does (aes_gcm_encrypt hw key iv plaintext aad tag_len ctx) s fun r t => Kept s t ∧
      r.2.length = tag_len ∧
      (r.1, word_bytes r.2) =
        Gcm.encrypt (hw.cipher K) (4 * tag_len) (word_bytes iv) aad plaintext := by
  have hdir : kHardenedBoolTrue = kHardenedBoolTrue ∨ kHardenedBoolTrue = kHardenedBoolFalse :=
    Or.inl rfl
  refine Does.bind (@aes_gcm_init_does hw _ _ _ h _ hiv
    { ctx with is_encrypt := kHardenedBoolTrue } hdir) ?_
  rintro ctx₁ t ⟨hkept, hstreams, henc, hkey, -⟩
  refine Does.bind (aes_gcm_update_aad_does hstreams aad (by simpa using haad) t) ?_
  rintro ctx₂ t ⟨rfl, hstreams', hsame⟩
  rw [List.nil_append] at hstreams'
  have hready : KeyReady t ctx₂.key K := by
    rw [hsame.key, hkey]
    exact h.kept hkept
  refine Does.bind (aes_gcm_update_encrypted_data_does hw hstreams' hready plaintext
    (by simpa using hplain)) ?_
  rintro ⟨ctx₃, written⟩ u ⟨hkept', hstreams'', hsame', hwritten⟩
  rw [List.nil_append] at hstreams''
  have hready' : KeyReady u ctx₃.key K := by
    rw [hsame'.key]
    exact hready.kept hkept'
  refine Does.bind (aes_gcm_final_does hw hstreams'' hready' tag_len) ?_
  rintro ⟨tag, output⟩ v ⟨hkept'', hlen, htagval, hout⟩
  have henc' : ctx₃.is_encrypt = kHardenedBoolTrue := by
    rw [hsame'.is_encrypt, hsame.is_encrypt, henc]
  rw [ciphertext_of, if_pos henc'] at htagval
  dsimp only at hwritten hlen htagval hout
  refine Does.pure ⟨(hkept.trans hkept').trans hkept'', by dsimp only; omega, ?_⟩
  rw [Gcm.encrypt, hwritten, hout, Streams.nil_gctr, htagval]

/-- The one-shot decryption writes the full blocks of the plaintext whatever the tag, and the
rest of it if the tag is right. -/
theorem aes_gcm_decrypt_does (h : KeyReady s key K) {iv : List u32}
    (hiv : iv.length = 3 ∨ iv.length = 4) {ciphertext aad : List u8}
    (hcipher : ciphertext.length < 2 ^ 32) (haad : aad.length < 2 ^ 32) {tag : List u32}
    (htag : tag.length ≤ 4) (ctx : AesGcmContext) :
    Does (aes_gcm_decrypt hw key iv ciphertext aad tag ctx) s fun r t => Kept s t ∧
      r = if word_bytes tag =
          Gcm.tag (hw.cipher K) (4 * tag.length) (word_bytes iv) aad ciphertext then
        (Gcm.gctr (hw.cipher K) (Gcm.inc32 (Gcm.initial_counter (hw.cipher K) (word_bytes iv)))
          ciphertext, kHardenedBoolTrue)
      else (next_output (hw.cipher K) (word_bytes iv) [] ciphertext ++
          List.replicate (rest 16 ciphertext).length 0, kHardenedBoolFalse) := by
  have hdir : kHardenedBoolFalse = kHardenedBoolTrue ∨ kHardenedBoolFalse = kHardenedBoolFalse :=
    Or.inr rfl
  refine Does.bind (@aes_gcm_init_does hw _ _ _ h _ hiv
    { ctx with is_encrypt := kHardenedBoolFalse } hdir) ?_
  rintro ctx₁ t ⟨hkept, hstreams, hdec, hkey, -⟩
  refine Does.bind (aes_gcm_update_aad_does hstreams aad (by simpa using haad) t) ?_
  rintro ctx₂ t ⟨rfl, hstreams', hsame⟩
  rw [List.nil_append] at hstreams'
  have hready : KeyReady t ctx₂.key K := by
    rw [hsame.key, hkey]
    exact h.kept hkept
  refine Does.bind (aes_gcm_update_encrypted_data_does hw hstreams' hready ciphertext
    (by simpa using hcipher)) ?_
  rintro ⟨ctx₃, written⟩ u ⟨hkept', hstreams'', hsame', hwritten⟩
  rw [List.nil_append] at hstreams''
  have hready' : KeyReady u ctx₃.key K := by
    rw [hsame'.key]
    exact hready.kept hkept'
  have hdec' : ctx₃.is_encrypt = kHardenedBoolFalse := by
    rw [hsame'.is_encrypt, hsame.is_encrypt, hdec]
  refine Does.bind (aes_gcm_decrypt_final_does hw hstreams'' hready' hdec' htag) ?_
  rintro ⟨success, output⟩ v ⟨hkept'', hresult⟩
  dsimp only at hwritten
  refine Does.pure ⟨(hkept.trans hkept').trans hkept'', ?_⟩
  split_ifs with hright
  · rw [if_pos hright] at hresult
    obtain ⟨rfl, rfl⟩ := Prod.mk.inj hresult
    rw [hwritten, Streams.nil_gctr]
  · rw [if_neg hright] at hresult
    obtain ⟨rfl, rfl⟩ := Prod.mk.inj hresult
    rw [hwritten]

end

end IbexFirmware.Aes
