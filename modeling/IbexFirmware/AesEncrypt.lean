/-
One block under the AES block, and a text under its counter mode.

A key is ready when the device can work with it (`KeyReady`). Then `aes_encrypt_block`
adds the encrypted counter to its input at every level of security, and `aes_gcm_gctr`
works off the full blocks of a text as the counter mode of the standard does. Nothing that
belongs to a caller changes on the way (`Kept`).
-/
import IbexFirmware.AesGcmCore

set_option autoImplicit false

namespace IbexFirmware.Aes

open Bytes PowerFail Crypto HardenedMemory Splice Chunks

/-! ## What is kept -/

/-- Only the entropy source and the AES registers have changed. -/
structure Kept (s t : Device) : Prop where
  icache : t.icache = s.icache
  aes_slot : t.aes_slot = s.aes_slot
  kmac_slot : t.kmac_slot = s.kmac_slot
  keys : t.keys = s.keys

instance : IsPreorder Device Kept where
  refl _ := ⟨rfl, rfl, rfl, rfl⟩
  trans _ _ _ h h' :=
    ⟨h'.icache.trans h.icache, h'.aes_slot.trans h.aes_slot, h'.kmac_slot.trans h.kmac_slot,
      h'.keys.trans h.keys⟩

theorem Kept.rfl {s : Device} : Kept s s := refl s

theorem Kept.trans {s t u : Device} (h : Kept s t) (h' : Kept t u) : Kept s u :=
  trans_of Kept h h'

/-- The words that a key stands for: the sum of its shares, or what is in the slot. -/
def AesKey.words (key : AesKey) (s : Device) : List u32 :=
  if key.sideload = kHardenedBoolTrue then (s.aes_slot.key.getD []).take key.key_len.toNat
  else hardened_xor (key.share0 s) (key.share1 s)

/-- A key that the device can work with, in whatever mode. -/
structure KeyValid (s : Device) (key : AesKey) (K : List u32) : Prop where
  sideload : key.sideload = kHardenedBoolTrue ∨ key.sideload = kHardenedBoolFalse
  key_len : key.key_len = 4 ∨ key.key_len = 6 ∨ key.key_len = 8
  room : key.sideload = kHardenedBoolFalse →
    2 * key.key_len.toNat ≤ (s.keys key.blob).words.length
  checksum : key.checksum = aes_key_integrity_checksum s key
  words : key.words s = K

theorem KeyValid.kept {s t : Device} {key : AesKey} {K : List u32} (h : KeyValid s key K)
    (hkept : Kept s t) : KeyValid t key K := by
  refine ⟨h.sideload, h.key_len, ?_, ?_, ?_⟩
  · rw [hkept.keys]
    exact h.room
  · rw [h.checksum, aes_key_integrity_checksum, aes_key_integrity_checksum, hkept.keys]
  · rw [← h.words, AesKey.words, AesKey.words, AesKey.share0, AesKey.share0, AesKey.share1,
      AesKey.share1, hkept.keys, hkept.aes_slot]

/-- A key for counter mode that the device can work with. -/
structure KeyReady (s : Device) (key : AesKey) (K : List u32) : Prop where
  mode : key.mode = kAesCipherModeCtr
  sideload : key.sideload = kHardenedBoolTrue ∨ key.sideload = kHardenedBoolFalse
  key_len : key.key_len = 4 ∨ key.key_len = 6 ∨ key.key_len = 8
  room : key.sideload = kHardenedBoolFalse →
    2 * key.key_len.toNat ≤ (s.keys key.blob).words.length
  checksum : key.checksum = aes_key_integrity_checksum s key
  words : key.words s = K

theorem KeyReady.valid {s : Device} {key : AesKey} {K : List u32} (h : KeyReady s key K) :
    KeyValid s key K := ⟨h.sideload, h.key_len, h.room, h.checksum, h.words⟩

theorem KeyReady.kept {s t : Device} {key : AesKey} {K : List u32} (h : KeyReady s key K)
    (hkept : Kept s t) : KeyReady t key K :=
  have hvalid := h.valid.kept hkept
  ⟨h.mode, h.sideload, h.key_len, hvalid.room, hvalid.checksum, hvalid.words⟩

/-! ## The registers -/

/-- What the control register is set to. -/
def AesKey.ctrl (key : AesKey) (encrypt : u32) : Ctrl :=
  ⟨encrypt, key.sideload, key.mode, key.key_len⟩

theorem KeyReady.known {s : Device} {key : AesKey} {K : List u32} (h : KeyReady s key K) :
    known_mode key.mode := by
  rw [h.mode]
  decide

theorem compute_ctrl_reg_eq {s : Device} {key : AesKey} {K : List u32} (h : KeyValid s key K)
    (hmode : known_mode key.mode) {encrypt : u32}
    (henc : encrypt = kHardenedBoolTrue ∨ encrypt = kHardenedBoolFalse) :
    compute_ctrl_reg key encrypt = .ok (key.ctrl encrypt) := by
  have hside := h.sideload
  have hlen := h.key_len
  unfold compute_ctrl_reg
  rw [if_neg (by tauto), if_neg (by tauto), if_neg (not_not.mpr hmode), if_neg (by tauto)]
  rfl

/-- The AES block is set up with a key. -/
structure Started (s t : Device) (key : AesKey) (K : List u32) (encrypt : u32) : Prop where
  kept : Kept s t
  ctrl : t.regs.ctrl = some (key.ctrl encrypt)
  active : t.active_key (key.ctrl encrypt) = K

/-- The AES block is set up: the next input is encrypted under the key and the counter. -/
structure Begun (s t : Device) (key : AesKey) (K : List u32) (iv : Block) (encrypt : u32) :
    Prop where
  kept : Kept s t
  ctrl : t.regs.ctrl = some (key.ctrl encrypt)
  iv : t.regs.iv = iv
  active : t.active_key (key.ctrl encrypt) = K

/-- What was written over random words is what the registers hold. -/
theorem take_hardened_xor_splice {n : ℕ} {random0 random1 x y : List u32}
    (hx : x.length = n) (hy : y.length = n) :
    (hardened_xor (splice random0 0 x) (splice random1 0 y)).take n = hardened_xor x y := by
  have htake : ∀ random z : List u32, z.length = n → (splice random 0 z).take n = z := by
    intro random z hz
    rw [splice, List.take_zero, List.nil_append, List.take_append_of_le_length (by omega),
      ← hz, List.take_length]
  rw [hardened_xor, List.take_zipWith, htake _ _ hx, htake _ _ hy, hardened_xor]

/-- Both shares of the key get into the device, whichever they are, and it has started. -/
theorem aes_write_key_does {s : Device} {key : AesKey} {K : List u32} (h : KeyValid s key K)
    (encrypt : u32) (hctrl : s.regs.ctrl = some (key.ctrl encrypt)) :
    Does (aes_write_key key) s fun _ t => Started s t key K encrypt := by
  have hwords := h.words
  rw [AesKey.words] at hwords
  unfold aes_write_key
  by_cases hside : key.sideload = kHardenedBoolFalse
  · have hne : key.sideload ≠ kHardenedBoolTrue := by
      rw [hside]
      decide
    rw [if_neg hne] at hwords
    rw [if_neg (not_not.mpr hside)]
    have hlen0 : (key.share0 s).length = key.key_len.toNat := by
      rw [AesKey.share0, length_slice_of_le]
      have := h.room hside
      omega
    have hlen1 : (key.share1 s).length = key.key_len.toNat := by
      rw [AesKey.share1, length_slice_of_le]
      have := h.room hside
      omega
    refine Does.bind (R := fun _ t => Started s t key K encrypt) ?_ ?_
    · refine memshred_bind fun random0 entropy _ => Does.modify_bind ?_
      refine memshred_bind fun random1 entropy' _ => Does.modify ⟨⟨rfl, rfl, rfl, rfl⟩, hctrl, ?_⟩
      rw [Device.active_key, AesKey.ctrl, if_neg hne]
      exact (take_hardened_xor_splice hlen0 hlen1).trans hwords
    · intro _ t ht
      exact Does.get (hardened_check_bind (h.kept ht.kept).checksum (Does.step ht))
  · have htrue : key.sideload = kHardenedBoolTrue := h.sideload.resolve_right hside
    rw [if_pos htrue] at hwords
    rw [if_pos hside]
    refine hardened_check_does htrue ⟨Kept.rfl, hctrl, ?_⟩
    rw [Device.active_key, AesKey.ctrl, if_pos htrue]
    exact hwords

/-- The IV is written in every mode but ECB. -/
theorem aes_begin_started {s : Device} {key : AesKey} {K : List u32} (h : KeyValid s key K)
    (hmode : known_mode key.mode) (iv : Block) {encrypt : u32}
    (henc : encrypt = kHardenedBoolTrue ∨ encrypt = kHardenedBoolFalse) :
    Does (aes_begin key iv encrypt) s fun _ t =>
      Started s t key K encrypt ∧ (key.mode ≠ kAesCipherModeEcb → t.regs.iv = iv) := by
  unfold aes_begin entropy_complex_check spin_until driver
  refine Does.step_bind (Does.step_bind (Does.ofExcept_bind (compute_ctrl_reg_eq h hmode henc) ?_))
  refine Does.modify_bind (Does.step_bind ?_)
  have hwritten : Kept s { s with
      regs := { s.regs with ctrl := some (key.ctrl encrypt), data_out := none } } :=
    ⟨rfl, rfl, rfl, rfl⟩
  refine Does.bind (aes_write_key_does (h.kept hwritten) encrypt rfl) ?_
  rintro _ t ⟨hkept, hctrl, hactive⟩
  have hkept := hwritten.trans hkept
  have hcheck {u : Device} (hu : u.regs.ctrl = some (key.ctrl encrypt)) {Q : Unit → Device → Prop}
      (hQ : Q () u) : Does (do check_ctrl_reg (key.ctrl encrypt); spin_until) u Q :=
    Does.bind (R := fun _ v => v = u) (Does.get (hardened_check_does hu rfl)) fun _ v hv =>
      Does.step (by rw [hv]; exact hQ)
  rw [write_iv]
  by_cases hecb : key.mode = kAesCipherModeEcb
  · rw [if_neg (not_not.mpr hecb)]
    refine Does.bind (R := fun _ u => u = t) (Does.pure rfl) ?_
    rintro _ _ rfl
    exact hcheck hctrl ⟨⟨hkept, hctrl, hactive⟩, fun hne => absurd hecb hne⟩
  · rw [if_pos hecb]
    refine Does.modify_bind (hcheck ?_ ⟨⟨?_, hctrl, hactive⟩, fun _ => rfl⟩)
    · exact hctrl
    · exact ⟨hkept.icache, hkept.aes_slot, hkept.kmac_slot, hkept.keys⟩

theorem aes_begin_does {s : Device} {key : AesKey} {K : List u32} (h : KeyReady s key K)
    (iv : Block) {encrypt : u32}
    (henc : encrypt = kHardenedBoolTrue ∨ encrypt = kHardenedBoolFalse) :
    Does (aes_begin key iv encrypt) s fun _ t => Begun s t key K iv encrypt := by
  refine Does.mono (aes_begin_started h.valid h.known iv henc) fun _ t ht => ?_
  refine ⟨ht.1.kept, ht.1.ctrl, ht.2 ?_, ht.1.active⟩
  rw [h.mode]
  decide

section

variable (hw : Hardware) {s : Device} {key : AesKey} {K : List u32}

theorem Device.feed_eq {t : Device} {ctrl : Ctrl} (h : t.regs.ctrl = some ctrl) (src : Block) :
    ∃ iv, t.feed hw src = { t with regs := { t.regs with
      data_out := some (t.process hw ctrl src), iv := iv } } := by
  unfold Device.feed
  rw [h]
  exact ⟨_, rfl⟩

/-- The AES block holds the output of a block of input. -/
structure Processed (s t : Device) (key : AesKey) (encrypt : u32) (v : BitVec 128) : Prop where
  kept : Kept s t
  ctrl : t.regs.ctrl = some (key.ctrl encrypt)
  data_out : ∃ dest, t.regs.data_out = some dest ∧ dest.val = v

theorem aes_update_in_does {t : Device} {iv : Block} {encrypt : u32}
    (hmode : key.mode = kAesCipherModeCtr) (h : Begun s t key K iv encrypt) (src : Block) :
    Does (aes_update_in hw src) t fun _ u =>
      Processed s u key encrypt (hw.cipher K iv.val ^^^ src.val) := by
  have hout : (t.process hw (key.ctrl encrypt) src).val = hw.cipher K iv.val ^^^ src.val := by
    have hctr : (key.ctrl encrypt).mode = kAesCipherModeCtr := hmode
    simp only [Device.process, h.active, h.iv, if_pos hctr, Block.val_of_val]
  obtain ⟨iv', hfeed⟩ := Device.feed_eq hw h.ctrl src
  refine Does.step ?_
  simp only [hfeed]
  exact ⟨h.kept.trans ⟨rfl, rfl, rfl, rfl⟩, h.ctrl, _, rfl, hout⟩

theorem aes_update_out_does {t : Device} {encrypt : u32} {v : BitVec 128}
    (h : Processed s t key encrypt v) :
    Does aes_update_out t fun dest u => Kept s u ∧ u.regs.ctrl = some (key.ctrl encrypt) ∧
      dest.val = v := by
  obtain ⟨dest, hdest, hv⟩ := h.data_out
  refine Does.get ?_
  rw [hdest]
  refine Does.step_bind (Does.modify_bind (Does.pure ⟨?_, h.ctrl, hv⟩))
  exact h.kept.trans ⟨rfl, rfl, rfl, rfl⟩

theorem aes_end_does {t : Device} (h : Kept s t) : Does aes_end t fun _ u => Kept s u :=
  Does.step (h.trans ⟨rfl, rfl, rfl, rfl⟩)

theorem aes_encrypt_first_does (h : KeyReady s key K) (iv input : Block) :
    Does (aes_encrypt_first hw key iv input) s fun output t => Kept s t ∧
      t.regs.ctrl = some (key.ctrl kHardenedBoolTrue) ∧
      output.val = hw.cipher K iv.val ^^^ input.val := by
  refine Does.bind (aes_begin_does h iv (Or.inl rfl)) fun _ t hbegun => ?_
  exact Does.bind (aes_update_in_does hw h.mode hbegun input) fun _ u => aes_update_out_does

/-- In counter mode decrypting is encrypting, so the check gives the input back. -/
theorem aes_decrypt_check_does (h : KeyReady s key K) {iv input output : Block}
    (hctrl : s.regs.ctrl = some (key.ctrl kHardenedBoolTrue))
    (hout : output.val = hw.cipher K iv.val ^^^ input.val) :
    Does (aes_decrypt_check hw key iv input output) s fun _ t => Kept s t := by
  have hctrl_reg := compute_ctrl_reg_eq h.valid h.known (Or.inl (rfl : kHardenedBoolTrue = _))
  have hverify : Does (aes_verify_ctrl_reg key kHardenedBoolTrue) s fun _ t => t = s :=
    Does.ofExcept_bind hctrl_reg (Does.get (hardened_check_does hctrl rfl))
  refine Does.bind hverify fun _ t ht => ?_
  subst ht
  refine Does.bind (aes_begin_does h iv (Or.inr rfl)) fun _ u hbegun => ?_
  refine Does.bind (aes_update_in_does hw h.mode hbegun output) fun _ u' hprocessed => ?_
  refine Does.bind (aes_update_out_does hprocessed) fun again u'' ⟨hkept, _, hagain⟩ => ?_
  refine Does.bind (aes_end_does hkept) fun _ v hv => hardened_check_does ?_ hv
  have hsame : again = input := by
    apply Block.val_injective
    rw [hagain, hout, ← BitVec.xor_assoc, BitVec.xor_self, BitVec.zero_xor]
  rw [hsame, hardened_memeq_eq _ _ rfl, if_pos rfl]

/-- One block is encrypted, and at the higher levels of security the check of it passes. -/
theorem aes_encrypt_block_does (h : KeyReady s key K) (iv input : Block) (security_level : u32) :
    Does (aes_encrypt_block hw key iv input security_level) s fun output t => Kept s t ∧
      output.val = hw.cipher K iv.val ^^^ input.val := by
  refine Does.bind (aes_encrypt_first_does hw h iv input) fun output t ⟨hkept, hctrl, hout⟩ => ?_
  split_ifs
  · exact Does.bind (aes_end_does hkept) fun _ u hu => Does.pure ⟨hu, hout⟩
  · exact Does.bind (aes_decrypt_check_does hw (h.kept hkept) hctrl hout) fun _ u hu =>
      Does.pure ⟨hkept.trans hu, hout⟩

/-! ## A text -/

theorem inc32_join (a b c d : u32) : Gcm.inc32 (Gcm.join a b c d) = Gcm.join a b c (d + 1) := by
  have hhead : (Gcm.join a b c d).extractLsb' 32 96 = a ++ b ++ c := by
    change (((a ++ b ++ c : BitVec 96) ++ d).extractLsb' 32 96) = _
    rw [BitVec.extractLsb'_append_eq_of_le (by omega), BitVec.extractLsb'_eq_self]
  have htail : (Gcm.join a b c d).extractLsb' 0 32 = d := by
    change (((a ++ b ++ c : BitVec 96) ++ d).extractLsb' 0 32) = _
    rw [BitVec.extractLsb'_append_eq_of_add_le (by omega), BitVec.extractLsb'_eq_self]
  rw [Gcm.inc32, hhead, htail]
  rfl

theorem val_block_inc32 (b : Block) : (block_inc32 b).val = Gcm.inc32 b.val := by
  rw [Block.val, Block.val, inc32_join]
  simp only [block_inc32, word_inc32, bswap32_bswap32]

/-- The counter mode has gone over a text from block `k` on: its full blocks have been added
to the output, and the rest is in the partial block. -/
structure Counted (E : BitVec 128 → BitVec 128) (icb : BitVec 128) (k : ℕ) (text out : List u8)
    (st : GctrState) : Prop where
  iv : st.iv.val = Gcm.inc32^[k + text.length / 16] icb
  output : st.output = out ++ Gcm.gctr_from E icb (16 * k) (full 16 text)
  part : st.part.bytes.take (rest 16 text).length = rest 16 text

theorem gctr_process_block_does (h : KeyReady s key K) (iv input : Block) (security_level : u32) :
    Does (gctr_process_block hw key iv input security_level) s fun r t => Kept s t ∧
      r.1.val = Gcm.inc32 iv.val ∧ r.2.val = hw.cipher K iv.val ^^^ input.val :=
  Does.bind (aes_encrypt_block_does hw h iv input security_level) fun _ _ ⟨hkept, hout⟩ =>
    Does.pure ⟨hkept, val_block_inc32 iv, hout⟩

/-- The bytes of an output block are the text under a block of the keystream. -/
theorem bytes_eq_gctr_from {E : BitVec 128 → BitVec 128} {icb : BitVec 128} {k : ℕ} {out : Block}
    {text : List u8} (hlen : text.length = 16)
    (h : out.val = E (Gcm.inc32^[k] icb) ^^^ Gcm.of_bytes text) :
    out.bytes = Gcm.gctr_from E icb (16 * k) text := by
  rw [Gcm.gctr_from_block k (by omega), BitVec.xor_comm, ← h, Block.bytes_val, hlen]
  exact (List.take_of_length_le (by simp)).symm

/-- A block in front of the rest of the text. -/
theorem Counted.cons {E : BitVec 128 → BitVec 128} {icb : BitVec 128} {k : ℕ}
    {first text out : List u8} {st : GctrState} (hlen : first.length = 16)
    (h : Counted E icb (k + 1) text (out ++ Gcm.gctr_from E icb (16 * k) first) st) :
    Counted E icb k (first ++ text) out st := by
  have hmod : first.length % 16 = 0 := by rw [hlen]
  refine ⟨?_, ?_, ?_⟩
  · have hcount : k + (first ++ text).length / 16 = k + 1 + text.length / 16 := by
      rw [List.length_append, hlen]
      omega
    rw [h.iv, hcount]
  · rw [h.output, full_append_of_mod (by decide) hmod, Gcm.gctr_from_append, hlen, Nat.mul_add,
      List.append_assoc]
  · rw [rest_append_of_mod (by decide) hmod]
    exact h.part

/-- The loop works off the full blocks and leaves the rest in the partial block. -/
theorem gctr_remaining_blocks_does {icb : BitVec 128} (h : KeyReady s key K)
    (security_level : u32) (k : ℕ) (st : GctrState) (input : List u8)
    (hiv : st.iv.val = Gcm.inc32^[k] icb) :
    Does (gctr_remaining_blocks hw key security_level st input) s fun st' t => Kept s t ∧
      Counted (hw.cipher K) icb k input st.output st' := by
  induction hn : input.length using Nat.strong_induction_on generalizing s k st input with
  | _ n ih =>
    rw [gctr_remaining_blocks]
    split
    · rename_i hge
      rw [kAesBlockNumBytes] at hge
      have htake : (input.take 16).length = 16 := by rw [List.length_take]; omega
      have hval : (st.part.bytecopy 0 (input.take 16)).val = Gcm.of_bytes (input.take 16) := by
        rw [Block.bytecopy_full _ (by rw [htake]), List.take_zero, List.nil_append]
      refine Does.bind (gctr_process_block_does hw h _ _ security_level) ?_
      rintro ⟨iv, block_out⟩ t ⟨hkept, hiv', hout⟩
      rw [hiv] at hiv' hout
      rw [hval] at hout
      have hdrop : (input.drop 16).length = input.length - 16 := List.length_drop
      refine (ih (input.length - 16) (by omega) (h.kept hkept) (k + 1)
        ⟨iv, _, st.output ++ block_out.bytes⟩ (input.drop 16) ?_ hdrop).mono ?_
      · rw [hiv', Function.iterate_succ_apply']
      · rintro st' u ⟨hkept', hcounted⟩
        rw [bytes_eq_gctr_from htake hout] at hcounted
        have hcons := hcounted.cons htake
        rw [List.take_append_drop] at hcons
        exact ⟨hkept.trans hkept', hcons⟩
    · rename_i hlt
      rw [kAesBlockNumBytes, Nat.not_le] at hlt
      have hcopy := @Block.take_bytecopy st.part 0 input (by omega)
      rw [Nat.zero_add, List.take_zero, List.nil_append] at hcopy
      refine Does.pure ⟨Kept.rfl, ?_, ?_, ?_⟩
      · rw [Nat.div_eq_of_lt hlt]
        exact hiv
      · rw [full_of_lt 16 hlt, Gcm.gctr_from_nil, List.append_nil]
      · rw [rest_of_lt 16 hlt]
        exact hcopy

/-- Input behind what the partial block holds: the full blocks of both are worked off. -/
theorem aes_gcm_gctr_does {icb : BitVec 128} (h : KeyReady s key K) {iv part : Block} {k : ℕ}
    (hiv : iv.val = Gcm.inc32^[k] icb) {held : List u8}
    (hpart : part.bytes.take held.length = held) (hheld : held.length < 16) (input : List u8)
    (security_level : u32) :
    Does (aes_gcm_gctr hw key iv held.length part input security_level) s fun st t => Kept s t ∧
      Counted (hw.cipher K) icb k (held ++ input) [] st := by
  rw [aes_gcm_gctr, if_neg (not_not.mpr h.mode)]
  by_cases hshort : input.length < 16 - held.length
  · rw [if_pos hshort]
    have hlt : (held ++ input).length < 16 := by rw [List.length_append]; omega
    refine Does.pure ⟨Kept.rfl, ?_, ?_, ?_⟩
    · rw [Nat.div_eq_of_lt hlt]
      exact hiv
    · rw [full_of_lt 16 hlt, Gcm.gctr_from_nil]
      rfl
    · rw [rest_of_lt 16 hlt, List.length_append, Block.take_bytecopy _ (by omega), hpart]
  · -- The first block is made of what was held and the start of the input.
    rw [if_neg hshort]
    obtain ⟨first, hfirstlen, hsplit, hval⟩ := Block.bytecopy_held hpart hheld hshort
    refine Does.bind (gctr_process_block_does hw h _ _ security_level) ?_
    rintro ⟨iv', block_out⟩ t ⟨hkept, hiv', hout⟩
    rw [hiv] at hiv' hout
    rw [hval] at hout
    have hnext : iv'.val = Gcm.inc32^[k + 1] icb := by
      rw [Function.iterate_succ_apply']
      exact hiv'
    refine (gctr_remaining_blocks_does hw (h.kept hkept) security_level (k + 1)
      ⟨iv', _, block_out.bytes⟩ _ hnext).mono ?_
    · rintro st u ⟨hkept', hcounted⟩
      rw [bytes_eq_gctr_from hfirstlen hout] at hcounted
      rw [hsplit]
      exact ⟨hkept.trans hkept', Counted.cons hfirstlen hcounted⟩

end

end IbexFirmware.Aes
