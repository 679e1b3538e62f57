/-
AES key wrapping with padding (`aes_kwp.c`).

The code keeps the registers of the key wrap in the buffer of the ciphertext, or in an array of its
own, and goes over them with an index. A register is two words in memory, which stand for a
semiblock (`semi`), so that a turn of the inner loop is a step of the key wrap (`wrap_step_does`,
`unwrap_step_does`) and the loops are all steps (`wrap_rows_does`, `unwrap_rows_does`).
-/
import IbexFirmware.AesGcmMessage
import IbexFirmware.Lib.KeyWrap

set_option autoImplicit false

namespace IbexFirmware.Kwp

open Bytes PowerFail Crypto HardenedMemory Splice Aes KeyWrap

/-! ## The functions -/

def kSemiblockBytes : u32 := 16 / 2
def kSemiblockWords : ℕ := 8 / 4

/-- `memset` to zero of `n` bytes in a row of words. -/
def clear_bytes (ws : List u32) (off n : ℕ) : List u32 :=
  zero_padded ws.length (splice (word_bytes ws) off (List.replicate n 0))

/-- The index of a step, encoded into the first semiblock of the block. -/
def xor_index (block : Block) (t : u64) : Block :=
  { block with
    w0 := block.w0 ^^^ bswap32 ((t >>> 32).setWidth 32)
    w1 := block.w1 ^^^ bswap32 ((t &&& 0xffffffff).setWidth 32) }

/-- `R[i]` in the second semiblock of the block, where the registers start at `start`. -/
def load_register (block : Block) (regs : List u32) (i : ℕ) : Block :=
  Block.of_words (splice block.words kSemiblockWords (slice regs (i * kSemiblockWords) kSemiblockWords))

def store_register (regs : List u32) (i : ℕ) (block : Block) : List u32 :=
  splice regs (i * kSemiblockWords) (slice block.words kSemiblockWords kSemiblockWords)

section

variable (hw : Hardware)

/-- `aes_update(NULL, &block)` and `aes_update(&block, NULL)`. -/
def aes_block (block : Block) : Proc Device CryptoError Block := do
  aes_update_in hw block
  aes_update_out

def wrap_step (i : ℕ) (t : u64) (block : Block) (ciphertext : List u32) :
    Proc Device CryptoError (Block × List u32) := do
  let block ← aes_block hw (load_register block ciphertext i)
  let block := xor_index block t
  pure (block, store_register ciphertext i block)

/-- The inner loop with `n` turns left. -/
def wrap_row : ℕ → ℕ → u64 → Block → List u32 → Proc Device CryptoError (u64 × Block × List u32)
  | 0, _, t, block, ciphertext => pure (t, block, ciphertext)
  | n + 1, i, t, block, ciphertext => do
      let (block, ciphertext) ← wrap_step hw i t block ciphertext
      wrap_row n (i + 1) (t + 1) block ciphertext

/-- The outer loop with `j` turns left. -/
def wrap_rows (plaintext_semiblocks : ℕ) :
    ℕ → u64 → Block → List u32 → Proc Device CryptoError (Block × List u32)
  | 0, _, block, ciphertext => pure (block, ciphertext)
  | j + 1, t, block, ciphertext => do
      let (t, block, ciphertext) ← wrap_row hw plaintext_semiblocks 1 t block ciphertext
      wrap_rows plaintext_semiblocks j t block ciphertext

def aes_kwp_wrap (kek : AesKey) (plaintext : List u32) (plaintext_len : u32)
    (ciphertext : List u32) : Proc Device CryptoError (List u32) :=
  if plaintext_len > BitVec.allOnes 32 ∨ plaintext_len = 0 then Proc.throw .OTCRYPTO_BAD_ARGS
  else
    let plaintext_semiblocks := ceil_div plaintext_len kSemiblockBytes
    let pad_len := kSemiblockBytes * plaintext_semiblocks - plaintext_len
    if plaintext_semiblocks < 2 then Proc.throw .OTCRYPTO_BAD_ARGS
    else do
      aes_encrypt_begin kek Block.zero
      let block : Block := ⟨0xa65959a6, bswap32 plaintext_len, 0, 0⟩
      let plaintext_words := (ceil_div plaintext_len 4).toNat
      let ciphertext := splice ciphertext 0 (slice block.words 0 kSemiblockWords)
      let ciphertext := splice ciphertext kSemiblockWords (slice plaintext 0 plaintext_words)
      let ciphertext :=
        clear_bytes ciphertext (kSemiblockBytes.toNat + plaintext_len.toNat) pad_len.toNat
      let (block, ciphertext) ← wrap_rows hw plaintext_semiblocks.toNat 6 1 block ciphertext
      pure (splice ciphertext 0 (slice block.words 0 kSemiblockWords))

def unwrap_step (i : ℕ) (t : u64) (block : Block) (r : List u32) :
    Proc Device CryptoError (Block × List u32) := do
  let block := xor_index block t
  let block ← aes_block hw (load_register block r (i - 1))
  pure (block, store_register r (i - 1) block)

/-- The inner loop from `i` down to one. -/
def unwrap_row : ℕ → u64 → Block → List u32 → Proc Device CryptoError (u64 × Block × List u32)
  | 0, t, block, r => pure (t, block, r)
  | i + 1, t, block, r => do
      let (block, r) ← unwrap_step hw (i + 1) t block r
      unwrap_row i (t - 1) block r

def unwrap_rows (n : ℕ) : ℕ → u64 → Block → List u32 → Proc Device CryptoError (Block × List u32)
  | 0, _, block, r => pure (block, r)
  | j + 1, t, block, r => do
      let (t, block, r) ← unwrap_row hw n t block r
      unwrap_rows n j t block r

/-- The checks of what has been unwrapped: the flag for success, and the buffer of the plaintext. -/
def unwrap_checks (ciphertext_semiblocks : u32) (block : Block) (r plaintext : List u32) :
    u32 × List u32 :=
  if block.w0 ≠ 0xa65959a6 then (kHardenedBoolFalse, plaintext)
  else
    let plaintext_len := bswap32 block.w1
    let pad_len := kSemiblockBytes * (ciphertext_semiblocks - 1) - plaintext_len
    if pad_len ≥ kSemiblockBytes then (kHardenedBoolFalse, plaintext)
    else if pad_len ≠ 0 ∧
        slice (word_bytes r) plaintext_len.toNat pad_len.toNat ≠ List.replicate pad_len.toNat 0 then
      (kHardenedBoolFalse, plaintext)
    else
      let plaintext_words := (ceil_div plaintext_len 4).toNat
      (kHardenedBoolTrue, splice plaintext 0 (slice r 0 plaintext_words))

def aes_kwp_unwrap (kek : AesKey) (ciphertext : List u32) (ciphertext_len : u32)
    (plaintext : List u32) : Proc Device CryptoError (u32 × List u32) :=
  if ciphertext_len > BitVec.allOnes 32 ∨ ciphertext_len = 0 ∨ ciphertext_len % kSemiblockBytes ≠ 0 then
    Proc.throw .OTCRYPTO_BAD_ARGS
  else
    let ciphertext_semiblocks := ciphertext_len / kSemiblockBytes
    if ciphertext_semiblocks < 3 then Proc.throw .OTCRYPTO_BAD_ARGS
    else do
      aes_decrypt_begin kek Block.zero
      let block : Block := ⟨ciphertext.getD 0 0, ciphertext.getD 1 0, 0, 0⟩
      let r := slice ciphertext kSemiblockWords
        ((ciphertext_semiblocks - 1).toNat * kSemiblockWords)
      let t : u64 := 6 * (ciphertext_semiblocks.setWidth 64 - 1)
      let (block, r) ← unwrap_rows hw (ciphertext_semiblocks - 1).toNat 6 t block r
      pure (unwrap_checks ciphertext_semiblocks block r plaintext)

end

/-! ## Registers as semiblocks -/

/-- The semiblock that two words in memory stand for. -/
def semi (w0 w1 : u32) : BitVec 64 := bswap32 w0 ++ bswap32 w1

def semis (ws : List u32) : List (BitVec 64) := semiblocks (word_bytes ws)

section semis

variable {ws regs : List u32} {i n : ℕ}

theorem semis_cons (w0 w1 : u32) (ws : List u32) : semis (w0 :: w1 :: ws) = semi w0 w1 :: semis ws :=
  rfl

theorem length_semis (h : ws.length = 2 * n) : (semis ws).length = n :=
  length_semiblocks (by rw [length_word_bytes]; omega)

/-- Two words at a time. -/
theorem exists_register (h : 2 * i + 2 ≤ regs.length) :
    ∃ w0 w1 ws, regs = w0 :: w1 :: ws ∧ 2 * i ≤ ws.length := by
  match regs, h with
  | w0 :: w1 :: ws, h =>
      refine ⟨w0, w1, ws, rfl, ?_⟩
      simp only [List.length_cons] at h
      omega

theorem slice_cons_cons (w0 w1 : u32) (ws : List u32) (k m : ℕ) :
    slice (w0 :: w1 :: ws) (k + 2) m = slice ws k m := rfl

theorem splice_cons_cons (w0 w1 : u32) (ws ys : List u32) (k : ℕ) :
    splice (w0 :: w1 :: ws) (k + 2) ys = w0 :: w1 :: splice ws k ys := by
  rw [splice, splice, Nat.add_right_comm]
  rfl

theorem slice_register (h : 2 * i + 2 ≤ regs.length) :
    ∃ x y, slice regs (i * kSemiblockWords) kSemiblockWords = [x, y] ∧ (semis regs)[i]? = some (semi x y) ∧
      ∀ a b, semis (splice regs (i * kSemiblockWords) [a, b]) = (semis regs).set i (semi a b) := by
  obtain ⟨w0, w1, ws, rfl, hle⟩ := exists_register h
  induction i generalizing w0 w1 ws with
  | zero => exact ⟨w0, w1, rfl, rfl, fun a b => rfl⟩
  | succ i ih =>
      obtain ⟨w2, w3, ws, rfl, hle'⟩ := exists_register (show 2 * i + 2 ≤ ws.length from hle)
      obtain ⟨x, y, hslice, hget, hset⟩ := ih w2 w3 ws hle' hle
      have hi : (i + 1) * kSemiblockWords = i * kSemiblockWords + 2 := Nat.succ_mul i 2
      refine ⟨x, y, ?_, ?_, fun a b => ?_⟩
      · rw [hi, slice_cons_cons, hslice]
      · rw [semis_cons, List.getElem?_cons_succ, hget]
      · rw [hi, splice_cons_cons, semis_cons, hset, semis_cons w0, List.set_cons_succ]

/-- The block is the first semiblock and the second one. -/
theorem val_block (w0 w1 w2 w3 : u32) :
    (⟨w0, w1, w2, w3⟩ : Block).val = semi w0 w1 ++ semi w2 w3 := by
  have h := @BitVec.append_assoc 64 32 32 (bswap32 w0 ++ bswap32 w1) (bswap32 w2) (bswap32 w3)
  rw [Block.val, Gcm.join, h]
  rfl

theorem halves_val (block : Block) :
    halves block.val = (semi block.w0 block.w1, semi block.w2 block.w3) := by
  rw [val_block]
  exact halves.apply_symm_apply (semi block.w0 block.w1, semi block.w2 block.w3)

theorem index_high (t : u64) : (t >>> 32).setWidth 32 = t.extractLsb' 32 32 := by
  apply BitVec.eq_of_toNat_eq
  rw [BitVec.extractLsb'_toNat, BitVec.toNat_setWidth, BitVec.toNat_ushiftRight]

theorem index_low (t : u64) : (t &&& 0xffffffff).setWidth 32 = t.extractLsb' 0 32 := by
  apply BitVec.eq_of_toNat_eq
  have hmask : (0xffffffff : u64).toNat = 2 ^ 32 - 1 := rfl
  rw [BitVec.extractLsb'_toNat, BitVec.toNat_setWidth, BitVec.toNat_and, hmask,
    Nat.and_two_pow_sub_one_eq_mod, Nat.mod_mod, Nat.shiftRight_zero]

theorem bswap32_xor (a b : u32) : bswap32 (a ^^^ bswap32 b) = bswap32 a ^^^ b := by
  apply Bits.word_ext
  intro j hj
  rw [byteOf_bswap32 _ j hj, Bits.byteOf_xor, Bits.byteOf_xor, byteOf_bswap32 a j hj,
    byteOf_bswap32 b (3 - j) (by omega), Nat.sub_sub_self (by omega)]

theorem semi_xor_index (block : Block) (t : u64) :
    semi (xor_index block t).w0 (xor_index block t).w1 = mix t.toNat (semi block.w0 block.w1) := by
  have hwhole : t.extractLsb' 32 32 ++ t.extractLsb' 0 32 = (t : BitVec (32 + 32)) :=
    BitVec.extractLsb'_append_extractLsb'
  have ht : BitVec.ofNat 64 t.toNat = t := by rw [BitVec.ofNat_toNat, BitVec.setWidth_eq]
  rw [semi, xor_index, bswap32_xor, bswap32_xor, index_high, index_low, mix, ht, semi]
  nth_rewrite 3 [← hwhole]
  exact BitVec.xor_append.symm

theorem semi_aiv (len : u32) : semi 0xa65959a6 (bswap32 len) = aiv len.toNat := by
  have hprefix : bswap32 0xa65959a6 = 0xa65959a6#32 := by decide
  rw [semi, hprefix, bswap32_bswap32, aiv, BitVec.ofNat_toNat, BitVec.setWidth_eq]

end semis

/-! ## The loops -/

section loops

variable {hw : Hardware} {s t : Device} {kek : AesKey} {K : List u32} {encrypt : u32}
  {block : Block} {regs : List u32} {k n : ℕ}

/-- A key for the key wrap, which takes the AES block without a mode around it. -/
structure KekReady (s : Device) (kek : AesKey) (K : List u32) : Prop where
  mode : kek.mode = kAesCipherModeEcb
  valid : KeyValid s kek K

def direction (hw : Hardware) (K : List u32) (encrypt : u32) : Equiv.Perm (BitVec 128) :=
  if encrypt = kHardenedBoolTrue then hw.cipher K else (hw.cipher K).symm

theorem aes_block_does (hmode : kek.mode = kAesCipherModeEcb) (h : Started s t kek K encrypt) :
    Does (aes_block hw block) t fun out u =>
      Started s u kek K encrypt ∧ out.val = direction hw K encrypt block.val := by
  have hout : (t.process hw (kek.ctrl encrypt) block).val = direction hw K encrypt block.val := by
    have hctr : (kek.ctrl encrypt).mode ≠ kAesCipherModeCtr := by
      show kek.mode ≠ kAesCipherModeCtr
      rw [hmode]
      decide
    rw [Device.process, h.active, if_neg hctr, direction]
    show (if encrypt = kHardenedBoolTrue then _ else _ : Block).val = _
    split_ifs
    · rw [Block.val_of_val]
    · rw [Block.val_of_val]
  obtain ⟨iv, hfeed⟩ := Device.feed_eq hw h.ctrl block
  unfold aes_block aes_update_in aes_update_out spin_until driver
  refine Does.step_bind (Does.get ?_)
  simp only [hfeed]
  refine Does.step_bind (Does.modify_bind (Does.pure ⟨⟨?_, h.ctrl, h.active⟩, hout⟩))
  exact h.kept.trans ⟨rfl, rfl, rfl, rfl⟩

theorem aes_block_halves (out : Block) (x y : u32)
    (hout : out.val = direction hw K encrypt (⟨block.w0, block.w1, x, y⟩ : Block).val) :
    (semi out.w0 out.w1, semi out.w2 out.w3) =
      paired (direction hw K encrypt) (semi block.w0 block.w1, semi x y) := by
  rw [← halves_val out, hout, val_block]
  rfl

/-- A turn of the inner loop is a step of the key wrap. -/
theorem wrap_step_does (hmode : kek.mode = kAesCipherModeEcb)
    (h : Started s t kek K kHardenedBoolTrue) (hk : 2 * k + 2 ≤ regs.length) (w0 w1 : u32) (i : u64) :
    Does (wrap_step hw (k + 1) i block (w0 :: w1 :: regs)) t fun r u =>
      Started s u kek K kHardenedBoolTrue ∧ ∃ regs', r.2 = w0 :: w1 :: regs' ∧
        regs'.length = regs.length ∧ (semi r.1.w0 r.1.w1, semis regs') =
          step (paired (hw.cipher K)) mix k i.toNat (semi block.w0 block.w1, semis regs) := by
  obtain ⟨x, y, hslice, hget, hset⟩ := slice_register hk
  have hk' : (k + 1) * kSemiblockWords = k * kSemiblockWords + 2 := Nat.succ_mul k 2
  have hload : load_register block (w0 :: w1 :: regs) (k + 1) = ⟨block.w0, block.w1, x, y⟩ := by
    rw [load_register, hk', slice_cons_cons, hslice]
    rfl
  rw [wrap_step, hload]
  refine Does.bind (aes_block_does hmode h) ?_
  rintro out u ⟨hstarted, hout⟩
  have hhalves := aes_block_halves out x y hout
  have hdirection : direction hw K kHardenedBoolTrue = hw.cipher K := if_pos rfl
  rw [hdirection] at hhalves
  refine Does.pure ⟨hstarted, splice regs (k * kSemiblockWords) [out.w2, out.w3], ?_, ?_, ?_⟩
  · rw [store_register, hk', splice_cons_cons]
    rfl
  · refine length_splice ?_
    show k * 2 + 2 ≤ regs.length
    omega
  · rw [semi_xor_index, hset, step, hget]
    dsimp only
    rw [← hhalves]

theorem unwrap_step_does (hmode : kek.mode = kAesCipherModeEcb)
    (h : Started s t kek K kHardenedBoolFalse) (hk : 2 * k + 2 ≤ regs.length) (i : u64) :
    Does (unwrap_step hw (k + 1) i block regs) t fun r u =>
      Started s u kek K kHardenedBoolFalse ∧ r.2.length = regs.length ∧
        (semi r.1.w0 r.1.w1, semis r.2) =
          unstep (paired (hw.cipher K)) mix k i.toNat (semi block.w0 block.w1, semis regs) := by
  obtain ⟨x, y, hslice, hget, hset⟩ := slice_register hk
  have hload : load_register (xor_index block i) regs k =
      ⟨(xor_index block i).w0, (xor_index block i).w1, x, y⟩ := by
    rw [load_register, hslice]
    rfl
  rw [unwrap_step, Nat.add_sub_cancel, hload]
  refine Does.bind (aes_block_does hmode h) ?_
  rintro out u ⟨hstarted, hout⟩
  have hhalves := aes_block_halves out x y hout
  have hdirection : direction hw K kHardenedBoolFalse = (hw.cipher K).symm := if_neg (by decide)
  rw [hdirection, semi_xor_index] at hhalves
  have hstore : store_register regs k out = splice regs (k * kSemiblockWords) [out.w2, out.w3] := rfl
  refine Does.pure ⟨hstarted, ?_, ?_⟩
  · refine length_splice ?_
    show k * 2 + 2 ≤ regs.length
    omega
  · rw [hstore, hset, unstep, hget]
    dsimp only
    rw [paired_symm_apply, ← hhalves]

theorem toNat_index {i : ℕ} (h : i < 2 ^ 64) : (BitVec.ofNat 64 i).toNat = i := by
  rw [BitVec.toNat_ofNat, Nat.mod_eq_of_lt h]

theorem mod_index {j : ℕ} (h : k < n) : (n * j + k) % n = k := by
  rw [Nat.mul_add_mod, Nat.mod_eq_of_lt h]

/-- Round `j` of the wrap from register `k` on. The induction is on the turns that are left. -/
theorem wrap_row_does (hmode : kek.mode = kAesCipherModeEcb) (w0 w1 : u32)
    {x : BitVec 64 × List (BitVec 64)} (j m : ℕ) :
    ∀ {k : ℕ} {t : Device} {block : Block} {regs : List u32}, Started s t kek K kHardenedBoolTrue →
      regs.length = 2 * n → k + m = n → n * (j + 1) + 1 < 2 ^ 64 →
      (semi block.w0 block.w1, semis regs) = steps (paired (hw.cipher K)) mix n (n * j + k) x →
      Does (wrap_row hw m (k + 1) (BitVec.ofNat 64 (n * j + k + 1)) block (w0 :: w1 :: regs)) t
        fun r u => r.1 = BitVec.ofNat 64 (n * (j + 1) + 1) ∧ Started s u kek K kHardenedBoolTrue ∧
          ∃ regs', r.2.2 = w0 :: w1 :: regs' ∧ regs'.length = 2 * n ∧
            (semi r.2.1.w0 r.2.1.w1, semis regs') =
              steps (paired (hw.cipher K)) mix n (n * (j + 1)) x := by
  induction m with
  | zero =>
      intro k t block regs hstarted hlen hk hsmall hview
      obtain rfl : k = n := hk
      exact Does.pure ⟨rfl, hstarted, regs, rfl, hlen, hview⟩
  | succ m ih =>
      intro k t block regs hstarted hlen hk hsmall hview
      rw [Nat.mul_succ] at hsmall
      refine Does.bind (wrap_step_does hmode hstarted (by omega) w0 w1 _) ?_
      rintro ⟨block', c⟩ u ⟨hstarted', regs', rfl, hlen', hview'⟩
      have hsteps : (semi block'.w0 block'.w1, semis regs') =
          steps (paired (hw.cipher K)) mix n (n * j + (k + 1)) x := by
        rw [hview', hview, toNat_index (by omega), ← Nat.add_assoc, steps, mod_index (by omega)]
      have hnext : BitVec.ofNat 64 (n * j + k + 1) + 1 = BitVec.ofNat 64 (n * j + (k + 1) + 1) := by
        rw [BitVec.ofNat_add (n * j + (k + 1))]
        rfl
      show Does (wrap_row hw m (k + 1 + 1) (BitVec.ofNat 64 (n * j + k + 1) + 1) block'
        (w0 :: w1 :: regs')) u _
      rw [hnext]
      exact ih hstarted' (hlen'.trans hlen) (by omega) (by rw [Nat.mul_succ]; exact hsmall) hsteps

theorem wrap_rows_does (hmode : kek.mode = kAesCipherModeEcb) (w0 w1 : u32)
    {x : BitVec 64 × List (BitVec 64)} (m : ℕ) :
    ∀ {j : ℕ} {t : Device} {block : Block} {regs : List u32}, Started s t kek K kHardenedBoolTrue →
      regs.length = 2 * n → n * (j + m) + 1 < 2 ^ 64 →
      (semi block.w0 block.w1, semis regs) = steps (paired (hw.cipher K)) mix n (n * j) x →
      Does (wrap_rows hw n m (BitVec.ofNat 64 (n * j + 1)) block (w0 :: w1 :: regs)) t fun r _ =>
        ∃ regs', r.2 = w0 :: w1 :: regs' ∧ regs'.length = 2 * n ∧
          (semi r.1.w0 r.1.w1, semis regs') =
            steps (paired (hw.cipher K)) mix n (n * (j + m)) x := by
  induction m with
  | zero =>
      intro j t block regs _ hlen _ hview
      exact Does.pure ⟨regs, rfl, hlen, hview⟩
  | succ m ih =>
      intro j t block regs hstarted hlen hsmall hview
      have hround : n * (j + 1) ≤ n * (j + (m + 1)) := Nat.mul_le_mul_left n (by omega)
      refine Does.bind (wrap_row_does (k := 0) hmode w0 w1 j n hstarted hlen (Nat.zero_add n)
        (by omega) hview) ?_
      rintro ⟨i, block', c⟩ u ⟨rfl, hstarted', regs', rfl, hlen', hview'⟩
      rw [← Nat.add_assoc, Nat.add_right_comm] at hsmall ⊢
      exact ih hstarted' hlen' hsmall hview'

/-- Round `j` of the unwrap, from register `k` down to the first one. -/
theorem unwrap_row_does (hmode : kek.mode = kAesCipherModeEcb) (j k : ℕ) :
    ∀ {t : Device} {block : Block} {regs : List u32}, Started s t kek K kHardenedBoolFalse →
      regs.length = 2 * n → k ≤ n → n * j + k < 2 ^ 64 →
      Does (unwrap_row hw k (BitVec.ofNat 64 (n * j + k)) block regs) t fun r u =>
        r.1 = BitVec.ofNat 64 (n * j) ∧ Started s u kek K kHardenedBoolFalse ∧
          r.2.2.length = 2 * n ∧
          unsteps (paired (hw.cipher K)) mix n (n * j) (semi r.2.1.w0 r.2.1.w1, semis r.2.2) =
            unsteps (paired (hw.cipher K)) mix n (n * j + k) (semi block.w0 block.w1, semis regs) := by
  induction k with
  | zero =>
      intro t block regs hstarted hlen _ _
      exact Does.pure ⟨rfl, hstarted, hlen, rfl⟩
  | succ k ih =>
      intro t block regs hstarted hlen hk hsmall
      refine Does.bind (unwrap_step_does hmode hstarted (by omega) _) ?_
      rintro ⟨block', regs'⟩ u ⟨hstarted', hlen', hview'⟩
      have hback : BitVec.ofNat 64 (n * j + (k + 1)) - 1 = BitVec.ofNat 64 (n * j + k) := by
        rw [← Nat.add_assoc, BitVec.ofNat_add]
        exact BitVec.add_sub_cancel _ _
      rw [hback]
      refine Does.mono (ih hstarted' (hlen'.trans hlen) (by omega) (by omega)) ?_
      rintro r v ⟨hi, hstarted'', hlen'', hview''⟩
      refine ⟨hi, hstarted'', hlen'', ?_⟩
      rw [hview'', hview', toNat_index hsmall, ← Nat.add_assoc, unsteps, mod_index (by omega)]

theorem unwrap_rows_does (hmode : kek.mode = kAesCipherModeEcb) (m : ℕ) :
    ∀ {t : Device} {block : Block} {regs : List u32}, Started s t kek K kHardenedBoolFalse →
      regs.length = 2 * n → n * m < 2 ^ 64 →
      Does (unwrap_rows hw n m (BitVec.ofNat 64 (n * m)) block regs) t fun r _ =>
        r.2.length = 2 * n ∧ (semi r.1.w0 r.1.w1, semis r.2) =
          unsteps (paired (hw.cipher K)) mix n (n * m) (semi block.w0 block.w1, semis regs) := by
  induction m with
  | zero =>
      intro t block regs _ hlen _
      exact Does.pure ⟨hlen, rfl⟩
  | succ m ih =>
      intro t block regs hstarted hlen hsmall
      rw [Nat.mul_succ] at hsmall ⊢
      refine Does.bind (unwrap_row_does hmode m n hstarted hlen le_rfl hsmall) ?_
      rintro ⟨i, block', regs'⟩ u ⟨rfl, hstarted', hlen', hview'⟩
      rw [← hview']
      exact ih hstarted' hlen' (by omega)

end loops

/-! ## The wrap -/

/-- The bytes of a plaintext that count. -/
def message (plaintext : List u32) (plaintext_len : u32) : List u8 :=
  (word_bytes plaintext).take plaintext_len.toNat

/-- A plaintext whose length is accepted, with all of its words, and a buffer for the ciphertext. -/
structure WrapArgs (plaintext : List u32) (plaintext_len : u32) (ciphertext : List u32) : Prop where
  accepted : 9 ≤ plaintext_len.toNat
  whole : plaintext_len.toNat ≤ 4 * plaintext.length
  room : ciphertext.length = 2 * ((plaintext_len.toNat + 7) / 8) + 2

section wrap

variable {plaintext ciphertext : List u32} {len : u32}

theorem toNat_semiblocks (len : u32) : (ceil_div len kSemiblockBytes).toNat = (len.toNat + 7) / 8 :=
  toNat_ceil_div _ _ (by decide)

theorem toNat_words (len : u32) : (ceil_div len 4).toNat = (len.toNat + 3) / 4 :=
  toNat_ceil_div _ _ (by decide)

theorem not_gt_max (len : u32) : ¬len > BitVec.allOnes 32 := by
  have hones : (BitVec.allOnes 32).toNat = 2 ^ 32 - 1 := rfl
  rw [gt_iff_lt, BitVec.lt_def, hones]
  omega

/-- The padding, also where the whole semiblocks do not fit in 32 bits. -/
theorem toNat_pad_len (len : u32) :
    (kSemiblockBytes * ceil_div len kSemiblockBytes - len).toNat =
      8 * ((len.toNat + 7) / 8) - len.toNat := by
  have hbytes : kSemiblockBytes.toNat = 8 := rfl
  rw [BitVec.toNat_sub, BitVec.toNat_mul, hbytes, toNat_semiblocks]
  omega

/-- Lengths that are not accepted. -/
theorem aes_kwp_wrap_short (hw : Hardware) (kek : AesKey) (h : len.toNat < 9) :
    aes_kwp_wrap hw kek plaintext len ciphertext = Proc.throw .OTCRYPTO_BAD_ARGS := by
  have hsemiblocks : ceil_div len kSemiblockBytes < 2 := by
    rw [BitVec.lt_def, toNat_semiblocks]
    show (len.toNat + 7) / 8 < 2
    omega
  rw [aes_kwp_wrap]
  split_ifs with hnone
  · rfl
  · dsimp only
    rw [if_pos hsemiblocks]

theorem length_message (h : len.toNat ≤ 4 * plaintext.length) :
    (message plaintext len).length = len.toNat := by
  rw [message, List.length_take, length_word_bytes, Nat.min_eq_left h]

/-- Zeros up to the end of a buffer. -/
theorem word_bytes_clear_bytes {ws : List u32} {off n : ℕ} (h : off + n = 4 * ws.length) :
    word_bytes (clear_bytes ws off n) = (word_bytes ws).take off ++ List.replicate n 0 := by
  have hlen : (word_bytes ws).length = off + n := by rw [length_word_bytes, h]
  have hend : splice (word_bytes ws) off (List.replicate n 0) =
      (word_bytes ws).take off ++ List.replicate n 0 := by
    rw [splice, List.length_replicate, List.drop_of_length_le hlen.le, List.append_nil]
  have hwhole : ((word_bytes ws).take off ++ List.replicate n (0 : u8)).length = 4 * ws.length := by
    rw [List.length_append, List.length_take, List.length_replicate, hlen]
    omega
  rw [clear_bytes, hend, word_bytes_zero_padded hwhole.le, hwhole, Nat.sub_self, List.replicate_zero,
    List.append_nil]

/-- The registers before the first step. -/
theorem wrap_registers (h : WrapArgs plaintext len ciphertext) (a b : u32) :
    ∃ w0 w1 regs, clear_bytes (splice (splice ciphertext 0 [a, b]) kSemiblockWords
        (slice plaintext 0 (ceil_div len 4).toNat)) (kSemiblockBytes.toNat + len.toNat)
        (kSemiblockBytes * ceil_div len kSemiblockBytes - len).toNat = w0 :: w1 :: regs ∧
      regs.length = 2 * ((len.toNat + 7) / 8) ∧ word_bytes regs = padded (message plaintext len) := by
  obtain ⟨c0, c1, buffer, rfl, -⟩ :=
    exists_register (show 2 * 0 + 2 ≤ ciphertext.length by rw [h.room]; omega)
  have hwhole := h.whole
  have hbuffer : buffer.length = 2 * ((len.toNat + 7) / 8) := by
    have hroom := h.room
    simp only [List.length_cons] at hroom
    omega
  set words := slice plaintext 0 (ceil_div len 4).toNat with hwords
  have hlen : words.length = (len.toNat + 3) / 4 := by
    rw [hwords, length_slice_of_le (by rw [toNat_words]; omega), toNat_words]
  have hsplice : splice (splice (c0 :: c1 :: buffer) 0 [a, b]) kSemiblockWords words =
      a :: b :: (words ++ buffer.drop words.length) := by
    show splice (a :: b :: buffer) (0 + 2) words = _
    rw [splice_cons_cons, splice, List.take_zero, List.nil_append, Nat.zero_add]
  have hmessage : message plaintext len = (word_bytes (words ++ buffer.drop words.length)).take len.toNat := by
    have hsplit : plaintext = words ++ plaintext.drop (ceil_div len 4).toNat :=
      (List.take_append_drop _ _).symm
    have hle : len.toNat ≤ (word_bytes words).length := by
      rw [length_word_bytes, hlen]
      omega
    rw [message, hsplit, word_bytes_append, word_bytes_append, List.take_append_of_le_length hle,
      List.take_append_of_le_length hle]
  have hcleared : word_bytes (clear_bytes (a :: b :: (words ++ buffer.drop words.length))
      (kSemiblockBytes.toNat + len.toNat) (kSemiblockBytes * ceil_div len kSemiblockBytes - len).toNat) =
      le32 a ++ le32 b ++ padded (message plaintext len) := by
    have hbytes : kSemiblockBytes.toNat = (le32 a ++ le32 b).length := by
      rw [List.length_append, length_le32, length_le32]
      rfl
    have hpad : 8 * ((len.toNat + 7) / 8) - len.toNat = (8 - len.toNat % 8) % 8 := by omega
    rw [word_bytes_clear_bytes, word_bytes_cons, word_bytes_cons, ← List.append_assoc, hbytes,
      List.take_length_add_append, ← hmessage, toNat_pad_len, padded, length_message hwhole, hpad,
      List.append_assoc]
    rw [toNat_pad_len, List.length_cons, List.length_cons, List.length_append, List.length_drop, hlen,
      hbuffer]
    show 8 + _ + _ = _
    omega
  have hlength : (clear_bytes (a :: b :: (words ++ buffer.drop words.length))
      (kSemiblockBytes.toNat + len.toNat)
      (kSemiblockBytes * ceil_div len kSemiblockBytes - len).toNat).length =
      2 * ((len.toNat + 7) / 8) + 2 := by
    rw [clear_bytes, length_zero_padded, List.length_cons, List.length_cons, List.length_append,
      List.length_drop, hlen, hbuffer]
    omega
  rw [hsplice]
  obtain ⟨w0, w1, regs, hregs, -⟩ := exists_register (i := 0) (hlength.ge.trans' (by omega))
  rw [hregs] at hcleared hlength ⊢
  refine ⟨w0, w1, regs, rfl, ?_, ?_⟩
  · simp only [List.length_cons] at hlength
    omega
  · rw [word_bytes_cons, word_bytes_cons, ← List.append_assoc] at hcleared
    exact (List.append_inj hcleared rfl).2

/-- Words that are the semiblocks of a wrap are the wrap of the message. -/
theorem word_bytes_eq_wrap_iff {E : Equiv.Perm (BitVec 128)} {msg : List u8} {w0 w1 : u32}
    {regs : List u32} {n : ℕ} (hlen : regs.length = 2 * n) :
    word_bytes (w0 :: w1 :: regs) = rfc5649_wrap E msg ↔
      (padded msg).length = 8 * n ∧ (semi w0 w1, semis regs) =
        steps (paired E) mix n (6 * n) (aiv msg.length, semiblocks (padded msg)) := by
  set m := (msg.length + 7) / 8
  have hm : (semiblocks (padded msg)).length = m := length_semiblocks (length_padded msg)
  have hbytes : (word_bytes (w0 :: w1 :: regs)).length = 8 * (n + 1) := by
    rw [length_word_bytes, List.length_cons, List.length_cons, hlen]
    omega
  have hwrap : rfc5649_wrap E msg = ((steps (paired E) mix m (6 * m)
      (aiv msg.length, semiblocks (padded msg))).1 :: (steps (paired E) mix m (6 * m)
      (aiv msg.length, semiblocks (padded msg))).2).flatMap semiblock_bytes := by
    rw [rfc5649_wrap, hm, shift_steps_rounds hm]
  have hback : word_bytes (w0 :: w1 :: regs) = (semi w0 w1 :: semis regs).flatMap semiblock_bytes :=
    (flatMap_semiblocks hbytes).symm
  rw [hwrap, hback, length_padded]
  constructor
  · intro h
    have hsemis := congrArg semiblocks h
    rw [semiblocks_flatMap, semiblocks_flatMap, List.cons.injEq] at hsemis
    have hmn : m = n := by
      have hcount := congrArg List.length hsemis.2
      rw [length_semis hlen, length_steps, hm] at hcount
      exact hcount.symm
    rw [hmn] at hsemis
    exact ⟨by rw [← hmn], Prod.ext hsemis.1 hsemis.2⟩
  · rintro ⟨hmn, h⟩
    obtain rfl : m = n := Nat.eq_of_mul_eq_mul_left (by decide) hmn
    rw [← h]

theorem slice_block (block : Block) :
    slice block.words 0 kSemiblockWords = [block.w0, block.w1] := rfl

/-- The buffer holds the wrap of the message, the padding to whole semiblocks included. -/
theorem aes_kwp_wrap_does {hw : Hardware} {s : Device} {kek : AesKey} {K : List u32}
    (hkek : KekReady s kek K) (h : WrapArgs plaintext len ciphertext) :
    Does (aes_kwp_wrap hw kek plaintext len ciphertext) s fun out _ =>
      out.length = ciphertext.length ∧
        word_bytes out = rfc5649_wrap (hw.cipher K) (message plaintext len) := by
  have haccepted := h.accepted
  have hnone : ¬(len > BitVec.allOnes 32 ∨ len = 0) := by
    rintro (hmax | rfl)
    · exact not_gt_max len hmax
    · exact absurd haccepted (by decide)
  have hlong : ¬ceil_div len kSemiblockBytes < 2 := by
    rw [BitVec.lt_def, toNat_semiblocks]
    show ¬(len.toNat + 7) / 8 < 2
    omega
  have hmode : known_mode kek.mode := by
    rw [hkek.mode]
    decide
  rw [aes_kwp_wrap, if_neg hnone]
  dsimp only
  rw [if_neg hlong]
  refine Does.bind (aes_begin_started hkek.valid hmode Block.zero (.inl rfl)) ?_
  rintro _ t ⟨hstarted, -⟩
  rw [slice_block]
  obtain ⟨w0, w1, regs, hregs, hlen, hbytes⟩ := wrap_registers h 0xa65959a6 (bswap32 len)
  rw [hregs, toNat_semiblocks]
  set n := (len.toNat + 7) / 8
  have hstart : (semi 0xa65959a6 (bswap32 len), semis regs) =
      steps (paired (hw.cipher K)) mix n (n * 0)
        (aiv (message plaintext len).length, semiblocks (padded (message plaintext len))) := by
    rw [semi_aiv, semis, hbytes, length_message h.whole]
    rfl
  refine Does.bind (wrap_rows_does (j := 0) hkek.mode w0 w1 6
    hstarted hlen (by omega) hstart) ?_
  rintro ⟨block, c⟩ u ⟨regs', rfl, hlen', hview⟩
  refine Does.pure ⟨?_, ?_⟩
  · rw [h.room]
    show regs'.length + 2 = 2 * n + 2
    rw [hlen']
  · refine (word_bytes_eq_wrap_iff hlen').mpr ⟨?_, ?_⟩
    · rw [length_padded, length_message h.whole]
    · rw [hview, Nat.zero_add, Nat.mul_comm n 6]

end wrap

/-! ## The unwrap -/

/-- A ciphertext whose length is accepted, with all of its words. -/
structure UnwrapArgs (ciphertext : List u32) (ciphertext_len : u32) : Prop where
  accepted : 24 ≤ ciphertext_len.toNat
  aligned : ciphertext_len.toNat % 8 = 0
  whole : 4 * ciphertext.length = ciphertext_len.toNat

section unwrap

variable {ciphertext regs r plaintext : List u32} {len semiblocks_len a b : u32} {block : Block} {n : ℕ}

/-- Lengths that are not accepted. -/
theorem aes_kwp_unwrap_refused (hw : Hardware) (kek : AesKey)
    (h : len.toNat < 24 ∨ len.toNat % 8 ≠ 0) :
    aes_kwp_unwrap hw kek ciphertext len plaintext = Proc.throw .OTCRYPTO_BAD_ARGS := by
  rw [aes_kwp_unwrap]
  split_ifs with hbad
  · rfl
  · have hmod : (len % kSemiblockBytes).toNat = len.toNat % 8 := BitVec.toNat_umod
    have hdiv : (len / kSemiblockBytes).toNat = len.toNat / 8 := BitVec.toNat_udiv
    have haligned : len.toNat % 8 = 0 := by
      rw [← hmod, not_not.mp (not_or.mp (not_or.mp hbad).2).2]
      rfl
    have hshort : len / kSemiblockBytes < 3 := by
      rw [BitVec.lt_def, hdiv]
      show len.toNat / 8 < 3
      omega
    rw [if_pos hshort]

theorem semi_inj {a b c d : u32} (h : semi a b = semi c d) : a = c ∧ b = d := by
  have hhigh := congrArg (BitVec.extractLsb' 32 32) h
  have hlow := congrArg (BitVec.extractLsb' 0 32) h
  rw [semi, semi, BitVec.extractLsb'_append_eq_left, BitVec.extractLsb'_append_eq_left] at hhigh
  rw [semi, semi, BitVec.extractLsb'_append_eq_right, BitVec.extractLsb'_append_eq_right] at hlow
  constructor
  · rw [← bswap32_bswap32 a, hhigh, bswap32_bswap32]
  · rw [← bswap32_bswap32 b, hlow, bswap32_bswap32]

/-- The registers hold a message. -/
structure HoldsMessage (block : Block) (r : List u32) (msg : List u8) : Prop where
  icv : block.w0 = 0xa65959a6
  length : (bswap32 block.w1).toNat = msg.length
  bytes : word_bytes r = padded msg

theorem holdsMessage_iff {msg : List u8} (hr : r.length = 2 * n) :
    HoldsMessage block r msg ↔ msg.length < 2 ^ 32 ∧ (padded msg).length = 8 * n ∧
      (semi block.w0 block.w1, semis r) = (aiv msg.length, semiblocks (padded msg)) := by
  have hbytes : (word_bytes r).length = 8 * n := by
    rw [length_word_bytes, hr]
    omega
  constructor
  · intro h
    refine ⟨?_, by rw [← h.bytes, hbytes], ?_⟩
    · rw [← h.length]
      exact BitVec.isLt _
    · rw [h.icv, semis, h.bytes, ← h.length, ← semi_aiv, bswap32_bswap32]
  · rintro ⟨hlt, hlen, hview⟩
    have hnat : (BitVec.ofNat 32 msg.length).toNat = msg.length := by
      rw [BitVec.toNat_ofNat, Nat.mod_eq_of_lt hlt]
    obtain ⟨ha, hregs⟩ := Prod.ext_iff.mp hview
    rw [← hnat, ← semi_aiv] at ha
    obtain ⟨h0, h1⟩ := semi_inj ha
    refine ⟨h0, ?_, ?_⟩
    · rw [h1, bswap32_bswap32, hnat]
    · rw [← flatMap_semiblocks hbytes, ← flatMap_semiblocks hlen]
      exact congrArg (List.flatMap semiblock_bytes) hregs

/-- The semiblocks behind the first one, and what is left of them behind the plaintext. -/
theorem toNat_unwrap_pad_len (hn : semiblocks_len.toNat = n + 1) (hsmall : 8 * (n + 1) < 2 ^ 32) :
    (kSemiblockBytes * (semiblocks_len - 1) - len).toNat =
      (2 ^ 32 - len.toNat + 8 * n) % 2 ^ 32 := by
  have hone : (semiblocks_len - 1).toNat = n := by
    have hle : (1 : u32) ≤ semiblocks_len := by
      rw [BitVec.le_def, hn]
      exact Nat.le_add_left 1 n
    rw [BitVec.toNat_sub_of_le hle, hn]
    rfl
  have hbytes : kSemiblockBytes.toNat = 8 := rfl
  rw [BitVec.toNat_sub, BitVec.toNat_mul, hone, hbytes, Nat.mod_eq_of_lt (by omega : 8 * n < 2 ^ 32)]

theorem drop_padded (msg : List u8) (k : ℕ) (hk : (padded msg).length = msg.length + k) :
    slice (padded msg) msg.length k = List.replicate k 0 := by
  rw [padded, List.length_append, List.length_replicate] at hk
  rw [slice, padded, List.drop_left, Nat.add_left_cancel hk, List.take_of_length_le (by simp)]

theorem unwrap_checks_of_message {msg : List u8} (h : HoldsMessage block r msg)
    (hr : r.length = 2 * n) (hn : semiblocks_len.toNat = n + 1) (hsmall : 8 * (n + 1) < 2 ^ 32) :
    unwrap_checks semiblocks_len block r plaintext =
      (kHardenedBoolTrue, splice plaintext 0 (slice r 0 ((msg.length + 3) / 4))) := by
  have hwhole : (padded msg).length = 8 * n := by
    rw [← h.bytes, length_word_bytes, hr]
    omega
  have hcount := length_padded msg
  have hpad : (kSemiblockBytes * (semiblocks_len - 1) - bswap32 block.w1).toNat =
      8 * n - msg.length := by
    rw [toNat_unwrap_pad_len hn hsmall, h.length]
    omega
  have hshort : ¬kSemiblockBytes * (semiblocks_len - 1) - bswap32 block.w1 ≥ kSemiblockBytes := by
    rw [ge_iff_le, BitVec.le_def, hpad]
    show ¬8 ≤ _
    omega
  have hzeros : slice (word_bytes r) (bswap32 block.w1).toNat
      (kSemiblockBytes * (semiblocks_len - 1) - bswap32 block.w1).toNat = List.replicate
      (kSemiblockBytes * (semiblocks_len - 1) - bswap32 block.w1).toNat 0 := by
    rw [h.bytes, h.length, hpad]
    exact drop_padded msg _ (by omega)
  rw [unwrap_checks, if_neg (not_not.mpr h.icv)]
  rw [if_neg hshort, if_neg (not_and_not_right.mpr fun _ => hzeros), toNat_words, h.length]

/-- What passes the checks is a message with its padding. -/
theorem message_of_unwrap_checks (hr : r.length = 2 * n) (hn : semiblocks_len.toNat = n + 1)
    (hsmall : 8 * (n + 1) < 2 ^ 32) (hpos : 0 < n)
    (h : (unwrap_checks semiblocks_len block r plaintext).1 = kHardenedBoolTrue) :
    ∃ msg, HoldsMessage block r msg := by
  have hne : kHardenedBoolFalse ≠ kHardenedBoolTrue := by decide
  rw [unwrap_checks] at h
  dsimp only at h
  split_ifs at h with hicv hlong hpadding
  · exact absurd h hne
  · exact absurd h hne
  · exact absurd h hne
  · have hlt := (bswap32 block.w1).isLt
    rw [ge_iff_le, BitVec.le_def, toNat_unwrap_pad_len hn hsmall] at hlong
    have hbytes : kSemiblockBytes.toNat = 8 := rfl
    have hlen : (word_bytes r).length = 8 * n := by
      rw [length_word_bytes, hr]
      omega
    have hpad : (kSemiblockBytes * (semiblocks_len - 1) - bswap32 block.w1).toNat =
        8 * n - (bswap32 block.w1).toNat := by
      rw [toNat_unwrap_pad_len hn hsmall]
      omega
    set k := (bswap32 block.w1).toNat
    have hmessage : ((word_bytes r).take k).length = k := by
      rw [List.length_take, hlen]
      omega
    have hzeros : (word_bytes r).drop k = List.replicate ((8 - k % 8) % 8) 0 := by
      have hrest : ((word_bytes r).drop k).length = 8 * n - k := by rw [List.length_drop, hlen]
      have hcount : 8 * n - k = (8 - k % 8) % 8 := by omega
      rw [← hcount]
      by_cases hnone : kSemiblockBytes * (semiblocks_len - 1) - bswap32 block.w1 = 0
      · have hzero : 8 * n - k = 0 := by
          rw [← hpad, hnone]
          rfl
        rw [hzero] at hrest ⊢
        exact List.eq_nil_of_length_eq_zero hrest
      · have hslice := not_not.mp (not_and.mp hpadding hnone)
        rw [hpad, slice, List.take_of_length_le hrest.le] at hslice
        exact hslice
    refine ⟨(word_bytes r).take k, not_not.mp hicv, hmessage.symm, ?_⟩
    rw [padded, hmessage, ← hzeros, List.take_append_drop]

/-- What is checked is what the inverse of all steps leaves in the block and the registers. -/
theorem aes_kwp_unwrap_does {hw : Hardware} {s : Device} {kek : AesKey} {K : List u32}
    (hkek : KekReady s kek K) (h : UnwrapArgs (a :: b :: regs) len) (hlen : regs.length = 2 * n) :
    Does (aes_kwp_unwrap hw kek (a :: b :: regs) len plaintext) s fun out _ =>
      ∃ block r, out = unwrap_checks (len / kSemiblockBytes) block r plaintext ∧ r.length = 2 * n ∧
        (semi block.w0 block.w1, semis r) =
          unsteps (paired (hw.cipher K)) mix n (6 * n) (semi a b, semis regs) := by
  have haccepted := h.accepted
  have hwhole := h.whole
  rw [List.length_cons, List.length_cons, hlen] at hwhole
  have hbad : ¬(len > BitVec.allOnes 32 ∨ len = 0 ∨ len % kSemiblockBytes ≠ 0) := by
    rintro (hmax | rfl | haligned)
    · exact not_gt_max len hmax
    · exact absurd haccepted (by decide)
    · refine haligned (BitVec.eq_of_toNat_eq ?_)
      rw [BitVec.toNat_umod]
      exact h.aligned
  have hcount : (len / kSemiblockBytes).toNat = n + 1 := by
    have hdiv : (len / kSemiblockBytes).toNat = len.toNat / 8 := BitVec.toNat_udiv
    omega
  have hlong : ¬len / kSemiblockBytes < 3 := by
    rw [BitVec.lt_def, hcount]
    show ¬n + 1 < 3
    omega
  have hone : (len / kSemiblockBytes - 1).toNat = n := by
    rw [BitVec.toNat_sub_of_le, hcount]
    · rfl
    · rw [BitVec.le_def, hcount]
      exact Nat.le_add_left 1 n
  have hindex : 6 * ((len / kSemiblockBytes).setWidth 64 - 1) = BitVec.ofNat 64 (n * 6) := by
    apply BitVec.eq_of_toNat_eq
    rw [toNat_index (by omega), BitVec.toNat_mul, BitVec.toNat_sub, BitVec.toNat_setWidth, hcount]
    show 6 * ((2 ^ 64 - 1 + (n + 1) % 2 ^ 64) % 2 ^ 64) % 2 ^ 64 = n * 6
    omega
  have hregs : slice (a :: b :: regs) kSemiblockWords (n * kSemiblockWords) = regs := by
    show slice (a :: b :: regs) (0 + 2) (n * 2) = regs
    rw [slice_cons_cons, slice, List.drop_zero, List.take_of_length_le (by omega)]
  have hmode : known_mode kek.mode := by
    rw [hkek.mode]
    decide
  rw [aes_kwp_unwrap, if_neg hbad]
  rw [if_neg hlong, hone, hindex, hregs, Nat.mul_comm 6 n]
  refine Does.bind (aes_begin_started hkek.valid hmode Block.zero (.inr rfl)) ?_
  rintro _ t ⟨hstarted, -⟩
  refine Does.bind (unwrap_rows_does hkek.mode 6 hstarted hlen (by omega)) ?_
  rintro ⟨block, r⟩ u ⟨hr, hview⟩
  exact Does.pure ⟨block, r, rfl, hr, hview⟩

/-- What is unwrapped is a message exactly when its wrap was there. -/
theorem holds_unwrapped_iff {E : Equiv.Perm (BitVec 128)} {msg : List u8} (hlen : regs.length = 2 * n)
    (hr : r.length = 2 * n) (hview : (semi block.w0 block.w1, semis r) =
      unsteps (paired E) mix n (6 * n) (semi a b, semis regs)) :
    HoldsMessage block r msg ↔
      msg.length < 2 ^ 32 ∧ word_bytes (a :: b :: regs) = rfc5649_wrap E msg := by
  rw [holdsMessage_iff hr, word_bytes_eq_wrap_iff hlen, hview]
  refine and_congr_right fun _ => and_congr_right fun _ => ⟨fun h => ?_, fun h => ?_⟩
  · rw [← h, steps_unsteps mix_involutive]
  · rw [h, unsteps_steps mix_involutive]

theorem UnwrapArgs.split (h : UnwrapArgs ciphertext len) : ∃ n a b regs, ciphertext = a :: b :: regs ∧
    regs.length = 2 * n ∧ 2 ≤ n ∧ len.toNat = 8 * (n + 1) := by
  have haccepted := h.accepted
  have haligned := h.aligned
  have hwhole := h.whole
  obtain ⟨a, b, regs, rfl, -⟩ := exists_register (show 2 * 0 + 2 ≤ ciphertext.length by omega)
  simp only [List.length_cons] at hwhole
  exact ⟨len.toNat / 8 - 1, a, b, regs, rfl, by omega, by omega, by omega⟩

theorem toNat_div_semiblocks (h : len.toNat = 8 * (n + 1)) : (len / kSemiblockBytes).toNat = n + 1 := by
  have hdiv : (len / kSemiblockBytes).toNat = len.toNat / 8 := BitVec.toNat_udiv
  omega

/-- The words of the plaintext, with zeros in the last one. -/
theorem word_bytes_plaintext {msg : List u8} (h : word_bytes r = padded msg) :
    word_bytes ((splice plaintext 0 (slice r 0 ((msg.length + 3) / 4))).take ((msg.length + 3) / 4)) =
      msg ++ List.replicate (4 * ((msg.length + 3) / 4) - msg.length) 0 := by
  set k := (msg.length + 3) / 4
  have hlen := congrArg List.length h
  rw [length_word_bytes, length_padded] at hlen
  have hslice : (slice r 0 k).length = k := length_slice_of_le (by omega)
  have htake : (splice plaintext 0 (slice r 0 k)).take k = slice r 0 k := by
    rw [splice, List.take_zero, List.nil_append, List.take_append_of_le_length hslice.ge,
      List.take_of_length_le hslice.le]
  have hbytes : word_bytes (slice r 0 k) = (word_bytes r).take (4 * k) := by
    have hlength : (word_bytes (slice r 0 k)).length = 4 * k := by rw [length_word_bytes, hslice]
    calc word_bytes (slice r 0 k) = (word_bytes (slice r 0 k) ++ word_bytes (r.drop k)).take (4 * k) := by
          rw [List.take_append_of_le_length hlength.ge, List.take_of_length_le hlength.le]
      _ = (word_bytes r).take (4 * k) := by
          rw [← word_bytes_append, slice, List.drop_zero, List.take_append_drop]
  rw [htake, hbytes, h, padded, List.take_append, List.take_of_length_le (by omega), List.take_replicate]
  congr 2
  omega

/-- The outcome for a wrapped message. -/
theorem unwrap_wrapped_does {hw : Hardware} {s : Device} {kek : AesKey} {K : List u32}
    (hkek : KekReady s kek K) (h : UnwrapArgs ciphertext len) {msg : List u8}
    (hmsg : msg.length < 2 ^ 32) (hwrap : word_bytes ciphertext = rfc5649_wrap (hw.cipher K) msg) :
    Does (aes_kwp_unwrap hw kek ciphertext len plaintext) s fun out _ =>
      out.1 = kHardenedBoolTrue ∧ word_bytes (out.2.take ((msg.length + 3) / 4)) =
        msg ++ List.replicate (4 * ((msg.length + 3) / 4) - msg.length) 0 := by
  obtain ⟨n, a, b, regs, rfl, hlen, hn, hcount⟩ := h.split
  refine Does.mono (aes_kwp_unwrap_does hkek h hlen) ?_
  rintro _ u ⟨block, r, rfl, hr, hview⟩
  have hholds := (holds_unwrapped_iff hlen hr hview).mpr ⟨hmsg, hwrap⟩
  rw [unwrap_checks_of_message hholds hr (toNat_div_semiblocks hcount) (by omega)]
  exact ⟨rfl, word_bytes_plaintext hholds.bytes⟩

theorem unwrap_iff_does {hw : Hardware} {s : Device} {kek : AesKey} {K : List u32}
    (hkek : KekReady s kek K) (h : UnwrapArgs ciphertext len) :
    Does (aes_kwp_unwrap hw kek ciphertext len plaintext) s fun out _ =>
      out.1 = kHardenedBoolTrue ↔ ∃ msg : List u8, 9 ≤ msg.length ∧ msg.length < 2 ^ 32 ∧
        word_bytes ciphertext = rfc5649_wrap (hw.cipher K) msg := by
  obtain ⟨n, a, b, regs, rfl, hlen, hn, hcount⟩ := h.split
  refine Does.mono (aes_kwp_unwrap_does hkek h hlen) ?_
  rintro _ u ⟨block, r, rfl, hr, hview⟩
  have hdiv := toNat_div_semiblocks hcount
  constructor
  · intro hsuccess
    obtain ⟨msg, hholds⟩ := message_of_unwrap_checks hr hdiv (by omega) (by omega) hsuccess
    obtain ⟨hmsg, hwrap⟩ := (holds_unwrapped_iff hlen hr hview).mp hholds
    have hpadded := length_padded msg
    rw [← hholds.bytes, length_word_bytes, hr] at hpadded
    exact ⟨msg, by omega, hmsg, hwrap⟩
  · rintro ⟨msg, -, hmsg, hwrap⟩
    have hholds := (holds_unwrapped_iff hlen hr hview).mpr ⟨hmsg, hwrap⟩
    rw [unwrap_checks_of_message hholds hr hdiv (by omega)]

/-- Key wrapping with padding: the wrap is the one of the standard, and it is unwrapped, and nothing
else. -/
theorem aes_kwp_exact (hw : Hardware) {K : List u32} {s s' : Device} {kek kek' : AesKey}
    (hkek : KekReady s kek K) (hkek' : KekReady s' kek' K) :
    (∀ (plaintext : List u32) (plaintext_len : u32) (buffer : List u32),
      WrapArgs plaintext plaintext_len buffer →
      Does (aes_kwp_wrap hw kek plaintext plaintext_len buffer) s fun ciphertext _ =>
        word_bytes ciphertext = rfc5649_wrap (hw.cipher K) (message plaintext plaintext_len) ∧
        ∀ (ciphertext_len : u32) (dest : List u32), 4 * ciphertext.length = ciphertext_len.toNat →
          Does (aes_kwp_unwrap hw kek' ciphertext ciphertext_len dest) s' fun out _ =>
            out.1 = kHardenedBoolTrue ∧
            word_bytes (out.2.take ((plaintext_len.toNat + 3) / 4)) =
              message plaintext plaintext_len ++
                List.replicate (4 * ((plaintext_len.toNat + 3) / 4) - plaintext_len.toNat) 0) ∧
    ∀ (ciphertext : List u32) (ciphertext_len : u32) (dest : List u32),
      UnwrapArgs ciphertext ciphertext_len →
      Does (aes_kwp_unwrap hw kek' ciphertext ciphertext_len dest) s' fun out _ =>
        out.1 = kHardenedBoolTrue ↔ ∃ msg : List u8, 9 ≤ msg.length ∧ msg.length < 2 ^ 32 ∧
          word_bytes ciphertext = rfc5649_wrap (hw.cipher K) msg := by
  refine ⟨fun plaintext len buffer hargs => ?_, fun ciphertext len dest => unwrap_iff_does hkek'⟩
  refine Does.mono (aes_kwp_wrap_does hkek hargs) ?_
  rintro ciphertext _ ⟨hlen, hwrap⟩
  refine ⟨hwrap, fun ciphertext_len dest hwhole => ?_⟩
  have haccepted := hargs.accepted
  have hmessage := length_message hargs.whole
  rw [hargs.room] at hlen
  have hargs' : UnwrapArgs ciphertext ciphertext_len := ⟨by omega, by omega, hwhole⟩
  have hmsg : (message plaintext len).length < 2 ^ 32 := by
    rw [hmessage]
    exact len.isLt
  have hout : Does (aes_kwp_unwrap hw kek' ciphertext ciphertext_len dest) s' _ :=
    unwrap_wrapped_does hkek' hargs' hmsg hwrap
  rwa [hmessage] at hout

end unwrap

/-- The key of the caller, for the key wrap. -/
def software_kek (s : Device) : AesKey :=
  { software_aes_key s with
    mode := kAesCipherModeEcb
    checksum := aes_key_integrity_checksum s ⟨kAesCipherModeEcb, kHardenedBoolFalse, 4, 0, 0⟩ }

theorem software_kek_ready : KekReady (Device.holding fun _ => software_key)
    (software_kek (Device.holding fun _ => software_key)) [1 ^^^ 5, 2 ^^^ 6, 3 ^^^ 7, 4 ^^^ 8] :=
  ⟨rfl, Or.inr rfl, Or.inl rfl, fun _ => by decide, rfl, rfl⟩

/-- Nine bytes, the shortest plaintext that is accepted. -/
theorem aes_kwp_exact_nine :
    Does (aes_kwp_wrap still_hardware (software_kek (Device.holding fun _ => software_key)) [1, 2, 0xff03] 9
      (List.replicate 6 0)) (Device.holding fun _ => software_key) fun ciphertext _ =>
        word_bytes ciphertext = rfc5649_wrap (Equiv.refl _) [1, 0, 0, 0, 2, 0, 0, 0, 3] ∧
        ∀ (ciphertext_len : u32) (dest : List u32), 4 * ciphertext.length = ciphertext_len.toNat →
          Does (aes_kwp_unwrap still_hardware (software_kek (Device.holding fun _ => software_key))
            ciphertext ciphertext_len dest) (Device.holding fun _ => software_key) fun out _ =>
              out.1 = kHardenedBoolTrue ∧
                word_bytes (out.2.take 3) = [1, 0, 0, 0, 2, 0, 0, 0, 3] ++ [0, 0, 0] :=
  (aes_kwp_exact still_hardware software_kek_ready software_kek_ready).1 [1, 2, 0xff03] 9
    (List.replicate 6 0) ⟨by decide, by decide, by decide⟩

end IbexFirmware.Kwp
