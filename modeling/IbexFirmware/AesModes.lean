/-
AES in its basic modes (`impl/aes.c`): the code, and its blocks in flight.

The hardware is a mode automaton that works on its own: a block of input is written to it, and
some time later a block of output can be read. Three blocks find room in it, in the input
registers, in the core and in the output registers, so the driver writes one or two blocks ahead of
what it reads. `Flow` says what is in the hardware meanwhile. That the wait for room never is a
wait for ever, and that the output which is read is the output of the block whose place it is
written to, is then a matter of counting (`cipher_blocks_does`).

A wait that would not end is a trap of the model, and so is a read through NULL. The bits of the
registers are not modelled, as in the driver for AES-GCM. Buffers of different arguments do not
overlap.
-/
import IbexFirmware.AesGcm
import IbexFirmware.Lib.BlockMode

set_option autoImplicit false

namespace IbexFirmware.Aes

open Bytes PowerFail Crypto HardenedMemory Splice BlockMode

/-! ## Constants -/

def kOtcryptoAesOperationEncrypt : u32 := 0x2b6
def kOtcryptoAesOperationDecrypt : u32 := 0x5f0

def kOtcryptoAesPaddingPkcs7 : u32 := 0xe7f
def kOtcryptoAesPaddingIso9797M2 : u32 := 0xfac
def kOtcryptoAesPaddingNull : u32 := 0x8ce

def kOtcryptoKeyModeAesEcb : u32 := kOtcryptoKeyTypeAes <<< 16 ||| 0x1b6
def kOtcryptoKeyModeAesCbc : u32 := kOtcryptoKeyTypeAes <<< 16 ||| 0xf3a
def kOtcryptoKeyModeAesCfb : u32 := kOtcryptoKeyTypeAes <<< 16 ||| 0x0f9
def kOtcryptoKeyModeAesOfb : u32 := kOtcryptoKeyTypeAes <<< 16 ||| 0xb49
def kOtcryptoKeyModeAesCtr : u32 := kOtcryptoKeyTypeAes <<< 16 ||| 0x4ce

/-! ## The hardware -/

/-- The device, and the output that has not been read yet of the blocks in the AES block. -/
structure Pipeline where
  dev : Device
  in_flight : List Block

/-- The registers for input, the core and the registers for output. -/
def kBlocksInFlight : ℕ := 3

def aes_block : Part Pipeline Device := ⟨Pipeline.dev, fun d p => { p with dev := d }⟩

def mode_automaton (E : Equiv.Perm (BitVec 128)) (mode : u32) :
    Automaton (BitVec 128) (BitVec 128) :=
  if mode = kAesCipherModeCbc then cbc E
  else if mode = kAesCipherModeCfb then cfb E
  else if mode = kAesCipherModeOfb then ofb E
  else if mode = kAesCipherModeCtr then ctr E
  else ecb E

/-- What the AES block does with a block, by its control register. -/
def mode_step (E : Equiv.Perm (BitVec 128)) (ctrl : Ctrl) :
    BitVec 128 → BitVec 128 → BitVec 128 × BitVec 128 :=
  (mode_automaton E ctrl.mode).step (ctrl.encrypt == kHardenedBoolTrue)

section driver

variable (hw : Hardware)

/-- A block of input. The chaining value is in the registers for the IV. -/
def Pipeline.feed (p : Pipeline) (src : Block) : Pipeline :=
  match p.dev.regs.ctrl with
  | none => p
  | some ctrl =>
      let r := mode_step (hw.cipher (p.dev.active_key ctrl)) ctrl p.dev.regs.iv.val src.val
      ⟨{ p.dev with regs := { p.dev.regs with iv := Block.of_val r.1 } },
        p.in_flight ++ [Block.of_val r.2]⟩

/-- The half of `aes_update` that provides input. -/
def aes_update_src (src : Block) : Proc Pipeline CryptoError Unit := do
  let p ← Proc.get
  if p.in_flight.length < kBlocksInFlight then do
    zoom aes_block spin_until
    Proc.modify fun p => p.feed hw src
  else Proc.trap

/-- The half of `aes_update` that reads output. -/
def aes_update_dest : Proc Pipeline CryptoError Block := do
  let p ← Proc.get
  match p.in_flight with
  -- idle and without output: an error, so that nobody waits for it
  | [] => Proc.throw .OTCRYPTO_RECOV_ERR
  | dest :: in_flight => do
      zoom aes_block spin_until
      Proc.modify fun p => { p with in_flight := in_flight }
      pure dest

/-- Writing the control register drops what is in flight. -/
def aes_mode_begin (aes_operation : u32) (key : AesKey) (iv : Block) :
    Proc Pipeline CryptoError Unit :=
  if aes_operation = kOtcryptoAesOperationEncrypt then do
    zoom aes_block (aes_encrypt_begin key iv)
    Proc.modify fun p => { p with in_flight := [] }
  else if aes_operation = kOtcryptoAesOperationDecrypt then do
    zoom aes_block (aes_decrypt_begin key iv)
    Proc.modify fun p => { p with in_flight := [] }
  else Proc.throw .OTCRYPTO_BAD_ARGS

/-- `aes_end`, which reads the IV before it is cleared. -/
def aes_mode_end : Proc Pipeline CryptoError Block := do
  let p ← Proc.get
  zoom aes_block aes_end
  pure p.dev.regs.iv

/-! ## Blocks of a text -/

def aes_padding_apply (padding_mode : u32) (partial_data_len : ℕ) (block : Block) :
    Except CryptoError Block :=
  if kAesBlockNumBytes ≤ partial_data_len then .error .OTCRYPTO_BAD_ARGS
  else
    let padding_len := kAesBlockNumBytes - partial_data_len
    if padding_mode = kOtcryptoAesPaddingPkcs7 then
      .ok (block.bytecopy partial_data_len
        (List.replicate padding_len (BitVec.ofNat 8 padding_len)))
    else if padding_mode = kOtcryptoAesPaddingIso9797M2 then
      .ok (block.bytecopy partial_data_len (0x80 :: List.replicate (padding_len - 1) 0))
    else if padding_mode = kOtcryptoAesPaddingNull then .error .OTCRYPTO_RECOV_ERR
    else .error .OTCRYPTO_BAD_ARGS

def num_padded_blocks_get (plaintext_len : ℕ) (padding : u32) : Except CryptoError ℕ :=
  let num_full_blocks := plaintext_len / kAesBlockNumBytes
  if padding = kOtcryptoAesPaddingNull then
    if num_full_blocks * kAesBlockNumBytes ≠ plaintext_len then .error .OTCRYPTO_BAD_ARGS
    else .ok num_full_blocks
  else .ok (num_full_blocks + 1)

def otcrypto_aes_padded_plaintext_length (plaintext_len : ℕ) (aes_padding : u32) :
    Except CryptoError ℕ := do
  let padded_nblocks ← num_padded_blocks_get plaintext_len aes_padding
  pure (padded_nblocks * kAesBlockNumBytes % 2 ^ 32)

def get_block (input : List u8) (padding : u32) (index : ℕ) : Proc Device CryptoError Block := do
  let num_full_blocks := input.length / kAesBlockNumBytes
  hardened_check (index ≤ num_full_blocks + 1)
  let block ← memshred_block
  if index < num_full_blocks then
    pure (block.bytecopy 0 (slice input (index * kAesBlockNumBytes) kAesBlockNumBytes))
  else do
    -- the block with the padding, which may be all of it
    let partial_data_len := input.length % kAesBlockNumBytes
    let block := block.bytecopy 0 (slice input (index * kAesBlockNumBytes) partial_data_len)
    Proc.ofExcept (aes_padding_apply padding partial_data_len block)

section loops

variable (input : List u8) (padding : u32)

/-- The first loop, from block `i` on. -/
def provide_blocks : ℕ → ℕ → Proc Pipeline CryptoError Unit
  | 0, _ => pure ()
  | n + 1, i => do
      let block_in ← zoom aes_block (get_block input padding i)
      aes_update_src hw block_in
      provide_blocks n (i + 1)

/-- The second loop. The output buffer is passed through it. -/
def update_blocks (block_offset : ℕ) :
    ℕ → ℕ → List u8 → Proc Pipeline CryptoError (List u8)
  | 0, _, output => pure output
  | n + 1, i, output => do
      let block_in ← zoom aes_block (get_block input padding i)
      let _random ← zoom aes_block memshred_block
      let block_out ← aes_update_dest
      aes_update_src hw block_in
      let output := splice output ((i - block_offset) * kAesBlockNumBytes) block_out.bytes
      update_blocks block_offset n (i + 1) output

end loops

/-- The third loop, which counts down. -/
def retrieve_blocks (input_nblocks : ℕ) : ℕ → List u8 → Proc Pipeline CryptoError (List u8)
  | 0, output => pure output
  | i + 1, output => do
      let block_out ← aes_update_dest
      let output := splice output ((input_nblocks - (i + 1)) * kAesBlockNumBytes) block_out.bytes
      retrieve_blocks input_nblocks i output

/-- The three loops of `otcrypto_aes_impl`. -/
def cipher_blocks (input : List u8) (padding : u32) (input_nblocks : ℕ) (output : List u8) :
    Proc Pipeline CryptoError (List u8) := do
  let block_offset := if 3 ≤ input_nblocks then 2 else 1
  provide_blocks hw input padding block_offset 0
  let output ←
    update_blocks hw input padding block_offset (input_nblocks - block_offset) block_offset output
  retrieve_blocks input_nblocks block_offset output

end driver

/-! ## The text that goes through the cipher -/

/-- What is appended to a text of `len` bytes. -/
def padding_bytes (padding : u32) (len : ℕ) : List u8 :=
  if padding = kOtcryptoAesPaddingPkcs7 then
    List.replicate (16 - len % 16) (BitVec.ofNat 8 (16 - len % 16))
  else if padding = kOtcryptoAesPaddingIso9797M2 then 0x80 :: List.replicate (16 - len % 16 - 1) 0
  else []

/-- The text of an operation: input that is encrypted is padded first. -/
def cipher_text (aes_operation padding : u32) (input : List u8) : List u8 :=
  if aes_operation = kOtcryptoAesOperationEncrypt then input ++ padding_bytes padding input.length
  else input

theorem length_padding_bytes {padding : u32} {len : ℕ}
    (h : padding = kOtcryptoAesPaddingPkcs7 ∨ padding = kOtcryptoAesPaddingIso9797M2) :
    (padding_bytes padding len).length = 16 - len % 16 := by
  have hne : kOtcryptoAesPaddingIso9797M2 ≠ kOtcryptoAesPaddingPkcs7 := by decide
  unfold padding_bytes
  rcases h with rfl | rfl
  · rw [if_pos rfl, List.length_replicate]
  · rw [if_neg hne, if_pos rfl, List.length_cons, List.length_replicate]
    omega

/-- The block with the padding. -/
theorem aes_padding_apply_val {padding : u32} {len : ℕ}
    (h : padding = kOtcryptoAesPaddingPkcs7 ∨ padding = kOtcryptoAesPaddingIso9797M2)
    (block : Block) :
    ∃ b, aes_padding_apply padding (len % 16) block = .ok b ∧
      b.val = Gcm.of_bytes (block.bytes.take (len % 16) ++ padding_bytes padding len) := by
  have hlen := @length_padding_bytes padding len h
  have hlt := Nat.mod_lt len (show 0 < 16 by decide)
  refine ⟨block.bytecopy (len % 16) (padding_bytes padding len), ?_, ?_⟩
  · have hne : kOtcryptoAesPaddingIso9797M2 ≠ kOtcryptoAesPaddingPkcs7 := by decide
    unfold aes_padding_apply padding_bytes
    rw [if_neg (not_le.mpr hlt)]
    rcases h with rfl | rfl
    · rfl
    · rfl
  · exact Block.bytecopy_full _ (by rw [hlen]; omega)

/-- The blocks that the loops ask for are those of the text. -/
def Supplies (input : List u8) (padding : u32) (text : List u8) : Prop :=
  ∃ tail, text = input ++ tail ∧ text.length % 16 = 0 ∧
    (tail = [] ∨ tail = padding_bytes padding input.length ∧
      (padding = kOtcryptoAesPaddingPkcs7 ∨ padding = kOtcryptoAesPaddingIso9797M2))

/-- A whole block is copied, and the last one is made of what is left and the padding. -/
theorem get_block_does {s : Device} {input text : List u8} {padding : u32} {i : ℕ}
    (h : Supplies input padding text) (hi : i < text.length / 16) :
    Does (get_block input padding i) s fun block t =>
      block.val = Gcm.of_bytes (text.drop (16 * i)) ∧
        ∃ entropy, t = { s with entropy := entropy } := by
  obtain ⟨tail, rfl, hmod, htail⟩ := h
  have hsub : ∀ n, slice input (i * kAesBlockNumBytes) n = (input.drop (16 * i)).take n := by
    intro n
    rw [slice, Nat.mul_comm]
  rw [List.length_append] at hi hmod
  have hbound : i ≤ input.length / 16 + 1 ∧ (input.length / 16 ≤ i →
      i = input.length / 16 ∧ tail = padding_bytes padding input.length ∧
      (padding = kOtcryptoAesPaddingPkcs7 ∨ padding = kOtcryptoAesPaddingIso9797M2)) := by
    rcases htail with rfl | ⟨rfl, hpadding⟩
    · rw [List.length_nil] at hi
      omega
    · rw [length_padding_bytes hpadding] at hi
      exact ⟨by omega, fun _ => ⟨by omega, rfl, hpadding⟩⟩
  refine hardened_check_bind hbound.1 (memshred_block_bind fun block entropy => ?_)
  split
  case isTrue hfull =>
    rw [kAesBlockNumBytes] at hfull
    have hlen : (slice input (i * kAesBlockNumBytes) kAesBlockNumBytes).length = 16 := by
      rw [hsub, List.length_take, List.length_drop, kAesBlockNumBytes]
      omega
    refine Does.pure ⟨?_, entropy, rfl⟩
    rw [Block.bytecopy_full _ (by rw [hlen]), List.take_zero, List.nil_append, hsub]
    refine Gcm.of_bytes_congr fun j hj => ?_
    rw [List.drop_append_of_le_length (by omega), List.getD_append _ _ _ _ (by
      rw [List.length_drop]; omega), List.getD_eq_getElem?_getD, List.getD_eq_getElem?_getD,
      List.getElem?_take_of_lt hj]
  case isFalse hlast =>
    -- only a padded text has a block here, and it is the last one
    rw [kAesBlockNumBytes, not_lt] at hlast
    obtain ⟨rfl, rfl, hpadding⟩ := hbound.2 hlast
    have hrest : input.drop (16 * (input.length / 16)) = Chunks.rest 16 input := rfl
    have hrestlen := Chunks.length_rest 16 input
    have hpart : slice input (input.length / 16 * kAesBlockNumBytes)
        (input.length % kAesBlockNumBytes) = Chunks.rest 16 input := by
      rw [hsub, hrest, ← hrestlen, List.take_length]
    have htake := @Block.take_bytecopy block 0 (Chunks.rest 16 input) (by omega)
    rw [Nat.zero_add, List.take_zero, List.nil_append, hrestlen] at htake
    obtain ⟨b, hb, hval⟩ := @aes_padding_apply_val padding input.length hpadding
      (block.bytecopy 0 (Chunks.rest 16 input))
    dsimp only
    rw [hpart]
    refine Does.ofExcept hb ⟨?_, entropy, rfl⟩
    rw [hval, htake, List.drop_append_of_le_length (by omega), hrest]

/-! ## The blocks in flight -/

/-- The AES block is set up with the key `K`, has `c` for its chaining value, and the output `F` is
still to be read. -/
structure Flow (s : Device) (key : AesKey) (K : List u32) (encrypt : u32) (c : BitVec 128)
    (F : List (BitVec 128)) (t : Pipeline) : Prop where
  kept : Kept s t.dev
  ctrl : t.dev.regs.ctrl = some (key.ctrl encrypt)
  active : t.dev.active_key (key.ctrl encrypt) = K
  iv : t.dev.regs.iv.val = c
  in_flight : t.in_flight.map Block.val = F

section flow

variable {hw : Hardware} {s : Device} {key : AesKey} {K : List u32} {encrypt : u32} {t : Pipeline}
  {c : BitVec 128} {F : List (BitVec 128)}

theorem Flow.shred (h : Flow s key K encrypt c F t) (entropy : EntropySource) :
    Flow s key K encrypt c F { t with dev := { t.dev with entropy := entropy } } :=
  ⟨h.kept.trans ⟨rfl, rfl, rfl, rfl⟩, h.ctrl, h.active, h.iv, h.in_flight⟩

theorem spin_until_does {Q : Unit → Pipeline → Prop} (h : Q () t) :
    Does (zoom aes_block spin_until) t Q := Does.zoom (Does.step h)

theorem aes_update_src_does (h : Flow s key K encrypt c F t) (hroom : F.length < kBlocksInFlight)
    (src : Block) :
    Does (aes_update_src hw src) t fun _ =>
      Flow s key K encrypt (mode_step (hw.cipher K) (key.ctrl encrypt) c src.val).1
        (F ++ [(mode_step (hw.cipher K) (key.ctrl encrypt) c src.val).2]) := by
  rw [← h.in_flight, List.length_map] at hroom
  refine Does.get ?_
  rw [if_pos hroom]
  refine Does.bind (spin_until_does (Q := fun _ u => u = t) rfl) fun _ u hu => ?_
  subst hu
  refine Does.modify ?_
  have hfeed : u.feed hw src = ⟨{ u.dev with regs := { u.dev.regs with
      iv := Block.of_val (mode_step (hw.cipher K) (key.ctrl encrypt) c src.val).1 } },
      u.in_flight ++
        [Block.of_val (mode_step (hw.cipher K) (key.ctrl encrypt) c src.val).2]⟩ := by
    unfold Pipeline.feed
    rw [h.ctrl]
    dsimp only
    rw [h.active, h.iv]
  rw [hfeed]
  refine ⟨h.kept.trans ⟨rfl, rfl, rfl, rfl⟩, h.ctrl, h.active, Block.val_of_val _, ?_⟩
  rw [List.map_append, h.in_flight, List.map_singleton, Block.val_of_val]

theorem aes_update_dest_does {y : BitVec 128} (h : Flow s key K encrypt c (y :: F) t) :
    Does aes_update_dest t fun dest u => dest.val = y ∧ Flow s key K encrypt c F u := by
  obtain ⟨hkept, hctrl, hactive, hiv, hflight⟩ := h
  obtain ⟨dest, in_flight, hcons, rfl, rfl⟩ := List.map_eq_cons_iff.mp hflight
  refine Does.get ?_
  rw [hcons]
  refine Does.bind (spin_until_does (Q := fun _ u => u = t) rfl) fun _ u hu => ?_
  subst hu
  exact Does.modify_bind (Does.pure ⟨rfl, hkept, hctrl, hactive, hiv, rfl⟩)

/-! ## The loops -/

/-- The blocks `ys` are at the start of an output buffer for `n` blocks. -/
def Written (ys : List (BitVec 128)) (n : ℕ) (output : List u8) : Prop :=
  output.length = 16 * n ∧ output.take (16 * ys.length) = ys.flatMap Gcm.bytes

theorem length_flatMap_bytes (ys : List (BitVec 128)) :
    (ys.flatMap Gcm.bytes).length = 16 * ys.length := by
  induction ys with
  | nil => rfl
  | cons y ys ih =>
      rw [List.flatMap_cons, List.length_append, ih, Gcm.length_bytes, List.length_cons]
      omega

theorem Written.snoc {ys : List (BitVec 128)} {n k : ℕ} {output : List u8}
    (h : Written ys n output) (hk : k = ys.length) (hn : ys.length < n) {block : Block} :
    Written (ys ++ [block.val]) n (splice output (k * kAesBlockNumBytes) block.bytes) := by
  obtain ⟨hlen, htake⟩ := h
  subst hk
  have hfits : ys.length * 16 + block.bytes.length ≤ output.length := by
    rw [Block.length_bytes]
    omega
  refine ⟨by rw [length_splice hfits, hlen], ?_⟩
  rw [List.flatMap_append, List.flatMap_singleton, Block.bytes_val, ← htake, splice,
    kAesBlockNumBytes, Nat.mul_comm ys.length 16]
  refine List.take_left' ?_
  rw [List.length_append, List.length_take, List.length_append, List.length_singleton,
    Block.length_bytes]
  omega

variable {input text output : List u8} {padding : u32} {iv : BitVec 128}

/-- After `i` blocks of input: those in `D` are in the output buffer, and those in `F` in flight. -/
structure Streaming (hw : Hardware) (s : Device) (key : AesKey) (K : List u32) (encrypt : u32)
    (iv : BitVec 128) (text : List u8) (i : ℕ) (D F : List (BitVec 128)) (output : List u8)
    (t : Pipeline) : Prop where
  flow : Flow s key K encrypt
    (run (mode_step (hw.cipher K) (key.ctrl encrypt)) iv ((Gcm.blocks text).take i)).1 F t
  all : D ++ F = (run (mode_step (hw.cipher K) (key.ctrl encrypt)) iv ((Gcm.blocks text).take i)).2
  written : Written D (text.length / 16) output

variable {D : List (BitVec 128)} {i n : ℕ}

theorem take_succ_blocks (hmod : text.length % 16 = 0) (hi : i < text.length / 16) :
    (Gcm.blocks text).take (i + 1) =
      (Gcm.blocks text).take i ++ [Gcm.of_bytes (text.drop (16 * i))] := by
  have hlen : i < (Gcm.blocks text).length := by
    rw [Gcm.length_blocks]
    omega
  rw [List.take_succ_eq_append_getElem hlen]
  simp only [Gcm.blocks, List.getElem_map, List.getElem_range]

/-- A block of the text is put together. -/
theorem Streaming.get_block (h : Streaming hw s key K encrypt iv text i D F output t)
    (hsupplies : Supplies input padding text) (hi : i < text.length / 16) :
    Does (zoom aes_block (get_block input padding i)) t fun block u =>
      block.val = Gcm.of_bytes (text.drop (16 * i)) ∧
        Streaming hw s key K encrypt iv text i D F output u := by
  refine Does.zoom ((get_block_does hsupplies hi).mono ?_)
  rintro block _ ⟨hblock, entropy, rfl⟩
  exact ⟨hblock, h.flow.shred entropy, h.all, h.written⟩

/-- A block is provided. -/
theorem Streaming.provide (h : Streaming hw s key K encrypt iv text i D F output t)
    (hmod : text.length % 16 = 0) (hi : i < text.length / 16) (hroom : F.length < kBlocksInFlight)
    {src : Block} (hsrc : src.val = Gcm.of_bytes (text.drop (16 * i))) :
    Does (aes_update_src hw src) t fun _ u => ∃ y,
      Streaming hw s key K encrypt iv text (i + 1) D (F ++ [y]) output u := by
  refine (aes_update_src_does h.flow hroom src).mono fun _ u hu => ?_
  obtain ⟨hfst, hsnd⟩ := Prod.ext_iff.mp (run_snoc
    (f := mode_step (hw.cipher K) (key.ctrl encrypt)) iv ((Gcm.blocks text).take i)
    (Gcm.of_bytes (text.drop (16 * i))))
  rw [← take_succ_blocks hmod hi] at hfst hsnd
  rw [hsrc, ← hfst] at hu
  exact ⟨_, hu, by rw [hsnd, ← List.append_assoc, h.all], h.written⟩

theorem provide_blocks_does (hsupplies : Supplies input padding text) (n : ℕ)
    (h : Streaming hw s key K encrypt iv text i [] F output t) (hF : F.length = i)
    (hn : i + n ≤ text.length / 16) (hroom : i + n ≤ kBlocksInFlight) :
    Does (provide_blocks hw input padding n i) t fun _ u => ∃ F',
      Streaming hw s key K encrypt iv text (i + n) [] F' output u ∧ F'.length = i + n := by
  have hmod := hsupplies.choose_spec.2.1
  induction n generalizing i F t with
  | zero => exact Does.pure ⟨F, h, hF⟩
  | succ n ih =>
      refine Does.bind (h.get_block hsupplies (by omega)) ?_
      rintro block_in t' ⟨hblock, ht'⟩
      refine Does.bind (ht'.provide hmod (by omega) (by omega) hblock) ?_
      rintro _ u ⟨y, hu⟩
      rw [show i + (n + 1) = i + 1 + n by omega]
      exact ih hu (by rw [List.length_append, hF, List.length_singleton]) (by omega) (by omega)

/-- One block is read from the AES block and written to its place. -/
theorem Streaming.dest {y : BitVec 128} {k : ℕ}
    (h : Streaming hw s key K encrypt iv text i D (y :: F) output t) (hk : k = D.length)
    (hlt : D.length < text.length / 16) :
    Does aes_update_dest t fun dest u =>
      Streaming hw s key K encrypt iv text i (D ++ [y]) F
        (splice output (k * kAesBlockNumBytes) dest.bytes) u := by
  refine (aes_update_dest_does h.flow).mono ?_
  rintro dest u ⟨rfl, hu⟩
  refine ⟨hu, ?_, h.written.snoc hk hlt⟩
  rw [List.append_assoc, List.singleton_append]
  exact h.all

/-- Block `i` goes in and block `i - block_offset` comes out. -/
theorem update_blocks_does (hsupplies : Supplies input padding text) {block_offset : ℕ}
    (hoffset : 0 < block_offset) (hroom : block_offset ≤ kBlocksInFlight) (n : ℕ)
    (h : Streaming hw s key K encrypt iv text i D F output t) (hF : F.length = block_offset)
    (hD : D.length + block_offset = i) (hn : i + n = text.length / 16) :
    Does (update_blocks hw input padding block_offset n i output) t fun output' u => ∃ D' F',
      Streaming hw s key K encrypt iv text (text.length / 16) D' F' output' u ∧
        F'.length = block_offset ∧ D'.length + block_offset = text.length / 16 := by
  have hmod := hsupplies.choose_spec.2.1
  induction n generalizing i D F t output with
  | zero =>
      rw [Nat.add_zero] at hn
      subst hn
      exact Does.pure ⟨D, F, h, hF, hD⟩
  | succ n ih =>
      refine Does.bind (h.get_block hsupplies (by omega)) ?_
      rintro block_in t' ⟨hblock, ht'⟩
      refine Does.bind (R := fun _ u => Streaming hw s key K encrypt iv text i D F output u)
        (Does.zoom (memshred_bind fun _ entropy _ =>
          Does.pure ⟨ht'.flow.shred entropy, ht'.all, ht'.written⟩)) fun _ u hu => ?_
      cases F with
      | nil =>
          rw [List.length_nil] at hF
          omega
      | cons y F =>
          rw [List.length_cons] at hF
          refine Does.bind (hu.dest (k := i - block_offset) (by omega) (by omega)) ?_
          intro block_out v hv
          refine Does.bind (hv.provide hmod (by omega) (by omega) hblock) ?_
          rintro _ w ⟨y', hw'⟩
          exact ih hw' (by rw [List.length_append, List.length_singleton]; omega)
            (by rw [List.length_append, List.length_singleton]; omega) (by omega)

theorem retrieve_blocks_does (n : ℕ)
    (h : Streaming hw s key K encrypt iv text (text.length / 16) D F output t) (hF : F.length = n)
    (hD : D.length + n = text.length / 16) :
    Does (retrieve_blocks (text.length / 16) n output) t fun output' u => ∃ D',
      Streaming hw s key K encrypt iv text (text.length / 16) D' [] output' u := by
  induction n generalizing D F t output with
  | zero =>
      obtain rfl := List.eq_nil_of_length_eq_zero hF
      exact Does.pure ⟨D, h⟩
  | succ n ih =>
      cases F with
      | nil => cases hF
      | cons y F =>
          rw [List.length_cons] at hF
          refine Does.bind (h.dest (k := text.length / 16 - (n + 1)) (by omega) (by omega)) ?_
          intro block_out u hu
          exact ih hu (by omega) (by rw [List.length_append, List.length_singleton]; omega)

/-- The text goes through the mode, and the output is all that the output buffer holds. -/
theorem cipher_blocks_does (hsupplies : Supplies input padding text) (hne : 0 < text.length / 16)
    (h : Flow s key K encrypt iv [] t) (hout : output.length = text.length) :
    Does (cipher_blocks hw input padding (text.length / 16) output) t fun output' u =>
      Flow s key K encrypt
        (run (mode_step (hw.cipher K) (key.ctrl encrypt)) iv (Gcm.blocks text)).1 [] u ∧
      output' = (run (mode_step (hw.cipher K) (key.ctrl encrypt)) iv
        (Gcm.blocks text)).2.flatMap Gcm.bytes := by
  have hmod := hsupplies.choose_spec.2.1
  have hstart : Streaming hw s key K encrypt iv text 0 [] [] output t :=
    ⟨h, rfl, by omega, by rw [List.length_nil, Nat.mul_zero, List.take_zero]; rfl⟩
  have hoffset : 0 < (if 3 ≤ text.length / 16 then 2 else 1) ∧
      (if 3 ≤ text.length / 16 then 2 else 1) ≤ kBlocksInFlight ∧
      (if 3 ≤ text.length / 16 then 2 else 1) ≤ text.length / 16 := by
    unfold kBlocksInFlight
    split <;> omega
  unfold cipher_blocks
  -- from here on only the bounds of the offset are used
  generalize (if 3 ≤ text.length / 16 then 2 else 1) = block_offset at hoffset ⊢
  obtain ⟨hpos, hroom, hle⟩ := hoffset
  refine Does.bind (provide_blocks_does hsupplies block_offset hstart rfl (by omega) (by omega)) ?_
  rintro _ u ⟨F, hu, hF⟩
  rw [Nat.zero_add] at hu hF
  refine Does.bind (update_blocks_does hsupplies hpos hroom (text.length / 16 - block_offset) hu hF
    (by rw [List.length_nil]; omega) (by omega)) ?_
  rintro output' v ⟨D', F', hv, hF', hD'⟩
  refine (retrieve_blocks_does block_offset hv hF' hD').mono ?_
  rintro output'' w ⟨D'', hflow, hall, hlen, htake⟩
  have hblocks : (Gcm.blocks text).length = text.length / 16 := by
    rw [Gcm.length_blocks]
    omega
  rw [← hblocks, List.take_length] at hflow hall
  rw [List.append_nil] at hall
  have hdone : D''.length = text.length / 16 := by rw [hall, length_run, hblocks]
  rw [hdone, ← hlen, List.take_length, hall] at htake
  exact ⟨hflow, htake⟩

end flow

end IbexFirmware.Aes
