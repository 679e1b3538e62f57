/-
The device under the symmetric ciphers, and the AES driver (`aes.c`, `keymgr.c`,
`rv_core_ibex.c`).

`Device` holds what the functions of the library share: the entropy source, the enable of
the instruction cache, the two slots that the key manager loads keys into, the registers
of the AES block, and the key structures of the callers by their addresses. What the
hardware computes is the parameter `hw`: a permutation of blocks for every AES key, and
the keys that the key manager derives.

A function of a driver that may report an error is an operation that may fail. The checks
of values that have just been written, and the bits of the registers, are not modelled:
the control register is the fields that are written to it.
-/
import IbexFirmware.AesBlock
import IbexFirmware.Lib.Does

set_option autoImplicit false

namespace IbexFirmware.Aes

open Bytes PowerFail Crypto Crc32 HardenedMemory Splice

/-! ## The device -/

/-- What the key manager derives a key from. -/
structure Diversification where
  version : u32
  salt : List u32
  deriving DecidableEq

structure Hardware where
  cipher : List u32 → Equiv.Perm (BitVec 128)
  aes_key : Diversification → List u32
  kmac_key : Diversification → List u32

/-- A slot for a key of the key manager, and how often it has been loaded. -/
structure Slot where
  key : Option (List u32)
  loads : ℕ
  deriving DecidableEq

def Slot.load (slot : Slot) (key : List u32) : Slot := ⟨some key, slot.loads + 1⟩

def Slot.clear (slot : Slot) : Slot := { slot with key := none }

def kAesCipherModeEcb : u32 := 0x533
def kAesCipherModeCbc : u32 := 0x45d
def kAesCipherModeCfb : u32 := 0xcd2
def kAesCipherModeOfb : u32 := 0x39a
def kAesCipherModeCtr : u32 := 0xd2c

/-- The control register. -/
structure Ctrl where
  encrypt : u32
  sideload : u32
  mode : u32
  key_len : u32
  deriving DecidableEq

/-- The registers of the AES block. `data_out` is `none` while no output is pending. -/
structure Registers where
  ctrl : Option Ctrl
  share0 : List u32
  share1 : List u32
  iv : Block
  data_out : Option Block
  deriving DecidableEq

structure Device where
  entropy : EntropySource
  icache : Bool
  aes_slot : Slot
  kmac_slot : Slot
  regs : Registers
  keys : ℕ → BlindedKey

/-- The device with the key at an address changed. -/
def Device.set_key (s : Device) (addr : ℕ) (k : BlindedKey) : Device :=
  { s with keys := Function.update s.keys addr k }

@[simp] theorem Device.set_key_self (s : Device) (addr : ℕ) (k : BlindedKey) :
    (s.set_key addr k).keys addr = k := Function.update_self ..

def driver (e : CryptoError) (f : Device → Device) : Proc Device CryptoError Unit :=
  Proc.step e fun s => ((), f s)

def entropy_complex_check : Proc Device CryptoError Unit := driver .OTCRYPTO_RECOV_ERR id

/-- `hardened_memshred` of `n` words. -/
def memshred (n : ℕ) : Proc Device CryptoError (List u32) := do
  let s ← Proc.get
  Proc.modify fun s => { s with entropy := s.entropy.after n }
  pure (s.entropy.words n)

/-- `hardened_memshred` of a block. -/
def memshred_block : Proc Device CryptoError Block := do
  let ws ← memshred kAesBlockNumWords
  pure (Block.of_words ws)

/-- `HARDENED_CHECK`. -/
def hardened_check (c : Prop) [Decidable c] : Proc Device CryptoError Unit :=
  if c then pure () else Proc.trap

section rules

variable {α : Type} {s : Device}

theorem hardened_check_does {c : Prop} [Decidable c] {Q : Unit → Device → Prop} (hc : c)
    (h : Q () s) : Does (hardened_check c) s Q := by
  rw [hardened_check, if_pos hc]
  exact Does.pure h

/-- A check that holds, in front of what is done after it. -/
theorem hardened_check_bind {c : Prop} [Decidable c] {f : Unit → Proc Device CryptoError α}
    {Q : α → Device → Prop} (hc : c) (h : Does (f ()) s Q) :
    Does (hardened_check c >>= f) s Q := by
  refine Does.bind (R := fun _ t => t = s) (hardened_check_does hc rfl) ?_
  rintro _ _ rfl
  exact h

/-- Random words, in front of what is done with them. -/
theorem memshred_bind {n : ℕ} {f : List u32 → Proc Device CryptoError α} {Q : α → Device → Prop}
    (h : ∀ (ws : List u32) (entropy : EntropySource), ws.length = n →
      Does (f ws) { s with entropy := entropy } Q) : Does (memshred n >>= f) s Q := by
  refine Does.bind (R := fun ws t => ws.length = n ∧ ∃ entropy, t = { s with entropy := entropy })
    (Does.get (Does.modify_bind (Does.pure ⟨?_, _, rfl⟩))) ?_
  · exact EntropySource.length_words _ _
  · rintro ws _ ⟨hlen, entropy, rfl⟩
    exact h ws entropy hlen

theorem memshred_block_bind {f : Block → Proc Device CryptoError α} {Q : α → Device → Prop}
    (h : ∀ (b : Block) (entropy : EntropySource), Does (f b) { s with entropy := entropy } Q) :
    Does (memshred_block >>= f) s Q := by
  refine Does.bind (R := fun _ t => ∃ entropy, t = { s with entropy := entropy })
    (memshred_bind fun ws entropy _ => Does.pure ⟨entropy, rfl⟩) ?_
  rintro b _ ⟨entropy, rfl⟩
  exact h b entropy

end rules

/-! ## The instruction cache -/

/-- Reads the enable and clears it. -/
def ibex_disable_icache : Proc Device CryptoError Bool := do
  let s ← Proc.get
  Proc.modify fun s => { s with icache := false }
  pure s.icache

def ibex_restore_icache (icache_enabled : Bool) : Proc Device CryptoError Unit :=
  Proc.modify fun s => { s with icache := s.icache || icache_enabled }

/-! ## The key manager -/

section

variable (hw : Hardware)

def keymgr_is_idle : Proc Device CryptoError Unit := driver .OTCRYPTO_RECOV_ERR id

def keymgr_generate_key_aes (diversification : Diversification) : Proc Device CryptoError Unit := do
  entropy_complex_check
  keymgr_is_idle
  driver .OTCRYPTO_RECOV_ERR fun s =>
    { s with aes_slot := s.aes_slot.load (hw.aes_key diversification) }

def keymgr_sideload_clear_aes : Proc Device CryptoError Unit := do
  entropy_complex_check
  keymgr_is_idle
  driver .OTCRYPTO_FATAL_ERR fun s => { s with aes_slot := s.aes_slot.clear }

end

/-! ## AES keys -/

/-- `aes_key_t`. The pointers to the shares go into the keyblob of the key structure at
address `blob`. -/
structure AesKey where
  mode : u32
  sideload : u32
  key_len : u32
  blob : ℕ
  checksum : u32
  deriving DecidableEq

/-- Where the first share lies. -/
def AesKey.share0 (key : AesKey) (s : Device) : List u32 :=
  slice (s.keys key.blob).words 0 key.key_len.toNat

def AesKey.share1 (key : AesKey) (s : Device) : List u32 :=
  slice (s.keys key.blob).words key.key_len.toNat key.key_len.toNat

/-- Of the first share, as many bytes as the key has words. -/
def aes_key_integrity_checksum (s : Device) (key : AesKey) : u32 :=
  let ctx := crc32_add32 crc32_init key.mode
  let ctx := crc32_add32 ctx key.sideload
  let ctx := crc32_add32 ctx key.key_len
  crc32_finish (crc32_add ctx 0
    ((word_bytes (s.keys key.blob).words).take key.key_len.toNat))

/-! ## The driver -/

def kAesKeyWordLenMax : ℕ := 8

def known_mode (mode : u32) : Prop :=
  mode = kAesCipherModeEcb ∨ mode = kAesCipherModeCbc ∨ mode = kAesCipherModeCfb ∨
    mode = kAesCipherModeOfb ∨ mode = kAesCipherModeCtr

instance (mode : u32) : Decidable (known_mode mode) := instDecidableOr

def compute_ctrl_reg (key : AesKey) (encrypt : u32) : Except CryptoError Ctrl :=
  if encrypt ≠ kHardenedBoolTrue ∧ encrypt ≠ kHardenedBoolFalse then .error .OTCRYPTO_BAD_ARGS
  else if key.sideload ≠ kHardenedBoolTrue ∧ key.sideload ≠ kHardenedBoolFalse then
    .error .OTCRYPTO_BAD_ARGS
  else if ¬ known_mode key.mode then .error .OTCRYPTO_BAD_ARGS
  else if key.key_len ≠ 4 ∧ key.key_len ≠ 6 ∧ key.key_len ≠ 8 then .error .OTCRYPTO_BAD_ARGS
  else .ok ⟨encrypt, key.sideload, key.mode, key.key_len⟩

/-- Waits until the AES block reports a status, and fails on an alert. -/
def spin_until : Proc Device CryptoError Unit := driver .OTCRYPTO_RECOV_ERR id

def write_ctrl (ctrl : Ctrl) : Proc Device CryptoError Unit :=
  Proc.modify fun s => { s with regs := { s.regs with ctrl := some ctrl, data_out := none } }

/-- The key registers are filled with random words before each share is written. -/
def write_shares (key : AesKey) : Proc Device CryptoError Unit := do
  let random0 ← memshred kAesKeyWordLenMax
  Proc.modify fun s => { s with regs := { s.regs with share0 := splice random0 0 (key.share0 s) } }
  let random1 ← memshred kAesKeyWordLenMax
  Proc.modify fun s => { s with regs := { s.regs with share1 := splice random1 0 (key.share1 s) } }

def aes_write_key (key : AesKey) : Proc Device CryptoError Unit :=
  if key.sideload ≠ kHardenedBoolFalse then hardened_check (key.sideload = kHardenedBoolTrue)
  else do
    write_shares key
    let s ← Proc.get
    hardened_check (key.checksum = aes_key_integrity_checksum s key)
    spin_until

def write_iv (mode : u32) (iv : Block) : Proc Device CryptoError Unit :=
  if mode ≠ kAesCipherModeEcb then
    Proc.modify fun s => { s with regs := { s.regs with iv := iv } }
  else pure ()

/-- The register is read back and must be what was written. -/
def check_ctrl_reg (ctrl : Ctrl) : Proc Device CryptoError Unit := do
  let s ← Proc.get
  hardened_check (s.regs.ctrl = some ctrl)

def aes_begin (key : AesKey) (iv : Block) (encrypt : u32) : Proc Device CryptoError Unit := do
  entropy_complex_check
  spin_until
  let ctrl ← Proc.ofExcept (compute_ctrl_reg key encrypt)
  write_ctrl ctrl
  spin_until
  aes_write_key key
  write_iv key.mode iv
  check_ctrl_reg ctrl
  spin_until

def aes_encrypt_begin (key : AesKey) (iv : Block) : Proc Device CryptoError Unit :=
  aes_begin key iv kHardenedBoolTrue

def aes_decrypt_begin (key : AesKey) (iv : Block) : Proc Device CryptoError Unit :=
  aes_begin key iv kHardenedBoolFalse

section

variable (hw : Hardware)

/-- The key that the AES block works with. -/
def Device.active_key (s : Device) (ctrl : Ctrl) : List u32 :=
  if ctrl.sideload = kHardenedBoolTrue then (s.aes_slot.key.getD []).take ctrl.key_len.toNat
  else (hardened_xor s.regs.share0 s.regs.share1).take ctrl.key_len.toNat

/-- What the AES block makes of a block of input. Only the two modes that the library
uses for whole messages are modelled. In counter mode both directions encrypt the counter. -/
def Device.process (s : Device) (ctrl : Ctrl) (src : Block) : Block :=
  let cipher := hw.cipher (s.active_key ctrl)
  if ctrl.mode = kAesCipherModeCtr then Block.of_val (cipher s.regs.iv.val ^^^ src.val)
  else if ctrl.encrypt = kHardenedBoolTrue then Block.of_val (cipher src.val)
  else Block.of_val (cipher.symm src.val)

/-- The counter goes up by one with every block. -/
def Device.feed (s : Device) (src : Block) : Device :=
  match s.regs.ctrl with
  | none => s
  | some ctrl => { s with regs := { s.regs with
      data_out := some (s.process hw ctrl src)
      iv := if ctrl.mode = kAesCipherModeCtr then Block.of_val (s.regs.iv.val + 1) else s.regs.iv } }

/-- `aes_update(NULL, src)`. -/
def aes_update_in (src : Block) : Proc Device CryptoError Unit :=
  driver .OTCRYPTO_RECOV_ERR fun s => s.feed hw src

/-- `aes_update(dest, NULL)`. -/
def aes_update_out : Proc Device CryptoError Block := do
  let s ← Proc.get
  match s.regs.data_out with
  | none => Proc.throw .OTCRYPTO_RECOV_ERR
  | some dest => do
      spin_until
      Proc.modify fun s => { s with regs := { s.regs with data_out := none } }
      pure dest

/-- The control register goes to manual operation and the data is cleared. -/
def aes_end : Proc Device CryptoError Unit :=
  driver .OTCRYPTO_RECOV_ERR fun s =>
    { s with regs := ⟨none, [], [], Block.zero, none⟩ }

def aes_verify_ctrl_reg (key : AesKey) (encrypt : u32) : Proc Device CryptoError Unit := do
  let ctrl ← Proc.ofExcept (compute_ctrl_reg key encrypt)
  check_ctrl_reg ctrl

end

end IbexFirmware.Aes
