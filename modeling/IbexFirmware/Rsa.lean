/-
RSA keys in the cryptography library (`rsa.c`, `run_rsa.c`,
`run_rsa_key_from_cofactor.c`).

Keys are built from numbers of the caller or computed by the coprocessor OTBN, in two
calls: one starts a program, and one waits for it and reads the numbers back. The OTBN
programs are the parameter `program`, which says what numbers a program leaves for the
data memory it was started with. Every call into the OTBN driver, and the check of the
entropy complex, is an operation that may fail.

`State` holds what the functions share: the OTBN data memory, the buffers of the caller
and the two keys. Buffers do not overlap.
-/
import IbexFirmware.CryptoKey
import IbexFirmware.Lib.PowerFail

set_option autoImplicit false

namespace IbexFirmware.Rsa

open Bytes PowerFail Crypto HardenedMemory Splice

/-! ## Constants -/

def kOtcryptoRsaSize2048 : u32 := 0x5d1
def kOtcryptoRsaSize3072 : u32 := 0xc35
def kOtcryptoRsaSize4096 : u32 := 0x8da

def kRsa2048NumWords : u32 := 64
def kRsa3072NumWords : u32 := 96
def kRsa4096NumWords : u32 := 128

def kOtcryptoRsa2048PublicKeyBytes : u32 := 256
def kOtcryptoRsa3072PublicKeyBytes : u32 := 384
def kOtcryptoRsa4096PublicKeyBytes : u32 := 512

def kOtcryptoRsa2048PrivateKeyBytes : u32 := 256
def kOtcryptoRsa3072PrivateKeyBytes : u32 := 384
def kOtcryptoRsa4096PrivateKeyBytes : u32 := 512

/-- Two shares of the private exponent and the modulus. -/
def kOtcryptoRsa2048PrivateKeyblobBytes : u32 := 768
def kOtcryptoRsa3072PrivateKeyblobBytes : u32 := 1152
def kOtcryptoRsa4096PrivateKeyblobBytes : u32 := 1536

def kOtcryptoKeyModeRsaSignPkcs : u32 := kOtcryptoKeyTypeRsa <<< 16 ||| 0x3d4
def kOtcryptoKeyModeRsaSignPss : u32 := kOtcryptoKeyTypeRsa <<< 16 ||| 0x761
def kOtcryptoKeyModeRsaEncryptOaep : u32 := kOtcryptoKeyTypeRsa <<< 16 ||| 0x585

def kOtcryptoRsaPaddingPkcs : u32 := 0x94e
def kOtcryptoRsaPaddingPss : u32 := 0x6b1

/-! ## OTBN -/

inductive OtbnApp where
  | run_rsa
  | run_rsa_key_from_cofactor
  deriving DecidableEq

/-- The mode word of either application. -/
inductive OtbnMode where
  | kMode2048Keygen
  | kMode3072Keygen
  | kMode4096Keygen
  | kOtbnRsaModeCofactor2048
  deriving DecidableEq

/-- The variables of the applications in data memory, the words of each counted from
where it begins. `mode` is `none` for a word that is no mode. -/
structure Dmem where
  mode : Option OtbnMode
  rsa_n : ℕ → u32
  rsa_d0 : ℕ → u32
  rsa_d1 : ℕ → u32
  rsa_cofactor : ℕ → u32

/-- A memory after a secure wipe. Nothing reads what it holds. -/
def Dmem.wiped : Dmem := ⟨none, fun _ => 0, fun _ => 0, fun _ => 0, fun _ => 0⟩

/-- The numbers a program computes. -/
structure Numbers where
  n : ℕ → u32
  d0 : ℕ → u32
  d1 : ℕ → u32

/-- The first `num_words` words of a variable. -/
def variable_words (num_words : u32) (var : ℕ → u32) : List u32 :=
  (List.range num_words.toNat).map var

@[simp] theorem length_variable_words (num_words : u32) (var : ℕ → u32) :
    (variable_words num_words var).length = num_words.toNat := by
  simp [variable_words]

/-- A variable with `src` written to its first words. -/
def write_variable (num_words : u32) (src : List u32) (var : ℕ → u32) : ℕ → u32 := fun i =>
  if i < num_words.toNat then src.getD i 0 else var i

/-! ## The state -/

/-- What the consumers of a key hand to OTBN: the operation and the size it is for. -/
inductive Operation where
  | sign (size : u32)
  | verify (size : u32)
  | encrypt (size : u32)
  | decrypt (size : u32)
  deriving DecidableEq

structure State where
  app : Option OtbnApp
  dmem : Dmem
  entropy : EntropySource
  modulus : Word32Buf
  cofactor_share0 : Word32Buf
  cofactor_share1 : Word32Buf
  public_key : Option UnblindedKey
  private_key : Option BlindedKey
  started : Option Operation

def State.on_public (s : State) (f : UnblindedKey → UnblindedKey) : State :=
  { s with public_key := s.public_key.map f }

def State.on_private (s : State) (f : BlindedKey → BlindedKey) : State :=
  { s with private_key := s.private_key.map f }

/-- An operation of a driver: it is carried out or it fails. -/
def driver (e : CryptoError) (f : State → State) : Proc State CryptoError Unit :=
  Proc.step e fun s => ((), f s)

def entropy_complex_check : Proc State CryptoError Unit := driver .OTCRYPTO_RECOV_ERR id

/-- `hardened_memshred` of the keyblob. -/
def shred_keyblob (word_len : u32) : Proc State CryptoError Unit :=
  Proc.modify fun s =>
    { s.on_private fun k => k.write 0 (s.entropy.words word_len.toNat) with
      entropy := s.entropy.after word_len.toNat }

def set_public_checksum : Proc State CryptoError Unit :=
  Proc.modify fun s => s.on_public fun k => { k with checksum := integrity_unblinded_checksum k }

def set_private_checksum : Proc State CryptoError Unit :=
  Proc.modify fun s => s.on_private fun k => { k with checksum := integrity_blinded_checksum k }

/-! ## Checks of keys -/

def rsa_mode_check (mode : u32) : Except CryptoError Unit :=
  if mode = kOtcryptoKeyModeRsaSignPkcs then .ok ()
  else if mode = kOtcryptoKeyModeRsaSignPss then .ok ()
  else if mode = kOtcryptoKeyModeRsaEncryptOaep then .ok ()
  else .error .OTCRYPTO_BAD_ARGS

/-- The lengths that a private key of a size has. -/
def private_key_lengths (size : u32) : Option (u32 × u32) :=
  if size = kOtcryptoRsaSize2048 then
    some (kOtcryptoRsa2048PrivateKeyBytes, kOtcryptoRsa2048PrivateKeyblobBytes)
  else if size = kOtcryptoRsaSize3072 then
    some (kOtcryptoRsa3072PrivateKeyBytes, kOtcryptoRsa3072PrivateKeyblobBytes)
  else if size = kOtcryptoRsaSize4096 then
    some (kOtcryptoRsa4096PrivateKeyBytes, kOtcryptoRsa4096PrivateKeyblobBytes)
  else none

/-- The version of the key is not among what is checked. -/
def private_key_structural_check (size : u32) (private_key : BlindedKey) :
    Except CryptoError Unit := do
  rsa_mode_check private_key.config.key_mode
  if private_key.config.hw_backed ≠ kHardenedBoolFalse then .error .OTCRYPTO_BAD_ARGS
  else
    match private_key_lengths size with
    | none => .error .OTCRYPTO_BAD_ARGS
    | some (key_length, keyblob_length) =>
        if private_key.config.key_length ≠ key_length
            ∨ private_key.keyblob_length ≠ keyblob_length then .error .OTCRYPTO_BAD_ARGS
        else .ok ()

def public_key_structural_check (public_key : UnblindedKey) : Except CryptoError Unit :=
  rsa_mode_check public_key.key_mode

def rsa_size_from_public_key (public_key : UnblindedKey) : Except CryptoError u32 :=
  if public_key.key_length = kOtcryptoRsa2048PublicKeyBytes then .ok kOtcryptoRsaSize2048
  else if public_key.key_length = kOtcryptoRsa3072PublicKeyBytes then .ok kOtcryptoRsaSize3072
  else if public_key.key_length = kOtcryptoRsa4096PublicKeyBytes then .ok kOtcryptoRsaSize4096
  else .error .OTCRYPTO_BAD_ARGS

def rsa_size_from_private_key (private_key : BlindedKey) : Except CryptoError u32 :=
  if private_key.config.key_length = kOtcryptoRsa2048PrivateKeyBytes then
    .ok kOtcryptoRsaSize2048
  else if private_key.config.key_length = kOtcryptoRsa3072PrivateKeyBytes then
    .ok kOtcryptoRsaSize3072
  else if private_key.config.key_length = kOtcryptoRsa4096PrivateKeyBytes then
    .ok kOtcryptoRsaSize4096
  else .error .OTCRYPTO_BAD_ARGS

def key_mode_padding_check (key_mode padding_mode : u32) : Except CryptoError Unit :=
  if padding_mode = kOtcryptoRsaPaddingPkcs then
    if key_mode ≠ kOtcryptoKeyModeRsaSignPkcs then .error .OTCRYPTO_BAD_ARGS else .ok ()
  else if padding_mode = kOtcryptoRsaPaddingPss then
    if key_mode ≠ kOtcryptoKeyModeRsaSignPss then .error .OTCRYPTO_BAD_ARGS else .ok ()
  else .error .OTCRYPTO_BAD_ARGS

/-! ## Keys from numbers of the caller -/

/-- The case of one size in `otcrypto_rsa_public_key_construct`. -/
def public_key_copy (key_bytes num_words : u32) (modulus : Word32Buf) (public_key : UnblindedKey) :
    Proc State CryptoError Unit :=
  if public_key.key_length ≠ key_bytes ∨ modulus.len ≠ num_words then
    Proc.throw .OTCRYPTO_BAD_ARGS
  else Proc.modify fun s => s.on_public fun k => k.write modulus.words

def public_key_case (size : u32) (modulus : Word32Buf) (public_key : UnblindedKey) :
    Proc State CryptoError Unit :=
  if size = kOtcryptoRsaSize2048 then
    public_key_copy kOtcryptoRsa2048PublicKeyBytes kRsa2048NumWords modulus public_key
  else if size = kOtcryptoRsaSize3072 then
    public_key_copy kOtcryptoRsa3072PublicKeyBytes kRsa3072NumWords modulus public_key
  else if size = kOtcryptoRsaSize4096 then
    public_key_copy kOtcryptoRsa4096PublicKeyBytes kRsa4096NumWords modulus public_key
  else Proc.throw .OTCRYPTO_BAD_ARGS

def otcrypto_rsa_public_key_construct (size : u32) (modulus : Word32Buf) :
    Proc State CryptoError Unit := do
  let s ← Proc.get
  match s.public_key with
  | none => Proc.throw .OTCRYPTO_BAD_ARGS
  | some public_key =>
      if modulus.data = none ∨ public_key.key = none then Proc.throw .OTCRYPTO_BAD_ARGS
      else do
        entropy_complex_check
        Proc.ofExcept (rsa_mode_check public_key.key_mode)
        public_key_case size modulus public_key
        set_public_checksum

/-- The case of one size in `otcrypto_rsa_private_key_from_exponents`. The keyblob holds
the first share, the second share and the modulus. -/
def private_key_copy (keyblob_bytes num_words : u32) (modulus d_share0 d_share1 : Word32Buf)
    (private_key : BlindedKey) : Proc State CryptoError Unit :=
  if private_key.keyblob_length ≠ keyblob_bytes ∨ modulus.len ≠ num_words then
    Proc.throw .OTCRYPTO_BAD_ARGS
  else do
    Proc.modify fun s => s.on_private fun k => k.write (2 * num_words.toNat) modulus.words
    Proc.modify fun s => s.on_private fun k => k.write 0 d_share0.words
    Proc.modify fun s => s.on_private fun k => k.write num_words.toNat d_share1.words

def private_key_case (size : u32) (modulus d_share0 d_share1 : Word32Buf)
    (private_key : BlindedKey) : Proc State CryptoError Unit :=
  if size = kOtcryptoRsaSize2048 then
    private_key_copy kOtcryptoRsa2048PrivateKeyblobBytes kRsa2048NumWords modulus d_share0
      d_share1 private_key
  else if size = kOtcryptoRsaSize3072 then
    private_key_copy kOtcryptoRsa3072PrivateKeyblobBytes kRsa3072NumWords modulus d_share0
      d_share1 private_key
  else if size = kOtcryptoRsaSize4096 then
    private_key_copy kOtcryptoRsa4096PrivateKeyblobBytes kRsa4096NumWords modulus d_share0
      d_share1 private_key
  else Proc.throw .OTCRYPTO_BAD_ARGS

def otcrypto_rsa_private_key_from_exponents (size : u32) (modulus d_share0 d_share1 : Word32Buf) :
    Proc State CryptoError Unit := do
  let s ← Proc.get
  match s.private_key with
  | none => Proc.throw .OTCRYPTO_BAD_ARGS
  | some private_key =>
      if modulus.data = none ∨ d_share0.data = none ∨ d_share1.data = none
          ∨ private_key.keyblob = none then Proc.throw .OTCRYPTO_BAD_ARGS
      else do
        entropy_complex_check
        Proc.ofExcept (rsa_mode_check private_key.config.key_mode)
        if d_share0.len ≠ modulus.len ∨ d_share1.len ≠ modulus.len then
          Proc.throw .OTCRYPTO_BAD_ARGS
        else do
          Proc.ofExcept (private_key_structural_check size private_key)
          shred_keyblob (ceil_div private_key.keyblob_length 4)
          private_key_case size modulus d_share0 d_share1 private_key
          set_private_checksum

/-! ## Keys computed by OTBN -/

section

variable (program : OtbnApp → Dmem → Numbers)

/-- Loading an application wipes the data memory. -/
def otbn_load_app (app : OtbnApp) : Proc State CryptoError Unit :=
  driver .OTCRYPTO_ASYNC_INCOMPLETE fun s => { s with app := some app, dmem := Dmem.wiped }

def otbn_dmem_write_mode (mode : OtbnMode) : Proc State CryptoError Unit :=
  driver .OTCRYPTO_BAD_ARGS fun s => { s with dmem := { s.dmem with mode := some mode } }

/-- `otbn_execute`. The data memory cannot be read before the program is done, so what
it computes is put there at once. -/
def otbn_execute : Proc State CryptoError Unit :=
  driver .OTCRYPTO_ASYNC_INCOMPLETE fun s =>
    match s.app with
    | none => s
    | some app =>
        let numbers := program app s.dmem
        { s with dmem := { s.dmem with
            rsa_n := numbers.n, rsa_d0 := numbers.d0, rsa_d1 := numbers.d1 } }

def otbn_busy_wait_for_done : Proc State CryptoError Unit := driver .OTCRYPTO_RECOV_ERR id

def otbn_dmem_sec_wipe : Proc State CryptoError Unit :=
  driver .OTCRYPTO_RECOV_ERR fun s => { s with dmem := Dmem.wiped }

def otbn_dmem_read_mode : Proc State CryptoError (Option OtbnMode) :=
  Proc.step .OTCRYPTO_BAD_ARGS fun s => (s.dmem.mode, s)

/-- `otbn_dmem_read` of a variable into the keyblob from word `off` on. -/
def otbn_dmem_read_key (num_words : u32) (var : Dmem → ℕ → u32) (off : ℕ) :
    Proc State CryptoError Unit :=
  driver .OTCRYPTO_BAD_ARGS fun s =>
    s.on_private fun k => k.write off (variable_words num_words (var s.dmem))

/-- `HARDENED_TRY_WIPE_DMEM`. The status of the wipe is ignored. -/
def try_wipe_dmem {α : Type} (p : Proc State CryptoError α) : Proc State CryptoError α := do
  match ← Proc.attempt p with
  | .ok a => pure a
  | .error e => do
      let _ ← Proc.attempt otbn_dmem_sec_wipe
      Proc.throw e

def keygen_start (mode : OtbnMode) : Proc State CryptoError Unit := do
  otbn_load_app .run_rsa
  otbn_dmem_write_mode mode
  otbn_execute program

def rsa_keygen_2048_start : Proc State CryptoError Unit := keygen_start program .kMode2048Keygen
def rsa_keygen_3072_start : Proc State CryptoError Unit := keygen_start program .kMode3072Keygen
def rsa_keygen_4096_start : Proc State CryptoError Unit := keygen_start program .kMode4096Keygen

/-- The numbers are read back into the keyblob. -/
def keygen_read (num_words : u32) : Proc State CryptoError Unit := do
  try_wipe_dmem (otbn_dmem_read_key num_words Dmem.rsa_n (2 * num_words.toNat))
  otbn_dmem_read_key num_words Dmem.rsa_d0 0
  otbn_dmem_read_key num_words Dmem.rsa_d1 num_words.toNat

/-- The end of a computation is waited for, and the mode word must be the one expected. -/
def keygen_wait (exp_mode : OtbnMode) : Proc State CryptoError Unit := do
  try_wipe_dmem otbn_busy_wait_for_done
  let act_mode ← try_wipe_dmem otbn_dmem_read_mode
  if act_mode ≠ some exp_mode then do
    otbn_dmem_sec_wipe
    Proc.throw .OTCRYPTO_FATAL_ERR
  else pure ()

def keygen_finalize (exp_mode : OtbnMode) (num_words : u32) : Proc State CryptoError Unit := do
  keygen_wait exp_mode
  keygen_read num_words
  otbn_dmem_sec_wipe

/-- The modulus goes from the keyblob to the public key. -/
def copy_modulus (num_words : u32) : Proc State CryptoError Unit :=
  Proc.modify fun s => s.on_public fun k =>
    k.write (slice ((s.private_key.map BlindedKey.words).getD []) (2 * num_words.toNat)
      num_words.toNat)

def keygen_finalize_copy (exp_mode : OtbnMode) (num_words : u32) : Proc State CryptoError Unit := do
  keygen_finalize exp_mode num_words
  copy_modulus num_words

def rsa_keygen_2048_finalize : Proc State CryptoError Unit :=
  keygen_finalize_copy .kMode2048Keygen kRsa2048NumWords

def rsa_keygen_3072_finalize : Proc State CryptoError Unit :=
  keygen_finalize_copy .kMode3072Keygen kRsa3072NumWords

def rsa_keygen_4096_finalize : Proc State CryptoError Unit :=
  keygen_finalize_copy .kMode4096Keygen kRsa4096NumWords

def keygen_start_case (size : u32) : Proc State CryptoError Unit :=
  if size = kOtcryptoRsaSize2048 then rsa_keygen_2048_start program
  else if size = kOtcryptoRsaSize3072 then rsa_keygen_3072_start program
  else if size = kOtcryptoRsaSize4096 then rsa_keygen_4096_start program
  else Proc.throw .OTCRYPTO_BAD_ARGS

def otcrypto_rsa_keygen_async_start (size : u32) : Proc State CryptoError Unit := do
  entropy_complex_check
  keygen_start_case program size

/-- The case of one size in `otcrypto_rsa_keygen_async_finalize`, with the size that it
records as used. All three record the size 2048. -/
def keygen_finalize_case (size : u32) : Proc State CryptoError u32 :=
  if size = kOtcryptoRsaSize2048 then do
    rsa_keygen_2048_finalize
    pure (0 ||| kOtcryptoRsaSize2048)
  else if size = kOtcryptoRsaSize3072 then do
    rsa_keygen_3072_finalize
    pure (0 ||| kOtcryptoRsaSize2048)
  else if size = kOtcryptoRsaSize4096 then do
    rsa_keygen_4096_finalize
    pure (0 ||| kOtcryptoRsaSize2048)
  else Proc.throw .OTCRYPTO_BAD_ARGS

/-- The two keys the caller hands over, unless a pointer is NULL. -/
def key_pair (s : State) : Option (UnblindedKey × BlindedKey) :=
  match s.public_key, s.private_key with
  | some public_key, some private_key =>
      if public_key.key = none ∨ private_key.keyblob = none then none
      else some (public_key, private_key)
  | _, _ => none

/-- The checks of the key buffers before keys are stored in them. -/
def key_pair_check (public_key : UnblindedKey) (private_key : BlindedKey) :
    Except CryptoError u32 := do
  let size ← rsa_size_from_public_key public_key
  public_key_structural_check public_key
  private_key_structural_check size private_key
  pure size

def otcrypto_rsa_keygen_async_finalize : Proc State CryptoError Unit := do
  let s ← Proc.get
  match key_pair s with
  | none => Proc.throw .OTCRYPTO_BAD_ARGS
  | some (public_key, private_key) => do
      entropy_complex_check
      let size ← Proc.ofExcept (key_pair_check public_key private_key)
      shred_keyblob (ceil_div private_key.keyblob_length 4)
      let size_used ← keygen_finalize_case size
      if size_used ≠ size then Proc.trap
      else do
        set_public_checksum
        set_private_checksum

def otcrypto_rsa_keygen (size : u32) : Proc State CryptoError Unit := do
  otcrypto_rsa_keygen_async_start program size
  otcrypto_rsa_keygen_async_finalize

/-! ## Keys from a cofactor -/

def otbn_dmem_write_modulus (num_words : u32) (src : List u32) : Proc State CryptoError Unit :=
  driver .OTCRYPTO_BAD_ARGS fun s =>
    { s with dmem := { s.dmem with rsa_n := write_variable num_words src s.dmem.rsa_n } }

/-- The cofactor is written from the buffer of the first share. -/
def otbn_dmem_write_cofactor (num_words : u32) : Proc State CryptoError Unit :=
  driver .OTCRYPTO_BAD_ARGS fun s =>
    let var := write_variable num_words s.cofactor_share0.words s.dmem.rsa_cofactor
    { s with dmem := { s.dmem with rsa_cofactor := var } }

def rsa_keygen_from_cofactor_2048_start (n : List u32) : Proc State CryptoError Unit := do
  otbn_load_app .run_rsa_key_from_cofactor
  otbn_dmem_write_modulus kRsa2048NumWords n
  otbn_dmem_write_cofactor (kRsa2048NumWords / 2)
  otbn_dmem_write_mode .kOtbnRsaModeCofactor2048
  otbn_execute program

def rsa_keygen_from_cofactor_2048_finalize : Proc State CryptoError Unit := do
  keygen_wait .kOtbnRsaModeCofactor2048
  keygen_read kRsa2048NumWords
  copy_modulus kRsa2048NumWords
  otbn_dmem_sec_wipe

/-- The buffer of the first share with the second added to it. -/
def combined_share (share0 share1 : Word32Buf) : Word32Buf :=
  share0.set (fun ws => hardened_xor_in_place ws share1.words)
    (fun _ => length_hardened_xor_in_place _ _)

/-- The second share is added to the first in the buffer of the caller. -/
def combine_shares : Proc State CryptoError Unit :=
  Proc.modify fun s =>
    { s with cofactor_share0 := combined_share s.cofactor_share0 s.cofactor_share1 }

def cofactor_start_case (size : u32) (s : State) : Proc State CryptoError Unit :=
  if size = kOtcryptoRsaSize2048 then
    if s.cofactor_share0.len ≠ kRsa2048NumWords / 2 ∨ s.modulus.len ≠ kRsa2048NumWords then
      Proc.throw .OTCRYPTO_BAD_ARGS
    else do
      combine_shares
      rsa_keygen_from_cofactor_2048_start program s.modulus.words
  else if size = kOtcryptoRsaSize3072 then Proc.throw .OTCRYPTO_NOT_IMPLEMENTED
  else if size = kOtcryptoRsaSize4096 then Proc.throw .OTCRYPTO_NOT_IMPLEMENTED
  else Proc.throw .OTCRYPTO_BAD_ARGS

def otcrypto_rsa_keypair_from_cofactor_async_start (size : u32) : Proc State CryptoError Unit := do
  let s ← Proc.get
  if s.modulus.data = none ∨ s.cofactor_share0.data = none ∨ s.cofactor_share1.data = none then
    Proc.throw .OTCRYPTO_BAD_ARGS
  else do
    entropy_complex_check
    if s.cofactor_share0.len ≠ s.modulus.len / 2 ∨ s.cofactor_share1.len ≠ s.modulus.len / 2 then
      Proc.throw .OTCRYPTO_BAD_ARGS
    else cofactor_start_case program size s

def cofactor_finalize_case (size : u32) : Proc State CryptoError Unit :=
  if size = kOtcryptoRsaSize2048 then rsa_keygen_from_cofactor_2048_finalize
  else if size = kOtcryptoRsaSize3072 then Proc.throw .OTCRYPTO_NOT_IMPLEMENTED
  else if size = kOtcryptoRsaSize4096 then Proc.throw .OTCRYPTO_NOT_IMPLEMENTED
  else Proc.throw .OTCRYPTO_BAD_ARGS

def otcrypto_rsa_keypair_from_cofactor_async_finalize : Proc State CryptoError Unit := do
  let s ← Proc.get
  match key_pair s with
  | none => Proc.throw .OTCRYPTO_BAD_ARGS
  | some (public_key, private_key) => do
      entropy_complex_check
      let size ← Proc.ofExcept (key_pair_check public_key private_key)
      shred_keyblob (ceil_div private_key.keyblob_length 4)
      cofactor_finalize_case size
      set_public_checksum
      set_private_checksum

/-- The modulus that the public key holds. -/
def stored_modulus (s : State) : List u32 :=
  ((s.public_key.map UnblindedKey.words).getD []).take kRsa2048NumWords.toNat

/-- The case of one size after the recomputation: the result of the comparison, or a
return. The case of 2048 bits compares and then returns as well. -/
def cofactor_compare_case (size : u32) (s : State) :
    Except CryptoError (u32 ⊕ Unit) :=
  if size = kOtcryptoRsaSize2048 then
    if (s.public_key.map UnblindedKey.key_length) ≠ some kOtcryptoRsa2048PublicKeyBytes
        ∨ s.modulus.len ≠ kRsa2048NumWords then .error .OTCRYPTO_RECOV_ERR
    else
      let _modulus_eq := hardened_memeq s.modulus.words (stored_modulus s)
      .ok (.inr ())
  else if size = kOtcryptoRsaSize3072 then .error .OTCRYPTO_NOT_IMPLEMENTED
  else if size = kOtcryptoRsaSize4096 then .error .OTCRYPTO_NOT_IMPLEMENTED
  else .error .OTCRYPTO_BAD_ARGS

/-- Start, finalize and the check of the entropy complex: all that comes before the two
moduli are compared. -/
def recompute_keypair (size : u32) : Proc State CryptoError Unit := do
  otcrypto_rsa_keypair_from_cofactor_async_start program size
  otcrypto_rsa_keypair_from_cofactor_async_finalize
  entropy_complex_check

/-- The end of `otcrypto_rsa_keypair_from_cofactor`. -/
def compare_moduli (size : u32) : Proc State CryptoError Unit := do
  let s ← Proc.get
  match ← Proc.ofExcept (cofactor_compare_case size s) with
  | .inr () => pure ()
  | .inl modulus_eq =>
      if modulus_eq ≠ kHardenedBoolTrue then Proc.throw .OTCRYPTO_BAD_ARGS else pure ()

def otcrypto_rsa_keypair_from_cofactor (size : u32) : Proc State CryptoError Unit := do
  recompute_keypair program size
  compare_moduli size

end

/-! ## Consumers -/

/-- `bignum_lt`, from the most significant word down. -/
def bignum_lt_step (acc : Bool × Bool) (p : u32 × u32) : Bool × Bool :=
  let is_lt := acc.1 || (!acc.2 && decide (p.1.toNat < p.2.toNat))
  let is_gt := acc.2 || (!is_lt && decide (p.2.toNat < p.1.toNat))
  (is_lt, is_gt)

def bignum_lt (a b : List u32) : u32 :=
  let acc := (a.zip b).reverse.foldl bignum_lt_step (false, false)
  if acc.1 && !acc.2 then kHardenedBoolTrue else kHardenedBoolFalse

/-- A program of OTBN is started for an operation. -/
def start_operation (op : Operation) : Proc State CryptoError Unit :=
  driver .OTCRYPTO_ASYNC_INCOMPLETE fun s => { s with started := some op }

/-- The size of a key, if it is a known one. -/
def known_size (size : u32) : Prop :=
  size = kOtcryptoRsaSize2048 ∨ size = kOtcryptoRsaSize3072 ∨ size = kOtcryptoRsaSize4096

instance (size : u32) : Decidable (known_size size) := instDecidableOr

def size_words (size : u32) : u32 :=
  if size = kOtcryptoRsaSize2048 then kRsa2048NumWords
  else if size = kOtcryptoRsaSize3072 then kRsa3072NumWords
  else kRsa4096NumWords

/-- The checks of the key in `otcrypto_rsa_sign_async_start`. -/
def rsa_sign_key_check (private_key : BlindedKey) (padding_mode : u32) :
    Except CryptoError u32 := do
  let size ← rsa_size_from_private_key private_key
  private_key_structural_check size private_key
  key_mode_padding_check private_key.config.key_mode padding_mode
  if integrity_blinded_key_check private_key ≠ kHardenedBoolTrue then .error .OTCRYPTO_BAD_ARGS
  else pure size

def otcrypto_rsa_sign_async_start (message_digest : Option (List u32)) (padding_mode : u32) :
    Proc State CryptoError Unit := do
  let s ← Proc.get
  match s.private_key with
  | none => Proc.throw .OTCRYPTO_BAD_ARGS
  | some private_key =>
      if message_digest = none ∨ private_key.keyblob = none then Proc.throw .OTCRYPTO_BAD_ARGS
      else do
        entropy_complex_check
        let size ← Proc.ofExcept (rsa_sign_key_check private_key padding_mode)
        if known_size size then start_operation (.sign size) else Proc.trap

/-- The checks of the key in `otcrypto_rsa_verify_async_start`. -/
def rsa_verify_key_check (public_key : UnblindedKey) : Except CryptoError u32 := do
  public_key_structural_check public_key
  if integrity_unblinded_key_check public_key ≠ kHardenedBoolTrue then .error .OTCRYPTO_BAD_ARGS
  else rsa_size_from_public_key public_key

/-- The number must have the length of the modulus and be below it. -/
def start_below_modulus (number : Word32Buf) (n : List u32) (size : u32) (op : Operation) :
    Proc State CryptoError Unit :=
  if number.len ≠ size_words size then Proc.throw .OTCRYPTO_BAD_ARGS
  else if bignum_lt number.words (n.take (size_words size).toNat) = kHardenedBoolFalse then
    Proc.throw .OTCRYPTO_BAD_ARGS
  else start_operation op

def otcrypto_rsa_verify_async_start (signature : Word32Buf) : Proc State CryptoError Unit := do
  let s ← Proc.get
  match s.public_key with
  | none => Proc.throw .OTCRYPTO_BAD_ARGS
  | some public_key =>
      if public_key.key = none ∨ signature.data = none then Proc.throw .OTCRYPTO_BAD_ARGS
      else do
        entropy_complex_check
        let size ← Proc.ofExcept (rsa_verify_key_check public_key)
        if known_size size then start_below_modulus signature public_key.words size (.verify size)
        else Proc.trap

/-- The checks of the key in `otcrypto_rsa_encrypt_async_start`. -/
def rsa_encrypt_key_check (public_key : UnblindedKey) : Except CryptoError u32 := do
  public_key_structural_check public_key
  if integrity_unblinded_key_check public_key ≠ kHardenedBoolTrue then .error .OTCRYPTO_BAD_ARGS
  else if public_key.key_mode ≠ kOtcryptoKeyModeRsaEncryptOaep then .error .OTCRYPTO_BAD_ARGS
  else rsa_size_from_public_key public_key

/-- The message and the label go to the padding, which is not part of this model. -/
def otcrypto_rsa_encrypt_async_start : Proc State CryptoError Unit := do
  let s ← Proc.get
  match s.public_key with
  | none => Proc.throw .OTCRYPTO_BAD_ARGS
  | some public_key =>
      if public_key.key = none then Proc.throw .OTCRYPTO_BAD_ARGS
      else do
        entropy_complex_check
        let size ← Proc.ofExcept (rsa_encrypt_key_check public_key)
        if public_key.key_length ≠ 4 * size_words size ∨ ¬ known_size size then Proc.trap
        else start_operation (.encrypt size)

/-- The checks of the key in `otcrypto_rsa_decrypt_async_start`. -/
def rsa_decrypt_key_check (private_key : BlindedKey) : Except CryptoError u32 := do
  let size ← rsa_size_from_private_key private_key
  private_key_structural_check size private_key
  if integrity_blinded_key_check private_key ≠ kHardenedBoolTrue then .error .OTCRYPTO_BAD_ARGS
  else if private_key.config.key_mode ≠ kOtcryptoKeyModeRsaEncryptOaep then
    .error .OTCRYPTO_BAD_ARGS
  else pure size

def otcrypto_rsa_decrypt_async_start (ciphertext : Word32Buf) : Proc State CryptoError Unit := do
  let s ← Proc.get
  match s.private_key with
  | none => Proc.throw .OTCRYPTO_BAD_ARGS
  | some private_key =>
      if private_key.keyblob = none ∨ ciphertext.data = none then Proc.throw .OTCRYPTO_BAD_ARGS
      else do
        entropy_complex_check
        let size ← Proc.ofExcept (rsa_decrypt_key_check private_key)
        if private_key.keyblob_length ≠ 12 * size_words size ∨ ¬ known_size size then Proc.trap
        else
          start_below_modulus ciphertext
            (private_key.words.drop (2 * (size_words size).toNat)) size (.decrypt size)

end IbexFirmware.Rsa
