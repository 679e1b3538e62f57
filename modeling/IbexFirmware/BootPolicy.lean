/-
The owner firmware image and its verification (`manifest.h`, `rom_ext_boot_policy.c`,
`rom_ext_verify` of `rom_ext.c`).

An image is the bytes from its manifest on, and a manifest field is the word at its
offset. `rom_ext_verify` reads the image, the keyring, the lifecycle and the boot data.
It is cut where it calls `owner_verify`: `rom_ext_verify_call` is what it calls it with,
or the error it returns instead.

The boot data enters in one comparison only. `rom_ext_verify_iff` says so: an image
passes if it passes with no minimum at all and its security version is not below the
minimum. That is what a new minimum can be judged by before it is stored.
-/
import IbexFirmware.OwnershipKey

set_option autoImplicit false

namespace IbexFirmware.BootPolicy

open Bytes OwnerBlock Ownership

/-! ## Constants -/

def CHIP_MANIFEST_SIZE : u32 := 1024
def CHIP_ROM_EXT_SIZE_MAX : u32 := 0x10000
def CHIP_BL0_IDENTIFIER : u32 := 0x3042544f
def CHIP_BL0_SIZE_MIN : u32 := CHIP_MANIFEST_SIZE
def CHIP_BL0_SIZE_MAX : u32 := 0x70000
def CHIP_ROM_EXT_RESIZABLE_SIZE_MAX : u32 := CHIP_ROM_EXT_SIZE_MAX + CHIP_BL0_SIZE_MAX

def kManifestVersionMajor2 : u16 := 0x0002
def kManifestExtIdSpxKey : u32 := 0x94ac01ec
def kManifestExtIdSpxSignature : u32 := 0xad77f84a

def MANIFEST_USAGE_CONSTRAINT_UNSELECTED_WORD_VAL : u32 := 0xA5A5A5A5

/-! ## The manifest -/

/-- `manifest_t` and what follows it, by address from the start of the manifest on. -/
structure Manifest where
  image : Mem

namespace Manifest

def wordAt (manifest : Manifest) (offset : ℕ) : u32 := readWord manifest.image offset

def wordsAt (manifest : Manifest) (offset n : ℕ) : List u32 :=
  (List.range n).map fun i => manifest.wordAt (offset + 4 * i)

def ecdsa_signature (manifest : Manifest) : List u32 := manifest.wordsAt 0 kEcdsaSigNumWords
def selector_bits (manifest : Manifest) : u32 := manifest.wordAt 384
def identifier (manifest : Manifest) : u32 := manifest.wordAt 820
def manifest_version_major (manifest : Manifest) : u16 := (manifest.wordAt 824 >>> 16).setWidth 16
def signed_region_end (manifest : Manifest) : u32 := manifest.wordAt 828
def length (manifest : Manifest) : u32 := manifest.wordAt 832
def security_version (manifest : Manifest) : u32 := manifest.wordAt 844
def code_start (manifest : Manifest) : u32 := manifest.wordAt 892
def code_end (manifest : Manifest) : u32 := manifest.wordAt 896
def entry_point (manifest : Manifest) : u32 := manifest.wordAt 900

/-- Entry `i` of the extension table. -/
def ext_identifier (manifest : Manifest) (i : ℕ) : u32 := manifest.wordAt (904 + 8 * i)
def ext_offset (manifest : Manifest) (i : ℕ) : u32 := manifest.wordAt (904 + 8 * i + 4)

end Manifest

/-- `manifest_digest_region_get`: where the region starts, and its length. -/
def manifest_digest_region_get (manifest : Manifest) : ℕ × u32 :=
  (432, manifest.signed_region_end - 432)

/-- The getter of the extension at `index` with the identifier `id`, whose structure is
`size` bytes long: the offset of the extension. -/
def manifest_ext_get (index : ℕ) (id size : u32) (manifest : Manifest) : Except RomError u32 :=
  let offset := manifest.ext_offset index
  if manifest.ext_identifier index = id ∧ CHIP_MANIFEST_SIZE ≤ offset ∧
      offset < CHIP_ROM_EXT_RESIZABLE_SIZE_MAX - size ∧ manifest.wordAt offset.toNat = id then
    .ok offset
  else .error .kErrorManifestBadExtension

def manifest_ext_get_spx_key : Manifest → Except RomError u32 :=
  manifest_ext_get 0 kManifestExtIdSpxKey 40

def manifest_ext_get_spx_signature : Manifest → Except RomError u32 :=
  manifest_ext_get 1 kManifestExtIdSpxSignature 7864

/-! ## The boot policy -/

def manifest_check_rom_ext (manifest : Manifest) : RomError :=
  if manifest.manifest_version_major ≠ kManifestVersionMajor2 then .kErrorManifestBadVersionMajor
  else if manifest.signed_region_end > manifest.length then .kErrorManifestBadSignedRegion
  else if manifest.code_start ≥ manifest.code_end ∨ manifest.code_start < CHIP_MANIFEST_SIZE ∨
      manifest.code_end > manifest.signed_region_end ∨ manifest.code_start &&& 3 ≠ 0 ∨
      manifest.code_end &&& 3 ≠ 0 then .kErrorManifestBadCodeRegion
  else if manifest.entry_point < manifest.code_start ∨ manifest.entry_point ≥ manifest.code_end ∨
      manifest.entry_point &&& 3 ≠ 0 then .kErrorManifestBadEntryPoint
  else .kErrorOk

def rom_ext_boot_policy_manifest_check (manifest : Manifest) (boot_data : BootData) : RomError :=
  if manifest.identifier ≠ CHIP_BL0_IDENTIFIER then .kErrorBootPolicyBadIdentifier
  else if manifest.length < CHIP_BL0_SIZE_MIN ∨ manifest.length > CHIP_BL0_SIZE_MAX then
    .kErrorBootPolicyBadLength
  else if manifest.security_version < boot_data.min_security_version_bl0 then
    .kErrorBootPolicyRollback
  else manifest_check_rom_ext manifest

/-! ## Verification -/

/-- What `rom_ext_verify` hands to `owner_verify`. The pointer to the SPHINCS+ signature
is not set if there is none. -/
structure OwnerVerifyCall where
  key_alg : u32
  key : Item
  ecdsa_sig : List u32
  spx_sig : Option (List u32)
  msg_prefix_1 : List u8
  msg : List u8
  digest : Vector u32 8

/-- What verification goes by, next to the image and the boot data. -/
structure Verifier where
  dev : Device
  manuf_state_creator : u32
  manuf_state_owner : u32
  life_cycle_state : u32
  keyring : List Item
  owner_verify : OwnerVerifyCall → RomError

variable (verifier : Verifier)

/-- A constraint word, if its selector bit is set. -/
def constraint_word (selector_bits : u32) (bit : ℕ) (w : u32) : u32 :=
  if selector_bits.getLsbD bit then w else MANIFEST_USAGE_CONSTRAINT_UNSELECTED_WORD_VAL

/-- The bytes of `manifest_usage_constraints_t` as the hardware fills them in. -/
def sigverify_usage_constraints_get (selector_bits : u32) : List u8 :=
  le32 selector_bits
    ++ (List.finRange 8).flatMap
      (fun i : Fin 8 => le32 (constraint_word selector_bits i (verifier.dev.device_id.get i)))
    ++ le32 (constraint_word selector_bits 8 verifier.manuf_state_creator)
    ++ le32 (constraint_word selector_bits 9 verifier.manuf_state_owner)
    ++ le32 (constraint_word selector_bits 10 verifier.life_cycle_state)

/-- The identifier of a key in the keyring. That of a hybrid key is made of both keys'. -/
def keyring_key_id (key : Item) : u32 :=
  if key.u32At 8 &&& kOwnershipKeyAlgCategoryMask = kOwnershipKeyAlgCategoryHybrid then
    key.u32At 48 ^^^ key.u32At (48 + 64)
  else key.u32At 48

def owner_keyring_find_key (keyring : List Item) (key_id : u32) : Except RomError Item :=
  match (keyring.take kKeyringSize).find? fun key => keyring_key_id key = key_id with
  | some key => .ok key
  | none => .error .kErrorOwnershipKeyNotFound

/-- The code of an extension getter. -/
def ext_code (r : Except RomError u32) : u32 :=
  match r with
  | .ok _ => RomError.code .kErrorOk
  | .error e => e.code

/-- The identifier of the key that the image names. -/
def manifest_key_id (manifest : Manifest) : Except RomError u32 :=
  let key_id := manifest.wordAt 432
  let ext_spx_key := manifest_ext_get_spx_key manifest
  -- the sum of two codes, which is twice a code if both are the same
  let spx_err := ext_code ext_spx_key + ext_code (manifest_ext_get_spx_signature manifest)
  if spx_err = RomError.code .kErrorOk * 2 then
    .ok (key_id ^^^ (ext_spx_key.toOption.elim 0 fun offset => manifest.wordAt (offset.toNat + 8)))
  else if spx_err = RomError.code .kErrorManifestBadExtension * 2 then .ok key_id
  else .error .kErrorManifestBadExtension

/-- The call for an image whose key has been found. -/
def owner_verify_call (manifest : Manifest) (key : Item) : OwnerVerifyCall :=
  let usage_constraints :=
    sigverify_usage_constraints_get verifier (manifest.selector_bits ||| key.u32At 44)
  let region := manifest_digest_region_get manifest
  let msg := readBytes manifest.image region.1 region.2.toNat
  { key_alg := key.u32At 8
    key := key
    ecdsa_sig := manifest.ecdsa_signature
    spx_sig := (manifest_ext_get_spx_signature manifest).toOption.map fun offset =>
      manifest.wordsAt (offset.toNat + 8) kSigverifySpxSigNumWords
    msg_prefix_1 := usage_constraints
    msg := msg
    digest := verifier.dev.hmac_sha256 (usage_constraints ++ msg) }

/-- `rom_ext_verify` behind the policy check, up to the call. -/
def rom_ext_verify_call (manifest : Manifest) : Except RomError OwnerVerifyCall := do
  let key_id ← manifest_key_id manifest
  let key ← owner_keyring_find_key verifier.keyring key_id
  return owner_verify_call verifier manifest key

/-- Without `flash_exec`, which it only passes on. -/
def rom_ext_verify (manifest : Manifest) (boot_data : BootData) : RomError :=
  let error := rom_ext_boot_policy_manifest_check manifest boot_data
  if error ≠ .kErrorOk then error
  else match rom_ext_verify_call verifier manifest with
    | .ok call => verifier.owner_verify call
    | .error e => e

/-! ## What the boot data decides -/

/-- The boot data without a minimum. -/
def no_minimum (boot_data : BootData) : BootData := { boot_data with min_security_version_bl0 := 0 }

theorem manifest_check_iff (manifest : Manifest) (boot_data : BootData) :
    rom_ext_boot_policy_manifest_check manifest boot_data = .kErrorOk ↔
      boot_data.min_security_version_bl0 ≤ manifest.security_version ∧
        rom_ext_boot_policy_manifest_check manifest (no_minimum boot_data) = .kErrorOk := by
  unfold rom_ext_boot_policy_manifest_check
  by_cases hidentifier : manifest.identifier ≠ CHIP_BL0_IDENTIFIER
  · rw [if_pos hidentifier, if_pos hidentifier]
    exact iff_of_false nofun fun h => nomatch h.2
  rw [if_neg hidentifier, if_neg hidentifier]
  by_cases hlength : manifest.length < CHIP_BL0_SIZE_MIN ∨ manifest.length > CHIP_BL0_SIZE_MAX
  · rw [if_pos hlength, if_pos hlength]
    exact iff_of_false nofun fun h => nomatch h.2
  rw [if_neg hlength, if_neg hlength]
  have hzero : ¬ manifest.security_version < (no_minimum boot_data).min_security_version_bl0 :=
    BitVec.not_lt_zero
  rw [if_neg hzero]
  by_cases hversion : manifest.security_version < boot_data.min_security_version_bl0
  · rw [if_pos hversion]
    exact iff_of_false nofun fun h => BitVec.not_lt.mpr h.1 hversion
  · rw [if_neg hversion]
    exact (and_iff_right (BitVec.not_lt.mp hversion)).symm

theorem rom_ext_verify_iff (manifest : Manifest) (boot_data : BootData) :
    rom_ext_verify verifier manifest boot_data = .kErrorOk ↔
      boot_data.min_security_version_bl0 ≤ manifest.security_version ∧
        rom_ext_verify verifier manifest (no_minimum boot_data) = .kErrorOk := by
  have hverify : ∀ b, rom_ext_verify verifier manifest b = .kErrorOk ↔
      rom_ext_boot_policy_manifest_check manifest b = .kErrorOk ∧
        (match rom_ext_verify_call verifier manifest with
          | .ok call => verifier.owner_verify call
          | .error e => e) = .kErrorOk := by
    intro b
    unfold rom_ext_verify
    by_cases hcheck : rom_ext_boot_policy_manifest_check manifest b = .kErrorOk
    · rw [if_neg (not_not.mpr hcheck), and_iff_right hcheck]
    · rw [if_pos hcheck]
      exact iff_of_false hcheck fun h => hcheck h.1
  rw [hverify, hverify, manifest_check_iff, and_assoc]

/-- The other fields of the boot data play no part. -/
theorem rom_ext_verify_raise {manifest : Manifest} {b b' : BootData}
    (hok : rom_ext_verify verifier manifest b = .kErrorOk)
    (hle : b'.min_security_version_bl0 ≤ manifest.security_version) :
    rom_ext_verify verifier manifest b' = .kErrorOk := by
  rw [rom_ext_verify_iff] at hok ⊢
  exact ⟨hle, hok.2⟩

end IbexFirmware.BootPolicy
