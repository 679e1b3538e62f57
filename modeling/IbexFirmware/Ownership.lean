/-
Setting up ownership at boot (`ownership.c`) and activating an owner page
(`ownership_activate`).

The state is what these functions share: the RAM copies of the two owner pages with
their status, the boot data, and what outlives a power loss, namely the info pages and
the stored boot data. The programs run on it with `PowerFail.Proc`, whose operations
are the erases and writes of info pages and the boot data write. A boot data write is
one operation here. That it behaves as one, although it is many flash words, is
`BootDataStore.boot_data_crash_atomic`.

Nothing in front of the two repairs of `locked_owner_init` touches the flash, and
nothing behind them changes memory at all (`apply_keeps`). The page arguments of the
modules above therefore run over `locked_owner_update` and `locked_owner_repair` only.
-/
import IbexFirmware.Lib.PowerFail
import IbexFirmware.OwnershipKey

set_option autoImplicit false

namespace IbexFirmware.Ownership

open Bytes OwnerBlock PowerFail

/-! ## State -/

/-- `owner_page_status_t`. -/
inductive OwnerPageStatus where
  | kOwnerPageStatusSealed
  | kOwnerPageStatusSigned
  | kOwnerPageStatusInvalid
  deriving DecidableEq

open OwnerPageStatus

/-- A flash info page that holds a value, or nothing, or what its check bits reject. -/
inductive InfoPage (α : Type) where
  | unreadable
  | erased
  | programmed (a : α)
  deriving DecidableEq

namespace InfoPage

variable {α : Type}

/-- `flash_ctrl_info_read`, where erased words read as `blank`. -/
def read (blank : α) : InfoPage α → Option α
  | unreadable => none
  | erased => some blank
  | programmed a => some a

/-- Programming words that are not erased leaves wrong check bits. -/
def write (a : α) : InfoPage α → InfoPage α
  | erased => programmed a
  | _ => unreadable

end InfoPage

/-- `owner_secret_page_t`. -/
structure OwnerSecretPage where
  owner_secret : Vector u32 8
  owner_history : Vector u32 8
  deriving DecidableEq

/-- What the ownership code reads and writes. `slot` and `secret` are the info pages
`OwnerSlot0`, `OwnerSlot1` and `OwnerSecret`, `stored` is the boot data in flash, and
`drawn` counts the values taken from the random number generator. -/
structure RomExt where
  owner_page : Fin 2 → OwnerBlock
  owner_page_valid : Fin 2 → OwnerPageStatus
  bootdata : BootData
  slot : Fin 2 → InfoPage OwnerBlock
  secret : InfoPage OwnerSecretPage
  stored : BootDataPayload
  drawn : ℕ

abbrev Rom (α : Type) : Type := Proc RomExt RomError α

/-! ## Operations -/

def flash_ctrl_info_erase (page : Fin 2) : Rom Unit :=
  .step .kErrorFlashCtrlInfoErase fun s =>
    ((), { s with slot := Function.update s.slot page .erased })

/-- Write the RAM copy `source` to the info page `page`. -/
def flash_ctrl_info_write (page source : Fin 2) : Rom Unit :=
  .step .kErrorFlashCtrlInfoWrite fun s =>
    ((), { s with slot := Function.update s.slot page ((s.slot page).write (s.owner_page source)) })

def boot_data_write : Rom Unit :=
  .step .kErrorBootDataWriteCheck fun s => ((), { s with stored := s.bootdata.payload })

/-- `HARDENED_RETURN_IF_ERROR` on a code. -/
def return_if_error (error : RomError) : Rom Unit :=
  if error = .kErrorOk then pure () else .throw error

variable (dev : Device)

/-- The nonce made of the random values from the `n`th on. -/
def nonce_at (n : ℕ) : Nonce := ⟨#v[dev.rnd n, dev.rnd (n + 1)]⟩

def nonce_new : Rom Unit :=
  .modify fun s =>
    { s with bootdata := { s.bootdata with nonce := nonce_at dev s.drawn }, drawn := s.drawn + 2 }

/-! ## Loading the pages -/

/-- The device-specific words of a page as the device fills them in. -/
def fill_device_id (page : OwnerBlock) : OwnerBlock :=
  { page with
    device_id := Vector.ofFn fun i =>
      if page.lock_constraint.getLsbD i then dev.device_id.get i else kLockConstraintNone }

/-- The RAM copy and the status that `owner_page_validity_check` makes of a page. -/
def owner_page_validity_check (nonce : Nonce) (page : OwnerBlock) : OwnerBlock × OwnerPageStatus :=
  let page := fill_device_id dev page
  if ownership_seal_check dev page then (page, kOwnerPageStatusSealed)
  else if ownership_key_validate dev page kOwnershipKeyOwner kTlvTagOwner nonce page.signature
      page.signed_bytes ≠ .kErrorOk then
    (OwnerBlock.filled 0x5a, kOwnerPageStatusInvalid)
  else (page, kOwnerPageStatusSigned)

/-- An erased owner page. -/
def blank_page : OwnerBlock := OwnerBlock.filled 0xff

def load_page (nonce : Nonce) (slot : InfoPage OwnerBlock) : OwnerBlock × OwnerPageStatus :=
  match slot.read blank_page with
  | some page => owner_page_validity_check dev nonce page
  | none => (OwnerBlock.filled 0xff, kOwnerPageStatusInvalid)

/-- The two page reads at the start of `ownership_init`. -/
def load_pages (s : RomExt) : RomExt :=
  { s with
    owner_page := fun i => (load_page dev s.bootdata.nonce (s.slot i)).1
    owner_page_valid := fun i => (load_page dev s.bootdata.nonce (s.slot i)).2 }

/-! ## Conditions on the loaded pages -/

def owner_block_newversion_mode (s : RomExt) : Bool :=
  s.owner_page_valid 0 = kOwnerPageStatusSealed &&
    (s.owner_page 0).update_mode ∈ [kOwnershipUpdateModeNewVersion, kOwnershipUpdateModeSelfVersion]

def owner_block_page1_valid_for_transfer (s : RomExt) : Bool :=
  if s.bootdata.ownership_state = kOwnershipStateLockedOwner ∧
      s.owner_page_valid 1 = kOwnerPageStatusSealed then true
  else if s.owner_page_valid 1 = kOwnerPageStatusSigned then
    if s.bootdata.ownership_state = kOwnershipStateUnlockedAny then true
    else if s.bootdata.ownership_state = kOwnershipStateUnlockedSelf then
      (s.owner_page 0).owner_key = (s.owner_page 1).owner_key
    else if s.bootdata.ownership_state = kOwnershipStateUnlockedEndorsed then
      s.bootdata.next_owner = dev.hmac_sha256 (s.owner_page 1).owner_key.bytes
    else false
  else false

/-! ## Activating page 1 -/

/-- The test parse of a page, which fills no configuration. -/
def test_parse (page : OwnerBlock) : Except RomError Parsed :=
  owner_block_parse dev.pages_per_bank page true ⟨owner_config_default, []⟩

/-- Seal the RAM copy of page 1 and take over its security version. -/
def seal_page1 (s : RomExt) : RomExt :=
  let page := ownership_seal_page dev (s.owner_page 1)
  { s with
    owner_page := Function.update s.owner_page 1 page
    bootdata :=
      if page.min_security_version_bl0 ≠ 0xffffffff then
        { s.bootdata with min_security_version_bl0 := page.min_security_version_bl0 }
      else s.bootdata }

/-- Replace what an info page holds by the RAM copy of page 1. -/
def program_page1 (page : Fin 2) : Rom Unit := do
  flash_ctrl_info_erase page
  flash_ctrl_info_write page 1

def ownership_activate (write_both_pages : Bool) : Rom Unit := do
  let s ← .get
  let _ ← .ofExcept (test_parse dev (s.owner_page 1))
  .modify (seal_page1 dev)
  program_page1 1
  if write_both_pages then program_page1 0 else pure ()

/-! ## The locked state -/

/-- Page 1 is a signed newer version of the sealed page 0. -/
def newversion_pending (s : RomExt) : Bool :=
  s.owner_page_valid 0 = kOwnerPageStatusSealed && s.owner_page_valid 1 = kOwnerPageStatusSigned &&
    owner_block_newversion_mode s &&
    (s.owner_page 1).config_version > (s.owner_page 0).config_version &&
    (s.owner_page 0).owner_key = (s.owner_page 1).owner_key

/-- The first part of `locked_owner_init`. -/
def locked_owner_update : Rom Unit := do
  let s ← .get
  if newversion_pending s then
    match ← .attempt (ownership_activate dev false) with
    | .ok _ => .modify fun s =>
        { s with owner_page_valid := fun i =>
            if i = 0 then kOwnerPageStatusInvalid else kOwnerPageStatusSealed }
    | .error _ => pure ()
  else pure ()

/-- Copy the RAM page `good` and its status over the other page, in RAM and in flash. -/
def copy_page (good bad : Fin 2) : Rom Unit := do
  .modify fun s => { s with owner_page := Function.update s.owner_page bad (s.owner_page good) }
  flash_ctrl_info_erase bad
  flash_ctrl_info_write bad bad
  .modify fun s =>
    { s with owner_page_valid := Function.update s.owner_page_valid bad (s.owner_page_valid good) }

/-- Give up on the owner pages. -/
def enter_recovery {α : Type} : Rom α := do
  .modify fun s =>
    { s with bootdata := { s.bootdata with ownership_state := kOwnershipStateRecovery } }
  nonce_new dev
  boot_data_write
  .throw .kErrorOwnershipBadInfoPage

/-- The second part of `locked_owner_init`. -/
def locked_owner_repair : Rom Unit := do
  let s ← .get
  if s.owner_page_valid 0 = kOwnerPageStatusSealed ∧
      s.owner_page_valid 1 = kOwnerPageStatusSealed then
    pure ()
  else if s.owner_page_valid 1 = kOwnerPageStatusSealed then copy_page 1 0
  else if s.owner_page_valid 0 = kOwnerPageStatusSealed then copy_page 0 1
  else enter_recovery dev

/-! ## Applying a configuration -/

/-- Without the writes to the region registers. -/
def owner_block_flash_apply (flash : Option Item) : Except RomError Unit :=
  match flash with
  | none => .ok ()
  | some flash =>
      if (flash.length - 8) / 12 > kProtectSlots - kRomExtRegions then
        .error .kErrorOwnershipFlashConfigLength
      else .ok ()

/-- Whether `flash_ctrl_info_type0_params_build` gets through: it traps on a bank that
the flash does not have. -/
def flash_ctrl_info_type0_params_build (bank : u8) : Bool :=
  bank.toNat < dev.num_banks && (bank = 0 || bank = 1)

/-- Without the writes to the page registers. -/
def owner_block_info_apply (info : Option Item) : Rom Unit :=
  if info.all fun info => (List.range ((info.length - 8) / 12)).all fun i =>
      is_owner_page (info.u8At (8 + 12 * i + 1)) →
        flash_ctrl_info_type0_params_build dev (info.u8At (8 + 12 * i))
  then pure () else .trap

/-- The real parse of a RAM page into what has been parsed so far. -/
def parse_page (page : Fin 2) (parsed : Parsed) : Rom Parsed := do
  let s ← .get
  .ofExcept (owner_block_parse dev.pages_per_bank (s.owner_page page) false parsed)

/-- The third part of `locked_owner_init`. The two calls of `owner_block_flash_apply`,
for the two slots, differ in the registers they write only. -/
def locked_owner_apply (parsed : Parsed) : Rom Parsed := do
  let parsed ← parse_page dev 0 parsed
  .ofExcept (owner_block_flash_apply parsed.config.flash)
  .ofExcept (owner_block_flash_apply parsed.config.flash)
  owner_block_info_apply dev parsed.config.info
  return parsed

/-- What `locked_owner_init` does before it parses. -/
def locked_owner_pages : Rom Unit := do
  locked_owner_update dev
  locked_owner_repair dev

def locked_owner_init (parsed : Parsed) : Rom Parsed := do
  locked_owner_pages dev
  locked_owner_apply dev parsed

/-! ## The unlocked states -/

/-- Configure the primary half of the flash from page 0. -/
def unlocked_primary (parsed : Parsed) : Rom Parsed := do
  let s ← .get
  if s.owner_page_valid 0 = kOwnerPageStatusSealed then do
    let parsed ← parse_page dev 0 parsed
    .ofExcept (owner_block_flash_apply parsed.config.flash)
    return parsed
  else return parsed

/-- Take over the configuration of page 1, if it may be used and passes the test parse. -/
def unlocked_page1 (parsed : Parsed) : Rom Parsed := do
  let s ← .get
  if owner_block_page1_valid_for_transfer dev s ∧ (test_parse dev (s.owner_page 1)).isOk then
    parse_page dev 1 parsed
  else return parsed

/-- Configure the secondary half from page 1. -/
def unlocked_secondary (parsed : Parsed) : Rom Parsed := do
  let parsed ← unlocked_page1 dev parsed
  .ofExcept (owner_block_flash_apply parsed.config.flash)
  owner_block_info_apply dev parsed.config.info
  return parsed

def unlocked_init (parsed : Parsed) : Rom Parsed := do
  let s ← .get
  if s.bootdata.ownership_state = kOwnershipStateUnlockedSelf ∧
      s.owner_page_valid 0 ≠ kOwnerPageStatusSealed then
    enter_recovery dev
  else do
    let parsed ← unlocked_primary dev parsed
    unlocked_secondary dev parsed

/-! ## The entry point -/

/-- The states in which `ownership_init` calls `unlocked_init`. -/
def kUnlockedStates : List u32 :=
  [kOwnershipStateUnlockedSelf, kOwnershipStateUnlockedAny, kOwnershipStateUnlockedEndorsed]

/-- `ownership_init` with an empty keyring. -/
def ownership_init : Rom Parsed := do
  .modify (load_pages dev)
  let s ← .get
  if s.bootdata.ownership_state = kOwnershipStateLockedOwner then
    locked_owner_init dev ⟨owner_config_default, []⟩
  else if s.bootdata.ownership_state ∈ kUnlockedStates then
    unlocked_init dev ⟨owner_config_default, []⟩
  else .throw .kErrorOwnershipNoOwner

end IbexFirmware.Ownership
