/-
The ownership requests of boot services (`ownership_unlock.c`, `ownership_activate.c`,
`ownership_secret_new`).

A handler returns a code in any case: what it does ends early with one, or comes to
its end with `kErrorWriteBootdataThenReboot`, and the response carries it. The handlers
change the boot data in RAM only. Writing it is what their caller does for that code.

Long functions of the source are cut where a check or a state change ends, so that the
checks come back as one lemma each and are not taken apart in every handler again.
-/
import IbexFirmware.OwnershipPages

set_option autoImplicit false

namespace IbexFirmware.Ownership

open Bytes OwnerBlock PowerFail OwnerPageStatus

/-! ## Messages -/

def kBootSvcUnlockAny : u32 := 0x00594e41
def kBootSvcUnlockEndorsed : u32 := 0x4f444e45
def kBootSvcUnlockUpdate : u32 := 0x00445055
def kBootSvcUnlockAbort : u32 := 0x54524241

/-- `boot_svc_ownership_unlock_req_t`, of whose header the type is used. -/
structure OwnershipUnlockReq where
  type : u32
  unlock_mode : u32
  din : Vector u32 2
  reserved : Vector u32 8
  nonce : Nonce
  next_owner_key : OwnerKeydata
  signature : OwnerSignature
  deriving DecidableEq

/-- `boot_svc_ownership_activate_req_t`, of whose header the type is used. -/
structure OwnershipActivateReq where
  type : u32
  primary_bl0_slot : u32
  din : Vector u32 2
  erase_previous : u32
  reserved : Vector u32 31
  nonce : Nonce
  signature : OwnerSignature
  deriving DecidableEq

def words_bytes {n : ℕ} (words : Vector u32 n) : List u8 := words.toList.flatMap le32

/-- The signed bytes, from `unlock_mode` to `next_owner_key`. -/
def OwnershipUnlockReq.message (msg : OwnershipUnlockReq) : List u8 :=
  le32 msg.unlock_mode ++ words_bytes msg.din ++ words_bytes msg.reserved
    ++ words_bytes msg.nonce.value ++ msg.next_owner_key.bytes

/-- The signed bytes, from `primary_bl0_slot` to `nonce`. -/
def OwnershipActivateReq.message (msg : OwnershipActivateReq) : List u8 :=
  le32 msg.primary_bl0_slot ++ words_bytes msg.din ++ le32 msg.erase_previous
    ++ words_bytes msg.reserved ++ words_bytes msg.nonce.value

/-- The two requests that concern ownership. -/
inductive Request where
  | unlock (msg : OwnershipUnlockReq)
  | activate (msg : OwnershipActivateReq)
  deriving DecidableEq

variable (dev : Device)

/-! ## Unlocking -/

def is_locked_none (ownership_state : u32) : Bool :=
  ownership_state ∉ kOwnershipStateLockedOwner :: kUnlockedStates

/-- The state change of `do_unlock`. -/
def set_unlock_state (msg : OwnershipUnlockReq) : Rom Unit :=
  if msg.unlock_mode = kBootSvcUnlockEndorsed then
    .modify fun s => { s with bootdata := { s.bootdata with
      next_owner := dev.hmac_sha256 msg.next_owner_key.bytes
      ownership_state := kOwnershipStateUnlockedEndorsed } }
  else if msg.unlock_mode = kBootSvcUnlockAny then
    .modify fun s => { s with bootdata := { s.bootdata with
      ownership_state := kOwnershipStateUnlockedAny } }
  else if msg.unlock_mode = kBootSvcUnlockUpdate then
    .modify fun s => { s with bootdata := { s.bootdata with
      ownership_state := kOwnershipStateUnlockedSelf } }
  else .throw .kErrorOwnershipInvalidMode

/-- The checks of the nonce and of the device identification number. -/
def check_nonce_din (nonce : Nonce) (din : Vector u32 2) : Rom Unit := do
  let s ← .get
  if nonce_equal nonce s.bootdata.nonce = false then .throw .kErrorOwnershipInvalidNonce
  else if lifecycle_din_eq dev din = false then .throw .kErrorOwnershipInvalidDin
  else pure ()

def do_unlock (msg : OwnershipUnlockReq) : Rom RomError := do
  check_nonce_din dev msg.nonce msg.din
  set_unlock_state dev msg
  nonce_new dev
  return .kErrorWriteBootdataThenReboot

/-- Check the signature of an unlock request against keys of page 0. -/
def unlock_key_validate (key : u32) (msg : OwnershipUnlockReq) : Rom Unit := do
  let s ← .get
  return_if_error (ownership_key_validate dev (s.owner_page 0) key msg.type s.bootdata.nonce
    msg.signature msg.message)

def unlock (msg : OwnershipUnlockReq) : Rom RomError := do
  let s ← .get
  if s.bootdata.ownership_state = kOwnershipStateLockedOwner then
    if (s.owner_page 0).update_mode = kOwnershipUpdateModeOpen then do
      unlock_key_validate dev (kOwnershipKeyUnlock ||| kOwnershipKeyRecovery) msg
      do_unlock dev msg
    else if (s.owner_page 0).update_mode = kOwnershipUpdateModeNewVersion then
      .throw .kErrorOwnershipUnlockDenied
    else .throw .kErrorOwnershipInvalidMode
  else if is_locked_none s.bootdata.ownership_state then do
    unlock_key_validate dev kOwnershipKeyRecovery msg
    do_unlock dev msg
  else .throw .kErrorOwnershipInvalidState

def unlock_update (msg : OwnershipUnlockReq) : Rom RomError := do
  let s ← .get
  if s.bootdata.ownership_state = kOwnershipStateLockedOwner then
    if (s.owner_page 0).update_mode = kOwnershipUpdateModeNewVersion then
      .throw .kErrorOwnershipUnlockDenied
    else do
      unlock_key_validate dev kOwnershipKeyUnlock msg
      do_unlock dev msg
  else .throw .kErrorOwnershipInvalidState

/-- The state change that ends an unlocked state. -/
def lock_owner (s : RomExt) : RomExt :=
  { s with bootdata := { s.bootdata with ownership_state := kOwnershipStateLockedOwner } }

def unlock_abort (msg : OwnershipUnlockReq) : Rom RomError := do
  let s ← .get
  if s.bootdata.ownership_state ∈ kUnlockedStates then do
    unlock_key_validate dev kOwnershipKeyUnlock msg
    check_nonce_din dev msg.nonce msg.din
    .modify lock_owner
    nonce_new dev
    return .kErrorWriteBootdataThenReboot
  else .throw .kErrorOwnershipInvalidState

/-- The code of a handler, however it came about. -/
def error_of (r : Except RomError RomError) : RomError :=
  match r with
  | .ok e => e
  | .error e => e

/-- The switch of `ownership_unlock_handler`. -/
def unlock_switch (msg : OwnershipUnlockReq) : Rom RomError :=
  if msg.unlock_mode = kBootSvcUnlockAny then unlock dev msg
  else if msg.unlock_mode = kBootSvcUnlockEndorsed then unlock dev msg
  else if msg.unlock_mode = kBootSvcUnlockUpdate then unlock_update dev msg
  else if msg.unlock_mode = kBootSvcUnlockAbort then unlock_abort dev msg
  else .throw .kErrorOwnershipInvalidRequest

/-- Without the response message. -/
def ownership_unlock_handler (msg : OwnershipUnlockReq) : Rom RomError := do
  let r ← .attempt (unlock_switch dev msg)
  return error_of r

/-! ## The owner secret -/

/-- The bytes of a digest in reverse order. -/
def reverse (digest : Vector u32 8) : Vector u32 8 :=
  digest.reverse.map fun w => word (byteOf w 3) (byteOf w 2) (byteOf w 1) (byteOf w 0)

/-- How many bytes of the prior owner's key are hashed. -/
def owner_key_size (key_alg : u32) : ℕ :=
  let category := key_alg &&& kOwnershipKeyAlgCategoryMask
  if category = kOwnershipKeyAlgCategoryEcdsa then 64
  else if category = kOwnershipKeyAlgCategorySpx then 32
  else 96

/-- The secret page of the next owner. -/
def next_secret (prior_key_alg : u32) (prior_owner_key : OwnerKeydata)
    (secret : OwnerSecretPage) : OwnerSecretPage :=
  let key := prior_owner_key.bytes.take (owner_key_size prior_key_alg)
  { owner_history := reverse (dev.hmac_sha256 (words_bytes secret.owner_history ++ key))
    owner_secret := dev.hmac_sha256 (words_bytes secret.owner_secret ++ key) }

/-- An erased secret page. -/
def blank_secret : OwnerSecretPage :=
  ⟨Vector.replicate 8 0xffffffff, Vector.replicate 8 0xffffffff⟩

def secret_erase : Rom Unit :=
  .step .kErrorFlashCtrlInfoErase fun s => ((), { s with secret := .erased })

def secret_write (secret : OwnerSecretPage) : Rom Unit :=
  .step .kErrorFlashCtrlInfoWrite fun s => ((), { s with secret := s.secret.write secret })

/-- Read the secret page. Only an FPGA gets over a page that cannot be read. -/
def secret_read : Rom OwnerSecretPage := do
  let s ← .get
  match s.secret.read blank_secret with
  | some secret => return secret
  | none =>
      if dev.is_silicon then .throw .kErrorFlashCtrlInfoRead
      else do
        secret_erase
        return blank_secret

def ownership_secret_new (prior_key_alg : u32) (prior_owner_key : OwnerKeydata) : Rom Unit := do
  let secret ← secret_read dev
  secret_erase
  secret_write (next_secret dev prior_key_alg prior_owner_key secret)

/-! ## Activating -/

/-- Check the signature of an activate request against keys of page 1. -/
def activate_key_validate (msg : OwnershipActivateReq) : Rom Unit := do
  let s ← .get
  return_if_error (ownership_key_validate dev (s.owner_page 1) kOwnershipKeyActivate msg.type
    s.bootdata.nonce msg.signature msg.message)

def clamp_bl0_slot (slot : u32) : u32 := if slot = kBootSlotB then kBootSlotB else kBootSlotA

def set_primary_bl0_slot (msg : OwnershipActivateReq) (s : RomExt) : RomExt :=
  { s with bootdata := { s.bootdata with primary_bl0_slot := clamp_bl0_slot msg.primary_bl0_slot } }

/-- The owner change that goes with an activation in the transfer states. -/
def transfer_owner (prior : OwnerBlock) : Rom Unit := do
  ownership_secret_new dev prior.ownership_key_alg prior.owner_key
  .modify fun s => { s with bootdata := { s.bootdata with
    ownership_transfers := s.bootdata.ownership_transfers + 1 } }

/-- The end of an activation. -/
def activate_finish : Rom RomError := do
  nonce_new dev
  .modify fun s => { lock_owner s with bootdata := { (lock_owner s).bootdata with
    next_owner := Vector.replicate 8 0 } }
  return .kErrorWriteBootdataThenReboot

/-- The checks of `activate_handler`. -/
def activate_checks (msg : OwnershipActivateReq) : Rom Unit := do
  let s ← .get
  if owner_block_page1_valid_for_transfer dev s = false then
    .throw .kErrorOwnershipInvalidInfoPage
  else do
    activate_key_validate dev msg
    check_nonce_din dev msg.nonce msg.din

def activate_handler (msg : OwnershipActivateReq) : Rom RomError := do
  activate_checks dev msg
  let s ← .get
  ownership_activate dev true
  .modify (set_primary_bl0_slot msg)
  if s.bootdata.ownership_state = kOwnershipStateUnlockedSelf then activate_finish dev
  else do
    transfer_owner dev (s.owner_page 0)
    activate_finish dev

/-- The switch of `ownership_activate_handler`. -/
def activate_switch (msg : OwnershipActivateReq) : Rom RomError := do
  let s ← .get
  if s.bootdata.ownership_state ∈ kUnlockedStates then activate_handler dev msg
  else .throw .kErrorOwnershipInvalidState

/-- Without the response message. -/
def ownership_activate_handler (msg : OwnershipActivateReq) : Rom RomError := do
  let r ← .attempt (activate_switch dev msg)
  return error_of r

/-- The two cases of `handle_boot_svc` that concern ownership. -/
def handle : Request → Rom RomError
  | .unlock msg => ownership_unlock_handler dev msg
  | .activate msg => ownership_activate_handler dev msg

/-- The code `ownership_init` returns. -/
def init_error : Except RomError Parsed → RomError
  | .ok _ => .kErrorOk
  | .error e => e

/-- `rom_ext_start` from the ownership setup to the boot services request, if there is
one. -/
def rom_ext_start (request : Option Request) : Rom RomError := do
  let r ← .attempt (ownership_init dev)
  if init_error r = .kErrorWriteBootdataThenReboot then return .kErrorWriteBootdataThenReboot
  else request.elim (return .kErrorOk) (handle dev)

end IbexFirmware.Ownership
