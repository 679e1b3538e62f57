/-
Boot services (`boot_svc_header.c`, `boot_svc_msg.h`, `handle_boot_svc` of `rom_ext.c`).

A message lies in retention RAM when the chip boots. Its requests share one payload, so
the handlers read words of it and not fields of their own: the minimum that
`boot_svc_min_sec_ver_handler` reads is the word that a next-slot request has its next
slot in, under the name it has there.

A handler replies in place. `Reply` is what it leaves: its code, the message, what it
enters into the boot log, and whether rescue was asked for. An early return leaves the
message as it was, and is an error of the program here.
-/
import IbexFirmware.BootPolicy
import IbexFirmware.OwnershipRequests

set_option autoImplicit false

namespace IbexFirmware.BootSvc

open Bytes PowerFail Ownership BootPolicy

/-! ## Constants -/

def CHIP_BOOT_SVC_MSG_HEADER_SIZE : u32 := 44
def CHIP_BOOT_SVC_MSG_SIZE_MAX : u32 := 256

def kBootSvcIdentifier : u32 := 0x43565342
def kBootSvcEmptyReqType : u32 := 0x54504d45
def kBootSvcEmptyResType : u32 := 0x454d5054
def kBootSvcEnterRescueReqType : u32 := 0x51535245
def kBootSvcEnterRescueResType : u32 := 0x45525351
def kBootSvcNextBl0SlotReqType : u32 := 0x5458454e
def kBootSvcNextBl0SlotResType : u32 := 0x4e455854
def kBootSvcMinBl0SecVerReqType : u32 := 0x4345534d
def kBootSvcMinBl0SecVerResType : u32 := 0x4d534543
def kBootSvcOwnershipUnlockReqType : u32 := 0x4b4c4e55
def kBootSvcOwnershipUnlockResType : u32 := 0x554e4c4b
def kBootSvcOwnershipActivateReqType : u32 := 0x56544341
def kBootSvcOwnershipActivateResType : u32 := 0x41435456

def kBootSlotUnspecified : u32 := 0x55555555

def kCheckShares : Vector u32 11 :=
  #v[0xc038253c, 0xfa1ebc13, 0x608b15e1, 0x883053ed, 0x3d28e980, 0x16009f6e,
    0xa7944bde, 0x3c096b6f, 0xe2828469, 0x2d507673, 0xefee6c10]

/-! ## Messages -/

/-- `boot_svc_msg_t`: a header, and the words behind it that its type gives a meaning. -/
structure BootSvcMsg where
  digest : Vector u32 8
  identifier : u32
  type : u32
  length : u32
  payload : Vector u32 53
  deriving DecidableEq

namespace BootSvcMsg

/-- `n` payload words from word `start` on. -/
def words (msg : BootSvcMsg) (start n : ℕ) (h : start + n ≤ 53) : Vector u32 n :=
  Vector.ofFn fun i => msg.payload[start + i]

/-- The fields of a next-slot request. -/
def next_bl0_slot (msg : BootSvcMsg) : u32 := msg.payload[0]
def primary_bl0_slot (msg : BootSvcMsg) : u32 := msg.payload[1]

def ownership_unlock_req (msg : BootSvcMsg) : OwnershipUnlockReq where
  type := msg.type
  unlock_mode := msg.payload[0]
  din := msg.words 1 2 (by decide)
  reserved := msg.words 3 8 (by decide)
  nonce := ⟨msg.words 11 2 (by decide)⟩
  next_owner_key := ⟨msg.words 13 24 (by decide)⟩
  signature := ⟨msg.words 37 16 (by decide)⟩

def ownership_activate_req (msg : BootSvcMsg) : OwnershipActivateReq where
  type := msg.type
  primary_bl0_slot := msg.payload[0]
  din := msg.words 1 2 (by decide)
  erase_previous := msg.payload[3]
  reserved := msg.words 4 31 (by decide)
  nonce := ⟨msg.words 35 2 (by decide)⟩
  signature := ⟨msg.words 37 16 (by decide)⟩

/-- The bytes behind the digest. -/
def hashed_bytes (msg : BootSvcMsg) : List u8 :=
  le32 msg.identifier ++ le32 msg.type ++ le32 msg.length ++ words_bytes msg.payload

end BootSvcMsg

section header

variable (hmac_sha256 : List u8 → Vector u32 8)

def boot_svc_header_digest_compute (msg : BootSvcMsg) : Vector u32 8 :=
  hmac_sha256 (msg.hashed_bytes.take (msg.length - 32).toNat)

/-- The type is set by the caller's values, the digest last. -/
def boot_svc_header_finalize (type length : u32) (msg : BootSvcMsg) : BootSvcMsg :=
  let msg := { msg with identifier := kBootSvcIdentifier, type := type, length := length }
  { msg with digest := boot_svc_header_digest_compute hmac_sha256 msg }

def boot_svc_header_check (msg : BootSvcMsg) : RomError :=
  if msg.length < CHIP_BOOT_SVC_MSG_HEADER_SIZE then .kErrorBootSvcBadHeader
  else if msg.length > CHIP_BOOT_SVC_MSG_SIZE_MAX then .kErrorBootSvcBadHeader
  else
    let digest := boot_svc_header_digest_compute hmac_sha256 msg
    let error := RomError.code .kErrorBootSvcBadHeader ^^^ kCheckShares[0] ^^^ kCheckShares[1]
    let error := (List.finRange 8).foldl
      (fun error (j : Fin 8) => error ^^^ (msg.digest[j] ^^^ digest[j] ^^^ kCheckShares[j.val + 2]))
      error
    let error := error ^^^ (msg.identifier ^^^ kCheckShares[10])
    if error = RomError.code .kErrorOk then .kErrorOk else .kErrorBootSvcBadHeader

/-! ## Responses -/

/-- A response of a status. -/
def status_res (type : u32) (status : RomError) (msg : BootSvcMsg) : BootSvcMsg :=
  boot_svc_header_finalize hmac_sha256 type 48 { msg with payload := msg.payload.set 0 status.code }

def boot_svc_empty_res_init (msg : BootSvcMsg) : BootSvcMsg :=
  boot_svc_header_finalize hmac_sha256 kBootSvcEmptyResType CHIP_BOOT_SVC_MSG_SIZE_MAX msg

def boot_svc_enter_rescue_res_init : RomError → BootSvcMsg → BootSvcMsg :=
  status_res hmac_sha256 kBootSvcEnterRescueResType

def boot_svc_ownership_unlock_res_init : RomError → BootSvcMsg → BootSvcMsg :=
  status_res hmac_sha256 kBootSvcOwnershipUnlockResType

def boot_svc_ownership_activate_res_init : RomError → BootSvcMsg → BootSvcMsg :=
  status_res hmac_sha256 kBootSvcOwnershipActivateResType

def boot_svc_next_boot_bl0_slot_res_init (status : RomError) (primary_slot : u32)
    (msg : BootSvcMsg) : BootSvcMsg :=
  boot_svc_header_finalize hmac_sha256 kBootSvcNextBl0SlotResType 52
    { msg with payload := (msg.payload.set 0 status.code).set 1 primary_slot }

def boot_svc_min_bl0_sec_ver_res_init (min_bl0_sec_ver : u32) (status : RomError)
    (msg : BootSvcMsg) : BootSvcMsg :=
  boot_svc_header_finalize hmac_sha256 kBootSvcMinBl0SecVerResType 52
    { msg with payload := (msg.payload.set 0 min_bl0_sec_ver).set 1 status.code }

end header

/-! ## Handlers -/

structure Reply where
  error : RomError
  msg : BootSvcMsg
  log_primary_bl0_slot : Option u32
  rescue_requested : Bool

/-- The message is left alone. -/
def no_reply (msg : BootSvcMsg) : Reply := ⟨.kErrorOk, msg, none, false⟩

/-- The record with the fields that a read fills from the flash. -/
def restore (boot_data : BootData) (stored : BootDataPayload) : BootData :=
  { boot_data with
    min_security_version_rom_ext := stored.min_security_version_rom_ext
    min_security_version_bl0 := stored.min_security_version_bl0
    primary_bl0_slot := stored.primary_bl0_slot
    next_owner := stored.next_owner
    nonce := stored.nonce
    ownership_state := stored.ownership_state
    ownership_transfers := stored.ownership_transfers
    padding := stored.padding }

def boot_data_read : Rom Unit :=
  .step .kErrorBootDataNotFound fun s => ((), { s with bootdata := restore s.bootdata s.stored })

/-- The two images and what verifies them. -/
structure Bl0 where
  verifier : Verifier
  manifest_a : Manifest
  manifest_b : Manifest

variable (bl0 : Bl0)

/-- The hash of the device. -/
def Bl0.hmac_sha256 : List u8 → Vector u32 8 := bl0.verifier.dev.hmac_sha256

def with_primary (slot : u32) (s : RomExt) : RomExt :=
  { s with bootdata := { s.bootdata with primary_bl0_slot := slot } }

def with_minimum (version : u32) (s : RomExt) : RomExt :=
  { s with bootdata := { s.bootdata with min_security_version_bl0 := version } }

/-- Store the boot data and read it back. -/
def write_read_back : Rom Unit := do
  boot_data_write
  boot_data_read

/-- The first switch of the next-slot handler: its code and what it logs. -/
def set_primary_slot (primary_slot : u32) : Rom (RomError × Option u32) := do
  let s ← .get
  if s.bootdata.primary_bl0_slot ≠ primary_slot then
    if primary_slot = kBootSlotA ∨ primary_slot = kBootSlotB then do
      .modify (with_primary primary_slot)
      write_read_back
      let s ← .get
      return (.kErrorOk, some s.bootdata.primary_bl0_slot)
    else if primary_slot = kBootSlotUnspecified then return (.kErrorOk, none)
    else return (.kErrorBootSvcBadSlot, none)
  else return (.kErrorOk, none)

/-- The second switch, which overrides the slot for this boot. -/
def override_slot (next_slot : u32) (error : RomError) : Rom RomError :=
  if next_slot = kBootSlotA ∨ next_slot = kBootSlotB then do
    .modify (with_primary next_slot)
    return error
  else if next_slot = kBootSlotUnspecified then return error
  else return .kErrorBootSvcBadSlot

def boot_svc_next_boot_bl0_slot_handler (msg : BootSvcMsg) : Rom Reply := do
  let r ← set_primary_slot msg.primary_bl0_slot
  let s ← .get
  let error ← override_slot msg.next_bl0_slot r.1
  return { error := .kErrorOk
           msg := boot_svc_next_boot_bl0_slot_res_init bl0.hmac_sha256 error
             s.bootdata.primary_bl0_slot msg
           log_primary_bl0_slot := r.2
           rescue_requested := false }

/-- Take the version of an image into account. -/
def raise_max (boot_data : BootData) (max_sec_ver : u32) (manifest : Manifest) : u32 :=
  if rom_ext_verify bl0.verifier manifest boot_data = .kErrorOk ∧
      manifest.security_version > max_sec_ver then manifest.security_version
  else max_sec_ver

/-- The highest minimum that a request may set. -/
def max_sec_ver (boot_data : BootData) : u32 :=
  raise_max bl0 boot_data
    (raise_max bl0 boot_data boot_data.min_security_version_bl0 bl0.manifest_a) bl0.manifest_b

/-- The refusal of a minimum. -/
def bad_sec_ver (current_min_sec_ver : u32) (msg : BootSvcMsg) : Reply :=
  { no_reply msg with
    msg := boot_svc_min_bl0_sec_ver_res_init bl0.hmac_sha256 current_min_sec_ver
      .kErrorBootSvcBadSecVer msg }

/-- The rest of the handler, once the minimum may be set. -/
def set_min_sec_ver (requested_min_sec_ver : u32) (msg : BootSvcMsg) : Rom Reply := do
  .modify (with_minimum requested_min_sec_ver)
  write_read_back
  let s ← .get
  let reply := boot_svc_min_bl0_sec_ver_res_init bl0.hmac_sha256
    s.bootdata.min_security_version_bl0 .kErrorOk msg
  if requested_min_sec_ver ≠ s.bootdata.min_security_version_bl0 then .trap
  else return { no_reply msg with msg := reply }

def boot_svc_min_sec_ver_handler (msg : BootSvcMsg) : Rom Reply := do
  let s ← .get
  let current_min_sec_ver := s.bootdata.min_security_version_bl0
  -- the field of the other request that lies at the same offset
  let requested_min_sec_ver := msg.next_bl0_slot
  if requested_min_sec_ver > current_min_sec_ver then
    if requested_min_sec_ver ≤ max_sec_ver bl0 s.bootdata then
      set_min_sec_ver bl0 requested_min_sec_ver msg
    else return bad_sec_ver bl0 current_min_sec_ver msg
  else return bad_sec_ver bl0 current_min_sec_ver msg

def rescue_enter_handler (msg : BootSvcMsg) : Reply where
  error := .kErrorOk
  msg := boot_svc_enter_rescue_res_init bl0.hmac_sha256 .kErrorOk msg
  log_primary_bl0_slot := none
  rescue_requested := true

/-- The status that an ownership handler reports. -/
def reported (error : RomError) : RomError :=
  if error = .kErrorWriteBootdataThenReboot then .kErrorOk else error

/-- The switch of `handle_boot_svc`. Responses and unknown messages are left alone. -/
def boot_svc_switch (msg : BootSvcMsg) : Rom Reply :=
  if msg.type = kBootSvcEmptyReqType then
    return { no_reply msg with msg := boot_svc_empty_res_init bl0.hmac_sha256 msg }
  else if msg.type = kBootSvcEnterRescueReqType then return rescue_enter_handler bl0 msg
  else if msg.type = kBootSvcNextBl0SlotReqType then boot_svc_next_boot_bl0_slot_handler bl0 msg
  else if msg.type = kBootSvcMinBl0SecVerReqType then boot_svc_min_sec_ver_handler bl0 msg
  else if msg.type = kBootSvcOwnershipUnlockReqType then do
    let error ← ownership_unlock_handler bl0.verifier.dev msg.ownership_unlock_req
    return { no_reply msg with
      error := error
      msg := boot_svc_ownership_unlock_res_init bl0.hmac_sha256 (reported error) msg }
  else if msg.type = kBootSvcOwnershipActivateReqType then do
    let error ← ownership_activate_handler bl0.verifier.dev msg.ownership_activate_req
    return { no_reply msg with
      error := error
      msg := boot_svc_ownership_activate_res_init bl0.hmac_sha256 (reported error) msg }
  else return no_reply msg

def handle_boot_svc (msg : BootSvcMsg) : Rom Reply :=
  if msg.identifier = kBootSvcIdentifier then do
    return_if_error (boot_svc_header_check bl0.hmac_sha256 msg)
    boot_svc_switch bl0 msg
  else return no_reply msg

/-! ## The boot around them -/

/-- The code of `handle_boot_svc`, however it came about. -/
def reply_error (r : Except RomError Reply) : RomError :=
  match r with
  | .ok reply => reply.error
  | .error e => e

/-- The end of `rom_ext_start`, from boot services on, with the code it returns. What
follows them returns codes of its own and leaves the boot data alone, in RAM and in
flash. -/
def rom_ext_serve (msg : Option BootSvcMsg) : Rom RomError :=
  match msg with
  | none => return .kErrorOk
  | some msg => do
      let r ← .attempt (handle_boot_svc bl0 msg)
      if reply_error r = .kErrorWriteBootdataThenReboot then
        return .kErrorWriteBootdataThenReboot
      else return .kErrorOk

/-- `rom_ext_main` around the program of a boot. -/
def rom_ext_main (rom_ext_start : Rom RomError) : Rom Unit := do
  let r ← .attempt rom_ext_start
  if error_of r = .kErrorWriteBootdataThenReboot then boot_data_write else pure ()

end IbexFirmware.BootSvc
