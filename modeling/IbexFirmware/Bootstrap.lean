/-
Bootstrap (`lib/bootstrap.c` with the ROM's `bootstrap_chip_erase` and
`bootstrap_erase_verify`): the host drives erase and program commands of a SPI flash,
and a three-state machine sees to it that nothing is programmed over a flash that has
not been erased and verified.

The world is what the handlers touch: the commands that will arrive, the flash status
register with the WEL bit, the two permission registers of the flash controller, and a
log. Each flash operation is logged when it is issued, with the WEL bit of that moment,
and again when it has succeeded. Whether it succeeds is a `PowerFail` fate, so that the
results range over every pattern of failing erases, verifications and writes.

`Allowed` is the rule for one operation, in terms of the log in front of it, and
`Served` is the invariant of the event loop. Each helper is specified by how it extends
the log; `bootstrap_safe` is then the loop rule.
-/
import IbexFirmware.Lib.Session
import IbexFirmware.RomError

set_option autoImplicit false

namespace IbexFirmware.Bootstrap

open Bytes PowerFail Session

/-! ## The flash controller -/

def FLASH_CTRL_PARAM_BYTES_PER_WORD : ℕ := 8
def FLASH_CTRL_PARAM_BYTES_PER_PAGE : ℕ := 2048
def FLASH_CTRL_PARAM_BYTES_PER_BANK : ℕ := 524288
def FLASH_CTRL_PARAM_REG_NUM_BANKS : ℕ := 2

/-- Maximum flash address, exclusive. -/
def kMaxAddress : ℕ := FLASH_CTRL_PARAM_BYTES_PER_BANK * FLASH_CTRL_PARAM_REG_NUM_BANKS

/-- `flash_ctrl_perms_t`. -/
structure FlashCtrlPerms where
  read : Bool
  write : Bool
  erase : Bool
  deriving DecidableEq

/-- The all-disabled permissions. -/
def no_perms : FlashCtrlPerms := ⟨false, false, false⟩

/-- `flash_ctrl_erase_type_t`. -/
inductive EraseType where
  | kFlashCtrlEraseTypePage
  | kFlashCtrlEraseTypeBank
  deriving DecidableEq

open EraseType

def EraseType.byte_count : EraseType → ℕ
  | kFlashCtrlEraseTypePage => FLASH_CTRL_PARAM_BYTES_PER_PAGE
  | kFlashCtrlEraseTypeBank => FLASH_CTRL_PARAM_BYTES_PER_BANK

/-- The operations on the data partition. -/
inductive FlashOp where
  | data_erase (addr : u32) (erase_type : EraseType)
  | data_erase_verify (addr : u32) (erase_type : EraseType)
  | data_write (addr : u32) (data : List u8)
  deriving DecidableEq

/-- An operation that changes the flash at address `a`. An erase takes the page or bank
that its address lies in. -/
def FlashOp.Changes (a : ℕ) : FlashOp → Prop
  | .data_erase addr erase_type => a / erase_type.byte_count = addr.toNat / erase_type.byte_count
  | .data_erase_verify _ _ => False
  | .data_write addr data => addr.toNat ≤ a ∧ a < addr.toNat + data.length

/-- Whether an operation is an erase or a program. -/
def FlashOp.modifies : FlashOp → Bool
  | .data_erase_verify _ _ => false
  | _ => true

inductive Event where
  | default_perms_set (perms : FlashCtrlPerms)
  | issued (op : FlashOp) (wel : Bool)
  | succeeded (op : FlashOp)
  | rstmgr_reset
  deriving DecidableEq

/-! ## The SPI device -/

def kSpiDeviceNoAddress : u32 := 0xffffffff
def kSpiDevicePayloadAreaNumBytes : ℕ := 256
def kSpiDeviceWelBit : ℕ := 1

def kSpiDeviceOpcodeChipErase : u8 := 0xc7
def kSpiDeviceOpcodeSectorErase : u8 := 0x20
def kSpiDeviceOpcodePageProgram : u8 := 0x02
def kSpiDeviceOpcodeReset : u8 := 0x99

/-- `spi_device_cmd_t`, the payload being the `payload_byte_count` bytes received. -/
structure SpiDeviceCmd where
  opcode : u8
  address : u32
  payload : List u8

/-- What the SPI device has for the next `spi_device_cmd_get`: a payload that overflowed,
or a command with or without an address, and the flash status it leaves. -/
inductive Upload where
  | overflow
  | cmd (opcode : u8) (address : Option u32) (payload : List u8) (flash_status : u32)

structure World where
  uploads : List Upload
  flash_status : u32
  default_perms : FlashCtrlPerms
  bank_erase_perms : Bool
  log : List Event

abbrev Boot (α : Type) : Type := Proc World RomError α

def World.wel (w : World) : Bool := w.flash_status.getLsbD kSpiDeviceWelBit

def World.record (w : World) (events : List Event) : World := { w with log := w.log ++ events }

def spi_device_cmd_get : Boot SpiDeviceCmd := do
  let w ← Proc.get
  match w.uploads with
  | [] => stop
  | .overflow :: rest =>
      Proc.modify fun w => { w with uploads := rest }
      Proc.throw .kErrorSpiDevicePayloadOverflow
  | .cmd opcode address payload flash_status :: rest =>
      Proc.modify fun w => { w with uploads := rest, flash_status := flash_status }
      if kSpiDevicePayloadAreaNumBytes < payload.length then Proc.trap
      else pure ⟨opcode, address.getD kSpiDeviceNoAddress, payload⟩

def spi_device_flash_status_get : Boot u32 := do return (← Proc.get).flash_status

def spi_device_flash_status_clear : Boot Unit := .modify fun w => { w with flash_status := 0 }

/-! ## Flash operations -/

def flash_ctrl_data_default_perms_set (perms : FlashCtrlPerms) : Boot Unit :=
  .modify fun w => { w with default_perms := perms, log := w.log ++ [.default_perms_set perms] }

def flash_ctrl_bank_erase_perms_set (enable : Bool) : Boot Unit :=
  .modify fun w => { w with bank_erase_perms := enable }

/-- Issue an operation, whose failure is reported as `e`. -/
def flash_op (e : RomError) (op : FlashOp) : Boot Unit := do
  Proc.modify fun w => w.record [.issued op w.wel]
  Proc.step e fun w => ((), w.record [.succeeded op])

def flash_ctrl_data_erase (addr : u32) (erase_type : EraseType) : Boot Unit :=
  flash_op .kErrorFlashCtrlDataErase (.data_erase addr erase_type)

def flash_ctrl_data_erase_verify (addr : u32) (erase_type : EraseType) : Boot Unit :=
  flash_op .kErrorFlashCtrlDataEraseVerify (.data_erase_verify addr erase_type)

/-- Write the words whose bytes are `data`. -/
def flash_ctrl_data_write (addr : u32) (data : List u8) : Boot Unit :=
  flash_op .kErrorFlashCtrlDataWrite (.data_write addr data)

/-- `HARDENED_RETURN_IF_ERROR(err_0); return err_1`. -/
def return_errors (err_0 err_1 : Except RomError Unit) : Boot Unit := do
  Proc.ofExcept err_0
  Proc.ofExcept err_1

/-! ## Erasing and programming -/

/-- The address of the second bank. -/
def bank1 : u32 := BitVec.ofNat 32 FLASH_CTRL_PARAM_BYTES_PER_BANK

def bootstrap_chip_erase : Boot Unit := do
  flash_ctrl_bank_erase_perms_set true
  let err_0 ← Proc.attempt (flash_ctrl_data_erase 0 kFlashCtrlEraseTypeBank)
  let err_1 ← Proc.attempt (flash_ctrl_data_erase bank1 kFlashCtrlEraseTypeBank)
  flash_ctrl_bank_erase_perms_set false
  return_errors err_0 err_1

def bootstrap_erase_verify : Boot Unit := do
  let err_0 ← Proc.attempt (flash_ctrl_data_erase_verify 0 kFlashCtrlEraseTypeBank)
  let err_1 ← Proc.attempt (flash_ctrl_data_erase_verify bank1 kFlashCtrlEraseTypeBank)
  return_errors err_0 err_1

/-- The lower 4 KiB aligned address. -/
def kPageAddrMask : u32 := ~~~4096 + 1

def bootstrap_sector_erase (addr : u32) : Boot Unit := do
  if kMaxAddress ≤ addr.toNat then Proc.throw .kErrorBootstrapEraseAddress
  else do
    let addr := addr &&& kPageAddrMask
    flash_ctrl_data_default_perms_set { read := false, write := false, erase := true }
    let err_0 ← Proc.attempt (flash_ctrl_data_erase addr kFlashCtrlEraseTypePage)
    let err_1 ← Proc.attempt (flash_ctrl_data_erase
      (addr + BitVec.ofNat 32 FLASH_CTRL_PARAM_BYTES_PER_PAGE) kFlashCtrlEraseTypePage)
    flash_ctrl_data_default_perms_set no_perms
    return_errors err_0 err_1

def kFlashWordMask : u32 := BitVec.ofNat 32 FLASH_CTRL_PARAM_BYTES_PER_WORD - 1
def kFlashProgPageSize : ℕ := 256
def kFlashProgPageMask : u32 := BitVec.ofNat 32 kFlashProgPageSize - 1

/-- The payload with `0xff` for the missing bytes of its last flash word. -/
def pad_to_flash_word (data : List u8) : List u8 :=
  let flash_word_misalignment := data.length % FLASH_CTRL_PARAM_BYTES_PER_WORD
  if 0 < flash_word_misalignment then
    data ++ List.replicate (FLASH_CTRL_PARAM_BYTES_PER_WORD - flash_word_misalignment) 0xff
  else data

/-- The write of the words that remain, if there are any. -/
def write_remaining (addr : u32) (data : List u8) (rem_word_count : ℕ) :
    Boot (Except RomError Unit) :=
  if 0 < rem_word_count then
    Proc.attempt (flash_ctrl_data_write addr (data.take (rem_word_count * 4)))
  else pure (.ok ())

def bootstrap_page_program (addr : u32) (payload : List u8) : Boot Unit := do
  if addr &&& kFlashWordMask ≠ 0 ∨ kMaxAddress ≤ addr.toNat then
    Proc.throw .kErrorBootstrapProgramAddress
  else do
    let data := pad_to_flash_word payload
    let rem_word_count := data.length / 4
    flash_ctrl_data_default_perms_set { read := false, write := true, erase := false }
    let prog_page_misalignment := (addr &&& kFlashProgPageMask).toNat
    if 0 < prog_page_misalignment then do
      -- Two writes, the second of which wraps to the beginning of the programming page.
      let word_count := min ((kFlashProgPageSize - prog_page_misalignment) / 4) rem_word_count
      let err_0 ← Proc.attempt (flash_ctrl_data_write addr (data.take (word_count * 4)))
      let err_1 ← write_remaining (addr &&& ~~~kFlashProgPageMask) (data.drop (word_count * 4))
        (rem_word_count - word_count)
      flash_ctrl_data_default_perms_set no_perms
      return_errors err_0 err_1
    else do
      let err_1 ← write_remaining addr data rem_word_count
      flash_ctrl_data_default_perms_set no_perms
      return_errors (.ok ()) err_1

/-! ## The event loop -/

/-- `bootstrap_state_t`. -/
inductive BootstrapState where
  | kBootstrapStateErase
  | kBootstrapStateEraseVerify
  | kBootstrapStateProgram
  deriving DecidableEq

open BootstrapState

/-- Any erase command erases both banks, any other is ignored. -/
def bootstrap_handle_erase : Boot BootstrapState := do
  let cmd ← spi_device_cmd_get
  let status ← spi_device_flash_status_get
  if !status.getLsbD kSpiDeviceWelBit then return kBootstrapStateErase
  else if cmd.opcode = kSpiDeviceOpcodeChipErase ∨ cmd.opcode = kSpiDeviceOpcodeSectorErase then do
    bootstrap_chip_erase
    return kBootstrapStateEraseVerify
  else do
    spi_device_flash_status_clear
    return kBootstrapStateErase

def bootstrap_handle_erase_verify : Boot BootstrapState := do
  bootstrap_erase_verify
  spi_device_flash_status_clear
  return kBootstrapStateProgram

/-- The reset does not come back: `HARDENED_TRAP` follows it. -/
def rstmgr_reset : Boot Unit := do
  Proc.modify fun w => w.record [.rstmgr_reset]
  Proc.trap

/-- The `switch` of `bootstrap_handle_program`. -/
def bootstrap_execute (cmd : SpiDeviceCmd) : Boot Unit :=
  if cmd.opcode = kSpiDeviceOpcodeChipErase then bootstrap_chip_erase
  else if cmd.opcode = kSpiDeviceOpcodeSectorErase then bootstrap_sector_erase cmd.address
  else if cmd.opcode = kSpiDeviceOpcodePageProgram then
    bootstrap_page_program cmd.address cmd.payload
  else if cmd.opcode = kSpiDeviceOpcodeReset then rstmgr_reset
  else pure ()

def bootstrap_handle_program : Boot BootstrapState := do
  let cmd ← spi_device_cmd_get
  let status ← spi_device_flash_status_get
  if cmd.opcode ≠ kSpiDeviceOpcodeReset ∧ !status.getLsbD kSpiDeviceWelBit then
    return kBootstrapStateProgram
  else do
    bootstrap_execute cmd
    spi_device_flash_status_clear
    return kBootstrapStateProgram

def bootstrap_handle : BootstrapState → Boot BootstrapState
  | kBootstrapStateErase => bootstrap_handle_erase
  | kBootstrapStateEraseVerify => bootstrap_handle_erase_verify
  | kBootstrapStateProgram => bootstrap_handle_program

/-- `n` iterations of the event loop. -/
def enter_bootstrap (n : ℕ) : Boot BootstrapState := rounds bootstrap_handle n kBootstrapStateErase

/-- The world bootstrap is entered in. -/
def World.entered (uploads : List Upload) (flash_status : u32) (perms : FlashCtrlPerms) : World :=
  ⟨uploads, flash_status, perms, false, []⟩

/-! ## The rule -/

/-- Both banks have been erased. -/
def chip_erased : List Event :=
  [.succeeded (.data_erase 0 kFlashCtrlEraseTypeBank),
    .succeeded (.data_erase bank1 kFlashCtrlEraseTypeBank)]

/-- Both banks have been found erased. -/
def chip_verified : List Event :=
  [.succeeded (.data_erase_verify 0 kFlashCtrlEraseTypeBank),
    .succeeded (.data_erase_verify bank1 kFlashCtrlEraseTypeBank)]

/-- Both banks have been erased, and after that been found erased. -/
def ErasedAndVerified (log : List Event) : Prop := (chip_erased ++ chip_verified).Sublist log

/-- What bootstrap may issue after `log`: erases and programs with WEL set and within the
flash, and programs after a verified chip erase only. -/
def Allowed (log : List Event) : Event → Prop
  | .issued op wel => op.modifies →
      wel = true ∧ (∀ a, op.Changes a → a < kMaxAddress) ∧
        ((∃ addr data, op = .data_write addr data) → ErasedAndVerified log)
  | _ => True

/-- The default permissions are all disabled, or nobody has set them and they are `perms`. -/
def PermsClosed (perms : FlashCtrlPerms) (w : World) : Prop :=
  w.default_perms = no_perms ∨
    w.default_perms = perms ∧ ∀ perms', .default_perms_set perms' ∉ w.log

/-- What has been done when the event loop is in a state. -/
def BootstrapState.done : BootstrapState → List Event
  | kBootstrapStateErase => []
  | kBootstrapStateEraseVerify => chip_erased
  | kBootstrapStateProgram => chip_erased ++ chip_verified

/-- The world between two calls of a handler, where `done` has been done. -/
structure Served (perms : FlashCtrlPerms) (done : List Event) (w : World) : Prop where
  safe : Safe Allowed w.log
  closed : PermsClosed perms w
  done : done.Sublist w.log

/-! ## Extending the log -/

@[simp] theorem record_log (w : World) (events : List Event) :
    (w.record events).log = w.log ++ events := rfl

theorem record_record (w : World) (before after : List Event) :
    (w.record before).record after = w.record (before ++ after) := by
  unfold World.record
  rw [List.append_assoc]

/-- `w'` is `w` after flash operations, all of them allowed, of which `done` succeeded. -/
def Extends (w : World) (done : List Event) (w' : World) : Prop :=
  ∃ events, w' = w.record events ∧ Safe Allowed w'.log ∧ done.Sublist events ∧
    ∀ perms, .default_perms_set perms ∉ events

theorem Extends.trans {w w1 w2 : World} {done done' : List Event} (h : Extends w done w1)
    (h' : Extends w1 done' w2) : Extends w (done ++ done') w2 := by
  obtain ⟨events, rfl, -, hdone, hperms⟩ := h
  obtain ⟨events', rfl, hsafe, hdone', hperms'⟩ := h'
  refine ⟨events ++ events', record_record w events events', hsafe, hdone.append hdone', ?_⟩
  intro perms hmem
  exact (List.mem_append.mp hmem).elim (hperms perms) (hperms' perms)

theorem Extends.safe {w w' : World} {done : List Event} (h : Extends w done w') :
    Safe Allowed w'.log := by
  obtain ⟨_, _, hsafe, -⟩ := h
  exact hsafe

theorem Extends.wel {w w' : World} {done : List Event} (h : Extends w done w') :
    w'.wel = w.wel := by
  obtain ⟨events, rfl, -⟩ := h
  rfl

theorem Extends.log {w w' : World} {done : List Event} (h : Extends w done w') :
    w.log.Sublist w'.log := by
  obtain ⟨events, rfl, -⟩ := h
  exact List.sublist_append_left _ _

/-- What an operation leaves, given that it may be issued. -/
theorem attempt_flash_op (e : RomError) {op : FlashOp} {w : World} (hsafe : Safe Allowed w.log)
    (hallowed : Allowed w.log (.issued op w.wel)) :
    Leaves (Proc.attempt (flash_op e op)) w
      (fun r w' => Extends w (if r = .ok () then [.succeeded op] else []) w')
      (fun _ _ => False) (fun w' => Safe Allowed w'.log) := by
  have hissued : Safe Allowed (w.record [.issued op w.wel]).log := safe_snoc hsafe hallowed
  apply Leaves.attempt
  apply Leaves.modify_bind
  apply Leaves.step
  · rw [if_pos rfl, record_record]
    refine ⟨[.issued op w.wel, .succeeded op], rfl, ?_, ?_, ?_⟩
    · have hsucceeded := safe_snoc (e := Event.succeeded op) hissued trivial
      rwa [record_log, List.append_assoc] at hsucceeded
    · exact List.sublist_cons_self _ _
    · intro perms hmem
      simp at hmem
  · rw [if_neg nofun]
    refine ⟨[.issued op w.wel], rfl, hissued, List.nil_sublist _, ?_⟩
    intro perms hmem
    simp at hmem
  · exact hissued

/-- An operation that may be skipped. -/
theorem attempt_if (e : RomError) {op : FlashOp} {c : Prop} [Decidable c] {w : World}
    (hsafe : Safe Allowed w.log) (hallowed : c → Allowed w.log (.issued op w.wel)) :
    Leaves (if c then Proc.attempt (flash_op e op) else pure (.ok ())) w
      (fun _ w' => Extends w [] w') (fun _ _ => False) (fun w' => Safe Allowed w'.log) := by
  by_cases hc : c
  · rw [if_pos hc]
    refine (attempt_flash_op e hsafe (hallowed hc)).conseq ?_ (fun _ _ h => h) (fun _ h => h)
    rintro r w' ⟨events, heq, hsafe', -, hperms⟩
    exact ⟨events, heq, hsafe', List.nil_sublist _, hperms⟩
  · rw [if_neg hc]
    apply Leaves.pure
    refine ⟨[], ?_, hsafe, List.nil_sublist _, fun _ => List.not_mem_nil⟩
    unfold World.record
    rw [List.append_nil]

theorem return_errors_leaves {err_0 err_1 : Except RomError Unit} {w : World}
    {Q : Unit → World → Prop} {E : RomError → World → Prop} {H : World → Prop}
    (hok : err_0 = .ok () → err_1 = .ok () → Q () w) (herror : ∀ e, E e w) :
    Leaves (return_errors err_0 err_1) w Q E H := by
  unfold return_errors
  refine Leaves.bind (R := fun _ w' => err_0 = .ok () ∧ w' = w)
    (Leaves.ofExcept (fun _ h => ⟨h, rfl⟩) fun e _ => herror e) ?_
  rintro - w' ⟨h0, rfl⟩
  exact Leaves.ofExcept (fun _ h1 => hok h0 h1) fun e _ => herror e

/-- Between handlers only the log and the default permissions count. -/
theorem Served.congr {perms : FlashCtrlPerms} {done : List Event} {w w' : World}
    (h : Served perms done w) (hlog : w'.log = w.log)
    (hperms : w'.default_perms = w.default_perms) : Served perms done w' := by
  refine ⟨hlog ▸ h.safe, ?_, hlog ▸ h.done⟩
  unfold PermsClosed
  rw [hlog, hperms]
  exact h.closed

/-- Operations that succeeded are added to what has been done. -/
theorem Served.extend {perms : FlashCtrlPerms} {done done' : List Event} {w w' : World}
    (h : Served perms done w) (hext : Extends w done' w') : Served perms (done ++ done') w' := by
  obtain ⟨events, rfl, hsafe, hdone, hno⟩ := hext
  refine ⟨hsafe, ?_, h.done.append hdone⟩
  refine h.closed.imp id fun ⟨hperms, hnone⟩ => ⟨hperms, fun perms' hmem => ?_⟩
  exact (List.mem_append.mp hmem).elim (hnone perms') (hno perms')

theorem Served.mono {perms : FlashCtrlPerms} {done done' : List Event} {w : World}
    (h : Served perms done w) (hsub : done'.Sublist done) : Served perms done' w :=
  ⟨h.safe, h.closed, hsub.trans h.done⟩

/-! ## Erasing and programming keep the rule -/

/-- The erase of a page or bank within the flash. -/
theorem allowed_erase {log : List Event} {addr : u32} {erase_type : EraseType} {wel : Bool}
    (hwel : wel = true) (haddr : addr.toNat < kMaxAddress) :
    Allowed log (.issued (.data_erase addr erase_type) wel) := by
  refine fun _ => ⟨hwel, fun a ha => ?_, by rintro ⟨_, _, ⟨⟩⟩⟩
  cases erase_type <;>
    simp only [FlashOp.Changes, EraseType.byte_count, FLASH_CTRL_PARAM_BYTES_PER_PAGE,
      FLASH_CTRL_PARAM_BYTES_PER_BANK, kMaxAddress, FLASH_CTRL_PARAM_REG_NUM_BANKS] at ha haddr ⊢ <;>
    omega

theorem allowed_verify (log : List Event) (addr : u32) (erase_type : EraseType) (wel : Bool) :
    Allowed log (.issued (.data_erase_verify addr erase_type) wel) := nofun

/-- Two operations of which nobody looks at the results before both are over. -/
theorem two_ops_leave (e : RomError) {op_0 op_1 : FlashOp} {w : World} {Q : Unit → World → Prop}
    {E : RomError → World → Prop} {f : Except RomError Unit → Except RomError Unit → Boot Unit}
    (hsafe : Safe Allowed w.log) (h0 : Allowed w.log (.issued op_0 w.wel))
    (h1 : ∀ log, Allowed log (.issued op_1 w.wel))
    (hf : ∀ err_0 err_1 w', Extends w ((if err_0 = .ok () then [.succeeded op_0] else []) ++
        if err_1 = .ok () then [.succeeded op_1] else []) w' →
      Leaves (f err_0 err_1) w' Q E (fun w' => Safe Allowed w'.log)) :
    Leaves (do
      let err_0 ← Proc.attempt (flash_op e op_0)
      let err_1 ← Proc.attempt (flash_op e op_1)
      f err_0 err_1) w Q E (fun w' => Safe Allowed w'.log) := by
  refine Leaves.bind ((attempt_flash_op e hsafe h0).conseq (fun _ _ h => h) (fun _ _ h => h.elim)
    fun _ h => h) ?_
  intro err_0 w1 hext0
  refine Leaves.bind ((attempt_flash_op e hext0.safe (hext0.wel ▸ h1 w1.log)).conseq
    (fun _ _ h => h) (fun _ _ h => h.elim) fun _ h => h) ?_
  intro err_1 w2 hext1
  exact hf err_0 err_1 w2 (hext0.trans hext1)

variable {perms : FlashCtrlPerms} {done : List Event} {w : World}

theorem bootstrap_chip_erase_leaves (h : Served perms done w) (hwel : w.wel = true) :
    Leaves bootstrap_chip_erase w (fun _ w' => Served perms (done ++ chip_erased) w')
      (fun _ w' => Served perms [] w') (fun w' => Safe Allowed w'.log) := by
  unfold bootstrap_chip_erase flash_ctrl_bank_erase_perms_set
  apply Leaves.modify_bind
  have h1 : Served perms done { w with bank_erase_perms := true } := h.congr rfl rfl
  refine two_ops_leave _ h1.safe (allowed_erase hwel (by decide))
    (fun _ => allowed_erase hwel (by decide)) ?_
  intro err_0 err_1 w2 hext
  apply Leaves.modify_bind
  have h3 : Served perms _ { w2 with bank_erase_perms := false } := (h1.extend hext).congr rfl rfl
  refine return_errors_leaves ?_ fun _ => h3.mono (List.nil_sublist _)
  rintro rfl rfl
  exact h3

theorem bootstrap_erase_verify_leaves (h : Served perms done w) :
    Leaves bootstrap_erase_verify w (fun _ w' => Served perms (done ++ chip_verified) w')
      (fun _ w' => Served perms [] w') (fun w' => Safe Allowed w'.log) := by
  unfold bootstrap_erase_verify
  refine two_ops_leave _ h.safe (allowed_verify _ _ _ _) (fun _ => allowed_verify _ _ _ _) ?_
  intro err_0 err_1 w2 hext
  have h2 := h.extend hext
  refine return_errors_leaves ?_ fun _ => h2.mono (List.nil_sublist _)
  rintro rfl rfl
  exact h2

/-- The world after a change of the default permissions. -/
def World.permitted (w : World) (perms : FlashCtrlPerms) : World :=
  { w with default_perms := perms, log := w.log ++ [.default_perms_set perms] }

theorem permitted_safe (perms' : FlashCtrlPerms) (h : Safe Allowed w.log) :
    Safe Allowed (w.permitted perms').log := safe_snoc h trivial

/-- Operations between two changes of the permissions, the second of which disables
them. -/
theorem served_permitted {done' : List Event} {perms' : FlashCtrlPerms} {w' : World}
    (h : Served perms done w) (hext : Extends (w.permitted perms') done' w') :
    Served perms done (w'.permitted no_perms) := by
  obtain ⟨events, rfl, hsafe, -⟩ := hext
  refine ⟨permitted_safe _ hsafe, .inl rfl, h.done.trans ?_⟩
  exact ((List.sublist_append_left _ _).trans (List.sublist_append_left _ _)).trans
    (List.sublist_append_left _ _)

/-- Clearing low bits of an address leaves a multiple that is not larger. -/
theorem aligned_toNat (addr mask : u32) (k : ℕ) (hmask : mask.toNat % 2 ^ k = 0) :
    (addr &&& mask).toNat % 2 ^ k = 0 ∧ (addr &&& mask).toNat ≤ addr.toNat := by
  rw [BitVec.toNat_and]
  refine ⟨?_, Nat.and_le_left⟩
  rw [Nat.and_mod_two_pow, hmask, Nat.and_zero]

/-- The page of an address in range is erased, with the permissions set for it. -/
theorem bootstrap_sector_erase_leaves (addr : u32) (h : Served perms done w)
    (hwel : w.wel = true) :
    Leaves (bootstrap_sector_erase addr) w (fun _ w' => Served perms done w')
      (fun _ w' => Served perms [] w') (fun w' => Safe Allowed w'.log) := by
  unfold bootstrap_sector_erase
  by_cases haddr : kMaxAddress ≤ addr.toNat
  · rw [if_pos haddr]
    exact Leaves.throw (h.mono (List.nil_sublist _))
  · rw [if_neg haddr]
    obtain ⟨halign, hle⟩ := aligned_toNat addr kPageAddrMask 12 (by decide)
    have hnext : (addr &&& kPageAddrMask).toNat + FLASH_CTRL_PARAM_BYTES_PER_PAGE < kMaxAddress := by
      simp only [kMaxAddress, FLASH_CTRL_PARAM_BYTES_PER_BANK, FLASH_CTRL_PARAM_REG_NUM_BANKS,
        FLASH_CTRL_PARAM_BYTES_PER_PAGE] at haddr ⊢
      omega
    have hsum : ((addr &&& kPageAddrMask) + BitVec.ofNat 32 FLASH_CTRL_PARAM_BYTES_PER_PAGE).toNat =
        (addr &&& kPageAddrMask).toNat + FLASH_CTRL_PARAM_BYTES_PER_PAGE := by
      have hmax : kMaxAddress < 2 ^ 32 := by decide
      rw [BitVec.toNat_add]
      exact Nat.mod_eq_of_lt (hnext.trans hmax)
    apply Leaves.modify_bind
    refine two_ops_leave _ (permitted_safe _ h.safe) (allowed_erase hwel (by omega))
      (fun _ => allowed_erase hwel (by omega)) ?_
    intro err_0 err_1 w2 hext
    apply Leaves.modify_bind
    have h3 := served_permitted h hext
    exact return_errors_leaves (fun _ _ => h3) fun _ => h3.mono (List.nil_sublist _)

/-! ### Programming -/

theorem pad_to_flash_word_length {data : List u8}
    (h : data.length ≤ kSpiDevicePayloadAreaNumBytes) :
    (pad_to_flash_word data).length ≤ kSpiDevicePayloadAreaNumBytes := by
  unfold pad_to_flash_word
  by_cases hpad : 0 < data.length % FLASH_CTRL_PARAM_BYTES_PER_WORD
  · rw [if_pos hpad, List.length_append, List.length_replicate]
    simp only [FLASH_CTRL_PARAM_BYTES_PER_WORD, kSpiDevicePayloadAreaNumBytes] at h hpad ⊢
    omega
  · rw [if_neg hpad]
    exact h

/-- A write within one programming page of the erased and verified flash. -/
theorem allowed_write {log : List Event} {addr : u32} {data : List u8} {wel : Bool}
    (hwel : wel = true) (hlog : ErasedAndVerified log) (haddr : addr.toNat < kMaxAddress)
    (hdata : addr.toNat % kFlashProgPageSize + data.length ≤ kFlashProgPageSize) :
    Allowed log (.issued (.data_write addr data) wel) := by
  refine fun _ => ⟨hwel, fun a ha => ?_, fun _ => hlog⟩
  simp only [FlashOp.Changes] at ha
  simp only [kFlashProgPageSize, kMaxAddress, FLASH_CTRL_PARAM_BYTES_PER_BANK,
    FLASH_CTRL_PARAM_REG_NUM_BANKS] at haddr hdata ⊢
  omega

theorem ErasedAndVerified.permitted (perms' : FlashCtrlPerms) (h : ErasedAndVerified w.log) :
    ErasedAndVerified (w.permitted perms').log := h.trans (List.sublist_append_left _ _)

theorem write_remaining_leaves {addr : u32} {data : List u8} {rem_word_count : ℕ}
    (hsafe : Safe Allowed w.log) (hwel : w.wel = true) (hlog : ErasedAndVerified w.log)
    (haddr : addr.toNat < kMaxAddress)
    (hcount : addr.toNat % kFlashProgPageSize + rem_word_count * 4 ≤ kFlashProgPageSize) :
    Leaves (write_remaining addr data rem_word_count) w (fun _ w' => Extends w [] w')
      (fun _ _ => False) (fun w' => Safe Allowed w'.log) := by
  refine attempt_if _ hsafe fun _ => allowed_write hwel hlog haddr ?_
  rw [List.length_take]
  omega

/-- Programming comes after both banks have been erased and verified, wherever the page lies. -/
theorem bootstrap_page_program_leaves (addr : u32) {payload : List u8}
    (hpayload : payload.length ≤ kSpiDevicePayloadAreaNumBytes)
    (h : Served perms (chip_erased ++ chip_verified) w) (hwel : w.wel = true) :
    Leaves (bootstrap_page_program addr payload) w
      (fun _ w' => Served perms (chip_erased ++ chip_verified) w')
      (fun _ w' => Served perms [] w') (fun w' => Safe Allowed w'.log) := by
  unfold bootstrap_page_program
  by_cases haddr : addr &&& kFlashWordMask ≠ 0 ∨ kMaxAddress ≤ addr.toNat
  · rw [if_pos haddr]
    exact Leaves.throw (h.mono (List.nil_sublist _))
  · rw [if_neg haddr]
    obtain ⟨-, hlt⟩ := not_or.mp haddr
    rw [Nat.not_le] at hlt
    have hlen := pad_to_flash_word_length hpayload
    generalize pad_to_flash_word payload = data at hlen
    have hmis : (addr &&& kFlashProgPageMask).toNat = addr.toNat % kFlashProgPageSize := by
      rw [BitVec.toNat_and]
      exact Nat.and_two_pow_sub_one_eq_mod _ 8
    obtain ⟨halign, hle⟩ := aligned_toNat addr (~~~kFlashProgPageMask) 8 (by decide)
    apply Leaves.modify_bind
    have hsafe := permitted_safe { read := false, write := true, erase := false } h.safe
    have hdone := ErasedAndVerified.permitted { read := false, write := true, erase := false } h.done
    rw [hmis]
    have hpage : addr.toNat % kFlashProgPageSize < kFlashProgPageSize := Nat.mod_lt _ (by decide)
    have hwords : data.length / 4 * 4 ≤ kFlashProgPageSize := (Nat.div_mul_le_self _ _).trans hlen
    by_cases hpos : 0 < addr.toNat % kFlashProgPageSize
    · rw [if_pos hpos]
      -- the first write ends with the programming page
      refine Leaves.bind ((attempt_flash_op _ hsafe (allowed_write hwel hdone hlt ?_)).conseq
        (fun _ _ h => h) (fun _ _ h => h.elim) fun _ h => h) ?_
      · rw [List.length_take]
        omega
      · intro err_0 w1 hext0
        refine Leaves.bind ((write_remaining_leaves hext0.safe (hext0.wel.trans hwel)
          (hdone.trans hext0.log) (by omega) ?_).conseq
          (fun _ _ h => h) (fun _ _ h => h.elim) fun _ h => h) ?_
        · rw [show kFlashProgPageSize = 2 ^ 8 from rfl] at hwords ⊢
          rw [halign]
          omega
        · intro err_1 w2 hext1
          apply Leaves.modify_bind
          have h3 := served_permitted h (hext0.trans hext1)
          exact return_errors_leaves (fun _ _ => h3) fun _ => h3.mono (List.nil_sublist _)
    · rw [if_neg hpos]
      refine Leaves.bind ((write_remaining_leaves hsafe hwel hdone hlt (by omega)).conseq
        (fun _ _ h => h) (fun _ _ h => h.elim) fun _ h => h) ?_
      intro err_1 w1 hext
      apply Leaves.modify_bind
      have h2 := served_permitted h hext
      exact return_errors_leaves (fun _ _ => h2) fun _ => h2.mono (List.nil_sublist _)

/-! ## The handlers -/

/-- Waiting for a command changes nothing of the invariant. -/
theorem spi_device_cmd_get_leaves (h : Served perms done w) :
    Leaves spi_device_cmd_get w
      (fun cmd w' => Served perms done w' ∧ cmd.payload.length ≤ kSpiDevicePayloadAreaNumBytes)
      (fun _ w' => Served perms [] w') (fun w' => Safe Allowed w'.log) := by
  unfold spi_device_cmd_get
  apply Leaves.get
  cases w.uploads with
  | nil => exact Leaves.stop h.safe
  | cons upload rest =>
      cases upload with
      | overflow =>
          apply Leaves.modify_bind
          exact Leaves.throw ((h.mono (List.nil_sublist _)).congr rfl rfl)
      | cmd opcode address payload flash_status =>
          apply Leaves.modify_bind
          by_cases hlen : kSpiDevicePayloadAreaNumBytes < payload.length
          · rw [if_pos hlen]
            exact Leaves.trap h.safe
          · rw [if_neg hlen]
            exact Leaves.pure ⟨h.congr rfl rfl, Nat.not_lt.mp hlen⟩

theorem spi_device_flash_status_get_leaves {α : Type} {f : u32 → Boot α} {Q : α → World → Prop}
    {E : RomError → World → Prop} {H : World → Prop} (h : Leaves (f w.flash_status) w Q E H) :
    Leaves (spi_device_flash_status_get >>= f) w Q E H := by
  rintro m rfl
  exact h m rfl

/-- A handler that has done what its next state asks for. -/
def HandlerLeaves (perms : FlashCtrlPerms) (p : Boot BootstrapState) (w : World) : Prop :=
  Leaves p w (fun state w' => Served perms state.done w') (fun _ w' => Served perms [] w')
    (fun w' => Safe Allowed w'.log)

theorem bootstrap_handle_erase_leaves (h : Served perms [] w) :
    HandlerLeaves perms bootstrap_handle_erase w := by
  unfold HandlerLeaves bootstrap_handle_erase
  refine Leaves.bind (spi_device_cmd_get_leaves h) ?_
  rintro cmd w1 ⟨h1, -⟩
  apply spi_device_flash_status_get_leaves
  by_cases hwel : w1.flash_status.getLsbD kSpiDeviceWelBit = true
  · rw [hwel, if_neg (by decide)]
    split_ifs
    · exact Leaves.bind (bootstrap_chip_erase_leaves h1 hwel) fun _ _ h2 => Leaves.pure h2
    · exact Leaves.modify_bind (Leaves.pure (h1.congr rfl rfl))
  · rw [eq_false_of_ne_true hwel, if_pos (by decide)]
    exact Leaves.pure h1

theorem bootstrap_handle_erase_verify_leaves (h : Served perms chip_erased w) :
    HandlerLeaves perms bootstrap_handle_erase_verify w := by
  unfold HandlerLeaves bootstrap_handle_erase_verify
  refine Leaves.bind (bootstrap_erase_verify_leaves h) fun _ w1 h1 => ?_
  exact Leaves.modify_bind (Leaves.pure (h1.congr rfl rfl))

/-- The reset needs no WEL, everything else has it. -/
theorem bootstrap_execute_leaves {cmd : SpiDeviceCmd}
    (hpayload : cmd.payload.length ≤ kSpiDevicePayloadAreaNumBytes)
    (h : Served perms (chip_erased ++ chip_verified) w)
    (hwel : cmd.opcode = kSpiDeviceOpcodeReset ∨ w.wel = true) :
    Leaves (bootstrap_execute cmd) w (fun _ w' => Served perms (chip_erased ++ chip_verified) w')
      (fun _ w' => Served perms [] w') (fun w' => Safe Allowed w'.log) := by
  have hset : cmd.opcode ≠ kSpiDeviceOpcodeReset → w.wel = true := hwel.resolve_left
  unfold bootstrap_execute
  split_ifs with hchip hsector hprogram hreset
  · refine (bootstrap_chip_erase_leaves h (hset (by rw [hchip]; decide))).conseq ?_
      (fun _ _ h => h) (fun _ h => h)
    exact fun _ w' h' => h'.mono (List.sublist_append_left _ _)
  · exact bootstrap_sector_erase_leaves cmd.address h (hset (by rw [hsector]; decide))
  · exact bootstrap_page_program_leaves cmd.address hpayload h (hset (by rw [hprogram]; decide))
  · exact Leaves.modify_bind (Leaves.trap (safe_snoc h.safe trivial))
  · exact Leaves.pure h

theorem bootstrap_handle_program_leaves (h : Served perms (chip_erased ++ chip_verified) w) :
    HandlerLeaves perms bootstrap_handle_program w := by
  unfold HandlerLeaves bootstrap_handle_program
  refine Leaves.bind (spi_device_cmd_get_leaves h) ?_
  rintro cmd w1 ⟨h1, hpayload⟩
  apply spi_device_flash_status_get_leaves
  split_ifs with hignored
  · exact Leaves.pure h1
  · have hwel : cmd.opcode = kSpiDeviceOpcodeReset ∨ w1.wel = true := by
      by_cases hreset : cmd.opcode = kSpiDeviceOpcodeReset
      · exact .inl hreset
      · right
        by_contra hclear
        exact hignored ⟨hreset, by simpa [World.wel] using hclear⟩
    refine Leaves.bind (bootstrap_execute_leaves hpayload h1 hwel) fun _ w2 h2 => ?_
    exact Leaves.modify_bind (Leaves.pure (h2.congr rfl rfl))

/-- Each state's handler keeps the invariant of the event loop. -/
theorem bootstrap_handle_leaves (state : BootstrapState) (w : World)
    (h : Served perms state.done w) : HandlerLeaves perms (bootstrap_handle state) w := by
  cases state with
  | kBootstrapStateErase => exact bootstrap_handle_erase_leaves h
  | kBootstrapStateEraseVerify => exact bootstrap_handle_erase_verify_leaves h
  | kBootstrapStateProgram => exact bootstrap_handle_program_leaves h

/-- However many commands of whatever kind arrive, and whichever flash operations fail:
each operation ever issued is allowed by what was done before it, and the default
permissions are disabled whenever a handler has returned, if anyone has touched them. -/
theorem bootstrap_safe (uploads : List Upload) (flash_status : u32) (perms : FlashCtrlPerms)
    (fate : ℕ → Fate) (n : ℕ) :
    let run := enter_bootstrap n (.on (.entered uploads flash_status perms) fate)
    (∀ pre op wel post, run.2.mem.log = pre ++ .issued op wel :: post →
      (op.modifies → wel = true ∧ ∀ a, op.Changes a → a < kMaxAddress) ∧
      ((∃ addr data, op = .data_write addr data) → ErasedAndVerified pre)) ∧
    (run.1 ≠ .trap → run.1 ≠ .lost → PermsClosed perms run.2.mem) := by
  intro run
  have hstart : Served perms kBootstrapStateErase.done (.entered uploads flash_status perms) :=
    ⟨safe_nil, .inr ⟨rfl, fun _ => List.not_mem_nil⟩, List.nil_sublist _⟩
  have hleaves := Leaves.rounds bootstrap_handle_leaves n hstart
  have hsafe : Safe Allowed run.2.mem.log :=
    hleaves.mem (fun _ _ h => h.safe) (fun _ _ h => h.safe) (fun _ h => h) rfl
  refine ⟨fun pre op wel post hlog => ?_, ?_⟩
  · have hop : Allowed pre (.issued op wel) := hsafe pre _ post hlog
    refine ⟨fun hmod => ⟨(hop hmod).1, (hop hmod).2.1⟩, ?_⟩
    rintro ⟨addr, data, rfl⟩
    exact (hop rfl).2.2 ⟨addr, data, rfl⟩
  · exact hleaves.mem_of_running (P := PermsClosed perms) (fun _ _ h => h.closed)
      (fun _ _ h => h.closed) rfl

/-- A page program before and after the erase: the first is ignored, the second wraps
within its programming page. -/
example :
    let run := enter_bootstrap 4 (.on (.entered
      [.cmd kSpiDeviceOpcodePageProgram (some 0) [1] 2, .cmd kSpiDeviceOpcodeSectorErase (some 0) [] 2,
        .cmd kSpiDeviceOpcodePageProgram (some 0x1f8) (List.replicate 10 7) 2] 0 no_perms)
      fun _ => .done)
    run.1 = .ret kBootstrapStateProgram ∧ run.2.mem.default_perms = no_perms ∧
      run.2.mem.log.filter (fun e => ∃ op ∈ [FlashOp.data_write 0x1f8 (List.replicate 8 7),
        .data_write 0x100 ([7, 7] ++ List.replicate 6 0xff)], e = .issued op true) =
        [.issued (.data_write 0x1f8 (List.replicate 8 7)) true,
          .issued (.data_write 0x100 ([7, 7] ++ List.replicate 6 0xff)) true] := by
  decide +kernel

end IbexFirmware.Bootstrap
