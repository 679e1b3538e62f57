/-
The rescue protocol (`lib/rescue/rescue.c` and its XModem transport
`lib/rescue/rescue_xmodem.c`).

A session is a loop around `protocol_round`. A round first serves the modes that send
data to the host, then takes one frame, or one byte of a mode command, off the line.
The state is `rescue_state_t`, whose memory is whatever the stack held before
`rescue_state_init` and `rescue_validate_mode` have set what they set.

The world around it is the flash data partition by byte address, owner page 1, the
retention RAM, and a log of what was done: which modes were accepted, what was staged,
erased, written and acknowledged. Flash operations have the fates of `PowerFail`. The
access permissions and the console output of the source are left out, and so is the
`KLBR` command, which a regular build does not have.
-/
import IbexFirmware.Lib.Session
import IbexFirmware.OwnerBlockParse
import IbexFirmware.Xmodem

set_option autoImplicit false

namespace IbexFirmware.Rescue

open Bytes OwnerBlock PowerFail Session Xmodem

/-! ## Constants -/

def kFlashPageSize : ℕ := 2048

/-- `FLASH_CTRL_PARAM_REG_PAGES_PER_BANK`. -/
def kFlashPagesPerBank : ℕ := 256

def kFlashBankSize : ℕ := kFlashPageSize * kFlashPagesPerBank
def CHIP_ROM_EXT_SIZE_MAX : ℕ := 0x10000

/-- `sizeof` of the data buffer and of what is staged in it. -/
def kDataSize : ℕ := 2048
def kBootLogSize : ℕ := 128
def kBootSvcMsgSize : ℕ := 256
def kDeviceIdSize : ℕ := 32

def kRescueModeBaud : u32 := 0x42415544
def kRescueModeBootLog : u32 := 0x424c4f47
def kRescueModeBootSvcRsp : u32 := 0x42525350
def kRescueModeBootSvcReq : u32 := 0x42524551
def kRescueModeOwnerBlock : u32 := 0x4f574e52
def kRescueModeOwnerPage0 : u32 := 0x4f504730
def kRescueModeOwnerPage1 : u32 := 0x4f504731
def kRescueModeOpenTitanID : u32 := 0x4f544944
def kRescueModeFirmware : u32 := 0x52455351
def kRescueModeFirmwareSlotB : u32 := 0x52455342
def kRescueModeReboot : u32 := 0x5245424f
def kRescueModeWait : u32 := 0x57414954

/-- The speeds of `rescue_baud_t`, by name from 115K to 1M50. -/
def rescue_bauds : List u32 :=
  [0x4b353131, 0x4b303332, 0x4b303634, 0x4b313239, 0x33334d31, 0x30354d31]

/-! ## State -/

/-- `rescue_state_t`. A null configuration pointer is `none`. -/
structure RescueState where
  mode : u32
  reboot : Bool
  frame : u32
  offset : ℕ
  staged_len : ℕ
  flash_offset : ℕ
  flash_start : ℕ
  flash_limit : ℕ
  config : Option Item
  data : Mem

/-- What a session does. -/
inductive Event where
  /-- `rescue_validate_mode` has accepted a mode. -/
  | validated (mode : u32)
  /-- An upload starts anew. -/
  | upload_started
  /-- `rescue_send_handler` has staged data. -/
  | staged (mode : u32)
  | data_erase (mode : u32) (addr : ℕ)
  | data_write (mode : u32) (addr : ℕ) (data : List u8)
  | owner_slot_1_erase (mode : u32)
  | owner_slot_1_write (mode : u32)
  | boot_svc_msg_write (mode : u32)
  /-- A frame has been accepted. -/
  | accepted (payload : List u8)
  /-- The end of an upload has been acknowledged. -/
  | eof_acked
  | uart_init (speed : u32)
  | rstmgr_reset
  deriving DecidableEq

structure World where
  state : RescueState
  line : Line
  tx : List u8
  ownership_state : u32
  newversion_mode : Bool
  flash : Mem
  owner_slot : Fin 2 → Mem
  boot_log : Mem
  boot_svc_msg : Mem
  device_id : Mem
  log : List Event

abbrev Protocol (α : Type) : Type := Proc World RomError α

def World.record (w : World) (events : List Event) : World := { w with log := w.log ++ events }

/-- A computation that cannot fail. -/
def compute {α : Type} (f : World → α × World) : Protocol α := do
  let w ← Proc.get
  Proc.modify fun _ => (f w).2
  return (f w).1

theorem compute_bind {α β : Type} (f : World → α × World) (g : α → Protocol β)
    (m : Machine World) :
    (compute f >>= g) m = g (f m.mem).1 { m with mem := (f m.mem).2 } := rfl

theorem leaves_compute_bind {α β : Type} {f : World → α × World} {g : α → Protocol β} {w : World}
    {Q : β → World → Prop} {E : RomError → World → Prop} {H : World → Prop}
    (h : Leaves (g (f w).1) (f w).2 Q E H) : Leaves (compute f >>= g) w Q E H := by
  rintro m rfl
  exact h _ rfl

theorem maintains_compute {α : Type} {I : World → Prop} {f : World → α × World}
    (h : ∀ w, I w → I (f w).2) : Maintains I (compute f) :=
  fun w hw => Leaves.get (Leaves.modify_bind (Leaves.pure (h w hw)))

def set_state (f : RescueState → RescueState) : Protocol Unit :=
  .modify fun w => { w with state := f w.state }

def record (event : Event) : Protocol Unit := .modify fun w => w.record [event]

def uart_write (bytes : List u8) : Protocol Unit := .modify fun w => { w with tx := w.tx ++ bytes }

/-- `HARDENED_RETURN_IF_ERROR`. -/
def return_if_error (error : RomError) : Protocol Unit :=
  if error = .kErrorOk then pure () else .throw error

/-! ## The configuration -/

/-- The number of words in `command_allow`, as the source computes it from the length. -/
def command_allow_length (rescue : Item) : ℕ := (BitVec.ofNat 32 rescue.length - 16#32).toNat / 4

def owner_rescue_command_allowed (rescue : Option Item) (command : u32) : Bool :=
  match rescue with
  | none => true
  | some rescue =>
      (List.range (command_allow_length rescue)).any fun i => rescue.u32At (16 + 4 * i) = command

def rescue_state_init (config : Option Item) (state : RescueState) : RescueState :=
  match config with
  | none =>
      { state with
        config := none, flash_start := CHIP_ROM_EXT_SIZE_MAX, flash_limit := kFlashBankSize }
  | some rescue =>
      { state with
        config := some rescue
        flash_start := (rescue.u16At 12).toNat * kFlashPageSize
        flash_limit := ((rescue.u16At 12).toNat + (rescue.u16At 14).toNat) * kFlashPageSize }

theorem rescue_state_init_config (config : Option Item) (state : RescueState) :
    (rescue_state_init config state).config = config := by
  cases config <;> rfl

theorem rescue_state_init_mode (config : Option Item) (state : RescueState) :
    (rescue_state_init config state).mode = state.mode := by
  cases config <;> rfl

/-! ## Writing the firmware -/

/-- A data flash with the page at `addr` erased. -/
def erase_page (flash : Mem) (addr : ℕ) : Mem :=
  fun a => if a / kFlashPageSize = addr / kFlashPageSize then 0xff else flash a

/-- A data flash after `data` has been programmed. Programming clears bits. -/
def program (flash : Mem) (addr : ℕ) (data : List u8) : Mem :=
  fun a => if addr ≤ a ∧ a < addr + data.length then flash a &&& data.getD (a - addr) 0 else flash a

def flash_ctrl_data_erase (addr : ℕ) : Protocol Unit := do
  Proc.modify fun w => w.record [.data_erase w.state.mode addr]
  Proc.step .kErrorFlashCtrlDataErase fun w => ((), { w with flash := erase_page w.flash addr })

def flash_ctrl_data_write (addr : ℕ) (data : List u8) : Protocol Unit := do
  Proc.modify fun w => w.record [.data_write w.state.mode addr data]
  Proc.step .kErrorFlashCtrlDataWrite fun w => ((), { w with flash := program w.flash addr data })

/-- The addresses the erase loop goes through. -/
def page_addrs (start limit : ℕ) : List ℕ :=
  (List.range ((limit - start + (kFlashPageSize - 1)) / kFlashPageSize)).map fun i =>
    start + i * kFlashPageSize

def erase_pages (bank_offset : ℕ) : List ℕ → Protocol Unit
  | [] => pure ()
  | addr :: addrs => do
      flash_ctrl_data_erase (bank_offset + addr)
      erase_pages bank_offset addrs

/-- The offset of the bank that a mode writes. -/
def bank_offset (mode : u32) : ℕ := if mode = kRescueModeFirmwareSlotB then kFlashBankSize else 0

/-- The whole region is erased when the first block is written. -/
def flash_firmware_start : Protocol Unit := do
  let w ← Proc.get
  if w.state.flash_offset = 0 then do
    erase_pages (bank_offset w.state.mode) (page_addrs w.state.flash_start w.state.flash_limit)
    set_state fun s => { s with flash_offset := s.flash_start }
  else pure ()

def flash_firmware_block : Protocol Unit := do
  flash_firmware_start
  let w ← Proc.get
  if w.state.flash_offset < w.state.flash_limit then do
    flash_ctrl_data_write (bank_offset w.state.mode + w.state.flash_offset)
      (readBytes w.state.data 0 kDataSize)
    set_state fun s => { s with flash_offset := s.flash_offset + kDataSize }
  else Proc.throw .kErrorRescueImageTooBig

/-! ## Writing an owner block -/

/-- Whether an owner block may be uploaded. -/
def World.accepts_owner_block (w : World) : Bool :=
  w.ownership_state = kOwnershipStateUnlockedAny ∨
    w.ownership_state = kOwnershipStateUnlockedSelf ∨
      w.ownership_state = kOwnershipStateUnlockedEndorsed ∨
        w.ownership_state = kOwnershipStateLockedOwner ∧ w.newversion_mode = true

def flash_owner_block : Protocol Unit := do
  let w ← Proc.get
  if w.accepts_owner_block then do
    Proc.modify fun w => w.record [.owner_slot_1_erase w.state.mode]
    Proc.step .kErrorFlashCtrlInfoErase fun w =>
      ((), { w with owner_slot := Function.update w.owner_slot 1 fun _ => 0xff })
    Proc.modify fun w => w.record [.owner_slot_1_write w.state.mode]
    Proc.step .kErrorFlashCtrlInfoWrite fun w =>
      ((), { w with owner_slot := Function.update w.owner_slot 1
                      (program (w.owner_slot 1) 0 (readBytes w.state.data 0 kDataSize)) })
  else pure ()

/-! ## Modes -/

/-- The modes that `rescue_validate_mode` knows, an owner block upload apart. -/
def known_modes : List u32 :=
  [kRescueModeBootLog, kRescueModeBootSvcRsp, kRescueModeBootSvcReq, kRescueModeFirmware,
    kRescueModeFirmwareSlotB, kRescueModeOwnerPage0, kRescueModeOwnerPage1, kRescueModeOpenTitanID]

/-- The label `exitproc`, from which on an upload starts anew. -/
def exitproc (result : RomError) (w : World) : RomError × World :=
  let w := { w with state := { w.state with frame := 1, offset := 0, flash_offset := 0 } }
  (result, w.record [.upload_started])

/-- A mode is accepted, and entered if it is one to be in. -/
def accept_mode (mode : u32) (w : World) : World :=
  { w with state := { w.state with mode := mode } }.record [.validated mode]

def rescue_validate_mode (mode : u32) (w : World) : RomError × World :=
  if mode = kRescueModeReboot then exitproc .kErrorOk (accept_mode mode w)
  else if mode = kRescueModeWait then
    exitproc .kErrorOk ({ w with state := { w.state with reboot := false } }.record [.validated mode])
  else if owner_rescue_command_allowed w.state.config mode then
    if mode = kRescueModeOwnerBlock then
      if w.accepts_owner_block then exitproc .kErrorOk (accept_mode mode w)
      else (.kErrorRescueBadMode, w)
    else if mode ∈ known_modes then exitproc .kErrorOk (accept_mode mode w)
    else (.kErrorRescueBadMode, w)
  else exitproc .kErrorRescueBadMode w

/-- Put `bytes` into the data buffer to be sent. -/
def stage (bytes : List u8) : Protocol RomError := do
  Proc.modify fun w =>
    { w with state := { w.state with
        data := writeBytes w.state.data 0 bytes, staged_len := bytes.length } }.record
      [.staged w.state.mode]
  return .kErrorRescueSendStart

/-- `flash_ctrl_info_read` of a whole owner page. -/
def read_owner_slot (page : Fin 2) : Protocol (List u8) :=
  .step .kErrorFlashCtrlInfoRead fun w => (readBytes (w.owner_slot page) 0 kDataSize, w)

/-- The receive modes, for which there is nothing to send. -/
def recv_modes : List u32 :=
  [kRescueModeBootSvcReq, kRescueModeOwnerBlock, kRescueModeFirmware, kRescueModeFirmwareSlotB]

/-- The send modes, for which there is nothing to receive. -/
def send_modes : List u32 :=
  [kRescueModeBootLog, kRescueModeBootSvcRsp, kRescueModeOpenTitanID, kRescueModeOwnerPage0,
    kRescueModeOwnerPage1]

def rescue_send_handler : Protocol RomError := do
  let w ← Proc.get
  if !owner_rescue_command_allowed w.state.config w.state.mode then Proc.throw .kErrorRescueBadMode
  else if w.state.mode = kRescueModeBootLog then stage (readBytes w.boot_log 0 kBootLogSize)
  else if w.state.mode = kRescueModeBootSvcRsp then
    stage (readBytes w.boot_svc_msg 0 kBootSvcMsgSize)
  else if w.state.mode = kRescueModeOpenTitanID then stage (readBytes w.device_id 0 kDeviceIdSize)
  else if w.state.mode = kRescueModeOwnerPage0 then read_owner_slot 0 >>= stage
  else if w.state.mode = kRescueModeOwnerPage1 then read_owner_slot 1 >>= stage
  else if w.state.mode ∈ recv_modes then return .kErrorOk
  else if w.state.mode = kRescueModeReboot then Proc.throw .kErrorRescueReboot
  else Proc.throw .kErrorRescueBadMode

/-- The type of a boot services message, behind its digest and identifier. -/
def boot_svc_msg_type (data : Mem) : u32 := readWord data 36

def rescue_recv_handler : Protocol Unit := do
  let w ← Proc.get
  if !owner_rescue_command_allowed w.state.config w.state.mode then Proc.throw .kErrorRescueBadMode
  else if w.state.mode ∈ send_modes then pure ()
  else if w.state.mode = kRescueModeBootSvcReq then
    if kBootSvcMsgSize ≤ w.state.offset then
      if !owner_rescue_command_allowed w.state.config (boot_svc_msg_type w.state.data) then
        Proc.throw .kErrorRescueBadMode
      else do
        Proc.modify fun w =>
          { w with boot_svc_msg := writeBytes w.boot_svc_msg 0
                     (readBytes w.state.data 0 kBootSvcMsgSize) }.record
            [.boot_svc_msg_write w.state.mode]
        set_state fun s => { s with offset := 0 }
    else pure ()
  else if w.state.mode = kRescueModeOwnerBlock then
    if w.state.offset = kDataSize then do
      flash_owner_block
      set_state fun s => { s with offset := 0 }
    else pure ()
  else if w.state.mode = kRescueModeFirmware ∨ w.state.mode = kRescueModeFirmwareSlotB then
    if w.state.offset = kDataSize then do
      flash_firmware_block
      set_state fun s => { s with offset := 0 }
    else pure ()
  else Proc.throw .kErrorRescueBadMode

/-! ## The XModem transport -/

/-- The little-endian word of up to four bytes. -/
def word_of (bytes : List u8) : u32 :=
  word (bytes.getD 0 0) (bytes.getD 1 0) (bytes.getD 2 0) (bytes.getD 3 0)

def change_speed (w : World) : World :=
  let (bytes, rest) := xmodem_read 4 w.line
  let speed := word_of bytes
  let w := { w with line := rest }
  if speed ∈ rescue_bauds then w.record [.uart_init speed] else w

def validate_mode (mode : u32) (w : World) : RomError × World :=
  if mode = kRescueModeBaud then (.kErrorOk, change_speed w) else rescue_validate_mode mode w

/-- `xmodem_send` over the session's line. -/
def send_staged : Protocol RomError :=
  compute fun w =>
    let sent := xmodem_send (readBytes w.state.data 0 w.state.staged_len) w.line
    let eof := if sent.result = .kErrorOk then [kXModemEof] else []
    (sent.result, { w with line := sent.rest, tx := w.tx ++ sent.frames.flatten ++ eof })

def handle_send_modes : Protocol RomError := do
  let error ← rescue_send_handler
  let w ← Proc.get
  if error = .kErrorRescueSendStart ∧ 0 < w.state.staged_len then do
    let error ← send_staged
    set_state fun s => { s with staged_len := 0 }
    let _ ← compute (validate_mode kRescueModeFirmware)
    return error
  else return error

/-- An upload that is refused is cancelled. -/
def handle_recv_modes : Protocol Unit := do
  let result ← Proc.attempt rescue_recv_handler
  if result = .error .kErrorRescueImageTooBig ∨ result = .error .kErrorRescueBadMode then do
    uart_write [kXModemCancel, kXModemCancel]
    Proc.ofExcept result
  else Proc.ofExcept result

/-- One call of `xmodem_recv_frame`, which writes to the data buffer behind `offset`. -/
def recv_frame (w : World) : Received × World :=
  let received := xmodem_recv_frame w.state.frame (kDataSize - w.state.offset) w.line
  (received,
    { w with
      line := received.rest
      tx := w.tx ++ received.tx
      state := { w.state with data := writeBytes w.state.data w.state.offset received.data } })

def xmodem_recv_start : Protocol Unit := uart_write [kXModemCrc16]
def xmodem_ack (ack : Bool) : Protocol Unit := uart_write [if ack then kXModemAck else kXModemNak]

/-- The case of a frame that is as it should be. -/
def packet_ok (rxlen : ℕ) (payload : List u8) : Protocol Unit := do
  set_state fun s => { s with offset := s.offset + rxlen }
  record (.accepted payload)
  handle_recv_modes
  xmodem_ack true
  set_state fun s => { s with frame := s.frame + 1 }

/-- The residue of an upload is extended out to a full block. -/
def extend_residue : Protocol Unit := do
  let w ← Proc.get
  if w.state.offset % kDataSize ≠ 0 then do
    set_state fun s =>
      let missing := kDataSize - s.offset % kDataSize
      { s with data := writeBytes s.data s.offset (List.replicate missing 0xff)
               offset := s.offset + missing }
    handle_recv_modes
  else pure ()

/-- The case of the end of an upload. -/
def end_of_file : Protocol Unit := do
  extend_residue
  xmodem_ack true
  record .eof_acked
  let w ← Proc.get
  if w.state.reboot then Proc.throw .kErrorRescueReboot
  else set_state fun s => { s with frame := 1, offset := 0, flash_offset := 0 }

/-- The carriage return that ends a mode command. -/
def kCarriageReturn : u8 := 0x0d

/-- What `protocol` does with what `xmodem_recv_frame` has returned for frame `frame`. The
mode command that is being entered is passed through, and a return of `protocol` is
thrown. -/
def handle_frame (frame next_mode : u32) (received : Received) : Protocol u32 :=
  if frame = 1 ∧ received.result = .kErrorXModemTimeoutStart then do
    xmodem_recv_start
    return next_mode
  else if received.result = .kErrorOk then do
    packet_ok received.rxlen received.data
    return next_mode
  else if received.result = .kErrorXModemEndOfFile then do
    end_of_file
    return next_mode
  else if received.result = .kErrorXModemCrc then do
    xmodem_ack false
    return next_mode
  else if received.result = .kErrorXModemUnknown ∧ frame = 1 then
    if received.unknown_rx = kCarriageReturn then do
      let _ ← compute (validate_mode next_mode)
      return 0
    else return (next_mode <<< 8 ||| received.unknown_rx.setWidth 32)
  else Proc.throw received.result

/-- A round of `protocol` behind the send modes. -/
def protocol_receive (next_mode : u32) : Protocol u32 := do
  let w ← Proc.get
  let received ← compute recv_frame
  handle_frame w.state.frame next_mode received

def protocol_round (next_mode : u32) : Protocol u32 := do
  let error ← handle_send_modes
  return_if_error error
  protocol_receive next_mode

/-- `protocol` up to the end of the `n`th round. -/
def protocol (n : ℕ) : Protocol u32 := do
  set_state fun s => { s with reboot := true }
  let _ ← compute (validate_mode kRescueModeFirmware)
  xmodem_recv_start
  rounds protocol_round n 0

/-- What `rescue_protocol` does with the result of `protocol`. -/
def reset_on_reboot (p : Protocol u32) : Protocol u32 := do
  let result ← Proc.attempt p
  if result = .error .kErrorRescueReboot then do
    record .rstmgr_reset
    Proc.ofExcept result
  else Proc.ofExcept result

/-- A session, in a world whose rescue state is whatever its memory holds. -/
def rescue_protocol (config : Option Item) (n : ℕ) : Protocol u32 := do
  set_state (rescue_state_init config)
  reset_on_reboot (protocol n)

theorem one_command_fits (command : u32) : [command].length ≤ 380 := by simp

/-- A rescue configuration with the region from page `start` on, `size` pages long, that
allows `commands`. -/
def rescue_config (start size : u16) (commands : List u32) (h : commands.length ≤ 380) : Item :=
  let bytes := (TlvHeader.mk kTlvTagRescueConfig (BitVec.ofNat 16 (16 + 4 * commands.length)) 0 0).bytes ++
    [0x58, 0, 0, 0x40, start.setWidth 8, (start >>> 8).setWidth 8, size.setWidth 8,
      (size >>> 8).setWidth 8] ++ commands.flatMap le32
  ⟨data_with bytes (by
    simp [bytes, TlvHeader.bytes, kOwnerDataSize, -List.length_flatMap, length_flatMap_le32]
    omega), 0⟩

/-- A memory for the state that holds `mode` and zeros, and a world around it in which
`line` will be received. -/
def World.filled (mode : u32) (line : Line) : World where
  state := ⟨mode, false, 0, 0, 0, 0, 0, 0, none, fun _ => 0⟩
  line := line
  tx := []
  ownership_state := kOwnershipStateLockedOwner
  newversion_mode := false
  flash := fun _ => 0
  owner_slot := fun _ _ => 0
  boot_log := fun _ => 0
  boot_svc_msg := fun _ => 0
  device_id := fun _ => 0
  log := []

end IbexFirmware.Rescue
