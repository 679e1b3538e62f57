/-
The USB driver (`usb.c`): endpoints, buffer pool, stall bits, and the way of an IN transfer.

A transfer is sent in packets. `usb_ep_transfer` sends the first one, and `handle_in` sends
the next when the device has had the one before acknowledged. `handle_in_ep` is what
`handle_in` does for one endpoint. It returns the call of the endpoint's handler that ends
the transfer, if there is one, so that nothing need be said of handlers here; `handle_in`
gets their effect as a parameter.

A trap is `none`. Where an endpoint's index is out of range the source reads and writes behind
its arrays, and so do the maps here that stand for them.
-/
import IbexFirmware.RomError
import IbexFirmware.UsbBuffer

set_option autoImplicit false

namespace IbexFirmware.Usb

open Bytes Json

/-! ## Constants -/

def kUsbDirIn : u8 := 0x80
def kEpNumMask : u8 := 0xf

def kUsbEpTypeBulk : u32 := 0
def kUsbEpTypeControl : u32 := 2

def kUsbTransferFlagsShortIn : u32 := 1
def kUsbTransferFlagsZlp : u32 := 2
def kUsbTransferFlagsZlpAck : u32 := 0x0800
def kUsbTransferFlagsError : u32 := 0x2000
def kUsbTransferFlagsDone : u32 := 0x4000

/-! ## The state of driver and device -/

/-- `usb_transfer_t`. -/
structure UsbTransfer where
  data : ℕ
  len : ℕ
  bytes_transfered : ℕ
  flags : u32
  deriving DecidableEq

/-- `usb_ep_info_t`. Handler and context are pointers. -/
structure UsbEpInfo where
  type : u32
  max_packet_size : ℕ
  transfer : UsbTransfer
  handler : ℕ
  user_ctx : ℕ
  deriving DecidableEq

/-- Whether `type & kUsbEpTypeControl` is set. -/
def isControl (type : u32) : Prop := type &&& kUsbEpTypeControl ≠ 0

instance (type : u32) : Decidable (isControl type) := inferInstanceAs (Decidable (_ ≠ _))

/-- Whether `flag` is among the flags. -/
def hasFlag (flags flag : u32) : Prop := flags &&& flag ≠ 0

instance (flags flag : u32) : Decidable (hasFlag flags flag) :=
  inferInstanceAs (Decidable (_ ≠ _))

/-- The driver's variables, the bus and the memory. -/
structure UsbState where
  in_endpoints : ℕ → UsbEpInfo
  out_endpoints : ℕ → UsbEpInfo
  buffer_pool : u32
  bus : Bus
  mem : Mem

variable (L : Layout)

/-! ## Registers -/

/-- The bits of a register that a write of one clears: the bits of `in_sent`, and `pend` of
the `configin` registers. -/
def Layout.rw1c (addr : ℕ) : u32 :=
  if addr = L.kBase + L.USBDEV_IN_SENT_REG_OFFSET then BitVec.allOnes 32
  else if ∃ ep ∈ List.range USBDEV_PARAM_N_ENDPOINTS, addr = L.kBase + L.configin_offset ep then
    (1 : u32) <<< L.USBDEV_CONFIGIN_0_PEND_0_BIT
  else 0

def abs_mmio_read32 (addr : ℕ) (s : UsbState) : u32 := s.bus addr

def abs_mmio_write32 (addr : ℕ) (val : u32) (s : UsbState) : UsbState :=
  { s with
    bus := store s.bus addr ((val &&& ~~~L.rw1c addr) ||| (s.bus addr &&& ~~~val &&& L.rw1c addr)) }

def usbreg_bit (offset bit : ℕ) (value : Bool) (s : UsbState) : UsbState :=
  abs_mmio_write32 L (L.kBase + offset)
    (bitfield_bit32_write (abs_mmio_read32 (L.kBase + offset) s) bit value) s

section registers

variable {L} {addr addr' : ℕ} {val : u32} {s : UsbState}

@[simp] theorem abs_mmio_write32_in_endpoints :
    (abs_mmio_write32 L addr val s).in_endpoints = s.in_endpoints := rfl

theorem abs_mmio_write32_bus :
    (abs_mmio_write32 L addr val s).bus addr =
      (val &&& ~~~L.rw1c addr) ||| (s.bus addr &&& ~~~val &&& L.rw1c addr) :=
  Function.update_self ..

theorem abs_mmio_write32_bus_of_ne (h : addr' ≠ addr) :
    (abs_mmio_write32 L addr val s).bus addr' = s.bus addr' :=
  Function.update_of_ne h _ _

/-- Most registers keep what is written to them. -/
theorem abs_mmio_write32_bus_of_rw1c (h : L.rw1c addr = 0) :
    (abs_mmio_write32 L addr val s).bus addr = val := by
  rw [abs_mmio_write32_bus, h, show ~~~(0 : u32) = BitVec.allOnes 32 from rfl,
    BitVec.and_allOnes]
  simp

end registers

/-! ## The buffer pool -/

def buffer_pool_put (id : ℕ) (s : UsbState) : Option UsbState := do
  hardened_check (s.buffer_pool ≠ BitVec.allOnes 32)
  pure { s with buffer_pool := s.buffer_pool ||| (1 : u32) <<< id }

def buffer_pool_get (s : UsbState) : Option (ℕ × UsbState) := do
  hardened_check (s.buffer_pool ≠ 0)
  let id := bitfield_find_first_set32 s.buffer_pool - 1
  pure (id, { s with buffer_pool := s.buffer_pool &&& ~~~((1 : u32) <<< id) })

/-! ## Stall bits and endpoints -/

def usb_ep_stall (ep : u8) (enable : Bool) (s : UsbState) : RomError × UsbState :=
  let i := (ep &&& kEpNumMask).toNat
  if i ≥ USBDEV_PARAM_N_ENDPOINTS then (.kErrorUsbBadEndpointNumber, s)
  else
    let s :=
      if ep &&& kUsbDirIn ≠ 0 ∨ isControl (s.in_endpoints i).type then
        usbreg_bit L L.USBDEV_IN_STALL_REG_OFFSET i enable s
      else s
    let s :=
      if ep &&& kUsbDirIn = 0 then usbreg_bit L L.USBDEV_OUT_STALL_REG_OFFSET i enable s else s
    (.kErrorOk, s)

/-- The last component is what is at `stalled` afterwards. -/
def usb_ep_stalled (ep : u8) (stalled : Bool) (s : UsbState) : RomError × Bool :=
  let reg :=
    if ep &&& kUsbDirIn ≠ 0 then abs_mmio_read32 L.USBDEV_IN_STALL_REG_OFFSET s
    else abs_mmio_read32 L.USBDEV_OUT_STALL_REG_OFFSET s
  let i := (ep &&& kEpNumMask).toNat
  if i ≥ USBDEV_PARAM_N_ENDPOINTS then (.kErrorUsbBadEndpointNumber, stalled)
  else (.kErrorOk, reg &&& (1 : u32) <<< i != 0)

/-- An endpoint as `usb_ep_init` leaves it. -/
def fresh_endpoint (type : u32) (max_packet_size handler user_ctx : ℕ) : UsbEpInfo :=
  ⟨type, max_packet_size, ⟨0, 0, 0, 0⟩, handler, user_ctx⟩

def usb_ep_init (ep : u8) (type : u32) (max_packet_size handler user_ctx : ℕ) (s : UsbState) :
    RomError × UsbState :=
  let i := (ep &&& kEpNumMask).toNat
  if i ≥ USBDEV_PARAM_N_ENDPOINTS then (.kErrorUsbBadEndpointNumber, s)
  else
    let endpoint := fresh_endpoint type max_packet_size handler user_ctx
    let s :=
      if ep &&& kUsbDirIn = 0 ∨ isControl type then
        usbreg_bit L L.USBDEV_RXENABLE_OUT_REG_OFFSET i false
          (usbreg_bit L L.USBDEV_SET_NAK_OUT_REG_OFFSET i false
            (usbreg_bit L L.USBDEV_EP_OUT_ENABLE_REG_OFFSET i true
              { s with out_endpoints := Function.update s.out_endpoints i endpoint }))
      else s
    let s :=
      if isControl type then usbreg_bit L L.USBDEV_RXENABLE_SETUP_REG_OFFSET i true s else s
    let s :=
      if ep &&& kUsbDirIn ≠ 0 ∨ isControl type then
        usbreg_bit L L.USBDEV_EP_IN_ENABLE_REG_OFFSET i true
          { s with in_endpoints := Function.update s.in_endpoints i endpoint }
      else s
    (.kErrorOk, (usb_ep_stall L ep false s).2)

/-! ## Transfers -/

/-- The IN endpoint `i` with another transfer. -/
def UsbState.set_in (s : UsbState) (i : ℕ) (transfer : UsbTransfer) : UsbState :=
  { s with
    in_endpoints := Function.update s.in_endpoints i { s.in_endpoints i with transfer := transfer } }

/-- The OUT endpoint `i` with another transfer. -/
def UsbState.set_out (s : UsbState) (i : ℕ) (transfer : UsbTransfer) : UsbState :=
  { s with
    out_endpoints :=
      Function.update s.out_endpoints i { s.out_endpoints i with transfer := transfer } }

@[simp] theorem UsbState.set_in_self (s : UsbState) (i : ℕ) (transfer : UsbTransfer) :
    (s.set_in i transfer).in_endpoints i = { s.in_endpoints i with transfer := transfer } :=
  Function.update_self ..

@[simp] theorem UsbState.set_out_self (s : UsbState) (i : ℕ) (transfer : UsbTransfer) :
    (s.set_out i transfer).out_endpoints i = { s.out_endpoints i with transfer := transfer } :=
  Function.update_self ..

/-- What `send_packet` writes to `configin`. -/
def configin_ready (buffer chunk : ℕ) : u32 :=
  let val := bitfield_field32_write 0 L.USBDEV_CONFIGIN_0_BUFFER_0_FIELD (BitVec.ofNat 32 buffer)
  let val := bitfield_field32_write val L.USBDEV_CONFIGIN_0_SIZE_0_FIELD (BitVec.ofNat 32 chunk)
  bitfield_bit32_write val L.USBDEV_CONFIGIN_0_RDY_0_BIT true

def send_packet (ep_index : ℕ) (s : UsbState) : Option UsbState := do
  let endpoint := s.in_endpoints ep_index
  let transfer := endpoint.transfer
  let chunk :=
    if endpoint.max_packet_size < transfer.len then endpoint.max_packet_size else transfer.len
  let (buffer, s) ← buffer_pool_get s
  let s := { s with bus := copy_to_buffer L buffer s.mem transfer.data chunk s.bus }
  let s :=
    s.set_in ep_index
      { transfer with
        data := transfer.data + chunk
        len := transfer.len - chunk
        flags :=
          if chunk < endpoint.max_packet_size then transfer.flags &&& ~~~kUsbTransferFlagsShortIn
          else transfer.flags }
  pure (abs_mmio_write32 L (L.kBase + L.configin_offset ep_index) (configin_ready L buffer chunk) s)

def usb_ep_transfer (ep : u8) (data len : ℕ) (flags : u32) (s : UsbState) :
    Option (RomError × UsbState) :=
  let i := (ep &&& kEpNumMask).toNat
  if i ≥ USBDEV_PARAM_N_ENDPOINTS then some (.kErrorUsbBadEndpointNumber, s)
  else
    let endpoint := if ep &&& kUsbDirIn ≠ 0 then s.in_endpoints i else s.out_endpoints i
    let transfer : UsbTransfer :=
      { data := data
        len := len
        bytes_transfered := 0
        flags :=
          if isControl endpoint.type ∧ len > 0 then flags ||| kUsbTransferFlagsZlp else flags }
    if ep &&& kUsbDirIn ≠ 0 then do
      let s ← send_packet L i (s.set_in i transfer)
      pure (.kErrorOk, s)
    else some (.kErrorOk, usbreg_bit L L.USBDEV_RXENABLE_OUT_REG_OFFSET i true (s.set_out i transfer))

/-- A call of an endpoint's handler at the end of a transfer, with the count of bytes that its
last argument points to. -/
structure HandlerCall where
  handler : ℕ
  user_ctx : ℕ
  ep : ℕ
  flags : u32
  bytes_transfered : ℕ
  deriving DecidableEq

/-- The call for an endpoint whose transfer is over. -/
def UsbEpInfo.call (endpoint : UsbEpInfo) (ep : ℕ) (flags : u32) : HandlerCall :=
  ⟨endpoint.handler, endpoint.user_ctx, ep, flags, endpoint.transfer.bytes_transfered⟩

/-- The end of the loop body of `handle_in`, from the comment on completing the transfer on. -/
def complete_in (ep : ℕ) (error : u32) (s : UsbState) : UsbState × HandlerCall :=
  let endpoint := s.in_endpoints ep
  let ep_addr := if isControl endpoint.type then ep else ep ||| kUsbDirIn.toNat
  if hasFlag endpoint.transfer.flags kUsbTransferFlagsZlpAck then
    let s := s.set_in ep { endpoint.transfer with flags := 0 }
    let endpoint := s.out_endpoints ep_addr
    let flags := endpoint.transfer.flags ||| (kUsbTransferFlagsDone ||| error)
    (s.set_out ep_addr { endpoint.transfer with flags := flags }, endpoint.call ep_addr flags)
  else
    let flags := endpoint.transfer.flags ||| (kUsbTransferFlagsDone ||| error)
    (s.set_in ep { endpoint.transfer with flags := flags }, endpoint.call ep_addr flags)

/-- The loop body of `handle_in` for an endpoint whose bit of `in_sent` is set, up to the call of
the handler. -/
def handle_in_ep (ep : ℕ) (s : UsbState) : Option (UsbState × Option HandlerCall) := do
  let reg := abs_mmio_read32 (L.kBase + L.configin_offset ep) s
  let buffer := (bitfield_field32_read reg L.USBDEV_CONFIGIN_0_BUFFER_0_FIELD).toNat
  let s :=
    abs_mmio_write32 L (L.kBase + L.configin_offset ep)
      ((1 : u32) <<< L.USBDEV_CONFIGIN_0_PEND_0_BIT) s
  let s ← buffer_pool_put buffer s
  let s := abs_mmio_write32 L (L.kBase + L.USBDEV_IN_SENT_REG_OFFSET) ((1 : u32) <<< ep) s
  let transfer := (s.in_endpoints ep).transfer
  if bitfield_bit32_read reg L.USBDEV_CONFIGIN_0_PEND_0_BIT then
    let (s, call) := complete_in ep kUsbTransferFlagsError s
    pure (s, some call)
  else
    let size := (bitfield_field32_read reg L.USBDEV_CONFIGIN_0_SIZE_0_FIELD).toNat
    let s := s.set_in ep { transfer with bytes_transfered := transfer.bytes_transfered + size }
    if transfer.len > 0 ∨ transfer.len = 0 ∧ hasFlag transfer.flags kUsbTransferFlagsShortIn then
      let s ← send_packet L ep s
      pure (s, none)
    else if hasFlag transfer.flags kUsbTransferFlagsZlp then
      -- a control transfer ends with a packet of no bytes the other way
      let (_, s) ← usb_ep_transfer L (BitVec.ofNat 8 ep) 0 0 kUsbTransferFlagsZlpAck s
      pure (s, none)
    else
      let (s, call) := complete_in ep 0 s
      pure (s, some call)

/-- The loop of `handle_in` over the endpoints that are left. It is over as well when the loop
variable has got the direction bit, which takes it past the last endpoint. -/
def handle_in_loop (run_handler : HandlerCall → UsbState → Option UsbState) :
    List ℕ → u32 → UsbState → Option UsbState
  | [], _, s => some s
  | ep :: eps, sent, s =>
      if sent = 0 then some s
      else if sent &&& (1 : u32) <<< ep = 0 then handle_in_loop run_handler eps sent s
      else do
        let (s, call) ← handle_in_ep L ep s
        match call with
        | none => handle_in_loop run_handler eps (sent &&& ~~~((1 : u32) <<< ep)) s
        | some call =>
            let s ← run_handler call s
            if call.ep < USBDEV_PARAM_N_ENDPOINTS then
              handle_in_loop run_handler eps (sent &&& ~~~((1 : u32) <<< ep)) s
            else pure s

def handle_in (run_handler : HandlerCall → UsbState → Option UsbState) (s : UsbState) :
    Option UsbState :=
  handle_in_loop L run_handler (List.range USBDEV_PARAM_N_ENDPOINTS)
    (abs_mmio_read32 (L.kBase + L.USBDEV_IN_SENT_REG_OFFSET) s) s

end IbexFirmware.Usb
