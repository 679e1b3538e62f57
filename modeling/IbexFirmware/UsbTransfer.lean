/-
An IN transfer from `usb_ep_transfer` to the call of the handler (`usb.c`).

A run of the transfer has three kinds of steps. The device sends the packet that is ready, has
it acknowledged and sets the endpoint's bit of `in_sent`; `handle_in` comes to the endpoint and
takes the packet's buffer back; and anything else may happen that keeps what belongs to the
transfer (`Undisturbed`). A `History` has what can be seen of a run: the packets, the calls of the
handler, and the ends.

`Sending` is the invariant. The packets so far, the packet in the buffer and the bytes that the
endpoint still has to send are together the data, and all packets but the last are full. It
carries from step to step (`Sending.ack`, `Sending.handle`), and `in_transfer_exact` reads off
it that the packets are the data cut into chunks, and that the transfer ends once.
-/
import IbexFirmware.UsbStall
import IbexFirmware.Lib.Chunks

set_option autoImplicit false

namespace IbexFirmware.Usb

open Bytes Json

variable {L : Layout}

/-! ## The packet register -/

/-- The `configin` register of an endpoint. -/
def configin (L : Layout) (i : ℕ) (s : UsbState) : u32 := s.bus (L.kBase + L.configin_offset i)

def configin_buffer (L : Layout) (reg : u32) : ℕ :=
  (bitfield_field32_read reg L.USBDEV_CONFIGIN_0_BUFFER_0_FIELD).toNat

def configin_size (L : Layout) (reg : u32) : ℕ :=
  (bitfield_field32_read reg L.USBDEV_CONFIGIN_0_SIZE_0_FIELD).toNat

def configin_pend (L : Layout) (reg : u32) : Bool := reg.getLsbD L.USBDEV_CONFIGIN_0_PEND_0_BIT

def configin_rdy (L : Layout) (reg : u32) : Bool := reg.getLsbD L.USBDEV_CONFIGIN_0_RDY_0_BIT

/-- Whether the endpoint has a packet acknowledged that `handle_in` has not seen. -/
def in_sent (L : Layout) (i : ℕ) (s : UsbState) : Bool :=
  (s.bus (L.kBase + L.USBDEV_IN_SENT_REG_OFFSET)).getLsbD i

/-- The packet that the device sends for the endpoint. -/
def in_packet (L : Layout) (i : ℕ) (s : UsbState) : List u8 :=
  (List.range (configin_size L (configin L i s))).map
    (busByte s.bus (L.buffer_addr (configin_buffer L (configin L i s))))

theorem toNat_ofNat_lt {n k : ℕ} (hn : n < 2 ^ k) (hk : k ≤ 32) : (BitVec.ofNat 32 n).toNat = n := by
  rw [BitVec.toNat_ofNat]
  exact Nat.mod_eq_of_lt (lt_of_lt_of_le hn (Nat.pow_le_pow_right (by omega) hk))

/-- What a packet register holds when `send_packet` has written to it. -/
theorem configin_ready_fields {buffer chunk : ℕ} (hbuffer : buffer < 32) (hchunk : chunk < 128) :
    configin_buffer L (configin_ready L buffer chunk) = buffer ∧
      configin_size L (configin_ready L buffer chunk) = chunk ∧
      configin_pend L (configin_ready L buffer chunk) = false ∧
      configin_rdy L (configin_ready L buffer chunk) = true := by
  have hb : (BitVec.ofNat 32 buffer).toNat = buffer := toNat_ofNat_lt (k := 5) hbuffer (by omega)
  have hc : (BitVec.ofNat 32 chunk).toNat = chunk := toNat_ofNat_lt (k := 7) hchunk (by omega)
  have hrdy := wide_bit L.rdy_lt
  have hpend := L.pend_lt
  refine ⟨?_, ?_, ?_, ?_⟩
  · rw [configin_buffer, configin_ready, bitfield_bit32_write]
    refine Eq.trans (congrArg BitVec.toNat ?_) hb
    refine (field32_read_write_of_beside hrdy L.buffer_wide L.buffer_beside_rdy.symm _ _).trans ?_
    rw [field32_read_write_of_beside L.size_wide L.buffer_wide L.buffer_beside_size.symm]
    exact field32_read_write_of_lt L.buffer_wide _ _ (by rw [hb]; exact hbuffer)
  · rw [configin_size, configin_ready, bitfield_bit32_write]
    refine Eq.trans (congrArg BitVec.toNat ?_) hc
    refine (field32_read_write_of_beside hrdy L.size_wide L.size_beside_rdy.symm _ _).trans ?_
    exact field32_read_write_of_lt L.size_wide _ _ (by rw [hc]; exact hchunk)
  · have hb' := L.buffer_beside_pend
    have hs' := L.size_beside_pend
    simp only [BitfieldField32.Beside, bitfield_bit32_to_field32] at hb' hs'
    rw [configin_pend, configin_ready, getLsbD_bit32_write L.rdy_lt _ _ hpend,
      if_neg L.pend_ne_rdy, getLsbD_field32_write L.size_wide _ _ hpend, if_neg (by omega),
      getLsbD_field32_write L.buffer_wide _ _ hpend, if_neg (by omega)]
    simp
  · rw [configin_rdy, configin_ready, getLsbD_bit32_write L.rdy_lt _ _ L.rdy_lt, if_pos rfl]

/-- The device clears `rdy` and leaves the rest of the register. -/
theorem configin_clear_rdy_fields (reg : u32) :
    let reg' := bitfield_bit32_write reg L.USBDEV_CONFIGIN_0_RDY_0_BIT false
    configin_buffer L reg' = configin_buffer L reg ∧ configin_size L reg' = configin_size L reg ∧
      configin_pend L reg' = configin_pend L reg ∧ configin_rdy L reg' = false := by
  have hrdy := wide_bit L.rdy_lt
  refine ⟨?_, ?_, ?_, ?_⟩
  · exact congrArg BitVec.toNat
      (field32_read_write_of_beside hrdy L.buffer_wide L.buffer_beside_rdy.symm _ _)
  · exact congrArg BitVec.toNat
      (field32_read_write_of_beside hrdy L.size_wide L.size_beside_rdy.symm _ _)
  · rw [configin_pend, getLsbD_bit32_write L.rdy_lt _ _ L.pend_lt, if_neg L.pend_ne_rdy]
    rfl
  · rw [configin_rdy, getLsbD_bit32_write L.rdy_lt _ _ L.rdy_lt, if_pos rfl]

/-! ## Where the registers are -/

theorem mem_offsets_configin {i : ℕ} (hi : i < USBDEV_PARAM_N_ENDPOINTS) :
    L.configin_offset i ∈ L.offsets :=
  List.mem_append_right _ (List.mem_map.mpr ⟨i, List.mem_range.mpr hi, rfl⟩)

theorem mem_offsets_in_sent : L.USBDEV_IN_SENT_REG_OFFSET ∈ L.offsets := by
  simp [UsbdevRegs.offsets]

theorem in_sent_ne_configin {i : ℕ} (hi : i < USBDEV_PARAM_N_ENDPOINTS) :
    L.USBDEV_IN_SENT_REG_OFFSET ≠ L.configin_offset i :=
  (List.nodup_append.mp L.offsets_nodup).2.2 _ (by simp) _
    (List.mem_map.mpr ⟨i, List.mem_range.mpr hi, rfl⟩)

theorem rw1c_in_sent : L.rw1c (L.kBase + L.USBDEV_IN_SENT_REG_OFFSET) = BitVec.allOnes 32 :=
  if_pos rfl

theorem rw1c_configin {i : ℕ} (hi : i < USBDEV_PARAM_N_ENDPOINTS) :
    L.rw1c (L.kBase + L.configin_offset i) = (1 : u32) <<< L.USBDEV_CONFIGIN_0_PEND_0_BIT := by
  have hne := in_sent_ne_configin (L := L) hi
  rw [Layout.rw1c, if_neg (by omega), if_pos ⟨i, List.mem_range.mpr hi, rfl⟩]

/-- A write to a register in which `pend` is not set leaves it like that. -/
theorem getLsbD_configin_write {i : ℕ} (hi : i < USBDEV_PARAM_N_ENDPOINTS) (val : u32)
    (s : UsbState) (hpend : configin_pend L (configin L i s) = false) {j : ℕ} (hj : j < 32) :
    (configin L i (abs_mmio_write32 L (L.kBase + L.configin_offset i) val s)).getLsbD j =
      (val.getLsbD j && decide (j ≠ L.USBDEV_CONFIGIN_0_PEND_0_BIT)) := by
  rw [configin, abs_mmio_write32_bus, rw1c_configin hi]
  have hmask : ((1 : u32) <<< L.USBDEV_CONFIGIN_0_PEND_0_BIT).getLsbD j =
      decide (j = L.USBDEV_CONFIGIN_0_PEND_0_BIT) := getLsbD_one_shiftLeft hj
  simp only [BitVec.getLsbD_or, BitVec.getLsbD_and, BitVec.getLsbD_not, hj, decide_true,
    Bool.true_and, hmask]
  by_cases hjp : j = L.USBDEV_CONFIGIN_0_PEND_0_BIT
  · have hold : (s.bus (L.kBase + L.configin_offset i)).getLsbD j = false := hjp ▸ hpend
    simp [hold]
  · simp [hjp]

theorem configin_write_of_not_pend {i : ℕ} (hi : i < USBDEV_PARAM_N_ENDPOINTS) {val : u32}
    (s : UsbState) (hpend : configin_pend L (configin L i s) = false)
    (hval : configin_pend L val = false) :
    configin L i (abs_mmio_write32 L (L.kBase + L.configin_offset i) val s) = val := by
  apply BitVec.eq_of_getLsbD_eq
  intro j hj
  rw [getLsbD_configin_write hi val s hpend hj]
  by_cases hjp : j = L.USBDEV_CONFIGIN_0_PEND_0_BIT
  · have hbit : val.getLsbD j = false := hjp ▸ hval
    simp [hbit]
  · simp [hjp]

/-- `handle_in` clears the register. -/
theorem configin_write_pend {i : ℕ} (hi : i < USBDEV_PARAM_N_ENDPOINTS) (s : UsbState)
    (hpend : configin_pend L (configin L i s) = false) :
    configin L i (abs_mmio_write32 L (L.kBase + L.configin_offset i)
      ((1 : u32) <<< L.USBDEV_CONFIGIN_0_PEND_0_BIT) s) = 0 := by
  apply BitVec.eq_of_getLsbD_eq
  intro j hj
  have hmask : ((1 : u32) <<< L.USBDEV_CONFIGIN_0_PEND_0_BIT).getLsbD j =
      decide (j = L.USBDEV_CONFIGIN_0_PEND_0_BIT) := getLsbD_one_shiftLeft hj
  rw [getLsbD_configin_write hi _ s hpend hj, hmask]
  by_cases hjp : j = L.USBDEV_CONFIGIN_0_PEND_0_BIT <;> simp [hjp]

/-! ## Sending one packet -/

theorem buffer_pool_get_spec {s : UsbState} (h : s.buffer_pool ≠ 0) :
    ∃ id < 32, ∃ pool : u32, pool.getLsbD id = false ∧
      buffer_pool_get s = some (id, { s with buffer_pool := pool }) := by
  obtain ⟨id, hid, -, hfirst⟩ := find_first_set32_of_ne_zero h
  refine ⟨id, hid, s.buffer_pool &&& ~~~((1 : u32) <<< id), ?_, ?_⟩
  · rw [BitVec.getLsbD_and, BitVec.getLsbD_not, getLsbD_one_shiftLeft hid]
    simp
  · rw [buffer_pool_get, hardened_check, if_pos h, hfirst]
    rfl

/-- The bytes of the next packet. -/
def next_chunk (endpoint : UsbEpInfo) : ℕ :=
  if endpoint.max_packet_size < endpoint.transfer.len then endpoint.max_packet_size
  else endpoint.transfer.len

/-- The transfer of an endpoint when its next packet has gone into a buffer. -/
def UsbEpInfo.advance (endpoint : UsbEpInfo) : UsbEpInfo :=
  { endpoint with
    transfer :=
      { endpoint.transfer with
        data := endpoint.transfer.data + next_chunk endpoint
        len := endpoint.transfer.len - next_chunk endpoint
        flags :=
          if next_chunk endpoint < endpoint.max_packet_size then
            endpoint.transfer.flags &&& ~~~kUsbTransferFlagsShortIn
          else endpoint.transfer.flags } }

/-- The endpoint has a buffer with `packet`, and the packet is not cancelled. -/
structure Holds (L : Layout) (i : ℕ) (packet : List u8) (s : UsbState) : Prop where
  buffer_lt : configin_buffer L (configin L i s) < 32
  allocated : s.buffer_pool.getLsbD (configin_buffer L (configin L i s)) = false
  size : configin_size L (configin L i s) = packet.length
  pend : configin_pend L (configin L i s) = false

/-- The packet is ready to be sent. -/
structure Ready (L : Layout) (i : ℕ) (packet : List u8) (s : UsbState) : Prop where
  holds : Holds L i packet s
  rdy : configin_rdy L (configin L i s) = true
  bytes : in_packet L i s = packet

theorem bus_lt_buffer {offset : ℕ} (h : offset ∈ L.offsets) (id : ℕ) :
    L.kBase + offset < L.buffer_addr id := by
  have hlt := L.offsets_lt offset h
  rw [Layout.buffer_addr]
  omega

theorem copy_to_buffer_register {offset : ℕ} (h : offset ∈ L.offsets) (id : ℕ) (mem : Mem)
    (src len : ℕ) (bus : Bus) :
    copy_to_buffer L id mem src len bus (L.kBase + offset) = bus (L.kBase + offset) :=
  copy_words_out_of_not_mem _ _ _ _ _ (.inl (bus_lt_buffer h id))

theorem busByte_write_register {offset : ℕ} (h : offset ∈ L.offsets) (val : u32) (s : UsbState)
    (id k : ℕ) :
    busByte (abs_mmio_write32 L (L.kBase + offset) val s).bus (L.buffer_addr id) k =
      busByte s.bus (L.buffer_addr id) k := by
  have hlt := bus_lt_buffer h id
  rw [busByte, busByte, abs_mmio_write32_bus_of_ne (by omega)]

/-- A packet is the next chunk, and the endpoint has advanced by it. -/
theorem send_packet_spec {i : ℕ} (hi : i < USBDEV_PARAM_N_ENDPOINTS) {s : UsbState}
    (hpool : s.buffer_pool ≠ 0) (hpend : configin_pend L (configin L i s) = false)
    (hfits : next_chunk (s.in_endpoints i) ≤ 64) :
    ∃ s', send_packet L i s = some s' ∧
      s'.in_endpoints i = (s.in_endpoints i).advance ∧
      Ready L i (readBytes s.mem (s.in_endpoints i).transfer.data (next_chunk (s.in_endpoints i)))
        s' ∧
      in_sent L i s' = in_sent L i s ∧ s'.mem = s.mem := by
  obtain ⟨id, hid, pool, hclear, hget⟩ := buffer_pool_get_spec hpool
  have hmem := mem_offsets_configin (L := L) hi
  have hne := in_sent_ne_configin (L := L) hi
  have hchunk : next_chunk (s.in_endpoints i) < 128 := lt_of_le_of_lt hfits (by decide)
  obtain ⟨hb, hc, hp, hr⟩ := configin_ready_fields (L := L) hid hchunk
  let s1 : UsbState :=
    { s with
      in_endpoints := Function.update s.in_endpoints i (s.in_endpoints i).advance
      buffer_pool := pool
      bus :=
        copy_to_buffer L id s.mem (s.in_endpoints i).transfer.data (next_chunk (s.in_endpoints i))
          s.bus }
  have hsend : send_packet L i s = some (abs_mmio_write32 L (L.kBase + L.configin_offset i)
      (configin_ready L id (next_chunk (s.in_endpoints i))) s1) := by
    rw [send_packet, hget]
    rfl
  have hbus : ∀ offset ∈ L.offsets, s1.bus (L.kBase + offset) = s.bus (L.kBase + offset) :=
    fun offset h => copy_to_buffer_register h id s.mem _ _ s.bus
  have hreg : configin L i (abs_mmio_write32 L (L.kBase + L.configin_offset i)
      (configin_ready L id (next_chunk (s.in_endpoints i))) s1) =
      configin_ready L id (next_chunk (s.in_endpoints i)) := by
    refine configin_write_of_not_pend hi s1 ?_ hp
    rw [configin, hbus _ hmem]
    exact hpend
  refine ⟨_, hsend, Function.update_self .., ?_, ?_, rfl⟩
  · refine ⟨⟨?_, ?_, ?_, ?_⟩, ?_, ?_⟩
    · rw [hreg, hb]
      exact hid
    · rw [hreg, hb]
      exact hclear
    · rw [hreg, hc, length_readBytes]
    · rw [hreg, hp]
    · rw [hreg, hr]
    · rw [in_packet, hreg, hb, hc, readBytes]
      apply List.map_congr_left
      intro k hk
      rw [busByte_write_register hmem]
      exact copy_to_buffer_copies id s.mem _ s.bus (List.mem_range.mp hk)
  · rw [in_sent, abs_mmio_write32_bus_of_ne (by omega), hbus _ mem_offsets_in_sent, in_sent]

/-! ## Taking a packet back -/

/-- What `handle_in` does first for an endpoint: the register is cleared, the buffer goes back, the
bit of `in_sent` is cleared, and the bytes of the packet are counted. -/
def taken_back (L : Layout) (i : ℕ) (s : UsbState) : UsbState :=
  let reg := configin L i s
  let transfer := (s.in_endpoints i).transfer
  let s :=
    abs_mmio_write32 L (L.kBase + L.configin_offset i)
      ((1 : u32) <<< L.USBDEV_CONFIGIN_0_PEND_0_BIT) s
  let s := { s with buffer_pool := s.buffer_pool ||| (1 : u32) <<< configin_buffer L reg }
  let s := abs_mmio_write32 L (L.kBase + L.USBDEV_IN_SENT_REG_OFFSET) ((1 : u32) <<< i) s
  s.set_in i
    { transfer with bytes_transfered := transfer.bytes_transfered + configin_size L reg }

/-- Whether there is another packet to send. -/
def more_to_send (transfer : UsbTransfer) : Prop :=
  transfer.len > 0 ∨ transfer.len = 0 ∧ hasFlag transfer.flags kUsbTransferFlagsShortIn

instance (transfer : UsbTransfer) : Decidable (more_to_send transfer) :=
  inferInstanceAs (Decidable (_ ∨ _))

/-- The loop body of `handle_in` for a packet that was sent. -/
theorem handle_in_ep_eq {i : ℕ} {packet : List u8} {s : UsbState} (h : Holds L i packet s) :
    handle_in_ep L i s =
      if more_to_send (s.in_endpoints i).transfer then do
        let s ← send_packet L i (taken_back L i s)
        pure (s, none)
      else if hasFlag (s.in_endpoints i).transfer.flags kUsbTransferFlagsZlp then do
        let (_, s) ←
          usb_ep_transfer L (BitVec.ofNat 8 i) 0 0 kUsbTransferFlagsZlpAck (taken_back L i s)
        pure (s, none)
      else
        let (s, call) := complete_in i 0 (taken_back L i s)
        pure (s, some call) := by
  have hpool : s.buffer_pool ≠ BitVec.allOnes 32 := by
    intro hfull
    have hclear := h.allocated
    rw [hfull, BitVec.getLsbD_allOnes, decide_eq_true h.buffer_lt] at hclear
    cases hclear
  have hpend : bitfield_bit32_read (configin L i s) L.USBDEV_CONFIGIN_0_PEND_0_BIT = false := by
    rw [bit32_read_eq L.pend_lt]
    exact h.pend
  have hput : ∀ s' : UsbState, s'.buffer_pool = s.buffer_pool → ∀ id : ℕ, buffer_pool_put id s' =
      some { s' with buffer_pool := s'.buffer_pool ||| (1 : u32) <<< id } := by
    intro s' hs' id
    rw [buffer_pool_put, hardened_check, if_pos (by rw [hs']; exact hpool)]
    rfl
  rw [handle_in_ep, abs_mmio_read32, show s.bus (L.kBase + L.configin_offset i) = configin L i s
    from rfl]
  rw [hput (abs_mmio_write32 L (L.kBase + L.configin_offset i)
    ((1 : u32) <<< L.USBDEV_CONFIGIN_0_PEND_0_BIT) s) rfl, Option.bind_eq_bind, Option.bind_some,
    hpend]
  rfl

theorem taken_back_in_endpoints {i : ℕ} {packet : List u8} {s : UsbState} (h : Holds L i packet s) :
    (taken_back L i s).in_endpoints i =
      { s.in_endpoints i with
        transfer :=
          { (s.in_endpoints i).transfer with
            bytes_transfered := (s.in_endpoints i).transfer.bytes_transfered + packet.length } } := by
  rw [← h.size]
  exact Function.update_self ..

theorem taken_back_configin {i : ℕ} {packet : List u8} {s : UsbState}
    (hi : i < USBDEV_PARAM_N_ENDPOINTS) (h : Holds L i packet s) :
    configin L i (taken_back L i s) = 0 := by
  have hne := in_sent_ne_configin (L := L) hi
  rw [configin]
  refine (abs_mmio_write32_bus_of_ne (by omega)).trans ?_
  exact configin_write_pend hi s h.pend

theorem taken_back_in_sent {i : ℕ} (hi : i < USBDEV_PARAM_N_ENDPOINTS) (s : UsbState) :
    in_sent L i (taken_back L i s) = false := by
  have hi32 : i < 32 := lt_trans hi (by decide)
  rw [in_sent]
  refine (congrArg (BitVec.getLsbD · i) abs_mmio_write32_bus).trans ?_
  rw [rw1c_in_sent, BitVec.getLsbD_or, BitVec.getLsbD_and, BitVec.getLsbD_and, BitVec.getLsbD_and,
    BitVec.getLsbD_not, BitVec.getLsbD_not, getLsbD_one_shiftLeft hi32, BitVec.getLsbD_allOnes,
    decide_eq_true hi32]
  simp

theorem taken_back_buffer_pool {i : ℕ} {packet : List u8} {s : UsbState} (h : Holds L i packet s) :
    (taken_back L i s).buffer_pool ≠ 0 := by
  intro hzero
  have hbit : (taken_back L i s).buffer_pool.getLsbD (configin_buffer L (configin L i s)) = true := by
    show (s.buffer_pool ||| (1 : u32) <<< configin_buffer L (configin L i s)).getLsbD _ = true
    rw [BitVec.getLsbD_or, getLsbD_one_shiftLeft h.buffer_lt]
    simp
  rw [hzero] at hbit
  simp at hbit

/-! ## The invariant -/

theorem readBytes_drop_take (mem : Mem) (a : ℕ) {k n len : ℕ} (h : k + n ≤ len) :
    readBytes mem (a + k) n = ((readBytes mem a len).drop k).take n := by
  apply List.ext_getElem
  · simp
    omega
  · intro j hj _
    rw [getElem_readBytes, List.getElem_take, List.getElem_drop, getElem_readBytes, Nat.add_assoc]

/-- `kUsbTransferFlagsShortIn` is taken off the flags by a packet that is not a full one. -/
def flags_behind (endpoint : UsbEpInfo) (f : u32) (packet : List u8) : u32 :=
  if packet.length < endpoint.max_packet_size then f &&& ~~~kUsbTransferFlagsShortIn else f

/-- Whether the flags ask for a packet that is not a full one. -/
def wants_short (f : u32) : Bool := decide (hasFlag f kUsbTransferFlagsShortIn)

/-- The packets `sent` have been sent, `packet` is in a buffer, and `rest` is still to be sent.
`e` is the endpoint as it was set up, `f` the flags of the transfer. -/
structure Sending (L : Layout) (i data : ℕ) (bytes : List u8) (e : UsbEpInfo) (f : u32)
    (sent : List (List u8)) (packet rest : List u8) (s : UsbState) : Prop where
  plan :
    Chunks.pieces e.max_packet_size (wants_short f) bytes =
      sent ++ packet :: Chunks.following e.max_packet_size (wants_short f) packet rest
  rest_eq : rest = bytes.drop (sent.flatten.length + packet.length)
  length_eq : sent.flatten.length + packet.length + rest.length = bytes.length
  full : rest ≠ [] → packet.length = e.max_packet_size
  endpoint :
    s.in_endpoints i =
      { e with
        transfer :=
          { data := data + (sent.flatten.length + packet.length)
            len := rest.length
            bytes_transfered := sent.flatten.length
            flags := flags_behind e f packet } }
  mem : readBytes s.mem data bytes.length = bytes
  holds : Holds L i packet s

/-- The next packet of a transfer, the first one or a later one. -/
theorem send_packet_sending {i data : ℕ} {bytes rest : List u8} {e : UsbEpInfo} {f : u32}
    {sent : List (List u8)} {s : UsbState} (hi : i < USBDEV_PARAM_N_ENDPOINTS)
    (hfits : e.max_packet_size ≤ 64 ∨ bytes.length ≤ 64)
    (hplan : Chunks.pieces e.max_packet_size (wants_short f) bytes =
      sent ++ Chunks.pieces e.max_packet_size (wants_short f) rest)
    (hrest : rest = bytes.drop sent.flatten.length)
    (hlength : sent.flatten.length + rest.length = bytes.length)
    (hendpoint : s.in_endpoints i =
      { e with transfer := ⟨data + sent.flatten.length, rest.length, sent.flatten.length, f⟩ })
    (hmem : readBytes s.mem data bytes.length = bytes) (hpool : s.buffer_pool ≠ 0)
    (hpend : configin_pend L (configin L i s) = false) :
    ∃ s', send_packet L i s = some s' ∧
      Sending L i data bytes e f sent (rest.take e.max_packet_size) (rest.drop e.max_packet_size) s' ∧
      Ready L i (rest.take e.max_packet_size) s' ∧ in_sent L i s' = in_sent L i s := by
  have hchunk : next_chunk (s.in_endpoints i) = (rest.take e.max_packet_size).length := by
    rw [hendpoint, next_chunk, List.length_take]
    dsimp only
    split_ifs <;> omega
  have hle : next_chunk (s.in_endpoints i) ≤ 64 := by
    rw [hchunk, List.length_take]
    omega
  obtain ⟨s', hsend, hadvance, hready, hsent, hkeep⟩ := send_packet_spec hi hpool hpend hle
  have hfirst : rest.take (rest.take e.max_packet_size).length = rest.take e.max_packet_size := by
    rw [List.length_take, ← List.take_eq_take_min]
  have hnext : rest.drop (rest.take e.max_packet_size).length = rest.drop e.max_packet_size := by
    rw [List.length_take, ← List.drop_eq_drop_min]
  have hbytes : readBytes s.mem (s.in_endpoints i).transfer.data (next_chunk (s.in_endpoints i)) =
      rest.take e.max_packet_size := by
    have hroom : sent.flatten.length + (rest.take e.max_packet_size).length ≤ bytes.length := by
      rw [List.length_take]
      omega
    rw [hchunk, hendpoint, readBytes_drop_take _ _ hroom, hmem, ← hrest, hfirst]
  rw [hbytes] at hready
  refine ⟨s', hsend, ⟨?_, ?_, ?_, ?_, ?_, ?_, hready.holds⟩, hready, hsent⟩
  · rw [hplan, Chunks.pieces]
  · rw [← List.drop_drop, ← hrest, hnext]
  · rw [List.length_take, List.length_drop]
    omega
  · intro hne
    rw [List.length_take]
    have hlen := List.length_pos_iff.mpr hne
    rw [List.length_drop] at hlen
    omega
  · rw [hadvance, UsbEpInfo.advance, hchunk, hendpoint, flags_behind, List.length_drop,
      List.length_take]
    rw [Nat.add_assoc, show rest.length - min e.max_packet_size rest.length =
      rest.length - e.max_packet_size by omega]
  · rw [hkeep, hmem]

theorem hasFlag_flags_behind {e : UsbEpInfo} {f flag : u32} {packet : List u8}
    (h : ~~~kUsbTransferFlagsShortIn &&& flag = flag) :
    hasFlag (flags_behind e f packet) flag ↔ hasFlag f flag := by
  rw [flags_behind]
  split_ifs
  · rw [hasFlag, BitVec.and_assoc, h, hasFlag]
  · rfl

theorem hasFlag_short_flags_behind {e : UsbEpInfo} {f : u32} {packet : List u8} :
    hasFlag (flags_behind e f packet) kUsbTransferFlagsShortIn ↔
      ¬packet.length < e.max_packet_size ∧ wants_short f = true := by
  rw [flags_behind, wants_short, decide_eq_true_iff]
  split_ifs with h
  · refine iff_of_false ?_ (fun hand => hand.1 h)
    rw [hasFlag, BitVec.and_assoc, show ~~~kUsbTransferFlagsShortIn &&& kUsbTransferFlagsShortIn = 0
      from rfl]
    simp
  · simp [h]

/-- A transfer that an endpoint can send: a packet fits into a buffer, and the flag of the status
stage comes with that of a short packet. -/
structure Sendable (i : ℕ) (bytes : List u8) (e : UsbEpInfo) (f : u32) : Prop where
  endpoint : i < USBDEV_PARAM_N_ENDPOINTS
  size : 0 < e.max_packet_size
  fits : e.max_packet_size ≤ 64 ∨ bytes.length ≤ 64
  zlp_ack : hasFlag f kUsbTransferFlagsZlpAck → hasFlag f kUsbTransferFlagsZlp

section sending

variable {i data : ℕ} {bytes packet rest : List u8} {e : UsbEpInfo} {f : u32}
  {sent : List (List u8)} {s : UsbState}

/-- `handle_in` sends another packet where the plan has one. -/
theorem Sending.more_to_send_iff (h : Sending L i data bytes e f sent packet rest s) :
    more_to_send (s.in_endpoints i).transfer ↔
      ¬packet.length < e.max_packet_size ∧ (rest ≠ [] ∨ wants_short f = true) := by
  rw [h.endpoint, more_to_send, hasFlag_short_flags_behind]
  by_cases hnil : rest = []
  · subst hnil
    simp
  · have hfull := h.full hnil
    simp [hnil, List.length_pos_iff, hfull]

theorem Sending.following_of_not_more (h : Sending L i data bytes e f sent packet rest s)
    (hmore : ¬more_to_send (s.in_endpoints i).transfer) :
    rest = [] ∧ Chunks.following e.max_packet_size (wants_short f) packet rest = [] := by
  rw [h.more_to_send_iff] at hmore
  have hnil : rest = [] := by
    by_contra hne
    exact hmore ⟨by rw [h.full hne]; omega, .inl hne⟩
  refine ⟨hnil, ?_⟩
  by_cases hlt : packet.length < e.max_packet_size
  · exact Chunks.following_of_lt hlt rest
  · have hshort : wants_short f = false := by
      by_contra hs
      exact hmore ⟨hlt, .inr (by simpa using hs)⟩
    rw [hnil, hshort, Chunks.following_nil]

/-- With more to send, the interrupt of an acknowledged packet sends the next one. -/
theorem Sending.handle_more (h : Sending L i data bytes e f sent packet rest s)
    (hok : Sendable i bytes e f) (hmore : more_to_send (s.in_endpoints i).transfer) :
    ∃ s', handle_in_ep L i s = some (s', none) ∧
      Sending L i data bytes e f (sent ++ [packet]) (rest.take e.max_packet_size)
        (rest.drop e.max_packet_size) s' ∧
      Ready L i (rest.take e.max_packet_size) s' ∧ in_sent L i s' = false := by
  obtain ⟨hfull, hnext⟩ := h.more_to_send_iff.mp hmore
  have hflatten : (sent ++ [packet]).flatten.length = sent.flatten.length + packet.length := by
    simp
  have hplan : Chunks.pieces e.max_packet_size (wants_short f) bytes =
      sent ++ [packet] ++ Chunks.pieces e.max_packet_size (wants_short f) rest := by
    rw [h.plan, Chunks.following_eq_pieces hok.size hfull hnext, List.append_assoc,
      List.singleton_append]
  have hendpoint : (taken_back L i s).in_endpoints i =
      { e with
        transfer :=
          ⟨data + (sent ++ [packet]).flatten.length, rest.length, (sent ++ [packet]).flatten.length,
            f⟩ } := by
    rw [taken_back_in_endpoints h.holds, h.endpoint, hflatten, flags_behind, if_neg hfull]
  obtain ⟨s', hsend, hsending, hready, hsent⟩ :=
    send_packet_sending hok.endpoint hok.fits hplan (by rw [hflatten]; exact h.rest_eq)
      (by rw [hflatten]; exact h.length_eq) hendpoint h.mem (taken_back_buffer_pool h.holds)
      (by rw [taken_back_configin hok.endpoint h.holds, configin_pend]; simp)
  refine ⟨s', ?_, hsending, hready, by rw [hsent, taken_back_in_sent hok.endpoint]⟩
  rw [handle_in_ep_eq h.holds, if_pos hmore, hsend]
  rfl

end sending

/-! ## The end -/

/-- The endpoint waits for the packet of no bytes that the host sends at the end. -/
structure StatusStage (L : Layout) (i : ℕ) (s : UsbState) : Prop where
  transfer : (s.out_endpoints i).transfer = ⟨0, 0, 0, kUsbTransferFlagsZlpAck⟩
  enabled : (s.bus (L.kBase + L.USBDEV_RXENABLE_OUT_REG_OFFSET)).getLsbD i = true

/-- The call that says that the transfer is done. -/
structure DoneCall (i len : ℕ) (e : UsbEpInfo) (call : HandlerCall) : Prop where
  handler : call.handler = e.handler
  user_ctx : call.user_ctx = e.user_ctx
  ep : call.ep = if isControl e.type then i else i ||| kUsbDirIn.toNat
  done : hasFlag call.flags kUsbTransferFlagsDone
  count : call.bytes_transfered = len

/-- How a transfer ends: `s` is the state, and `call` the call of the handler. -/
def Ended (L : Layout) (i len : ℕ) (e : UsbEpInfo) (f : u32) (s : UsbState)
    (call : Option HandlerCall) : Prop :=
  if hasFlag f kUsbTransferFlagsZlp then call = none ∧ StatusStage L i s
  else ∃ c, call = some c ∧ DoneCall i len e c

/-- Nothing is left to be sent or to be handled, and all bytes have been counted. -/
structure Over (L : Layout) (i len : ℕ) (s : UsbState) : Prop where
  rdy : configin_rdy L (configin L i s) = false
  in_sent : in_sent L i s = false
  count : (s.in_endpoints i).transfer.bytes_transfered = len

theorem rxenable_out_ne {i : ℕ} (hi : i < USBDEV_PARAM_N_ENDPOINTS) :
    L.USBDEV_RXENABLE_OUT_REG_OFFSET ≠ L.USBDEV_IN_SENT_REG_OFFSET ∧
      L.USBDEV_RXENABLE_OUT_REG_OFFSET ≠ L.configin_offset i := by
  constructor
  · have h := L.offsets_nodup
    simp only [UsbdevRegs.offsets, List.cons_append, List.nil_append, List.nodup_cons,
      List.mem_cons, not_or] at h
    exact h.2.2.2.1.2.1
  · exact (List.nodup_append.mp L.offsets_nodup).2.2 _ (by simp) _
      (List.mem_map.mpr ⟨i, List.mem_range.mpr hi, rfl⟩)

theorem rw1c_rxenable_out : L.rw1c (L.kBase + L.USBDEV_RXENABLE_OUT_REG_OFFSET) = 0 := by
  have hsent := (rxenable_out_ne (L := L) (i := 0) (by decide)).1
  rw [Layout.rw1c, if_neg (by omega), if_neg]
  rintro ⟨ep, hep, heq⟩
  have hne := (rxenable_out_ne (L := L) (List.mem_range.mp hep)).2
  omega

/-- The address of an OUT endpoint is its number. -/
theorem out_address {i : ℕ} (hi : i < USBDEV_PARAM_N_ENDPOINTS) :
    (BitVec.ofNat 8 i &&& kEpNumMask).toNat = i ∧ BitVec.ofNat 8 i &&& kUsbDirIn = 0 := by
  have hall : ∀ i < 12, (BitVec.ofNat 8 i &&& kEpNumMask).toNat = i ∧
      BitVec.ofNat 8 i &&& kUsbDirIn = 0 := by decide
  exact hall i hi

/-- The start of the status stage. -/
theorem usb_ep_transfer_status {i : ℕ} (hi : i < USBDEV_PARAM_N_ENDPOINTS) (s : UsbState) :
    ∃ s', usb_ep_transfer L (BitVec.ofNat 8 i) 0 0 kUsbTransferFlagsZlpAck s = some (.kErrorOk, s') ∧
      StatusStage L i s' ∧ s'.in_endpoints = s.in_endpoints ∧ configin L i s' = configin L i s ∧
      in_sent L i s' = in_sent L i s := by
  obtain ⟨hnumber, hout⟩ := out_address hi
  have hne := rxenable_out_ne (L := L) hi
  have hi32 : i < 32 := lt_trans hi (by decide)
  have htransfer : usb_ep_transfer L (BitVec.ofNat 8 i) 0 0 kUsbTransferFlagsZlpAck s =
      some (.kErrorOk, usbreg_bit L L.USBDEV_RXENABLE_OUT_REG_OFFSET i true
        (s.set_out i ⟨0, 0, 0, kUsbTransferFlagsZlpAck⟩)) := by
    rw [usb_ep_transfer, hnumber, hout, if_neg (Nat.not_le.mpr hi)]
    simp
  refine ⟨_, htransfer, ⟨?_, ?_⟩, rfl, ?_, ?_⟩
  · exact congrArg UsbEpInfo.transfer (s.set_out_self i ⟨0, 0, 0, kUsbTransferFlagsZlpAck⟩)
  · rw [usbreg_bit, abs_mmio_write32_bus_of_rw1c rw1c_rxenable_out,
      getLsbD_bit32_write hi32 _ _ hi32, if_pos rfl]
  · exact abs_mmio_write32_bus_of_ne (by omega)
  · exact congrArg (BitVec.getLsbD · i) (abs_mmio_write32_bus_of_ne (by omega))

section sending

variable {i data : ℕ} {bytes packet rest : List u8} {e : UsbEpInfo} {f : u32}
  {sent : List (List u8)} {s : UsbState}

/-- With nothing more to send, the transfer ends the way its flags say. -/
theorem Sending.handle_last (h : Sending L i data bytes e f sent packet rest s)
    (hi : i < USBDEV_PARAM_N_ENDPOINTS) (hmore : ¬more_to_send (s.in_endpoints i).transfer)
    (hack : hasFlag f kUsbTransferFlagsZlpAck → hasFlag f kUsbTransferFlagsZlp) :
    ∃ s' call, handle_in_ep L i s = some (s', call) ∧ Over L i bytes.length s' ∧
      Ended L i bytes.length e f s' call ∧
      Chunks.pieces e.max_packet_size (wants_short f) bytes = sent ++ [packet] := by
  obtain ⟨hnil, hfollowing⟩ := h.following_of_not_more hmore
  have hplan : Chunks.pieces e.max_packet_size (wants_short f) bytes = sent ++ [packet] := by
    rw [h.plan, hfollowing]
  have hflags : (s.in_endpoints i).transfer.flags = flags_behind e f packet := by rw [h.endpoint]
  have hcount : sent.flatten.length + packet.length = bytes.length := by
    rw [← h.length_eq, hnil]
    rfl
  have hback : (taken_back L i s).in_endpoints i =
      { e with
        transfer := ⟨data + bytes.length, 0, bytes.length, flags_behind e f packet⟩ } := by
    rw [taken_back_in_endpoints h.holds, h.endpoint, hnil, ← hcount]
    rfl
  have hrdy : configin_rdy L (configin L i (taken_back L i s)) = false := by
    rw [taken_back_configin hi h.holds, configin_rdy]
    simp
  by_cases hzlp : hasFlag f kUsbTransferFlagsZlp
  · obtain ⟨s', htransfer, hstage, hin, hreg, hsent⟩ :=
      usb_ep_transfer_status (L := L) hi (taken_back L i s)
    refine ⟨s', none, ?_, ⟨?_, ?_, ?_⟩, ?_, hplan⟩
    · have hbehind : hasFlag (s.in_endpoints i).transfer.flags kUsbTransferFlagsZlp := by
        rw [hflags]
        exact (hasFlag_flags_behind rfl).mpr hzlp
      rw [handle_in_ep_eq h.holds, if_neg hmore, if_pos hbehind, htransfer]
      rfl
    · rw [hreg, hrdy]
    · rw [hsent, taken_back_in_sent hi]
    · rw [hin, hback]
    · rw [Ended, if_pos hzlp]
      exact ⟨rfl, hstage⟩
  · have hnoack : ¬hasFlag (flags_behind e f packet) kUsbTransferFlagsZlpAck := by
      rw [hasFlag_flags_behind rfl]
      exact fun hf => hzlp (hack hf)
    have hcomplete : complete_in i 0 (taken_back L i s) =
        ((taken_back L i s).set_in i
          ⟨data + bytes.length, 0, bytes.length,
            flags_behind e f packet ||| (kUsbTransferFlagsDone ||| 0)⟩,
          ⟨e.handler, e.user_ctx, if isControl e.type then i else i ||| kUsbDirIn.toNat,
            flags_behind e f packet ||| (kUsbTransferFlagsDone ||| 0), bytes.length⟩) := by
      rw [complete_in, hback]
      exact if_neg hnoack
    have hnozlp : ¬hasFlag (s.in_endpoints i).transfer.flags kUsbTransferFlagsZlp := by
      rw [hflags, hasFlag_flags_behind rfl]
      exact hzlp
    have hhandle := handle_in_ep_eq h.holds
    rw [if_neg hmore, if_neg hnozlp, hcomplete] at hhandle
    refine ⟨_, _, hhandle, ⟨hrdy, taken_back_in_sent hi s, ?_⟩, ?_, hplan⟩
    · rw [UsbState.set_in_self]
    · rw [Ended, if_neg hzlp]
      refine ⟨_, rfl, rfl, rfl, rfl, ?_, rfl⟩
      rw [hasFlag]
      intro hzero
      have hbit := congrArg (BitVec.getLsbD · 14) hzero
      simp [kUsbTransferFlagsDone] at hbit

end sending

/-! ## Runs -/

/-- The state when the device has sent the packet of an endpoint and has it acknowledged. -/
def acknowledged (L : Layout) (i : ℕ) (s : UsbState) : UsbState :=
  { s with
    bus :=
      store
        (store s.bus (L.kBase + L.configin_offset i)
          (bitfield_bit32_write (configin L i s) L.USBDEV_CONFIGIN_0_RDY_0_BIT false))
        (L.kBase + L.USBDEV_IN_SENT_REG_OFFSET)
        (s.bus (L.kBase + L.USBDEV_IN_SENT_REG_OFFSET) ||| (1 : u32) <<< i) }

/-- What belongs to a transfer of the `len` bytes at `data`: the endpoint and its registers, its
buffer, which is not given to anyone else while it is in use, and the data. -/
structure Undisturbed (L : Layout) (i data len : ℕ) (s s' : UsbState) : Prop where
  endpoint : s'.in_endpoints i = s.in_endpoints i
  configin : configin L i s' = configin L i s
  in_sent : in_sent L i s' = in_sent L i s
  allocated :
    configin_rdy L (Usb.configin L i s) = true ∨ Usb.in_sent L i s = true →
    s.buffer_pool.getLsbD (configin_buffer L (Usb.configin L i s)) = false →
    s'.buffer_pool.getLsbD (configin_buffer L (Usb.configin L i s)) = false
  packet : configin_rdy L (Usb.configin L i s) = true → in_packet L i s' = in_packet L i s
  mem : readBytes s'.mem data len = readBytes s.mem data len

/-- What can be seen of a transfer: the packets that were sent, the calls of the handler, and the
states in which the endpoint has been handled and no packet has become ready. -/
structure History where
  packets : List (List u8)
  calls : List HandlerCall
  ends : List UsbState

/-- A run of the transfer of the `len` bytes at `data` from `s0`, where `usb_ep_transfer` has
returned. -/
inductive InRun (L : Layout) (i data len : ℕ) (s0 : UsbState) : UsbState → History → Prop
  | start : InRun L i data len s0 s0 ⟨[], [], []⟩
  | ack {s : UsbState} {h : History} (run : InRun L i data len s0 s h)
      (hrdy : configin_rdy L (configin L i s) = true) :
      InRun L i data len s0 (acknowledged L i s) { h with packets := h.packets ++ [in_packet L i s] }
  | handle {s s' : UsbState} {h : History} {call : Option HandlerCall}
      (run : InRun L i data len s0 s h) (hsent : in_sent L i s = true)
      (hhandle : handle_in_ep L i s = some (s', call)) :
      InRun L i data len s0 s'
        { h with
          calls := h.calls ++ call.toList
          ends := h.ends ++ if configin_rdy L (configin L i s') then [] else [s'] }
  | other {s s' : UsbState} {h : History} (run : InRun L i data len s0 s h)
      (hother : Undisturbed L i data len s s') : InRun L i data len s0 s' h

/-- What a run that has got to `s` with the history `h` has to do with the packets that the
transfer is to send. -/
structure Follows (L : Layout) (i len : ℕ) (e : UsbEpInfo) (f : u32) (packets : List (List u8))
    (s : UsbState) (h : History) : Prop where
  sent : h.packets <+: packets
  handled : in_sent L i s = true → ∃ s' call, handle_in_ep L i s = some (s', call)
  going :
    configin_rdy L (configin L i s) = true ∨ in_sent L i s = true → h.calls = [] ∧ h.ends = []
  finished :
    configin_rdy L (configin L i s) = false → in_sent L i s = false →
      h.packets = packets ∧ (s.in_endpoints i).transfer.bytes_transfered = len ∧
      ∃ last call, h.ends = [last] ∧ h.calls = Option.toList call ∧ Ended L i len e f last call

/-- The states of a run: the packet waits in its buffer, it has been sent, or all is over. -/
inductive Phase (L : Layout) (i data : ℕ) (bytes : List u8) (e : UsbEpInfo) (f : u32) (s : UsbState) :
    History → Prop
  | ready {sent : List (List u8)} {packet rest : List u8}
      (hsending : Sending L i data bytes e f sent packet rest s) (hready : Ready L i packet s)
      (hsent : in_sent L i s = false) : Phase L i data bytes e f s ⟨sent, [], []⟩
  | acked {sent : List (List u8)} {packet rest : List u8}
      (hsending : Sending L i data bytes e f sent packet rest s)
      (hrdy : configin_rdy L (configin L i s) = false) (hsent : in_sent L i s = true) :
      Phase L i data bytes e f s ⟨sent ++ [packet], [], []⟩
  | finished {last : UsbState} {call : Option HandlerCall} (hover : Over L i bytes.length s)
      (hended : Ended L i bytes.length e f last call) :
      Phase L i data bytes e f s
        ⟨Chunks.pieces e.max_packet_size (wants_short f) bytes, Option.toList call, [last]⟩

section phase

variable {i data : ℕ} {bytes : List u8} {e : UsbEpInfo} {f : u32} {s s' : UsbState} {h' : History}

theorem acknowledged_configin (hi : i < USBDEV_PARAM_N_ENDPOINTS) (s : UsbState) :
    configin L i (acknowledged L i s) =
      bitfield_bit32_write (configin L i s) L.USBDEV_CONFIGIN_0_RDY_0_BIT false := by
  have hne := in_sent_ne_configin (L := L) hi
  refine (Function.update_of_ne (by omega) _ _).trans ?_
  exact Function.update_self ..

theorem acknowledged_in_sent (hi : i < USBDEV_PARAM_N_ENDPOINTS) (s : UsbState) :
    in_sent L i (acknowledged L i s) = true := by
  rw [in_sent, acknowledged]
  dsimp only
  rw [store, Function.update_self, BitVec.getLsbD_or,
    getLsbD_one_shiftLeft (lt_trans hi (by decide))]
  simp

theorem Holds.acknowledged {packet : List u8} (hi : i < USBDEV_PARAM_N_ENDPOINTS)
    (h : Holds L i packet s) : Holds L i packet (acknowledged L i s) := by
  obtain ⟨hbuffer, hsize, hpend, -⟩ := configin_clear_rdy_fields (L := L) (configin L i s)
  constructor
  · rw [acknowledged_configin hi, hbuffer]
    exact h.buffer_lt
  · rw [acknowledged_configin hi, hbuffer]
    exact h.allocated
  · rw [acknowledged_configin hi, hsize, h.size]
  · rw [acknowledged_configin hi, hpend, h.pend]

theorem Holds.undisturbed {packet : List u8} {len : ℕ} (h : Holds L i packet s)
    (hother : Undisturbed L i data len s s')
    (huse : configin_rdy L (configin L i s) = true ∨ in_sent L i s = true) :
    Holds L i packet s' := by
  constructor
  · rw [hother.configin]
    exact h.buffer_lt
  · rw [hother.configin]
    exact hother.allocated huse h.allocated
  · rw [hother.configin, h.size]
  · rw [hother.configin, h.pend]

theorem Sending.undisturbed {packet rest : List u8} {sent : List (List u8)}
    (h : Sending L i data bytes e f sent packet rest s)
    (hother : Undisturbed L i data bytes.length s s')
    (huse : configin_rdy L (configin L i s) = true ∨ in_sent L i s = true) :
    Sending L i data bytes e f sent packet rest s' :=
  { h with
    endpoint := by rw [hother.endpoint, h.endpoint]
    mem := by rw [hother.mem, h.mem]
    holds := h.holds.undisturbed hother huse }

theorem Phase.ack (h : Phase L i data bytes e f s h') (hi : i < USBDEV_PARAM_N_ENDPOINTS)
    (hrdy : configin_rdy L (configin L i s) = true) :
    Phase L i data bytes e f (acknowledged L i s)
      { h' with packets := h'.packets ++ [in_packet L i s] } := by
  cases h with
  | ready hsending hready hsent =>
      rw [hready.bytes]
      refine .acked { hsending with holds := hsending.holds.acknowledged hi } ?_
        (acknowledged_in_sent hi s)
      rw [acknowledged_configin hi]
      exact (configin_clear_rdy_fields _).2.2.2
  | acked _ hclear _ => exact absurd (hclear.symm.trans hrdy) nofun
  | finished hover _ => exact absurd (hover.rdy.symm.trans hrdy) nofun

theorem Phase.handle (h : Phase L i data bytes e f s h') (hok : Sendable i bytes e f)
    (hsent : in_sent L i s = true) :
    ∃ s' call, handle_in_ep L i s = some (s', call) ∧
      Phase L i data bytes e f s'
        { h' with
          calls := h'.calls ++ call.toList
          ends := h'.ends ++ if configin_rdy L (configin L i s') then [] else [s'] } := by
  cases h with
  | ready _ _ hclear => exact absurd (hclear.symm.trans hsent) nofun
  | finished hover _ => exact absurd (hover.in_sent.symm.trans hsent) nofun
  | acked hsending _ _ =>
      by_cases hmore : more_to_send (s.in_endpoints i).transfer
      · obtain ⟨s', hhandle, hsending', hready, hsent'⟩ :=
          hsending.handle_more hok hmore
        refine ⟨s', none, hhandle, ?_⟩
        simp only [hready.rdy, if_true, Option.toList_none, List.append_nil]
        exact .ready hsending' hready hsent'
      · obtain ⟨s', call, hhandle, hover, hended, hplan⟩ :=
          hsending.handle_last hok.endpoint hmore hok.zlp_ack
        refine ⟨s', call, hhandle, ?_⟩
        simp only [hover.rdy, Bool.false_eq_true, if_false, List.nil_append, ← hplan]
        exact .finished hover hended

theorem Phase.other (h : Phase L i data bytes e f s h')
    (hother : Undisturbed L i data bytes.length s s') : Phase L i data bytes e f s' h' := by
  cases h with
  | ready hsending hready hsent =>
      have huse : configin_rdy L (configin L i s) = true ∨ in_sent L i s = true := .inl hready.rdy
      refine .ready (hsending.undisturbed hother huse)
        ⟨hready.holds.undisturbed hother huse, ?_, ?_⟩ ?_
      · rw [hother.configin, hready.rdy]
      · rw [hother.packet hready.rdy, hready.bytes]
      · rw [hother.in_sent, hsent]
  | acked hsending hrdy hsent =>
      refine .acked (hsending.undisturbed hother (.inr hsent)) ?_ ?_
      · rw [hother.configin, hrdy]
      · rw [hother.in_sent, hsent]
  | finished hover hended =>
      refine .finished ⟨?_, ?_, ?_⟩ hended
      · rw [hother.configin, hover.rdy]
      · rw [hother.in_sent, hover.in_sent]
      · rw [hother.endpoint, hover.count]

/-- The transfer from any of its phases on: what is to come is what has not been sent. -/
theorem Phase.follows (h : Phase L i data bytes e f s h') (hok : Sendable i bytes e f) :
    Follows L i bytes.length e f (Chunks.pieces e.max_packet_size (wants_short f) bytes) s h' where
  sent := by
    cases h with
    | ready hsending _ _ =>
        rw [hsending.plan]
        exact List.prefix_append _ _
    | acked hsending _ _ =>
        rw [hsending.plan]
        exact ⟨_, List.append_assoc _ _ _⟩
    | finished _ _ => exact List.prefix_rfl
  handled hsent := by
    obtain ⟨s', call, hhandle, -⟩ := h.handle hok hsent
    exact ⟨s', call, hhandle⟩
  going huse := by
    cases h with
    | ready _ _ _ => exact ⟨rfl, rfl⟩
    | acked _ _ _ => exact ⟨rfl, rfl⟩
    | finished hover _ =>
        rcases huse with hrdy | hsent
        · exact absurd (hover.rdy.symm.trans hrdy) nofun
        · exact absurd (hover.in_sent.symm.trans hsent) nofun
  finished hrdy hsent := by
    cases h with
    | ready _ hready _ => exact absurd (hrdy.symm.trans hready.rdy) nofun
    | acked _ _ hsent' => exact absurd (hsent.symm.trans hsent') nofun
    | finished hover hended => exact ⟨rfl, hover.count, _, _, rfl, rfl, hended⟩

theorem phase_run {s0 : UsbState} (hok : Sendable i bytes e f)
    (h0 : Phase L i data bytes e f s0 ⟨[], [], []⟩)
    (hrun : InRun L i data bytes.length s0 s h') : Phase L i data bytes e f s h' := by
  induction hrun with
  | start => exact h0
  | ack _ hrdy ih => exact ih.ack hok.endpoint hrdy
  | handle _ hsent hhandle ih =>
      obtain ⟨s', call, hhandle', hphase⟩ := ih.handle hok hsent
      rw [hhandle] at hhandle'
      obtain ⟨rfl, rfl⟩ := Prod.mk.inj (Option.some.inj hhandle')
      exact hphase
  | other _ hother ih => exact ih.other hother

end phase

/-! ## The whole transfer -/

/-- The flags that `usb_ep_transfer` gives a transfer. -/
def transfer_flags (endpoint : UsbEpInfo) (len : ℕ) (flags : u32) : u32 :=
  if isControl endpoint.type ∧ len > 0 then flags ||| kUsbTransferFlagsZlp else flags

/-- `usb_ep_transfer` starts a transfer that delivers its data: the packets are the data cut into
pieces, any run sends them in order and ends as it should when they are sent, and there are
runs that end. -/
def Delivers (L : Layout) (ep : u8) (data len : ℕ) (flags : u32) (s : UsbState) : Prop :=
  ∃ s0 packets,
    usb_ep_transfer L ep data len flags s = some (.kErrorOk, s0) ∧
    Chunks.CutInto (s.in_endpoints (ep_number ep)).max_packet_size (readBytes s.mem data len)
      (wants_short flags) packets ∧
    (∀ s' h, InRun L (ep_number ep) data len s0 s' h →
      Follows L (ep_number ep) len (s.in_endpoints (ep_number ep))
        (transfer_flags (s.in_endpoints (ep_number ep)) len flags) packets s' h) ∧
    ∃ s' h, InRun L (ep_number ep) data len s0 s' h ∧
      configin_rdy L (configin L (ep_number ep) s') = false ∧ in_sent L (ep_number ep) s' = false

theorem wants_short_transfer_flags (e : UsbEpInfo) (len : ℕ) (flags : u32) :
    wants_short (transfer_flags e len flags) = wants_short flags := by
  rw [transfer_flags]
  split_ifs
  · have hflag : hasFlag (flags ||| kUsbTransferFlagsZlp) kUsbTransferFlagsShortIn ↔
        hasFlag flags kUsbTransferFlagsShortIn := by
      have hand : (flags ||| kUsbTransferFlagsZlp) &&& kUsbTransferFlagsShortIn =
          flags &&& kUsbTransferFlagsShortIn := by
        apply BitVec.eq_of_getLsbD_eq
        intro j hj
        rw [BitVec.getLsbD_and, BitVec.getLsbD_and, BitVec.getLsbD_or]
        cases j with
        | zero => simp [kUsbTransferFlagsZlp, kUsbTransferFlagsShortIn]
        | succ j =>
            have hbit : kUsbTransferFlagsShortIn.getLsbD (j + 1) = false := by
              simp [kUsbTransferFlagsShortIn]
            rw [hbit, Bool.and_false, Bool.and_false]
      rw [hasFlag, hasFlag, hand]
    exact decide_eq_decide.mpr hflag
  · rfl

section whole

variable {i data : ℕ} {bytes : List u8} {e : UsbEpInfo} {f : u32}

/-- A run that has a packet ready can be taken to the end. The induction is on the packets that
are still to be sent. -/
theorem Sending.completes {s0 : UsbState} (hok : Sendable i bytes e f) (n : ℕ)
    {sent : List (List u8)} {packet rest : List u8} {s : UsbState}
    (hn : (Chunks.pieces e.max_packet_size (wants_short f) bytes).length ≤ sent.length + n)
    (h : Sending L i data bytes e f sent packet rest s) (hready : Ready L i packet s)
    (hrun : InRun L i data bytes.length s0 s ⟨sent, [], []⟩) :
    ∃ s' h', InRun L i data bytes.length s0 s' h' ∧
      configin_rdy L (configin L i s') = false ∧ in_sent L i s' = false := by
  induction n generalizing sent packet rest s with
  | zero =>
      have hlen := congrArg List.length h.plan
      rw [List.length_append, List.length_cons] at hlen
      omega
  | succ n ih =>
      have hacked : Sending L i data bytes e f sent packet rest (acknowledged L i s) :=
        { h with holds := h.holds.acknowledged hok.endpoint }
      have hrun' := hrun.ack hready.rdy
      have hsent := acknowledged_in_sent (L := L) hok.endpoint s
      by_cases hmore : more_to_send ((acknowledged L i s).in_endpoints i).transfer
      · obtain ⟨s', hhandle, hsending', hready', -⟩ := hacked.handle_more hok hmore
        have hrun'' := hrun'.handle hsent hhandle
        simp only [hready'.rdy, hready.bytes, if_true, Option.toList_none, List.append_nil] at hrun''
        exact ih (by rw [List.length_append, List.length_singleton]; omega) hsending' hready' hrun''
      · obtain ⟨s', call, hhandle, hover, -, -⟩ :=
          hacked.handle_last hok.endpoint hmore hok.zlp_ack
        exact ⟨s', _, hrun'.handle hsent hhandle, hover.rdy, hover.in_sent⟩

end whole

theorem usb_ep_transfer_in (ep : u8) (data len : ℕ) (flags : u32) (s : UsbState)
    (hep : ep_number ep < USBDEV_PARAM_N_ENDPOINTS) (hin : ep &&& kUsbDirIn ≠ 0) :
    usb_ep_transfer L ep data len flags s =
      (send_packet L (ep_number ep)
        (s.set_in (ep_number ep)
          ⟨data, len, 0, transfer_flags (s.in_endpoints (ep_number ep)) len flags⟩)).bind
        fun s => some (.kErrorOk, s) := by
  have hvalid : ¬(ep &&& kEpNumMask).toNat ≥ USBDEV_PARAM_N_ENDPOINTS := Nat.not_le.mpr hep
  rw [usb_ep_transfer, if_neg hvalid]
  rw [if_pos hin, if_pos hin]
  rfl

/-- A transfer on an IN endpoint that has no packet of an earlier one about it delivers its
data, provided that a packet fits into a buffer and that there is a free one. -/
theorem in_transfer_exact (L : Layout) (ep : u8) (data len : ℕ) (flags : u32) (s : UsbState)
    (hep : ep_number ep < USBDEV_PARAM_N_ENDPOINTS) (hin : ep &&& kUsbDirIn ≠ 0)
    (hm : 0 < (s.in_endpoints (ep_number ep)).max_packet_size)
    (hfits : (s.in_endpoints (ep_number ep)).max_packet_size ≤ 64 ∨ len ≤ 64)
    (hack : hasFlag (transfer_flags (s.in_endpoints (ep_number ep)) len flags)
        kUsbTransferFlagsZlpAck →
      hasFlag (transfer_flags (s.in_endpoints (ep_number ep)) len flags) kUsbTransferFlagsZlp)
    (hpool : s.buffer_pool ≠ 0) (hpend : configin_pend L (configin L (ep_number ep) s) = false)
    (hsent : in_sent L (ep_number ep) s = false) : Delivers L ep data len flags s := by
  have hlen : (readBytes s.mem data len).length = len := length_readBytes _ _ _
  generalize hi : ep_number ep = i at *
  generalize he : s.in_endpoints i = e at *
  generalize hf : transfer_flags e len flags = f at *
  have hfits' : e.max_packet_size ≤ 64 ∨ (readBytes s.mem data len).length ≤ 64 := by rwa [hlen]
  have hok : Sendable i (readBytes s.mem data len) e f := ⟨hep, hm, hfits', hack⟩
  -- the first packet is like the later ones, with nothing sent before it
  obtain ⟨s0, hsend, hsending, hready, hsent0⟩ :=
    @send_packet_sending L i data _ (readBytes s.mem data len) e f [] (s.set_in i ⟨data, len, 0, f⟩)
      hep hfits' rfl rfl (by simp) (by rw [UsbState.set_in_self, he, hlen]; rfl)
      (by rw [hlen]; rfl) hpool hpend
  have hphase := Phase.ready hsending hready (hsent0.trans hsent)
  refine ⟨s0, Chunks.pieces e.max_packet_size (wants_short flags) (readBytes s.mem data len),
    ?_, ?_, ?_, ?_⟩
  · rw [usb_ep_transfer_in ep data len flags s (hi ▸ hep) hin, hi, he, hf, hsend]
    rfl
  · rw [hi, he]
    exact Chunks.cutInto_pieces (wants_short flags) hm (readBytes s.mem data len)
  · intro s' h hrun
    rw [hi] at hrun ⊢
    rw [he, hf, ← wants_short_transfer_flags e len flags, hf]
    have hrun' : InRun L i data (readBytes s.mem data len).length s0 s' h := by rwa [hlen]
    have hfollows := (phase_run hok hphase hrun').follows hok
    rwa [hlen] at hfollows
  · have hcompletes := hsending.completes hok _ (Nat.le_add_left _ _) hready .start
    rw [hlen] at hcompletes
    rwa [hi]

/-- A device with bulk endpoints for packets of `max_packet_size`. -/
def bulk_device (max_packet_size : ℕ) : UsbState where
  in_endpoints _ := fresh_endpoint kUsbEpTypeBulk max_packet_size 0x1000 0
  out_endpoints _ := fresh_endpoint kUsbEpTypeBulk max_packet_size 0x2000 0
  buffer_pool := BitVec.allOnes 32
  bus _ := 0
  mem addr := BitVec.ofNat 8 addr

theorem in_transfer_exact_two_packets : Delivers earlgrey 0x81 0x100 70 0 (bulk_device 64) :=
  in_transfer_exact earlgrey 0x81 0x100 70 0 (bulk_device 64) (by decide) (by decide) (by decide)
    (.inl (by decide)) (by decide) (by decide) (by decide) (by decide)

/-- A packet of 128 bytes is sent as one of no bytes, since its size has only seven bits. -/
theorem oversize_not_delivered : ¬Delivers earlgrey 0x81 0x100 128 0 (bulk_device 128) := by
  rintro ⟨s0, packets, htransfer, hcut, hruns, -⟩
  have hfirst : (usb_ep_transfer earlgrey 0x81 0x100 128 0 (bulk_device 128)).map
      (fun r => (configin_rdy earlgrey (configin earlgrey 1 r.2), in_packet earlgrey 1 r.2)) =
        some (true, []) := by decide
  rw [htransfer] at hfirst
  obtain ⟨hrdy, hpacket⟩ := Prod.mk.inj (Option.some.inj hfirst)
  have hsent := (hruns _ _ (.ack .start hrdy)).sent
  rw [show ep_number 0x81 = 1 from rfl, hpacket] at hsent
  have hlen : (readBytes (bulk_device 128).mem 0x100 128).length = 128 := length_readBytes _ _ _
  have hmem : [] ∈ packets := hsent.subset (by simp)
  have hall := hcut.length_eq (by rw [hlen]; rfl) (by rw [hlen]; decide) [] hmem
  cases hall

/-- With the flag of the status stage a bulk endpoint ends with the call of another handler. -/
theorem zlp_ack_not_delivered :
    ¬Delivers earlgrey 0x81 0x100 0 kUsbTransferFlagsZlpAck (bulk_device 64) := by
  rintro ⟨s0, packets, htransfer, -, hruns, -⟩
  have hvalue : (usb_ep_transfer earlgrey 0x81 0x100 0 kUsbTransferFlagsZlpAck (bulk_device 64)).map
      (fun r => (configin_rdy earlgrey (configin earlgrey 1 r.2),
        (handle_in_ep earlgrey 1 (acknowledged earlgrey 1 r.2)).map fun p =>
          (configin_rdy earlgrey (configin earlgrey 1 p.1), in_sent earlgrey 1 p.1,
            p.2.map HandlerCall.handler))) =
        some (true, some (false, false, some 0x2000)) := by decide
  rw [htransfer] at hvalue
  obtain ⟨hrdy, hhandle⟩ := Prod.mk.inj (Option.some.inj hvalue)
  have hacked : InRun earlgrey 1 0x100 0 s0 (acknowledged earlgrey 1 s0)
      ⟨[] ++ [in_packet earlgrey 1 s0], [], []⟩ := .ack .start hrdy
  obtain ⟨s', call, hstep⟩ : ∃ s' call,
      handle_in_ep earlgrey 1 (acknowledged earlgrey 1 s0) = some (s', call) :=
    (hruns _ _ hacked).handled (acknowledged_in_sent (by decide) s0)
  rw [hstep] at hhandle
  obtain ⟨hclear, hhandle⟩ := Prod.mk.inj (Option.some.inj hhandle)
  obtain ⟨hsent, hhandler⟩ := Prod.mk.inj hhandle
  have hrun := hruns _ _ (.handle hacked (acknowledged_in_sent (by decide) s0) hstep)
  obtain ⟨-, -, last, call', -, hcalls, hended⟩ := hrun.finished hclear hsent
  obtain ⟨c, rfl, hdone⟩ : ∃ c, call' = some c ∧ DoneCall 1 0 _ c := hended
  obtain ⟨c', rfl, hc'⟩ := Option.map_eq_some_iff.mp hhandler
  obtain rfl : c' = c := List.singleton_injective hcalls
  have hhandlers := hdone.handler
  rw [hc'] at hhandlers
  revert hhandlers
  decide

/-- A transfer has to be started on an endpoint that has no packet about it: one that was
cancelled is taken for this one, and so is one that was acknowledged and not yet handled. -/
theorem busy_not_delivered :
    ¬Delivers earlgrey 0x81 0x100 1 0
        { bulk_device 64 with bus := Function.update (fun _ => 0) 0x40320048 0x40000000 } ∧
      ¬Delivers earlgrey 0x81 0x100 1 0
        { bulk_device 64 with bus := Function.update (fun _ => 0) 0x40320038 2 } := by
  constructor
  · rintro ⟨s0, packets, htransfer, -, hruns, -⟩
    have hvalue : (usb_ep_transfer earlgrey 0x81 0x100 1 0
        { bulk_device 64 with bus := Function.update (fun _ => 0) 0x40320048 0x40000000 }).map
        (fun r => (configin_rdy earlgrey (configin earlgrey 1 r.2),
          (handle_in_ep earlgrey 1 (acknowledged earlgrey 1 r.2)).map fun p =>
            (configin_rdy earlgrey (configin earlgrey 1 p.1), in_sent earlgrey 1 p.1,
              (p.1.in_endpoints 1).transfer.bytes_transfered))) =
          some (true, some (false, false, 0)) := by decide
    rw [htransfer] at hvalue
    obtain ⟨hrdy, hhandle⟩ := Prod.mk.inj (Option.some.inj hvalue)
    have hacked : InRun earlgrey 1 0x100 1 s0 (acknowledged earlgrey 1 s0)
        ⟨[] ++ [in_packet earlgrey 1 s0], [], []⟩ := .ack .start hrdy
    obtain ⟨s', call, hstep⟩ : ∃ s' call,
        handle_in_ep earlgrey 1 (acknowledged earlgrey 1 s0) = some (s', call) :=
      (hruns _ _ hacked).handled (acknowledged_in_sent (by decide) s0)
    rw [hstep] at hhandle
    obtain ⟨hclear, hhandle⟩ := Prod.mk.inj (Option.some.inj hhandle)
    obtain ⟨hsent, hcount⟩ := Prod.mk.inj hhandle
    have hrun := hruns _ _ (.handle hacked (acknowledged_in_sent (by decide) s0) hstep)
    have hall := (hrun.finished hclear hsent).2.1
    exact absurd (hall.symm.trans hcount) (by decide)
  · rintro ⟨s0, packets, htransfer, hcut, hruns, -⟩
    have hvalue : (usb_ep_transfer earlgrey 0x81 0x100 1 0
        { bulk_device 64 with bus := Function.update (fun _ => 0) 0x40320038 2 }).map
        (fun r => (in_sent earlgrey 1 r.2,
          (handle_in_ep earlgrey 1 r.2).map fun p =>
            (configin_rdy earlgrey (configin earlgrey 1 p.1), in_sent earlgrey 1 p.1))) =
          some (true, some (false, false)) := by decide
    rw [htransfer] at hvalue
    obtain ⟨hsent0, hhandle⟩ := Prod.mk.inj (Option.some.inj hvalue)
    obtain ⟨s', call, hstep⟩ : ∃ s' call, handle_in_ep earlgrey 1 s0 = some (s', call) :=
      (hruns _ _ .start).handled hsent0
    rw [hstep] at hhandle
    obtain ⟨hclear, hsent⟩ := Prod.mk.inj (Option.some.inj hhandle)
    have hrun := hruns _ _ (.handle .start hsent0 hstep)
    have hnone := (hrun.finished hclear hsent).1
    -- no packet was sent, and there is one at least
    obtain ⟨p, hp, -⟩ := hcut.last
    rw [← hnone] at hp
    cases hp

/-- And it takes a free buffer. -/
theorem no_buffer_not_delivered :
    ¬Delivers earlgrey 0x81 0x100 1 0 { bulk_device 64 with buffer_pool := 0 } := by
  rintro ⟨s0, packets, htransfer, -⟩
  have hnone : (usb_ep_transfer earlgrey 0x81 0x100 1 0
      { bulk_device 64 with buffer_pool := 0 }).isSome = false := by decide
  rw [htransfer] at hnone
  cases hnone

theorem not_every_transfer_delivered :
    ¬Delivers earlgrey 0x81 0x100 128 0 (bulk_device 128) ∧
      ¬Delivers earlgrey 0x81 0x100 0 kUsbTransferFlagsZlpAck (bulk_device 64) ∧
      (¬Delivers earlgrey 0x81 0x100 1 0
          { bulk_device 64 with bus := Function.update (fun _ => 0) 0x40320048 0x40000000 } ∧
        ¬Delivers earlgrey 0x81 0x100 1 0
          { bulk_device 64 with bus := Function.update (fun _ => 0) 0x40320038 2 }) ∧
      ¬Delivers earlgrey 0x81 0x100 1 0 { bulk_device 64 with buffer_pool := 0 } :=
  ⟨oversize_not_delivered, zlp_ack_not_delivered, busy_not_delivered, no_buffer_not_delivered⟩

end IbexFirmware.Usb
