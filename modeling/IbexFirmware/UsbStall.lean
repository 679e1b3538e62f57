/-
The stall bits of the USB endpoints over a run of calls (`usb_ep_init`, `usb_ep_stall`), and
what `usb_ep_stalled` has to say about them.

`StallTable` is what the caller is told: for each endpoint and direction the value that was set
last. `shows_run` is that the two stall registers follow the table over any run, and
`stall_bit_run_of_not_affects` that a call changes no other bit of them. `usb_ep_stalled` reads its
registers without the base address of the device, so it gives back a bit of another word:
`usb_ep_stalled_exact` says what that word must hold.
-/
import IbexFirmware.Usb

set_option autoImplicit false

namespace IbexFirmware.Usb

open Bytes Json

/-! ## The table -/

inductive Direction where
  | dirIn
  | dirOut
  deriving DecidableEq

/-- The direction of an endpoint address. -/
def ep_direction (ep : u8) : Direction := if ep &&& kUsbDirIn ≠ 0 then .dirIn else .dirOut

/-- The number of an endpoint address. -/
def ep_number (ep : u8) : ℕ := (ep &&& kEpNumMask).toNat

/-- Which endpoints are control endpoints, and the values set last, as far as any were. -/
structure StallTable where
  control : ℕ → Bool
  value : Direction → ℕ → Option Bool

/-- What the value of a stall bit depends on: a call reaches its own direction, and for a control
endpoint the IN direction too. -/
def Affects (ep : u8) (control : Bool) (d : Direction) (j : ℕ) : Prop :=
  j = ep_number ep ∧ (d = ep_direction ep ∨ d = .dirIn ∧ control = true)

instance (ep : u8) (control : Bool) (d : Direction) (j : ℕ) : Decidable (Affects ep control d j) :=
  inferInstanceAs (Decidable (_ ∧ _))

namespace StallTable

def set (t : StallTable) (ep : u8) (enable : Bool) : StallTable :=
  { t with value := fun d j => if Affects ep (t.control j) d j then some enable else t.value d j }

/-- `usb_ep_init` decides whether the endpoint is a control endpoint. -/
def init (t : StallTable) (ep : u8) (type : u32) : StallTable :=
  { t with
    control :=
      if ep &&& kUsbDirIn ≠ 0 ∨ isControl type then
        Function.update t.control (ep_number ep) (decide (isControl type))
      else t.control }

end StallTable

inductive StallCall where
  | init (ep : u8) (type : u32) (max_packet_size handler user_ctx : ℕ)
  | stall (ep : u8) (enable : Bool)

namespace StallCall

def ep : StallCall → u8
  | init ep .. => ep
  | stall ep _ => ep

/-- The call on the table. -/
def onTable (t : StallTable) : StallCall → StallTable
  | init ep type .. => (t.init ep type).set ep false
  | stall ep enable => t.set ep enable

/-- The call on the device. -/
def run (L : Layout) (s : UsbState) : StallCall → UsbState
  | init ep type max_packet_size handler user_ctx =>
      (usb_ep_init L ep type max_packet_size handler user_ctx s).2
  | stall ep enable => (usb_ep_stall L ep enable s).2

/-- The call is for an endpoint that there is. -/
def Valid (c : StallCall) : Prop := ep_number c.ep < USBDEV_PARAM_N_ENDPOINTS

end StallCall

/-- The table before a run. -/
def StallTable.start (s : UsbState) : StallTable :=
  ⟨fun j => decide (isControl (s.in_endpoints j).type), fun _ _ => none⟩

/-! ## The registers -/

/-- Where the stall bits of a direction are. -/
def UsbdevRegs.stall_offset (R : UsbdevRegs) : Direction → ℕ
  | .dirIn => R.USBDEV_IN_STALL_REG_OFFSET
  | .dirOut => R.USBDEV_OUT_STALL_REG_OFFSET

/-- The registers beside them. -/
def UsbdevRegs.enable_offsets (R : UsbdevRegs) : List ℕ :=
  [R.USBDEV_EP_OUT_ENABLE_REG_OFFSET, R.USBDEV_EP_IN_ENABLE_REG_OFFSET,
    R.USBDEV_RXENABLE_SETUP_REG_OFFSET, R.USBDEV_RXENABLE_OUT_REG_OFFSET,
    R.USBDEV_SET_NAK_OUT_REG_OFFSET, R.USBDEV_IN_SENT_REG_OFFSET]

variable {L : Layout}

/-- The stall bit of an endpoint. -/
def stall_bit (L : Layout) (s : UsbState) (d : Direction) (j : ℕ) : Bool :=
  (s.bus (L.kBase + L.stall_offset d)).getLsbD j

theorem mem_offsets_stall (d : Direction) : L.stall_offset d ∈ L.offsets := by
  cases d <;> simp [UsbdevRegs.offsets, UsbdevRegs.stall_offset]

theorem stall_offset_lt (d : Direction) : L.stall_offset d < L.kBase :=
  lt_of_lt_of_le (L.offsets_lt _ (mem_offsets_stall d)) L.base_ge

theorem stall_offset_ne : L.stall_offset .dirIn ≠ L.stall_offset .dirOut := by
  have h := L.offsets_nodup
  simp only [UsbdevRegs.offsets, List.cons_append, List.nil_append, List.nodup_cons,
    List.mem_cons, not_or] at h
  exact Ne.symm h.2.2.2.2.2.2.1.1

theorem enable_offset_ne {offset : ℕ} (d : Direction) (h : offset ∈ L.enable_offsets) :
    offset ≠ L.stall_offset d := by
  have hnodup : (L.enable_offsets ++
      ([L.USBDEV_OUT_STALL_REG_OFFSET, L.USBDEV_IN_STALL_REG_OFFSET] ++
        (List.range USBDEV_PARAM_N_ENDPOINTS).map L.configin_offset)).Nodup := L.offsets_nodup
  have hdisjoint := (List.nodup_append.mp hnodup).2.2 offset h
  apply hdisjoint
  cases d <;> simp [UsbdevRegs.stall_offset]

theorem stall_addr_ne (d : Direction) :
    ∀ offset ∈ L.enable_offsets, L.kBase + L.stall_offset d ≠ L.kBase + offset := by
  intro offset h heq
  exact enable_offset_ne d h (Nat.add_left_cancel heq).symm

theorem configin_offset_ne_stall {ep : ℕ} (hep : ep < USBDEV_PARAM_N_ENDPOINTS) (d : Direction) :
    L.stall_offset d ≠ L.configin_offset ep := by
  have hnodup := (List.nodup_append.mp L.offsets_nodup).2.2 (L.stall_offset d)
    (by cases d <;> simp [UsbdevRegs.stall_offset])
  exact hnodup _ (List.mem_map.mpr ⟨ep, List.mem_range.mpr hep, rfl⟩)

/-- The stall registers keep what is written to them. -/
theorem rw1c_stall (d : Direction) : L.rw1c (L.kBase + L.stall_offset d) = 0 := by
  have hsent : L.USBDEV_IN_SENT_REG_OFFSET ≠ L.stall_offset d := 
    enable_offset_ne d (by simp [UsbdevRegs.enable_offsets])
  rw [Layout.rw1c, if_neg (by omega), if_neg]
  rintro ⟨ep, hep, heq⟩
  have hne := configin_offset_ne_stall (L := L) (List.mem_range.mp hep) d
  omega

theorem stall_bit_usbreg_bit_of_ne {offset : ℕ} (d : Direction) (bit : ℕ) (value : Bool)
    (s : UsbState) (j : ℕ) (h : offset ≠ L.stall_offset d) :
    stall_bit L (usbreg_bit L offset bit value s) d j = stall_bit L s d j := by
  rw [stall_bit, stall_bit, usbreg_bit, abs_mmio_write32_bus_of_ne (by omega)]

theorem stall_bit_usbreg_bit (d : Direction) {bit j : ℕ} (value : Bool) (s : UsbState)
    (hbit : bit < 32) (hj : j < 32) :
    stall_bit L (usbreg_bit L (L.stall_offset d) bit value s) d j =
      if j = bit then value else stall_bit L s d j := by
  rw [stall_bit, usbreg_bit, abs_mmio_write32_bus_of_rw1c (rw1c_stall d),
    getLsbD_bit32_write hbit _ _ hj]
  rfl

/-! ## One call -/

theorem ep_number_lt (ep : u8) : ep_number ep < 16 := by
  rw [ep_number, BitVec.toNat_and]
  exact lt_of_le_of_lt Nat.and_le_right (by decide)

theorem ep_direction_eq_in {ep : u8} : ep_direction ep = .dirIn ↔ ep &&& kUsbDirIn ≠ 0 := by
  rw [ep_direction]
  split_ifs with h
  · exact iff_of_true rfl h
  · exact iff_of_false nofun h

theorem ep_direction_eq_out {ep : u8} : ep_direction ep = .dirOut ↔ ep &&& kUsbDirIn = 0 := by
  rw [ep_direction]
  split_ifs with h
  · exact iff_of_false nofun h
  · exact iff_of_true rfl (not_not.mp h)

theorem usb_ep_stall_in_endpoints (ep : u8) (enable : Bool) (s : UsbState) :
    (usb_ep_stall L ep enable s).2.in_endpoints = s.in_endpoints := by
  rw [usb_ep_stall]
  split_ifs <;> rfl

/-- The writes of `usb_ep_stall`, one for each direction. -/
theorem usb_ep_stall_eq (ep : u8) (enable : Bool) (s : UsbState)
    (hep : ep_number ep < USBDEV_PARAM_N_ENDPOINTS) :
    (usb_ep_stall L ep enable s).2 =
      let i := ep_number ep
      let s' :=
        if ep &&& kUsbDirIn ≠ 0 ∨ isControl (s.in_endpoints i).type then
          usbreg_bit L (L.stall_offset .dirIn) i enable s
        else s
      if ep &&& kUsbDirIn = 0 then usbreg_bit L (L.stall_offset .dirOut) i enable s' else s' := by
  have hvalid : ¬(ep &&& kEpNumMask).toNat ≥ USBDEV_PARAM_N_ENDPOINTS := Nat.not_le.mpr hep
  rw [usb_ep_stall, if_neg hvalid]
  rfl

theorem affects_in {ep : u8} {control : Bool} {j : ℕ} :
    Affects ep control .dirIn j ↔ j = ep_number ep ∧ (ep &&& kUsbDirIn ≠ 0 ∨ control = true) := by
  rw [Affects, ← ep_direction_eq_in]
  simp [eq_comm]

theorem affects_out {ep : u8} {control : Bool} {j : ℕ} :
    Affects ep control .dirOut j ↔ j = ep_number ep ∧ ep &&& kUsbDirIn = 0 := by
  rw [Affects, ← ep_direction_eq_out]
  simp [eq_comm]

/-- A write of a stall bit that is made under a condition. -/
theorem stall_bit_ite {c : Prop} [Decidable c] (d d' : Direction) {bit j : ℕ} (value : Bool)
    (s : UsbState) (hbit : bit < 32) (hj : j < 32) :
    stall_bit L (if c then usbreg_bit L (L.stall_offset d') bit value s else s) d j =
      if c ∧ d = d' ∧ j = bit then value else stall_bit L s d j := by
  by_cases hc : c
  · rw [if_pos hc]
    by_cases hd : d = d'
    · subst hd
      rw [stall_bit_usbreg_bit _ _ _ hbit hj]
      simp [hc]
    · have hne : L.stall_offset d' ≠ L.stall_offset d := by
        cases d <;> cases d'
        · exact absurd rfl hd
        · exact Ne.symm stall_offset_ne
        · exact stall_offset_ne
        · exact absurd rfl hd
      rw [stall_bit_usbreg_bit_of_ne _ _ _ _ _ hne, if_neg (fun h => hd h.2.1)]
  · rw [if_neg hc, if_neg (fun h => hc h.1)]

/-- A stall sets one bit, or the two of a control endpoint. -/
theorem stall_bit_usb_ep_stall {ep : u8} (enable : Bool) (s : UsbState) (d : Direction) {j : ℕ}
    (hep : ep_number ep < USBDEV_PARAM_N_ENDPOINTS) (hj : j < 32) :
    stall_bit L (usb_ep_stall L ep enable s).2 d j =
      if Affects ep (isControl (s.in_endpoints j).type) d j then enable else stall_bit L s d j := by
  have hbit : ep_number ep < 32 := lt_trans (ep_number_lt ep) (by decide)
  rw [usb_ep_stall_eq ep enable s hep]
  simp only [stall_bit_ite _ _ _ _ hbit hj]
  cases d with
  | dirIn =>
      rw [if_neg (fun h => nomatch h.2.1)]
      refine ite_congr (propext ?_) (fun _ => rfl) (fun _ => rfl)
      rw [affects_in, decide_eq_true_iff]
      constructor
      · rintro ⟨hset, -, rfl⟩
        exact ⟨rfl, hset⟩
      · rintro ⟨rfl, hset⟩
        exact ⟨hset, rfl, rfl⟩
  | dirOut =>
      rw [show (if (ep &&& kUsbDirIn ≠ 0 ∨ isControl (s.in_endpoints (ep_number ep)).type) ∧
        Direction.dirOut = Direction.dirIn ∧ j = ep_number ep then enable
        else stall_bit L s .dirOut j) = stall_bit L s .dirOut j from
          if_neg (fun h => nomatch h.2.1)]
      refine ite_congr (propext ?_) (fun _ => rfl) (fun _ => rfl)
      rw [affects_out]
      constructor
      · rintro ⟨hout, -, hj⟩
        exact ⟨hj, hout⟩
      · rintro ⟨hj, hout⟩
        exact ⟨hout, rfl, hj⟩

/-- `usb_ep_init` sets the type of the endpoint, writes to registers beside the stall registers,
and then clears the stall bits. -/
theorem usb_ep_init_eq (ep : u8) (type : u32) (max_packet_size handler user_ctx : ℕ) (s : UsbState)
    (hep : ep_number ep < USBDEV_PARAM_N_ENDPOINTS) :
    ∃ s', (usb_ep_init L ep type max_packet_size handler user_ctx s).2 =
        (usb_ep_stall L ep false s').2 ∧
      (∀ j, (s'.in_endpoints j).type =
        if (ep &&& kUsbDirIn ≠ 0 ∨ isControl type) ∧ j = ep_number ep then type
        else (s.in_endpoints j).type) ∧
      ∀ addr, (∀ offset ∈ L.enable_offsets, addr ≠ L.kBase + offset) →
        s'.bus addr = s.bus addr := by
  have hvalid : ¬(ep &&& kEpNumMask).toNat ≥ USBDEV_PARAM_N_ENDPOINTS := Nat.not_le.mpr hep
  rw [usb_ep_init, if_neg hvalid]
  refine ⟨_, rfl, fun j => ?_, fun addr hne => ?_⟩
  · -- only the last of the three writes the IN endpoints
    have hlast : ∀ s'' : UsbState, s''.in_endpoints = s.in_endpoints →
        ((if ep &&& kUsbDirIn ≠ 0 ∨ isControl type then
          usbreg_bit L L.USBDEV_EP_IN_ENABLE_REG_OFFSET (ep_number ep) true
            { s'' with
              in_endpoints :=
                Function.update s''.in_endpoints (ep_number ep)
                  (fresh_endpoint type max_packet_size handler user_ctx) }
        else s'').in_endpoints j).type =
          if (ep &&& kUsbDirIn ≠ 0 ∨ isControl type) ∧ j = ep_number ep then type
          else (s.in_endpoints j).type := by
      intro s'' hsame
      by_cases hin : ep &&& kUsbDirIn ≠ 0 ∨ isControl type
      · simp only [hin, if_true, true_and, usbreg_bit, abs_mmio_write32_in_endpoints,
          Function.update_apply, hsame]
        split_ifs <;> rfl
      · simp only [hin, if_false, false_and, hsame]
    apply hlast
    split_ifs <;> rfl
  · have hmem : ∀ offset ∈ L.enable_offsets, ∀ (bit : ℕ) (value : Bool) (s'' : UsbState),
        (usbreg_bit L offset bit value s'').bus addr = s''.bus addr :=
      fun offset h bit value s'' => abs_mmio_write32_bus_of_ne (hne offset h)
    simp only [UsbdevRegs.enable_offsets, List.forall_mem_cons] at hmem
    obtain ⟨hout, hin, hsetup, hrx, hnak, -⟩ := hmem
    split_ifs <;> simp only [hout, hin, hsetup, hrx, hnak]

/-! ## Runs -/

/-- The registers hold what the table has. -/
structure Shows (L : Layout) (t : StallTable) (s : UsbState) : Prop where
  control : ∀ j, t.control j = decide (isControl (s.in_endpoints j).type)
  value :
    ∀ d j v, t.value d j = some v → j < USBDEV_PARAM_N_ENDPOINTS ∧ stall_bit L s d j = v

theorem shows_start (s : UsbState) : Shows L (StallTable.start s) s where
  control _ := rfl
  value _ _ _ h := nomatch h

theorem Shows.set {t : StallTable} {s : UsbState} (h : Shows L t s) {ep : u8} (enable : Bool)
    (hep : ep_number ep < USBDEV_PARAM_N_ENDPOINTS) :
    Shows L (t.set ep enable) (usb_ep_stall L ep enable s).2 where
  control j := by
    rw [usb_ep_stall_in_endpoints]
    exact h.control j
  value d j v hv := by
    rw [StallTable.set] at hv
    simp only [h.control] at hv
    split_ifs at hv with haffects
    · have hj : j < USBDEV_PARAM_N_ENDPOINTS := haffects.1 ▸ hep
      refine ⟨hj, ?_⟩
      rw [stall_bit_usb_ep_stall enable s d hep (lt_trans hj (by decide)), if_pos haffects]
      exact Option.some.inj hv
    · obtain ⟨hj, hbit⟩ := h.value d j v hv
      refine ⟨hj, ?_⟩
      rw [stall_bit_usb_ep_stall enable s d hep (lt_trans hj (by decide)), if_neg haffects, hbit]

theorem Shows.run {t : StallTable} {s : UsbState} (h : Shows L t s) {c : StallCall}
    (hc : c.Valid) : Shows L (c.onTable t) (c.run L s) := by
  cases c with
  | stall ep enable => exact h.set enable hc
  | init ep type max_packet_size handler user_ctx =>
      obtain ⟨s', hrun, htype, hbus⟩ :=
        usb_ep_init_eq (L := L) ep type max_packet_size handler user_ctx s hc
      rw [StallCall.run, hrun]
      refine Shows.set ⟨fun j => ?_, fun d j v hv => ?_⟩ false hc
      · rw [htype, StallTable.init]
        by_cases hin : ep &&& kUsbDirIn ≠ 0 ∨ isControl type
        · simp only [hin, if_true, true_and, Function.update_apply]
          split_ifs
          · rfl
          · exact h.control j
        · simp only [hin, if_false, false_and]
          exact h.control j
      · rw [stall_bit, hbus _ (stall_addr_ne d)]
        exact h.value d j v hv

/-- The table after a run. -/
def StallTable.after (t : StallTable) (calls : List StallCall) : StallTable :=
  calls.foldl StallCall.onTable t

/-- The device after a run. -/
def run_calls (L : Layout) (s : UsbState) (calls : List StallCall) : UsbState :=
  calls.foldl (StallCall.run L) s

theorem shows_run {t : StallTable} {s : UsbState} (h : Shows L t s) {calls : List StallCall}
    (hvalid : ∀ c ∈ calls, c.Valid) : Shows L (t.after calls) (run_calls L s calls) := by
  induction calls generalizing t s with
  | nil => exact h
  | cons c calls ih =>
      exact ih (h.run (hvalid c List.mem_cons_self)) fun c' hc' =>
        hvalid c' (List.mem_cons_of_mem c hc')

/-- A call leaves alone the bits that are not its endpoint's, and, unless the endpoint is a
control endpoint, those of the other direction. -/
theorem stall_bit_run_of_not_affects {c : StallCall} (hc : c.Valid) (s : UsbState) (d : Direction)
    {j : ℕ} (hj : j < 32)
    (h : ¬Affects c.ep (isControl ((c.run L s).in_endpoints j).type) d j) :
    stall_bit L (c.run L s) d j = stall_bit L s d j := by
  cases c with
  | stall ep enable =>
      have hep : ep_number ep < USBDEV_PARAM_N_ENDPOINTS := hc
      rw [StallCall.run, usb_ep_stall_in_endpoints] at h
      rw [StallCall.run, stall_bit_usb_ep_stall enable s d hep hj]
      exact if_neg h
  | init ep type max_packet_size handler user_ctx =>
      obtain ⟨s', hrun, -, hbus⟩ :=
        usb_ep_init_eq (L := L) ep type max_packet_size handler user_ctx s hc
      have hep : ep_number ep < USBDEV_PARAM_N_ENDPOINTS := hc
      rw [StallCall.run, hrun, usb_ep_stall_in_endpoints] at h
      rw [StallCall.run, hrun, stall_bit_usb_ep_stall false s' d hep hj]
      refine (if_neg h).trans ?_
      rw [stall_bit, hbus _ (stall_addr_ne d), stall_bit]

/-! ## What is reported -/

/-- After the calls, `usb_ep_stalled` gives the value that was set last for `ep`, and each of
the calls has left alone what it is not for. -/
structure StallsReported (L : Layout) (calls : List StallCall) (s : UsbState) (ep : u8) : Prop where
  reported :
    ∀ stalled v,
      ((StallTable.start s).after calls).value (ep_direction ep) (ep_number ep) = some v →
      usb_ep_stalled L ep stalled (run_calls L s calls) = (.kErrorOk, v)
  kept :
    ∀ before c later, calls = before ++ c :: later → ∀ d j, j < USBDEV_PARAM_N_ENDPOINTS →
      j ≠ ep_number c.ep ∨ d ≠ ep_direction c.ep ∧
        ¬isControl ((c.run L (run_calls L s before)).in_endpoints j).type →
      stall_bit L (c.run L (run_calls L s before)) d j = stall_bit L (run_calls L s before) d j

theorem usb_ep_stalled_eq (ep : u8) (stalled : Bool) (s : UsbState)
    (hep : ep_number ep < USBDEV_PARAM_N_ENDPOINTS) :
    usb_ep_stalled L ep stalled s =
      (.kErrorOk, (s.bus (L.stall_offset (ep_direction ep))).getLsbD (ep_number ep)) := by
  have hvalid : ¬(ep &&& kEpNumMask).toNat ≥ USBDEV_PARAM_N_ENDPOINTS := Nat.not_le.mpr hep
  have hreg : (if ep &&& kUsbDirIn ≠ 0 then abs_mmio_read32 L.USBDEV_IN_STALL_REG_OFFSET s
      else abs_mmio_read32 L.USBDEV_OUT_STALL_REG_OFFSET s) =
        s.bus (L.stall_offset (ep_direction ep)) := by
    rw [ep_direction]
    split_ifs <;> rfl
  have hbit : ∀ w : u32, (w &&& (1 : u32) <<< ep_number ep != 0) = w.getLsbD (ep_number ep) := by
    intro w
    have hzero := and_one_shiftLeft_eq_zero (lt_trans (ep_number_lt ep) (by decide)) w
    cases h : w.getLsbD (ep_number ep) with
    | false => rw [hzero.mpr h]; rfl
    | true =>
        rw [bne_iff_ne]
        intro h0
        rw [hzero.mp h0] at h
        cases h
  rw [usb_ep_stalled, if_neg hvalid, hreg]
  exact congrArg (RomError.kErrorOk, ·) (hbit _)

/-- The calls write to the device, and the bare offsets do not lead there. -/
theorem run_bus_stall_offset {c : StallCall} (hc : c.Valid) (s : UsbState) (d : Direction) :
    (c.run L s).bus (L.stall_offset d) = s.bus (L.stall_offset d) := by
  have hlt := stall_offset_lt (L := L) d
  have hstall : ∀ (ep : u8) (enable : Bool) (s' : UsbState),
      ep_number ep < USBDEV_PARAM_N_ENDPOINTS →
      (usb_ep_stall L ep enable s').2.bus (L.stall_offset d) = s'.bus (L.stall_offset d) := by
    intro ep enable s' hep
    have hwrite : ∀ (d' : Direction) (s'' : UsbState),
        (usbreg_bit L (L.stall_offset d') (ep_number ep) enable s'').bus (L.stall_offset d) =
          s''.bus (L.stall_offset d) :=
      fun d' s'' => abs_mmio_write32_bus_of_ne (by omega)
    rw [usb_ep_stall_eq ep enable s' hep]
    dsimp only
    split_ifs <;> simp only [hwrite]
  cases c with
  | stall ep enable => exact hstall ep enable s hc
  | init ep type max_packet_size handler user_ctx =>
      obtain ⟨s', hrun, -, hbus⟩ :=
        usb_ep_init_eq (L := L) ep type max_packet_size handler user_ctx s hc
      rw [StallCall.run, hrun, hstall ep false s' hc, hbus]
      intro offset _
      omega

theorem run_calls_bus_stall_offset {calls : List StallCall} (hvalid : ∀ c ∈ calls, c.Valid)
    (s : UsbState) (d : Direction) :
    (run_calls L s calls).bus (L.stall_offset d) = s.bus (L.stall_offset d) := by
  induction calls generalizing s with
  | nil => rfl
  | cons c calls ih =>
      refine (ih (fun c' hc' => hvalid c' (List.mem_cons_of_mem c hc')) (c.run L s)).trans ?_
      exact run_bus_stall_offset (hvalid c List.mem_cons_self) s d

/-- The value that was set last is reported exactly when it is also in the word of the bus that
the bare offset of the stall register leads to. -/
theorem usb_ep_stalled_exact (L : Layout) (calls : List StallCall) (hvalid : ∀ c ∈ calls, c.Valid)
    (s : UsbState) (ep : u8) :
    StallsReported L calls s ep ↔
      ∀ v, ((StallTable.start s).after calls).value (ep_direction ep) (ep_number ep) = some v →
        (s.bus (L.stall_offset (ep_direction ep))).getLsbD (ep_number ep) = v := by
  have hshows := shows_run (L := L) (shows_start s) hvalid
  have hstalled : ∀ stalled v,
      ((StallTable.start s).after calls).value (ep_direction ep) (ep_number ep) = some v →
      usb_ep_stalled L ep stalled (run_calls L s calls) =
        (.kErrorOk, (s.bus (L.stall_offset (ep_direction ep))).getLsbD (ep_number ep)) := by
    intro stalled v hv
    rw [usb_ep_stalled_eq ep stalled _ (hshows.value _ _ v hv).1,
      run_calls_bus_stall_offset hvalid]
  constructor
  · intro h v hv
    have hreported := h.reported false v hv
    rw [hstalled false v hv] at hreported
    exact congrArg Prod.snd hreported
  · intro h
    refine ⟨fun stalled v hv => ?_, fun before c later hcalls d j hj hother => ?_⟩
    · rw [hstalled stalled v hv, h v hv]
    · have hc : c.Valid := hvalid c (by rw [hcalls]; simp)
      apply stall_bit_run_of_not_affects hc _ d (lt_trans hj (by decide))
      rintro ⟨hnumber, hdirection⟩
      rcases hother with hne | ⟨hne, hcontrol⟩
      · exact hne hnumber
      · rcases hdirection with hd | ⟨-, hd⟩
        · exact hne hd
        · exact hcontrol (of_decide_eq_true hd)

/-- Bulk endpoint 1 is halted in the IN direction, and memory is empty. -/
theorem stalled_endpoint_not_reported :
    ¬StallsReported earlgrey [.init 0x81 kUsbEpTypeBulk 64 0 0, .stall 0x81 true]
      ⟨fun _ => fresh_endpoint 0 0 0 0, fun _ => fresh_endpoint 0 0 0 0, 0, fun _ => 0, fun _ => 0⟩
      0x81 := by
  intro h
  have hreported := h.reported false true (by decide)
  revert hreported
  decide

/-- The same calls, where the words at the bare offsets have the bit of the endpoint. -/
theorem usb_ep_stalled_exact_cleared :
    StallsReported earlgrey [.init 0x81 kUsbEpTypeBulk 64 0 0, .stall 0x81 true]
      ⟨fun _ => fresh_endpoint 0 0 0 0, fun _ => fresh_endpoint 0 0 0 0, 0, fun _ => 2, fun _ => 0⟩
      0x81 := by
  have hvalid : ∀ c ∈ [StallCall.init 0x81 kUsbEpTypeBulk 64 0 0, .stall 0x81 true], c.Valid := by
    unfold StallCall.Valid
    decide +kernel
  refine (usb_ep_stalled_exact earlgrey _ hvalid _ 0x81).mpr fun v hv => ?_
  exact (Option.some.inj hv : true = v)

end IbexFirmware.Usb
