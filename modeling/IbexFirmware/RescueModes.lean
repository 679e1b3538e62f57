/-
Which modes a rescue session acts in, and whether it can be left by `REBO`.

A mode is set in `rescue_validate_mode`, which knows the allow-list of the owner
configuration and three commands that are exempt from it. The two handlers that act on
the mode have a test of their own against the same list, and they know no exemption. So
`REBO` is accepted whatever the list holds, and carried out only where it is in it
(`reboot_command_iff`).
-/
import IbexFirmware.Rescue

set_option autoImplicit false

namespace IbexFirmware.Rescue

open Bytes OwnerBlock PowerFail Session Xmodem

/-! ## Leaving by `REBO` -/

/-- In the mode `REBO` the send handler ends the session one way or the other. -/
theorem rescue_send_handler_reboot (m : Machine World) (hmode : m.mem.state.mode = kRescueModeReboot) :
    rescue_send_handler m =
      (.error (if owner_rescue_command_allowed m.mem.state.config kRescueModeReboot
        then .kErrorRescueReboot else .kErrorRescueBadMode), m) := by
  unfold rescue_send_handler
  rw [Proc.get_bind, hmode]
  cases owner_rescue_command_allowed m.mem.state.config kRescueModeReboot with
  | true => rfl
  | false => rfl

/-- The carriage return behind `REBO` puts the session into that mode. -/
theorem protocol_receive_reboot (m : Machine World) (rest : Line)
    (hframe : m.mem.state.frame = 1) (hline : m.mem.line = some kCarriageReturn :: rest) :
    ∃ m', protocol_receive kRescueModeReboot m = (.ret 0, m') ∧
      m'.mem.state.mode = kRescueModeReboot ∧ m'.mem.state.config = m.mem.state.config := by
  have hresult : (recv_frame m.mem).1.result = .kErrorXModemUnknown := by
    unfold recv_frame
    rw [hline]
    rfl
  have hcommand : (recv_frame m.mem).1.unknown_rx = kCarriageReturn := by
    unfold recv_frame
    rw [hline]
    rfl
  unfold protocol_receive
  rw [Proc.get_bind, compute_bind]
  unfold handle_frame
  rw [hresult, hcommand, hframe, if_neg (by decide), if_neg (by decide), if_neg (by decide),
    if_neg (by decide), if_pos (by decide), if_pos rfl, compute_bind]
  exact ⟨_, rfl, rfl, rfl⟩

/-- How a session that has ended with an error leaves `rescue_protocol`. -/
theorem reset_on_reboot_run {p : Protocol u32} {m m' : Machine World} {e : RomError}
    (h : p m = (.error e, m')) :
    reset_on_reboot p m =
      (.error e, if e = .kErrorRescueReboot
        then { m' with mem := m'.mem.record [.rstmgr_reset] } else m') := by
  have hattempt : Proc.attempt p m = (.ret (.error e), m') := by
    unfold Proc.attempt
    rw [h]
  unfold reset_on_reboot
  rw [Proc.bind_run, hattempt]
  dsimp only
  by_cases he : e = .kErrorRescueReboot
  · rw [if_pos (congrArg Except.error he), if_pos he]
    rfl
  · rw [if_neg fun h => he (Except.error.inj h), if_neg he]
    rfl

/-- The command `REBO`, completed anywhere in a session, resets the chip if and only if
the configuration allows it. -/
theorem reboot_command_iff (m : Machine World) (rest : Line) (hframe : m.mem.state.frame = 1)
    (hline : m.mem.line = some kCarriageReturn :: rest) (n : ℕ) :
    let run := reset_on_reboot (protocol_receive kRescueModeReboot >>= rounds protocol_round (n + 1)) m
    (run.1 = .error .kErrorRescueReboot ∧ run.2.mem.log.getLast? = some .rstmgr_reset) ↔
      owner_rescue_command_allowed m.mem.state.config kRescueModeReboot = true := by
  intro run
  obtain ⟨m', hreceive, hmode, hconfig⟩ := protocol_receive_reboot m rest hframe hline
  have hsession : (protocol_receive kRescueModeReboot >>= rounds protocol_round (n + 1)) m =
      (.error (if owner_rescue_command_allowed m.mem.state.config kRescueModeReboot
        then .kErrorRescueReboot else .kErrorRescueBadMode), m') := by
    rw [Proc.bind_run, hreceive, ← hconfig]
    dsimp only
    unfold rounds protocol_round handle_send_modes
    rw [Proc.bind_run, Proc.bind_run, Proc.bind_run, rescue_send_handler_reboot m' hmode]
  have hrun := reset_on_reboot_run hsession
  by_cases hallowed : owner_rescue_command_allowed m.mem.state.config kRescueModeReboot = true
  · rw [if_pos hallowed, if_pos rfl] at hrun
    refine iff_of_true ⟨congrArg Prod.fst hrun, ?_⟩ hallowed
    rw [show run = _ from hrun]
    exact List.getLast?_append_of_ne_nil _ (List.cons_ne_nil _ _)
  · rw [if_neg hallowed] at hrun
    refine iff_of_false ?_ hallowed
    rintro ⟨hreboot, -⟩
    rw [show run = _ from hrun] at hreboot
    cases hreboot

theorem reboot_command_iff_no_config :
    (reset_on_reboot (protocol_receive kRescueModeReboot >>= rounds protocol_round 1)
      (.on { World.filled 0 [some kCarriageReturn] with
        state := { (World.filled 0 []).state with frame := 1 } } fun _ => .done)).1 =
      .error .kErrorRescueReboot :=
  ((reboot_command_iff _ [] rfl rfl 0).mpr rfl).1

/-- A configuration that allows firmware uploads only. -/
def firmware_only : Item := rescue_config 32 224 [kRescueModeFirmware] (one_command_fits kRescueModeFirmware)

/-- Under that configuration, which the check accepts, `REBO` on a fresh session ends it
with an error. -/
theorem reboot_refused :
    owner_block_rescue_check 256 firmware_only = .ok () ∧
      (rescue_protocol (some firmware_only) 6
        (.on (World.filled 0 [some 0x52, some 0x45, some 0x42, some 0x4f, some kCarriageReturn])
          fun _ => .done)).1 = .error .kErrorRescueBadMode := by
  decide +kernel

/-! ## Acting in validated modes -/

/-- The mode in which an event acts, if it is a staging or a write. -/
def Event.acts_in : Event → Option u32
  | .staged mode => some mode
  | .data_erase mode _ => some mode
  | .data_write mode _ _ => some mode
  | .owner_slot_1_erase mode => some mode
  | .owner_slot_1_write mode => some mode
  | .boot_svc_msg_write mode => some mode
  | _ => none

/-- After `log`, an event may act only in a mode that has been accepted. -/
def ActsValidated (log : List Event) (event : Event) : Prop :=
  ∀ mode ∈ event.acts_in, .validated mode ∈ log

/-- A mode that the handlers refuse, or in which they have nothing to do. -/
def Inactive (config : Option Item) (mode : u32) : Prop :=
  owner_rescue_command_allowed config mode = false ∨ mode ∉ send_modes ++ recv_modes

/-- The invariant of the loop: the mode has been accepted, or it is one that does nothing. -/
structure Entered (config : Option Item) (w : World) : Prop where
  safe : Safe ActsValidated w.log
  config_eq : w.state.config = config
  mode_ok : .validated w.state.mode ∈ w.log ∨ Inactive config w.state.mode

/-- The invariant inside a handler that has found its mode to be one to act in. -/
structure InMode (config : Option Item) (mode : u32) (w : World) : Prop where
  safe : Safe ActsValidated w.log
  config_eq : w.state.config = config
  mode_eq : w.state.mode = mode
  validated : .validated mode ∈ w.log

variable {config : Option Item} {mode : u32}

theorem InMode.entered (w : World) (h : InMode config mode w) : Entered config w :=
  ⟨h.safe, h.config_eq, .inl (h.mode_eq ▸ h.validated)⟩

theorem Entered.in_mode {w : World} (h : Entered config w)
    (hallowed : owner_rescue_command_allowed w.state.config w.state.mode = true)
    (hmode : w.state.mode ∈ send_modes ++ recv_modes) : InMode config w.state.mode w := by
  refine ⟨h.safe, h.config_eq, rfl, h.mode_ok.resolve_right ?_⟩
  rintro (hrefused | hnone)
  · rw [h.config_eq, hrefused] at hallowed
    cases hallowed
  · exact hnone hmode

theorem InMode.congr {w w' : World} (h : InMode config mode w) (hlog : w'.log = w.log)
    (hconfig : w'.state.config = w.state.config) (hmode : w'.state.mode = w.state.mode) :
    InMode config mode w' :=
  ⟨hlog ▸ h.safe, hconfig.trans h.config_eq, hmode.trans h.mode_eq, hlog ▸ h.validated⟩

theorem Entered.congr {w w' : World} (h : Entered config w) (hlog : w'.log = w.log)
    (hconfig : w'.state.config = w.state.config) (hmode : w'.state.mode = w.state.mode) :
    Entered config w' :=
  ⟨hlog ▸ h.safe, hconfig.trans h.config_eq, by rw [hmode, hlog]; exact h.mode_ok⟩

theorem InMode.record {w : World} {event : Event} (h : InMode config mode w)
    (hevent : ∀ mode' ∈ event.acts_in, mode' = mode) : InMode config mode (w.record [event]) := by
  refine ⟨safe_snoc h.safe fun mode' hmem => ?_, h.config_eq, h.mode_eq,
    List.mem_append_left _ h.validated⟩
  rw [hevent mode' hmem]
  exact h.validated

/-- An event that does not act is always in order. -/
theorem Entered.record {w : World} {event : Event} (h : Entered config w)
    (hevent : event.acts_in = none) : Entered config (w.record [event]) := by
  refine ⟨safe_snoc h.safe ?_, h.config_eq, h.mode_ok.imp_left (List.mem_append_left _)⟩
  intro mode' hmem
  rw [hevent] at hmem
  cases hmem

/-- Recording what is done in the present mode. -/
theorem in_mode_acts (event : u32 → Event)
    (hevent : ∀ mode, ∀ mode' ∈ (event mode).acts_in, mode' = mode) :
    Maintains (InMode config mode)
      (Proc.modify fun w => w.record [event w.state.mode] : Protocol Unit) := by
  refine Maintains.modify fun w h => h.record ?_
  rw [h.mode_eq]
  exact hevent mode

theorem in_mode_set_state {f : RescueState → RescueState}
    (hconfig : ∀ s, (f s).config = s.config) (hmode : ∀ s, (f s).mode = s.mode) :
    Maintains (InMode config mode) (set_state f) :=
  Maintains.modify fun _ h => h.congr rfl (hconfig _) (hmode _)

theorem entered_set_state {f : RescueState → RescueState}
    (hconfig : ∀ s, (f s).config = s.config) (hmode : ∀ s, (f s).mode = s.mode) :
    Maintains (Entered config) (set_state f) :=
  Maintains.modify fun _ h => h.congr rfl (hconfig _) (hmode _)

/-! ### The handlers -/

theorem in_mode_data_erase (addr : ℕ) :
    Maintains (InMode config mode) (flash_ctrl_data_erase addr) :=
  Maintains.bind (in_mode_acts (.data_erase · addr) fun _ _ h => (Option.some.inj h).symm) fun _ =>
    Maintains.step fun _ h => h.congr rfl rfl rfl

theorem in_mode_data_write (addr : ℕ) (data : List u8) :
    Maintains (InMode config mode) (flash_ctrl_data_write addr data) :=
  Maintains.bind (in_mode_acts (.data_write · addr data) fun _ _ h => (Option.some.inj h).symm)
    fun _ => Maintains.step fun _ h => h.congr rfl rfl rfl

theorem in_mode_erase_pages (bank_offset : ℕ) (addrs : List ℕ) :
    Maintains (InMode config mode) (erase_pages bank_offset addrs) := by
  induction addrs with
  | nil => exact Maintains.pure ()
  | cons addr addrs ih => exact Maintains.bind (in_mode_data_erase _) fun _ => ih

theorem in_mode_flash_firmware_block : Maintains (InMode config mode) flash_firmware_block := by
  refine Maintains.bind ?_ fun _ => Maintains.get fun w => Maintains.ite (fun _ => ?_) fun _ => ?_
  · refine Maintains.get fun w => Maintains.ite (fun _ => ?_) fun _ => Maintains.pure ()
    exact Maintains.bind (in_mode_erase_pages _ _) fun _ =>
      in_mode_set_state (fun _ => rfl) fun _ => rfl
  · exact Maintains.bind (in_mode_data_write _ _) fun _ =>
      in_mode_set_state (fun _ => rfl) fun _ => rfl
  · exact Maintains.throw _

theorem in_mode_flash_owner_block : Maintains (InMode config mode) flash_owner_block := by
  refine Maintains.get fun w => Maintains.ite (fun _ => ?_) fun _ => Maintains.pure ()
  refine Maintains.bind (in_mode_acts .owner_slot_1_erase fun _ _ h => (Option.some.inj h).symm)
    fun _ => Maintains.bind (Maintains.step fun _ h => h.congr rfl rfl rfl) fun _ => ?_
  exact Maintains.bind (in_mode_acts .owner_slot_1_write fun _ _ h => (Option.some.inj h).symm)
    fun _ => Maintains.step fun _ h => h.congr rfl rfl rfl

theorem in_mode_stage (bytes : List u8) : Maintains (InMode config mode) (stage bytes) := by
  refine Maintains.bind (Maintains.modify fun w h => ?_) fun _ => Maintains.pure _
  have hstored : InMode config mode { w with state := { w.state with
      data := writeBytes w.state.data 0 bytes, staged_len := bytes.length } } := h.congr rfl rfl rfl
  refine hstored.record fun mode' hmem => ?_
  rw [← Option.some.inj hmem]
  exact h.mode_eq

theorem in_mode_read_owner_slot (page : Fin 2) :
    Maintains (InMode config mode) (read_owner_slot page >>= stage) :=
  Maintains.bind (Maintains.step fun _ h => h) in_mode_stage

/-- A step that acts in the present mode, in a branch where that mode has passed the test. -/
theorem Entered.leaves_of_in_mode {α : Type} {w : World} {p : Protocol α} (h : Entered config w)
    (hallowed : owner_rescue_command_allowed w.state.config w.state.mode = true)
    (hmode : w.state.mode ∈ send_modes ++ recv_modes)
    (hp : Maintains (InMode config w.state.mode) p) :
    Leaves p w (fun _ => Entered config) (fun _ => Entered config) (Entered config) :=
  hp.leaves InMode.entered (h.in_mode hallowed hmode)

theorem entered_send_handler : Maintains (Entered config) rescue_send_handler := by
  intro w h
  apply Leaves.get
  split_ifs with hrefused hlog hrsp hid hpage0 hpage1 hrecv hreboot
  · exact Leaves.throw h
  · exact h.leaves_of_in_mode (by simpa using hrefused) (by rw [hlog]; decide) (in_mode_stage _)
  · exact h.leaves_of_in_mode (by simpa using hrefused) (by rw [hrsp]; decide) (in_mode_stage _)
  · exact h.leaves_of_in_mode (by simpa using hrefused) (by rw [hid]; decide) (in_mode_stage _)
  · exact h.leaves_of_in_mode (by simpa using hrefused) (by rw [hpage0]; decide)
      (in_mode_read_owner_slot 0)
  · exact h.leaves_of_in_mode (by simpa using hrefused) (by rw [hpage1]; decide)
      (in_mode_read_owner_slot 1)
  · exact Leaves.pure h
  · exact Leaves.throw h
  · exact Leaves.throw h

theorem in_mode_boot_svc_req :
    Maintains (InMode config mode) (do
      Proc.modify fun w =>
        { w with boot_svc_msg := writeBytes w.boot_svc_msg 0
                   (readBytes w.state.data 0 kBootSvcMsgSize) }.record
          [.boot_svc_msg_write w.state.mode]
      set_state fun s => { s with offset := 0 }) := by
  refine Maintains.bind (Maintains.modify fun w h => ?_) fun _ =>
    in_mode_set_state (fun _ => rfl) fun _ => rfl
  have hstored : InMode config mode { w with
      boot_svc_msg := writeBytes w.boot_svc_msg 0 (readBytes w.state.data 0 kBootSvcMsgSize) } :=
    h.congr rfl rfl rfl
  refine hstored.record fun mode' hmem => ?_
  rw [← Option.some.inj hmem]
  exact h.mode_eq

theorem entered_recv_handler : Maintains (Entered config) rescue_recv_handler := by
  intro w h
  apply Leaves.get
  by_cases hrefused : owner_rescue_command_allowed w.state.config w.state.mode = true
  · rw [hrefused, if_neg (by decide)]
    split_ifs with hsend hreq hsize htype howner hfull hfirmware hfull
    · exact Leaves.pure h
    · exact Leaves.throw h
    · exact h.leaves_of_in_mode hrefused (by rw [hreq]; decide) in_mode_boot_svc_req
    · exact Leaves.pure h
    · exact h.leaves_of_in_mode hrefused (by rw [howner]; decide) (Maintains.bind
        in_mode_flash_owner_block fun _ => in_mode_set_state (fun _ => rfl) fun _ => rfl)
    · exact Leaves.pure h
    · have hmem : w.state.mode ∈ send_modes ++ recv_modes := by
        obtain hmode | hmode := hfirmware
        · rw [hmode]
          decide
        · rw [hmode]
          decide
      exact h.leaves_of_in_mode hrefused hmem (Maintains.bind in_mode_flash_firmware_block
        fun _ => in_mode_set_state (fun _ => rfl) fun _ => rfl)
    · exact Leaves.pure h
    · exact Leaves.throw h
  · rw [eq_false_of_ne_true hrefused, if_pos (by decide)]
    exact Leaves.throw h

/-! ### Setting the mode -/

theorem Entered.exitproc {w : World} (result : RomError) (h : Entered config w) :
    Entered config (Rescue.exitproc result w).2 :=
  Entered.record (h.congr rfl rfl rfl) rfl

/-- Accepting a mode makes good what was in the memory before. -/
theorem entered_accept_mode {w : World} (mode : u32) (hsafe : Safe ActsValidated w.log)
    (hconfig : w.state.config = config) : Entered config (Rescue.accept_mode mode w) := by
  refine ⟨safe_snoc hsafe ?_, hconfig, .inl ?_⟩
  · intro mode' hmem
    cases hmem
  · exact List.mem_append_right _ (List.mem_singleton_self _)

theorem Entered.accept_mode {w : World} (mode : u32) (h : Entered config w) :
    Entered config (Rescue.accept_mode mode w) := entered_accept_mode mode h.safe h.config_eq

theorem Entered.rescue_validate_mode {w : World} (mode : u32) (h : Entered config w) :
    Entered config (Rescue.rescue_validate_mode mode w).2 := by
  unfold Rescue.rescue_validate_mode
  split_ifs
  · exact (h.accept_mode mode).exitproc _
  · exact Entered.exitproc _ (Entered.record (h.congr rfl rfl rfl) rfl)
  · exact (h.accept_mode mode).exitproc _
  · exact h
  · exact (h.accept_mode mode).exitproc _
  · exact h
  · exact h.exitproc _

theorem Entered.validate_mode {w : World} (mode : u32) (h : Entered config w) :
    Entered config (Rescue.validate_mode mode w).2 := by
  unfold Rescue.validate_mode Rescue.change_speed
  split_ifs
  · dsimp only
    split_ifs
    · exact Entered.record (h.congr rfl rfl rfl) rfl
    · exact h.congr rfl rfl rfl
  · exact h.rescue_validate_mode mode

/-! ### The session -/

theorem entered_uart_write (bytes : List u8) : Maintains (Entered config) (uart_write bytes) :=
  Maintains.modify fun _ h => h.congr rfl rfl rfl

theorem entered_handle_send_modes : Maintains (Entered config) handle_send_modes := by
  refine Maintains.bind entered_send_handler fun error => Maintains.get fun w => ?_
  refine Maintains.ite (fun _ => ?_) fun _ => Maintains.pure _
  refine Maintains.bind (maintains_compute fun w h => h.congr rfl rfl rfl) fun _ => ?_
  refine Maintains.bind (entered_set_state (fun _ => rfl) fun _ => rfl) fun _ => ?_
  exact Maintains.bind (maintains_compute fun w h => h.validate_mode _) fun _ => Maintains.pure _

theorem entered_handle_recv_modes : Maintains (Entered config) handle_recv_modes := by
  refine Maintains.bind (Maintains.attempt entered_recv_handler) fun result => ?_
  exact Maintains.ite
    (fun _ => Maintains.bind (entered_uart_write _) fun _ => Maintains.ofExcept _)
    fun _ => Maintains.ofExcept _

theorem entered_packet_ok (rxlen : ℕ) (payload : List u8) :
    Maintains (Entered config) (packet_ok rxlen payload) := by
  refine Maintains.bind (entered_set_state (fun _ => rfl) fun _ => rfl) fun _ => ?_
  refine Maintains.bind (Maintains.modify fun w h => h.record rfl) fun _ => ?_
  refine Maintains.bind entered_handle_recv_modes fun _ => ?_
  exact Maintains.bind (entered_uart_write _) fun _ =>
    entered_set_state (fun _ => rfl) fun _ => rfl

theorem entered_end_of_file : Maintains (Entered config) end_of_file := by
  refine Maintains.bind ?_ fun _ => Maintains.bind (entered_uart_write _) fun _ => ?_
  · refine Maintains.get fun w => Maintains.ite (fun _ => ?_) fun _ => Maintains.pure ()
    exact Maintains.bind (entered_set_state (fun _ => rfl) fun _ => rfl) fun _ =>
      entered_handle_recv_modes
  · refine Maintains.bind (Maintains.modify fun w h => h.record rfl) fun _ => ?_
    exact Maintains.get fun w => Maintains.ite (fun _ => Maintains.throw _) fun _ =>
      entered_set_state (fun _ => rfl) fun _ => rfl

theorem entered_protocol_round (next_mode : u32) :
    Maintains (Entered config) (protocol_round next_mode) := by
  refine Maintains.bind entered_handle_send_modes fun error => Maintains.bind ?_ fun _ => ?_
  · exact Maintains.ite (fun _ => Maintains.pure ()) fun _ => Maintains.throw _
  refine Maintains.get fun w => Maintains.bind (maintains_compute fun w h => h.congr rfl rfl rfl) ?_
  intro received
  unfold handle_frame
  split_ifs
  · exact Maintains.bind (entered_uart_write _) fun _ => Maintains.pure _
  · exact Maintains.bind (entered_packet_ok _ _) fun _ => Maintains.pure _
  · exact Maintains.bind entered_end_of_file fun _ => Maintains.pure _
  · exact Maintains.bind (entered_uart_write _) fun _ => Maintains.pure _
  · exact Maintains.bind (maintains_compute fun w h => h.validate_mode _) fun _ => Maintains.pure _
  · exact Maintains.pure _
  · exact Maintains.throw _

theorem rescue_validate_mode_firmware {w : World}
    (hallowed : owner_rescue_command_allowed w.state.config kRescueModeFirmware = true) :
    validate_mode kRescueModeFirmware w =
      exitproc .kErrorOk (accept_mode kRescueModeFirmware w) := by
  unfold validate_mode rescue_validate_mode
  rw [if_neg (by decide), if_neg (by decide), if_neg (by decide), if_pos hallowed,
    if_neg (by decide), if_pos (by decide)]

/-- The default mode is accepted at the start, or the memory keeps a mode that does
nothing. -/
theorem entered_start (config : Option Item) (w : World)
    (hstart : owner_rescue_command_allowed config kRescueModeFirmware = true ∨
      Inactive config w.state.mode) (hlog : w.log = []) (hconfig : w.state.config = config) :
    Entered config (validate_mode kRescueModeFirmware w).2 := by
  have hsafe : Safe ActsValidated w.log := hlog ▸ safe_nil
  obtain hallowed | hinactive := hstart
  · rw [rescue_validate_mode_firmware (hconfig ▸ hallowed)]
    exact (entered_accept_mode _ hsafe hconfig).exitproc _
  · exact Entered.validate_mode _ ⟨hsafe, hconfig, .inr hinactive⟩

/-- Whatever is received, nothing is staged or written in a mode that has not been
accepted before, if the default mode is allowed or the memory of the state does not
happen to hold a mode to act in. -/
theorem rescue_acts_validated (config : Option Item) (w : World)
    (hstart : owner_rescue_command_allowed config kRescueModeFirmware = true ∨
      Inactive config w.state.mode) (fate : ℕ → Fate) (n : ℕ) :
    Safe ActsValidated (rescue_protocol config n (.on { w with log := [] } fate)).2.mem.log := by
  have hprotocol : Leaves (protocol n)
      { w with log := [], state := rescue_state_init config w.state }
      (fun _ => Entered config) (fun _ => Entered config) (Entered config) := by
    apply Leaves.modify_bind
    apply leaves_compute_bind
    refine (Maintains.bind (entered_uart_write _) fun _ =>
      Maintains.rounds entered_protocol_round n 0) _ (entered_start config _ ?_ rfl ?_)
    · exact hstart.imp_right fun h => (rescue_state_init_mode config w.state).symm ▸ h
    · exact rescue_state_init_config config w.state
  have hsession : Leaves (rescue_protocol config n) { w with log := [] } (fun _ => Entered config)
      (fun _ => Entered config) (Entered config) := by
    apply Leaves.modify_bind
    refine Leaves.bind (R := fun _ => Entered config) (Leaves.attempt hprotocol)
      fun result w' h => ?_
    refine Maintains.ite (fun _ => ?_) (fun _ => Maintains.ofExcept _) w' h
    exact Maintains.bind (Maintains.modify fun _ h => h.record rfl) fun _ => Maintains.ofExcept _
  exact hsession.mem (fun _ _ h => h.safe) (fun _ _ h => h.safe) (fun _ h => h.safe) rfl

/-- A frame and the end of the upload are received, with `BLOG` in the memory of the state. -/
def firmware_upload : World :=
  World.filled kRescueModeBootLog
    ((block_frame 1 (List.replicate 128 0x5a)).map some ++ [some kXModemEof])

def firmware_upload_log : List Event :=
  (rescue_protocol (some firmware_only) 2
    (.on { firmware_upload with log := [] } fun _ => .done)).2.mem.log

set_option maxRecDepth 100000 in
/-- The pages of the region are erased and one is written, all in the mode that was accepted. -/
theorem rescue_acts_validated_firmware_only :
    firmware_upload_log.filterMap Event.acts_in = List.replicate 225 kRescueModeFirmware ∧
      Safe ActsValidated firmware_upload_log := by
  have hallowed : owner_rescue_command_allowed (some firmware_only) kRescueModeFirmware = true := by
    decide
  constructor
  · decide +kernel
  · unfold firmware_upload_log
    dsimp only
    exact rescue_acts_validated (some firmware_only) firmware_upload (.inl hallowed)
      (fun _ => .done) 2

/-- A configuration that allows the boot log only. -/
def boot_log_only : Item := rescue_config 32 224 [kRescueModeBootLog] (one_command_fits kRescueModeBootLog)

/-- Under that configuration, which the check accepts, and with `BLOG` in the memory of
the state, the boot log is staged at once. -/
theorem unvalidated_boot_log :
    owner_block_rescue_check 256 boot_log_only = .ok () ∧
      ¬ Safe ActsValidated (rescue_protocol (some boot_log_only) 1
        (.on { World.filled kRescueModeBootLog [] with log := [] } fun _ => .done)).2.mem.log := by
  refine ⟨by decide, fun hsafe => ?_⟩
  have hlog : (rescue_protocol (some boot_log_only) 1
      (.on { World.filled kRescueModeBootLog [] with log := [] } fun _ => .done)).2.mem.log =
        [Event.upload_started] ++ Event.staged kRescueModeBootLog :: [Event.upload_started] := by
    decide +kernel
  have hvalidated := hsafe _ _ _ hlog kRescueModeBootLog rfl
  revert hvalidated
  decide

end IbexFirmware.Rescue
