/-
What boot services store.

Handling a message makes one boot data write or none. `to_store` is what it writes, as a
function of the message and of the state it finds, and `serve_stored` is the equation:
after the boot the flash holds `to_store`, if there is something to store and the write
is carried out, and else what it held before.

Everything that happens to the flash over many boots is read off this equation.
-/
import IbexFirmware.BootSvc
import IbexFirmware.OwnershipUnlock
import IbexFirmware.Lib.Session

set_option autoImplicit false

namespace IbexFirmware.BootSvc

open Bytes PowerFail Session Ownership BootPolicy

variable (bl0 : Bl0)

/-! ## What is asked for -/

/-- The message is one for boot services, and intact. -/
def Accepted (msg : BootSvcMsg) : Prop :=
  msg.identifier = kBootSvcIdentifier ∧ boot_svc_header_check bl0.hmac_sha256 msg = .kErrorOk

/-- A next-slot request names another primary slot. -/
def AsksPrimary (s : RomExt) (msg : BootSvcMsg) : Prop :=
  s.bootdata.primary_bl0_slot ≠ msg.primary_bl0_slot ∧
    (msg.primary_bl0_slot = kBootSlotA ∨ msg.primary_bl0_slot = kBootSlotB)

/-- A minimum request names a higher minimum that an image allows. -/
def AsksMinimum (s : RomExt) (msg : BootSvcMsg) : Prop :=
  s.bootdata.min_security_version_bl0 < msg.next_bl0_slot ∧
    msg.next_bl0_slot ≤ max_sec_ver bl0 s.bootdata

instance (msg : BootSvcMsg) : Decidable (Accepted bl0 msg) := inferInstanceAs (Decidable (_ ∧ _))

instance (s : RomExt) (msg : BootSvcMsg) : Decidable (AsksPrimary s msg) :=
  inferInstanceAs (Decidable (_ ∧ _))

instance (s : RomExt) (msg : BootSvcMsg) : Decidable (AsksMinimum bl0 s msg) :=
  inferInstanceAs (Decidable (_ ∧ _))

/-- The state whose boot data a message has stored, if any. -/
def to_store (s : RomExt) (msg : BootSvcMsg) : Option RomExt :=
  if ¬ Accepted bl0 msg then none
  else if msg.type = kBootSvcNextBl0SlotReqType then
    if AsksPrimary s msg then some (with_primary msg.primary_bl0_slot s) else none
  else if msg.type = kBootSvcMinBl0SecVerReqType then
    if AsksMinimum bl0 s msg then some (with_minimum msg.next_bl0_slot s) else none
  else if msg.type = kBootSvcOwnershipUnlockReqType then
    if UnlockGranted bl0.verifier.dev s msg.ownership_unlock_req then
      some (after_unlock bl0.verifier.dev msg.ownership_unlock_req s)
    else none
  else none

/-- The flash after the boot data of `w` has been written, if the next operation of the
machine is carried out. -/
def stored_after (m : Machine RomExt) (w : Option RomExt) : BootDataPayload :=
  match w with
  | none => m.mem.stored
  | some s => if m.fate m.steps = .done then s.bootdata.payload else m.mem.stored

/-- The three requests that have something stored. -/
theorem to_store_cases {s t : RomExt} {msg : BootSvcMsg} (h : to_store bl0 s msg = some t) :
    (msg.type = kBootSvcNextBl0SlotReqType ∧ AsksPrimary s msg ∧
        t = with_primary msg.primary_bl0_slot s) ∨
      (msg.type = kBootSvcMinBl0SecVerReqType ∧ AsksMinimum bl0 s msg ∧
        t = with_minimum msg.next_bl0_slot s) ∨
      (msg.type = kBootSvcOwnershipUnlockReqType ∧
        UnlockGranted bl0.verifier.dev s msg.ownership_unlock_req ∧
        t = after_unlock bl0.verifier.dev msg.ownership_unlock_req s) := by
  unfold to_store at h
  split_ifs at h with _ hnext hprimary hminimum hasks hunlock hgranted
  · exact .inl ⟨hnext, hprimary, (Option.some.inj h).symm⟩
  · exact .inr (.inl ⟨hminimum, hasks, (Option.some.inj h).symm⟩)
  · exact .inr (.inr ⟨hunlock, hgranted, (Option.some.inj h).symm⟩)

section runs

variable {bl0} {m : Machine RomExt} {msg : BootSvcMsg}

/-! ## Writing and reading back -/

theorem boot_data_write_stored (m : Machine RomExt) :
    (boot_data_write m).2.mem.stored = stored_after m (some m.mem) := by
  unfold boot_data_write Proc.step stored_after
  cases hfate : m.fate m.steps with
  | done => rfl
  | failed => rfl
  | lost => rfl

/-- The flash is `c`, and an error is not the code for a reboot. -/
abbrev Settled {α : Type} (c : BootDataPayload) (Q : α → Prop) (p : Rom α)
    (m : Machine RomExt) : Prop :=
  Ends (fun a s => Q a ∧ s.stored = c)
    (fun e s => e ≠ RomError.kErrorWriteBootdataThenReboot ∧ s.stored = c) (fun s => s.stored = c)
    (p m).1 (p m).2.mem

/-- What comes behind the write does not touch the flash. -/
abbrev Behind {α : Type} (c : BootDataPayload) (Q : α → Prop) (p : Rom α) (s : RomExt) : Prop :=
  Leaves p s (fun a s => Q a ∧ s.stored = c)
    (fun e s => e ≠ RomError.kErrorWriteBootdataThenReboot ∧ s.stored = c) fun s => s.stored = c

theorem settled_write_read_back (m : Machine RomExt) :
    Settled (stored_after m (some m.mem)) (fun _ => True) write_read_back m := by
  have hread : ∀ (c : BootDataPayload) (s : RomExt), s.stored = c →
      Behind c (fun _ => True) boot_data_read s := by
    intro c s hs
    exact Leaves.step ⟨trivial, hs⟩ ⟨nofun, hs⟩ hs
  refine Ends.bind (R := fun _ s => s.stored = stored_after m (some m.mem)) ?_ fun _ s hs =>
    hread _ s hs
  have hstored := boot_data_write_stored m
  unfold boot_data_write Proc.step at hstored ⊢
  cases hfate : m.fate m.steps with
  | done =>
      rw [hfate] at hstored
      exact hstored
  | failed =>
      rw [hfate] at hstored
      exact ⟨nofun, hstored⟩
  | lost =>
      rw [hfate] at hstored
      exact hstored

/-- A change of the boot data in RAM, stored at once. -/
theorem settled_store {α : Type} {Q : α → Prop} {g : RomExt → RomExt} {f : Rom α}
    (hg : (g m.mem).stored = m.mem.stored)
    (hf : ∀ c s, s.stored = c → Behind c Q f s) :
    Settled (stored_after m (some (g m.mem))) Q
      (do .modify g; write_read_back; f) m := by
  have hwrite := settled_write_read_back { m with mem := g m.mem }
  have hafter : stored_after { m with mem := g m.mem } (some (g m.mem)) =
      stored_after m (some (g m.mem)) := by
    unfold stored_after
    rw [hg]
  rw [hafter] at hwrite
  show Ends _ _ _ ((write_read_back >>= fun _ => f) { m with mem := g m.mem }).1 _
  exact Ends.bind hwrite fun _ s hs => hf _ s hs.2

theorem settled_get {α : Type} {c : BootDataPayload} {Q : α → Prop} {f : RomExt → Rom α}
    (h : Settled c Q (f m.mem) m) : Settled c Q (Proc.get >>= f) m := h

theorem settled_pure {α : Type} {Q : α → Prop} {a : α} (h : Q a) :
    Settled (stored_after m none) Q (pure a) m :=
  ⟨h, rfl⟩

/-! ## The handlers -/

theorem settled_set_primary_slot (msg : BootSvcMsg) (m : Machine RomExt) :
    Settled (stored_after m (if AsksPrimary m.mem msg then
        some (with_primary msg.primary_bl0_slot m.mem) else none)) (fun _ => True)
      (set_primary_slot msg.primary_bl0_slot) m := by
  refine settled_get ?_
  by_cases hother : m.mem.bootdata.primary_bl0_slot ≠ msg.primary_bl0_slot
  · by_cases hslot : msg.primary_bl0_slot = kBootSlotA ∨ msg.primary_bl0_slot = kBootSlotB
    · have hasks : AsksPrimary m.mem msg := ⟨hother, hslot⟩
      rw [if_pos hasks, if_pos hother, if_pos hslot]
      exact settled_store rfl fun c s hs => Leaves.get (Leaves.pure ⟨trivial, hs⟩)
    · have hnot : ¬ AsksPrimary m.mem msg := fun h => hslot h.2
      rw [if_neg hnot, if_pos hother, if_neg hslot]
      split
      · exact settled_pure trivial
      · exact settled_pure trivial
  · have hnot : ¬ AsksPrimary m.mem msg := fun h => hother h.1
    rw [if_neg hnot, if_neg hother]
    exact settled_pure trivial

/-- The override is made behind the write, and in RAM. -/
theorem behind_override_slot (c : BootDataPayload) (next_slot : u32) (error : RomError)
    {s : RomExt} (hs : s.stored = c) :
    Behind c (fun _ => True) (override_slot next_slot error) s := by
  unfold override_slot
  split_ifs
  · exact Leaves.modify_bind (Leaves.pure ⟨trivial, hs⟩)
  · exact Leaves.pure ⟨trivial, hs⟩
  · exact Leaves.pure ⟨trivial, hs⟩

/-- The code of the reply is not the one for a reboot. -/
def Quiet (reply : Reply) : Prop := reply.error ≠ .kErrorWriteBootdataThenReboot

theorem settled_next_slot (bl0 : Bl0) (msg : BootSvcMsg) (m : Machine RomExt) :
    Settled (stored_after m (if AsksPrimary m.mem msg then
        some (with_primary msg.primary_bl0_slot m.mem) else none)) Quiet
      (boot_svc_next_boot_bl0_slot_handler bl0 msg) m := by
  refine Ends.bind (settled_set_primary_slot msg m) ?_
  rintro r s ⟨-, hs⟩
  refine Leaves.get (Leaves.bind (behind_override_slot _ _ _ hs) ?_)
  rintro error s' ⟨-, hs'⟩
  exact Leaves.pure ⟨nofun, hs'⟩

theorem settled_min_sec_ver (bl0 : Bl0) (msg : BootSvcMsg) (m : Machine RomExt) :
    Settled (stored_after m (if AsksMinimum bl0 m.mem msg then
        some (with_minimum msg.next_bl0_slot m.mem) else none)) Quiet
      (boot_svc_min_sec_ver_handler bl0 msg) m := by
  refine settled_get ?_
  by_cases hhigher : msg.next_bl0_slot > m.mem.bootdata.min_security_version_bl0
  · by_cases hmax : msg.next_bl0_slot ≤ max_sec_ver bl0 m.mem.bootdata
    · have hasks : AsksMinimum bl0 m.mem msg := ⟨hhigher, hmax⟩
      rw [if_pos hasks]
      rw [if_pos hhigher, if_pos hmax]
      refine settled_store rfl fun c s hs => Leaves.get ?_
      -- the check of what was read back traps, and a trap leaves the flash alone
      split_ifs
      · exact Leaves.trap hs
      · exact Leaves.pure ⟨nofun, hs⟩
    · have hnot : ¬ AsksMinimum bl0 m.mem msg := fun h => hmax h.2
      rw [if_neg hnot]
      rw [if_pos hhigher, if_neg hmax]
      exact settled_pure nofun
  · have hnot : ¬ AsksMinimum bl0 m.mem msg := fun h => hhigher h.1
    rw [if_neg hnot]
    rw [if_neg hhigher]
    exact settled_pure nofun

/-! ## The boot around them -/

/-- `rom_ext_main` around a program that comes to an end. -/
theorem main_of_attempt {p : Rom RomError} {r : Except RomError RomError} {m' : Machine RomExt}
    (h : Proc.attempt p m = (.ret r, m')) : rom_ext_main p m =
      if error_of r = .kErrorWriteBootdataThenReboot then boot_data_write m' else (.ret (), m') := by
  unfold rom_ext_main
  rw [Proc.bind_of_ret h]
  by_cases hreboot : error_of r = .kErrorWriteBootdataThenReboot
  · rw [if_pos hreboot, if_pos hreboot]
  · rw [if_neg hreboot, if_neg hreboot]
    rfl

theorem main_congr {p q : Rom RomError} {m' : Machine RomExt} (h : p m = q m') :
    rom_ext_main p m = rom_ext_main q m' := by
  unfold rom_ext_main
  rw [Proc.bind_run, Proc.bind_run, Proc.attempt_congr h]

/-- A boot in front of which the boot data record is read. -/
theorem main_after_read (p : Rom RomError) (m : Machine RomExt) :
    (rom_ext_main (do boot_data_read; p) m).2.mem.stored =
      if m.fate m.steps = .done then
        (rom_ext_main p { m with
          mem := { m.mem with bootdata := restore m.mem.bootdata m.mem.stored }
          steps := m.steps + 1 }).2.mem.stored
      else m.mem.stored := by
  cases hfate : m.fate m.steps with
  | done =>
      rw [if_pos rfl]
      have hread : boot_data_read m = (.ret (), { m with
          mem := { m.mem with bootdata := restore m.mem.bootdata m.mem.stored }
          steps := m.steps + 1 }) := Proc.step_of_done hfate
      rw [main_congr (Proc.bind_of_ret hread)]
  | failed =>
      rw [if_neg nofun]
      have hread : boot_data_read m = _ := Proc.step_of_failed hfate
      rw [main_of_attempt (Proc.attempt_of_error (Proc.bind_of_error hread))]
      rfl
  | lost =>
      rw [if_neg nofun]
      have hread : boot_data_read m = _ := Proc.step_of_lost hfate
      unfold rom_ext_main
      rw [Proc.bind_of_lost (Proc.attempt_of_lost (Proc.bind_of_lost hread))]

/-- Boot services around a message that is handled. -/
theorem serve_of_ret {r : Except RomError Reply} {m' : Machine RomExt}
    (h : Proc.attempt (handle_boot_svc bl0 msg) m = (.ret r, m')) :
    rom_ext_serve bl0 (some msg) m =
      (.ret (if reply_error r = .kErrorWriteBootdataThenReboot then
        .kErrorWriteBootdataThenReboot else .kErrorOk), m') := by
  unfold rom_ext_serve
  dsimp only
  rw [Proc.bind_of_ret h]
  split_ifs
  · rfl
  · rfl

/-- Only the code for a reboot has the boot data written after the message. -/
theorem main_serve_run {r : Except RomError Reply} {m' : Machine RomExt}
    (h : Proc.attempt (handle_boot_svc bl0 msg) m = (.ret r, m')) :
    rom_ext_main (rom_ext_serve bl0 (some msg)) m =
      if reply_error r = .kErrorWriteBootdataThenReboot then boot_data_write m'
      else (.ret (), m') := by
  rw [main_of_attempt (Proc.attempt_of_ret (serve_of_ret h))]
  by_cases hreboot : reply_error r = .kErrorWriteBootdataThenReboot
  · rw [if_pos hreboot, if_pos hreboot]
    exact if_pos rfl
  · rw [if_neg hreboot, if_neg hreboot]
    exact if_neg (by decide)

/-- What a handler settles is what the whole boot has stored. -/
theorem main_of_settled {c : BootDataPayload} (h : Settled c Quiet (handle_boot_svc bl0 msg) m) :
    (rom_ext_main (rom_ext_serve bl0 (some msg)) m).2.mem.stored = c := by
  unfold Settled at h
  rcases hrun : handle_boot_svc bl0 msg m with ⟨outcome, m'⟩
  rw [hrun] at h
  cases outcome with
  | ret reply =>
      obtain ⟨hquiet, hstored⟩ := h
      have hcode : reply_error (.ok reply) ≠ .kErrorWriteBootdataThenReboot := hquiet
      rw [main_serve_run (Proc.attempt_of_ret hrun), if_neg hcode]
      exact hstored
  | error e =>
      obtain ⟨hquiet, hstored⟩ := h
      have hcode : reply_error (.error e) ≠ .kErrorWriteBootdataThenReboot := hquiet
      rw [main_serve_run (Proc.attempt_of_error hrun), if_neg hcode]
      exact hstored
  | trap =>
      have hserve : rom_ext_serve bl0 (some msg) m = (.trap, m') :=
        Proc.bind_of_trap (Proc.attempt_of_trap hrun)
      unfold rom_ext_main
      rw [Proc.bind_of_trap (Proc.attempt_of_trap hserve)]
      exact h
  | lost =>
      have hserve : rom_ext_serve bl0 (some msg) m = (.lost, m') :=
        Proc.bind_of_lost (Proc.attempt_of_lost hrun)
      unfold rom_ext_main
      rw [Proc.bind_of_lost (Proc.attempt_of_lost hserve)]
      exact h

/-! ## The equation -/

theorem handle_accepted (h : Accepted bl0 msg) :
    handle_boot_svc bl0 msg m = boot_svc_switch bl0 msg m := by
  have hheader : return_if_error (boot_svc_header_check bl0.hmac_sha256 msg) m = (.ret (), m) := by
    unfold return_if_error
    rw [if_pos h.2]
    rfl
  unfold handle_boot_svc
  rw [if_pos h.1, Proc.bind_of_ret hheader]

/-- A bad header has one code. -/
theorem header_check_cases (hmac_sha256 : List u8 → Vector u32 8) (msg : BootSvcMsg) :
    boot_svc_header_check hmac_sha256 msg = .kErrorOk ∨
      boot_svc_header_check hmac_sha256 msg = .kErrorBootSvcBadHeader := by
  unfold boot_svc_header_check
  dsimp only
  split_ifs
  · exact .inr rfl
  · exact .inr rfl
  · exact .inl rfl
  · exact .inr rfl

theorem settled_refused (h : ¬ Accepted bl0 msg) :
    Settled m.mem.stored Quiet (handle_boot_svc bl0 msg) m := by
  unfold handle_boot_svc
  by_cases hidentifier : msg.identifier = kBootSvcIdentifier
  · rw [if_pos hidentifier]
    have hbad : boot_svc_header_check bl0.hmac_sha256 msg = .kErrorBootSvcBadHeader := by
      rcases header_check_cases bl0.hmac_sha256 msg with hok | hbad
      · exact absurd ⟨hidentifier, hok⟩ h
      · exact hbad
    have hheader : return_if_error (boot_svc_header_check bl0.hmac_sha256 msg) m =
        (.error .kErrorBootSvcBadHeader, m) := by
      rw [hbad]
      rfl
    rw [Settled, Proc.bind_of_error hheader]
    exact ⟨nofun, rfl⟩
  · rw [if_neg hidentifier]
    exact ⟨nofun, rfl⟩

/-- An unlock request: granted, it asks for a reboot, and the write of `rom_ext_main` is
the first operation of all. -/
theorem unlock_stored (h : Accepted bl0 msg) (htype : msg.type = kBootSvcOwnershipUnlockReqType) :
    (rom_ext_main (rom_ext_serve bl0 (some msg)) m).2.mem.stored =
      stored_after m (if UnlockGranted bl0.verifier.dev m.mem msg.ownership_unlock_req then
        some (after_unlock bl0.verifier.dev msg.ownership_unlock_req m.mem) else none) := by
  have hswitch : boot_svc_switch bl0 msg = do
      let error ← ownership_unlock_handler bl0.verifier.dev msg.ownership_unlock_req
      return { no_reply msg with
        error := error
        msg := boot_svc_ownership_unlock_res_init bl0.hmac_sha256 (reported error) msg } := by
    unfold boot_svc_switch
    rw [htype]
    rfl
  by_cases hgranted : UnlockGranted bl0.verifier.dev m.mem msg.ownership_unlock_req
  · rw [if_pos hgranted]
    have hrun := handle_accepted (m := m) h
    rw [hswitch, Proc.bind_of_ret (unlock_handler_granted hgranted)] at hrun
    rw [main_serve_run (Proc.attempt_of_ret hrun)]
    exact boot_data_write_stored _
  · rw [if_neg hgranted]
    obtain ⟨e, he, hrefused⟩ := unlock_handler_refused hgranted
    refine main_of_settled ?_
    rw [Settled, handle_accepted h, hswitch, Proc.bind_of_ret hrefused]
    exact ⟨he, rfl⟩

/-- An activate request where there is nothing to activate. -/
theorem settled_activate (h : Accepted bl0 msg)
    (htype : msg.type = kBootSvcOwnershipActivateReqType)
    (hlocked : m.mem.bootdata.ownership_state ∉ kUnlockedStates) :
    Settled m.mem.stored Quiet (handle_boot_svc bl0 msg) m := by
  have hswitch : boot_svc_switch bl0 msg = do
      let error ← ownership_activate_handler bl0.verifier.dev msg.ownership_activate_req
      return { no_reply msg with
        error := error
        msg := boot_svc_ownership_activate_res_init bl0.hmac_sha256 (reported error) msg } := by
    unfold boot_svc_switch
    rw [htype]
    rfl
  have hrefused : activate_switch bl0.verifier.dev msg.ownership_activate_req m =
      (.error .kErrorOwnershipInvalidState, m) := by
    unfold activate_switch
    rw [Proc.get_bind, if_neg hlocked]
    rfl
  have hhandler : ownership_activate_handler bl0.verifier.dev msg.ownership_activate_req m =
      (.ret .kErrorOwnershipInvalidState, m) := by
    unfold ownership_activate_handler
    rw [handler_run, hrefused]
  rw [Settled, handle_accepted h, hswitch, Proc.bind_of_ret hhandler]
  exact ⟨nofun, rfl⟩

/-- One boot, one request: the cases are the handlers. -/
theorem serve_stored (bl0 : Bl0) (msg : BootSvcMsg) (m : Machine RomExt)
    (hactivate : msg.type = kBootSvcOwnershipActivateReqType →
      m.mem.bootdata.ownership_state ∉ kUnlockedStates) :
    (rom_ext_main (rom_ext_serve bl0 (some msg)) m).2.mem.stored =
      stored_after m (to_store bl0 m.mem msg) := by
  by_cases haccepted : Accepted bl0 msg
  swap
  · unfold to_store
    rw [if_pos haccepted]
    exact main_of_settled (settled_refused haccepted)
  have hstore : to_store bl0 m.mem msg = _ := if_neg (not_not.mpr haccepted)
  rw [hstore]
  by_cases hnext : msg.type = kBootSvcNextBl0SlotReqType
  · rw [if_pos hnext]
    refine main_of_settled ?_
    rw [Settled, handle_accepted haccepted]
    unfold boot_svc_switch
    rw [hnext]
    exact settled_next_slot bl0 msg m
  rw [if_neg hnext]
  by_cases hminimum : msg.type = kBootSvcMinBl0SecVerReqType
  · rw [if_pos hminimum]
    refine main_of_settled ?_
    rw [Settled, handle_accepted haccepted]
    unfold boot_svc_switch
    rw [hminimum]
    exact settled_min_sec_ver bl0 msg m
  rw [if_neg hminimum]
  by_cases hunlock : msg.type = kBootSvcOwnershipUnlockReqType
  · rw [if_pos hunlock]
    exact unlock_stored haccepted hunlock
  rw [if_neg hunlock]
  refine main_of_settled ?_
  by_cases hact : msg.type = kBootSvcOwnershipActivateReqType
  · exact settled_activate haccepted hact (hactivate hact)
  -- the other messages are answered or left alone
  rw [Settled, handle_accepted haccepted]
  unfold boot_svc_switch
  rw [if_neg hnext, if_neg hminimum, if_neg hunlock, if_neg hact]
  split_ifs
  · exact ⟨nofun, rfl⟩
  · exact ⟨nofun, rfl⟩
  · exact ⟨nofun, rfl⟩

end runs

end IbexFirmware.BootSvc
