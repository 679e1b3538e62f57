/-
Whether the security version of an owner page outlives the boot that activates the page.

In the locked state `locked_owner_init` activates a newer page without a request. The
security version of the page goes into the boot data in RAM, and no code asks for a
reboot with a boot data write, as `activate_handler` does. So the version reaches the
flash if boot services of the same boot happen to write the boot data, and only then
(`version_survives_iff`). The next boot finds the new page in place, has nothing left to
activate and reads the old version.
-/
import IbexFirmware.OwnershipInit
import IbexFirmware.Rollback

set_option autoImplicit false

namespace IbexFirmware.BootSvc

open Bytes PowerFail Session Ownership Ratchet

/-! ## Boots -/

/-- `rom_ext_start` from `ownership_init` on. The keyring it fills is the one of `bl0`. -/
def rom_ext_own (bl0 : Bl0) (msg : Option BootSvcMsg) : Rom RomError := do
  let r ← .attempt (ownership_init bl0.verifier.dev)
  if init_error r = .kErrorWriteBootdataThenReboot then return .kErrorWriteBootdataThenReboot
  else rom_ext_serve bl0 msg

/-- `rom_ext_start`, of which `rom_ext_init` only reads the boot data. -/
def rom_ext_start (bl0 : Bl0) (msg : Option BootSvcMsg) : Rom RomError := do
  boot_data_read
  rom_ext_own bl0 msg

/-- A boot with a message or without one, and whatever else it finds. -/
structure Boot where
  bl0 : Bl0
  msg : Option BootSvcMsg
  machine : RomExt
  fate : ℕ → Fate

/-- The boot data that a boot leaves in flash. -/
def Boot.left (stored : BootDataPayload) (b : Boot) : BootDataPayload :=
  (rom_ext_main (rom_ext_start b.bl0 b.msg)
    (Machine.on { b.machine with stored := stored } b.fate)).2.mem.stored

/-- The boot behind its `boot_data_read`. -/
def Boot.started (stored : BootDataPayload) (b : Boot) : Machine RomExt :=
  ⟨{ b.machine with stored := stored, bootdata := restore b.machine.bootdata stored }, b.fate, 1⟩

/-- The device on which it runs. -/
def Boot.dev (b : Boot) : Device := b.bl0.verifier.dev

/-- The boot data in flash after a sequence of boots. -/
def boots_leave (stored : BootDataPayload) (boots : List Boot) : BootDataPayload :=
  run Boot.left stored boots

/-- Another activation, whether it comes to its end or not, or a minimum request. -/
def Boot.MayChange (stored : BootDataPayload) (b : Boot) : Prop :=
  (stored.ownership_state = kOwnershipStateLockedOwner ∧
      newversion_pending (load_pages b.dev (b.started stored).mem) = true) ∨
    ∃ msg, b.msg = some msg ∧
      (msg.type = kBootSvcOwnershipActivateReqType ∧ stored.ownership_state ∈ kUnlockedStates ∨
        msg.type = kBootSvcMinBl0SecVerReqType)

/-- None of these has changed the minimum so far. -/
def Undisturbed (stored : BootDataPayload) : List Boot → Prop
  | [] => True
  | b :: later =>
      (b.MayChange stored →
        (b.left stored).min_security_version_bl0 = stored.min_security_version_bl0) ∧
      Undisturbed (b.left stored) later

/-! ## Boot services behind `ownership_init` -/

/-- A message that has something stored. -/
def Stores (bl0 : Bl0) (s : RomExt) (msg : BootSvcMsg) : Prop :=
  Accepted bl0 msg ∧
    (msg.type = kBootSvcNextBl0SlotReqType ∧ AsksPrimary s msg ∨
      msg.type = kBootSvcMinBl0SecVerReqType ∧ AsksMinimum bl0 s msg ∨
      msg.type = kBootSvcOwnershipUnlockReqType ∧
        UnlockGranted bl0.verifier.dev s msg.ownership_unlock_req)

instance (bl0 : Bl0) (s : RomExt) (msg : BootSvcMsg) : Decidable (Stores bl0 s msg) :=
  inferInstanceAs (Decidable (_ ∧ _))

theorem to_store_isSome_iff (bl0 : Bl0) (s : RomExt) (msg : BootSvcMsg) :
    (to_store bl0 s msg).isSome ↔ Stores bl0 s msg := by
  have hnext_minimum : kBootSvcNextBl0SlotReqType ≠ kBootSvcMinBl0SecVerReqType := by decide
  have hnext_unlock : kBootSvcNextBl0SlotReqType ≠ kBootSvcOwnershipUnlockReqType := by decide
  have hminimum_unlock : kBootSvcMinBl0SecVerReqType ≠ kBootSvcOwnershipUnlockReqType := by decide
  unfold to_store Stores
  by_cases haccepted : Accepted bl0 msg
  · rw [if_neg (not_not.mpr haccepted), and_iff_right haccepted]
    split_ifs with hnext hprimary hminimum hasks hunlock hgranted
    · simp [hnext, hprimary]
    · simp [hnext, hprimary, hnext_minimum, hnext_unlock]
    · simp [hminimum, hasks]
    · simp [hminimum, hasks, hnext_minimum.symm, hminimum_unlock]
    · simp [hunlock, hgranted]
    · simp [hunlock, hgranted, hnext_unlock.symm, hminimum_unlock.symm]
    · simp [hnext, hminimum, hunlock]
  · rw [if_pos haccepted]
    exact iff_of_false nofun fun h => haccepted h.1

/-- What boot services leave in flash. -/
theorem serve_left (bl0 : Bl0) (msg : Option BootSvcMsg) (m : Machine RomExt)
    (hactivate : ∀ r, msg = some r → r.type = kBootSvcOwnershipActivateReqType →
      m.mem.bootdata.ownership_state ∉ kUnlockedStates) :
    (rom_ext_main (rom_ext_serve bl0 msg) m).2.mem.stored =
      stored_after m (msg.bind (to_store bl0 m.mem)) := by
  cases msg with
  | none => rfl
  | some r => exact serve_stored bl0 r m (hactivate r rfl)

/-- A boot with one version in RAM and in flash keeps it there, if no request sets it. -/
theorem serve_minimum {bl0 : Bl0} {msg : Option BootSvcMsg} {m : Machine RomExt}
    {version state : u32} (h : HasVersion version state m.mem)
    (hactivate : ∀ r, msg = some r → r.type = kBootSvcOwnershipActivateReqType →
      state ∉ kUnlockedStates)
    (hminimum : ∀ r, msg = some r → r.type ≠ kBootSvcMinBl0SecVerReqType) :
    (rom_ext_main (rom_ext_serve bl0 msg) m).2.mem.stored.min_security_version_bl0 = version := by
  have hlocked : ∀ r, msg = some r → r.type = kBootSvcOwnershipActivateReqType →
      m.mem.bootdata.ownership_state ∉ kUnlockedStates := by
    intro r hr htype
    rcases h.state with hstate | hstate
    · rw [hstate]
      exact hactivate r hr htype
    · rw [hstate]
      decide
  rw [serve_left bl0 msg m hlocked]
  cases hstore : msg.bind (to_store bl0 m.mem) with
  | none => exact h.stored
  | some t =>
      obtain ⟨r, hr, ht⟩ := Option.bind_eq_some_iff.mp hstore
      have hram : t.bootdata.min_security_version_bl0 = version := by
        rcases to_store_cases bl0 ht with ⟨-, -, rfl⟩ | ⟨htype, -, -⟩ | ⟨-, -, rfl⟩
        · exact h.ram
        · exact absurd htype (hminimum r hr)
        · rw [after_unlock_minimum]
          exact h.ram
      unfold stored_after
      split_ifs
      · exact hram
      · exact h.stored

/-! ## The boot around them -/

theorem main_of_init {bl0 : Bl0} {msg : Option BootSvcMsg} {m m' : Machine RomExt}
    {r : Except RomError OwnerBlock.Parsed}
    (hinit : Proc.attempt (ownership_init bl0.verifier.dev) m = (.ret r, m'))
    (hcode : init_error r ≠ .kErrorWriteBootdataThenReboot) :
    rom_ext_main (rom_ext_own bl0 msg) m = rom_ext_main (rom_ext_serve bl0 msg) m' := by
  refine main_congr ?_
  unfold rom_ext_own
  rw [Proc.bind_of_ret hinit, if_neg hcode]

/-- A boot that does not get through `ownership_init`. -/
theorem main_of_init_stops {bl0 : Bl0} {msg : Option BootSvcMsg} {m m' : Machine RomExt}
    (hinit : ownership_init bl0.verifier.dev m = (.trap, m') ∨
      ownership_init bl0.verifier.dev m = (.lost, m')) :
    (rom_ext_main (rom_ext_own bl0 msg) m).2 = m' := by
  unfold rom_ext_main
  rcases hinit with htrap | hlost
  · have hown : rom_ext_own bl0 msg m = (.trap, m') :=
      Proc.bind_of_trap (Proc.attempt_of_trap htrap)
    rw [Proc.bind_of_trap (Proc.attempt_of_trap hown)]
  · have hown : rom_ext_own bl0 msg m = (.lost, m') :=
      Proc.bind_of_lost (Proc.attempt_of_lost hlost)
    rw [Proc.bind_of_lost (Proc.attempt_of_lost hown)]

theorem left_eq_started (stored : BootDataPayload) (b : Boot) : b.left stored =
    if b.fate 0 = .done then
      (rom_ext_main (rom_ext_own b.bl0 b.msg) (b.started stored)).2.mem.stored
    else stored :=
  main_after_read _ _

/-- Any other boot leaves the minimum that it finds. -/
theorem left_minimum {stored : BootDataPayload} {b : Boot} (h : ¬ b.MayChange stored) :
    (b.left stored).min_security_version_bl0 = stored.min_security_version_bl0 := by
  rw [left_eq_started]
  by_cases hread : b.fate 0 = .done
  · rw [if_pos hread]
    have hstart : HasVersion stored.min_security_version_bl0 stored.ownership_state
        (b.started stored).mem := ⟨rfl, rfl, .inl rfl⟩
    have hpending : stored.ownership_state = kOwnershipStateLockedOwner →
        newversion_pending (load_pages b.dev (b.started stored).mem) = false := by
      intro hstate
      rw [← Bool.not_eq_true]
      exact fun hpending => h (.inl ⟨hstate, hpending⟩)
    have hactivate : ∀ r, b.msg = some r → r.type = kBootSvcOwnershipActivateReqType →
        stored.ownership_state ∉ kUnlockedStates :=
      fun r hr htype hstate => h (.inr ⟨r, hr, .inl ⟨htype, hstate⟩⟩)
    have hminimum : ∀ r, b.msg = some r → r.type ≠ kBootSvcMinBl0SecVerReqType :=
      fun r hr htype => h (.inr ⟨r, hr, .inr htype⟩)
    have hends := leaves_ownership_init hstart hpending (b.started stored) rfl
    rcases hrun : ownership_init b.dev (b.started stored) with ⟨outcome, m'⟩
    rw [hrun] at hends
    cases outcome with
    | ret parsed =>
        rw [main_of_init (Proc.attempt_of_ret hrun) nofun]
        exact serve_minimum hends hactivate hminimum
    | error e =>
        rw [main_of_init (Proc.attempt_of_error hrun) hends.1]
        exact serve_minimum hends.2 hactivate hminimum
    | trap =>
        rw [main_of_init_stops (.inl hrun)]
        exact hends.stored
    | lost =>
        rw [main_of_init_stops (.inr hrun)]
        exact hends.stored
  · rw [if_neg hread]

theorem undisturbed_minimum {stored : BootDataPayload} {boots : List Boot}
    (h : Undisturbed stored boots) :
    (boots_leave stored boots).min_security_version_bl0 = stored.min_security_version_bl0 := by
  induction boots generalizing stored with
  | nil => rfl
  | cons b later ih =>
      obtain ⟨hchange, hlater⟩ := h
      have hkept : (b.left stored).min_security_version_bl0 = stored.min_security_version_bl0 := by
        by_cases hmay : b.MayChange stored
        · exact hchange hmay
        · exact left_minimum hmay
      exact (ih hlater).trans hkept

/-! ## The boot of the update -/

/-- The boot reads its boot data and activates the newer version that page 1 is. -/
structure Boot.Activates (stored : BootDataPayload) (b : Boot) : Prop where
  reads : b.fate 0 = .done
  update : CarriesOut b.dev (b.started stored)

/-- The page it activates. -/
def Boot.new_page (stored : BootDataPayload) (b : Boot) : OwnerBlock :=
  Ownership.new_page b.dev (b.started stored).mem

/-- The memory in which its boot services start. -/
def Boot.services (stored : BootDataPayload) (b : Boot) : RomExt :=
  updated b.dev (load_pages b.dev (b.started stored).mem)

/-- Its boot services are reached and have the boot data stored. -/
def Boot.Saves (stored : BootDataPayload) (b : Boot) (msg : BootSvcMsg) : Prop :=
  b.msg = some msg ∧ Stores b.bl0 (b.services stored) msg ∧
    ∃ k, ServicesAt b.dev (b.new_page stored) b.fate 3 k ∧ b.fate k = .done

/-- Whatever boots come later, the version of the page is what they read, until a minimum
request of this boot or of a later one, or another activation, changes it. -/
def Boot.Survives (stored : BootDataPayload) (b : Boot) : Prop :=
  (∃ msg, b.Saves stored msg ∧ msg.type = kBootSvcMinBl0SecVerReqType) ∨
    ∀ (later : List Boot) (next : Boot), Undisturbed (b.left stored) later →
      (next.started (boots_leave (b.left stored) later)).mem.bootdata.min_security_version_bl0 =
        (b.new_page stored).min_security_version_bl0

theorem started_minimum (payload : BootDataPayload) (b : Boot) :
    (b.started payload).mem.bootdata.min_security_version_bl0 = payload.min_security_version_bl0 :=
  rfl

section update

variable {stored : BootDataPayload} {b : Boot}

/-- The version is in RAM when boot services start. -/
theorem services_minimum (hset : (b.new_page stored).min_security_version_bl0 ≠ 0xffffffff) :
    (b.services stored).bootdata.min_security_version_bl0 =
      (b.new_page stored).min_security_version_bl0 := by
  have hbootdata : (b.services stored).bootdata =
      if (b.new_page stored).min_security_version_bl0 ≠ 0xffffffff then
        { (load_pages b.dev (b.started stored).mem).bootdata with
          min_security_version_bl0 := (b.new_page stored).min_security_version_bl0 }
      else (load_pages b.dev (b.started stored).mem).bootdata := rfl
  rw [hbootdata, if_pos hset]

theorem services_state (h : b.Activates stored) :
    (b.services stored).bootdata.ownership_state = kOwnershipStateLockedOwner :=
  (seal_page1_state _).trans h.update.state

/-- Boot services find the flash as it was. -/
theorem left_of_services {k : ℕ} (h : b.Activates stored)
    (hk : ServicesAt b.dev (b.new_page stored) b.fate 3 k) : ∃ slot valid,
    b.left stored =
      let s := { b.services stored with slot := slot, owner_page_valid := valid }
      stored_after ⟨s, b.fate, k⟩ (b.msg.bind (to_store b.bl0 s)) := by
  obtain ⟨r, slot, valid, hinit, hcode⟩ := init_reaches_services h.update hk
  refine ⟨slot, valid, ?_⟩
  rw [left_eq_started, if_pos h.reads, main_of_init hinit hcode]
  refine serve_left b.bl0 b.msg _ fun _ _ _ => ?_
  have hstate : (b.services stored).bootdata.ownership_state ∉ kUnlockedStates := by
    rw [services_state h]
    decide
  exact hstate

theorem left_of_stop (h : b.Activates stored)
    (hnone : ∀ k, ¬ ServicesAt b.dev (b.new_page stored) b.fate 3 k) : b.left stored = stored := by
  obtain ⟨m', hinit, hstored⟩ := init_stops h.update hnone
  rw [left_eq_started, if_pos h.reads, main_of_init_stops hinit]
  exact hstored

/-- What boot services store has the version of the page, unless a request sets it. -/
theorem left_of_saves {msg : BootSvcMsg} (h : b.Activates stored)
    (hset : (b.new_page stored).min_security_version_bl0 ≠ 0xffffffff)
    (hsaves : b.Saves stored msg) (htype : msg.type ≠ kBootSvcMinBl0SecVerReqType) :
    (b.left stored).min_security_version_bl0 = (b.new_page stored).min_security_version_bl0 := by
  obtain ⟨hmsg, hstores, k, hk, hdone⟩ := hsaves
  obtain ⟨slot, valid, hleft⟩ := left_of_services h hk
  -- neither the flash pages nor the status of the RAM pages matter to what is stored
  have hsome : (to_store b.bl0
      { b.services stored with slot := slot, owner_page_valid := valid } msg).isSome :=
    (to_store_isSome_iff _ _ _).mpr hstores
  obtain ⟨t, ht⟩ := Option.isSome_iff_exists.mp hsome
  dsimp only at hleft
  rw [hmsg, Option.bind_some, ht] at hleft
  rw [hleft]
  unfold stored_after
  dsimp only
  rw [if_pos hdone, ← services_minimum hset]
  rcases to_store_cases b.bl0 ht with ⟨-, -, rfl⟩ | ⟨hminimum, -, -⟩ | ⟨-, -, rfl⟩
  · rfl
  · exact absurd hminimum htype
  · exact after_unlock_minimum _

theorem left_of_not_saves (h : b.Activates stored) (hnot : ¬ ∃ msg, b.Saves stored msg) :
    b.left stored = stored := by
  by_cases hk : ∃ k, ServicesAt b.dev (b.new_page stored) b.fate 3 k
  · obtain ⟨k, hk⟩ := hk
    obtain ⟨slot, valid, hleft⟩ := left_of_services h hk
    rw [hleft]
    dsimp only
    cases hstore : b.msg.bind (to_store b.bl0
        { b.services stored with slot := slot, owner_page_valid := valid }) with
    | none => rfl
    | some t =>
        obtain ⟨msg, hmsg, ht⟩ := Option.bind_eq_some_iff.mp hstore
        have hstores : Stores b.bl0 (b.services stored) msg :=
          (to_store_isSome_iff b.bl0
            { b.services stored with slot := slot, owner_page_valid := valid } msg).mp
            (Option.isSome_iff_exists.mpr ⟨t, ht⟩)
        have hcut : b.fate k ≠ .done := fun hdone => hnot ⟨msg, hmsg, hstores, k, hk, hdone⟩
        exact if_neg hcut
  · exact left_of_stop h fun k hserves => hk ⟨k, hserves⟩

/-- The version of an activated page outlives the boot that activates it if and only if
boot services of that boot store the boot data, or the version is the stored one. -/
theorem version_survives_iff (stored : BootDataPayload) (b : Boot) (h : b.Activates stored)
    (hset : (b.new_page stored).min_security_version_bl0 ≠ 0xffffffff) :
    b.Survives stored ↔
      stored.min_security_version_bl0 = (b.new_page stored).min_security_version_bl0 ∨
        ∃ msg, b.Saves stored msg := by
  constructor
  · rintro (⟨msg, hsaves, -⟩ | hlater)
    · exact .inr ⟨msg, hsaves⟩
    · by_cases hsaves : ∃ msg, b.Saves stored msg
      · exact .inr hsaves
      · -- the very next boot reads what was stored before
        have hread := hlater [] b trivial
        rw [left_of_not_saves h hsaves] at hread
        exact .inl hread
  · intro hcases
    by_cases hsaves : ∃ msg, b.Saves stored msg
    · obtain ⟨msg, hsaves⟩ := hsaves
      by_cases htype : msg.type = kBootSvcMinBl0SecVerReqType
      · exact .inl ⟨msg, hsaves, htype⟩
      · refine .inr fun later next hlater => ?_
        rw [started_minimum, undisturbed_minimum hlater]
        exact left_of_saves h hset hsaves htype
    · refine .inr fun later next hlater => ?_
      rw [started_minimum, undisturbed_minimum hlater, left_of_not_saves h hsaves]
      exact hcases.resolve_right hsaves

end update

/-- A boot of the bench device that finds a newer page in slot 1, with security version 5. -/
def update_boot (msg : Option BootSvcMsg) : Boot where
  bl0 := bench_bl0
  msg := msg
  machine := bench_boot kOwnershipStateLockedOwner
    (.programmed (bench_sealed 1 kOwnershipUpdateModeNewVersion 17)) (.programmed version5_page)
  fate _ := .done

theorem update_boot_activates (msg : Option BootSvcMsg) :
    (update_boot msg).Activates bench_stored := by
  have hruns : newversion_pending
      (load_pages bench_device ((update_boot none).started bench_stored).mem) = true ∧
      (ownership_activate bench_device false
        (loaded bench_device ((update_boot none).started bench_stored))).1 = .ret () := by
    decide +kernel
  exact ⟨rfl, rfl, hruns.1, hruns.2⟩

/-- Its page has version 5 and no items. -/
theorem update_boot_page (msg : Option BootSvcMsg) :
    ((update_boot msg).new_page bench_stored).min_security_version_bl0 = 5 ∧
      (OwnerBlock.owner_block_parse bench_device.pages_per_bank
        ((update_boot msg).new_page bench_stored) false
        ⟨OwnerBlock.owner_config_default, []⟩).toOption.bind (fun parsed => parsed.config.info) =
        none := by
  show ((update_boot none).new_page bench_stored).min_security_version_bl0 = 5 ∧
      (OwnerBlock.owner_block_parse bench_device.pages_per_bank
        ((update_boot none).new_page bench_stored) false
        ⟨OwnerBlock.owner_config_default, []⟩).toOption.bind (fun parsed => parsed.config.info) =
        none
  decide +kernel

/-- So nothing of the page is applied to the info pages. -/
theorem update_boot_applies (msg : Option BootSvcMsg) :
    ConfigApplies bench_device ((update_boot msg).new_page bench_stored) := by
  intro parsed hparse _
  have hinfo := (update_boot_page msg).2
  rw [hparse] at hinfo
  have hnone : parsed.config.info = none := hinfo
  rw [hnone]
  rfl

/-- A request that makes slot B primary. -/
def next_slot_msg : BootSvcMsg :=
  bench_msg kBootSvcNextBl0SlotReqType kBootSlotUnspecified kBootSlotB

theorem version_survives_next_slot : (update_boot (some next_slot_msg)).Survives bench_stored := by
  have hset := (update_boot_page (some next_slot_msg)).1
  refine (version_survives_iff bench_stored _ (update_boot_activates _)
    (by rw [hset]; decide)).mpr (.inr ⟨_, rfl, by decide +kernel, 5, ?_, rfl⟩)
  exact .copied rfl rfl (update_boot_applies (some next_slot_msg))

/-- Without a message the version is lost: the next boot reads version 0. -/
theorem update_without_message_loses_version :
    (update_boot none).Activates bench_stored ∧
      ((update_boot none).new_page bench_stored).min_security_version_bl0 = 5 ∧
      ((update_boot none).left bench_stored).min_security_version_bl0 = 0 ∧
      ¬ (update_boot none).Survives bench_stored := by
  have hnone : ¬ ∃ msg, (update_boot none).Saves bench_stored msg := nofun
  have hleft : ((update_boot none).left bench_stored).min_security_version_bl0 = 0 := by
    rw [left_of_not_saves (update_boot_activates none) hnone]
    rfl
  refine ⟨update_boot_activates none, (update_boot_page none).1, hleft, ?_⟩
  rintro (⟨msg, hsaves, -⟩ | hlater)
  · exact hnone ⟨msg, hsaves⟩
  · have hread := hlater [] (update_boot none) trivial
    rw [started_minimum, boots_leave, run, List.foldl_nil, hleft, (update_boot_page none).1] at hread
    exact absurd hread (by decide)

end IbexFirmware.BootSvc
