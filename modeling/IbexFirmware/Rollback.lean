/-
Anti-rollback over any number of boots with boot services messages.

The stored minimum is a ratchet (`Lib.Ratchet`): one boot leaves it, or a minimum request
raises it to a value below the ceiling of the two images, and then an image that was
accepted before stays acceptable (`boot_turn`). `anti_rollback` runs this over every
sequence of boots, each with its own message, images, keys and flash failures.

The override of a next-slot request is in RAM, behind the only write of its boot. What a
boot stores does not depend on it (`left_congr`).
-/
import IbexFirmware.BootSvcStore
import IbexFirmware.Lib.Ratchet

set_option autoImplicit false

namespace IbexFirmware.BootSvc

open Bytes PowerFail Ownership BootPolicy Ratchet

/-! ## One boot -/

/-- A boot that finds a message: the images and what verifies them, whatever else is in
RAM and in flash, and what becomes of the operations. -/
structure SvcBoot where
  bl0 : Bl0
  msg : BootSvcMsg
  machine : RomExt
  fate : ℕ → Fate

/-- The boot data record is read, the message handled, and the boot ended. -/
def svc_boot (bl0 : Bl0) (msg : BootSvcMsg) : Rom Unit :=
  rom_ext_main (do boot_data_read; rom_ext_serve bl0 (some msg))

/-- The boot data that a boot leaves in flash. -/
def SvcBoot.left (stored : BootDataPayload) (b : SvcBoot) : BootDataPayload :=
  (svc_boot b.bl0 b.msg (Machine.on { b.machine with stored := stored } b.fate)).2.mem.stored

/-- The boot data in flash after a sequence of boots. -/
def flash_after (stored : BootDataPayload) (boots : List SvcBoot) : BootDataPayload :=
  run SvcBoot.left stored boots

/-- The state in which the message is handled. -/
def SvcBoot.handled (stored : BootDataPayload) (b : SvcBoot) : RomExt :=
  { b.machine with stored := stored, bootdata := restore b.machine.bootdata stored }

/-- What a boot stores is what its message asks for, if the record can be read and the new
one is written. -/
theorem left_eq (stored : BootDataPayload) (b : SvcBoot)
    (htype : b.msg.type ≠ kBootSvcOwnershipActivateReqType) :
    b.left stored = if b.fate 0 = .done then
        stored_after ⟨b.handled stored, b.fate, 1⟩ (to_store b.bl0 (b.handled stored) b.msg)
      else stored := by
  unfold SvcBoot.left svc_boot
  rw [main_after_read]
  refine if_congr Iff.rfl ?_ rfl
  exact serve_stored b.bl0 b.msg ⟨b.handled stored, b.fate, 1⟩ fun h => absurd h htype

theorem left_cases (stored : BootDataPayload) (b : SvcBoot)
    (htype : b.msg.type ≠ kBootSvcOwnershipActivateReqType) :
    b.left stored = stored ∨
      ∃ s, to_store b.bl0 (b.handled stored) b.msg = some s ∧ b.left stored = s.bootdata.payload := by
  rw [left_eq stored b htype]
  by_cases hread : b.fate 0 = .done
  · rw [if_pos hread]
    cases hstore : to_store b.bl0 (b.handled stored) b.msg with
    | none => exact .inl rfl
    | some s =>
        by_cases hwrite : b.fate 1 = .done
        · exact .inr ⟨s, rfl, if_pos hwrite⟩
        · exact .inl (if_neg hwrite)
  · rw [if_neg hread]
    exact .inl rfl

/-! ## The minimum -/

/-- The images in the two slots. -/
def Bl0.images (bl0 : Bl0) : List Manifest := [bl0.manifest_a, bl0.manifest_b]

/-- The handler's limit is the ceiling of the two images. -/
theorem max_sec_ver_eq (bl0 : Bl0) (boot_data : BootData) :
    max_sec_ver bl0 boot_data =
      ceiling (fun manifest => rom_ext_verify bl0.verifier manifest boot_data = .kErrorOk)
        Manifest.security_version bl0.images boot_data.min_security_version_bl0 := rfl

/-- A minimum request may set `w`: an image that is accepted now is not older. -/
def SvcBoot.Allows (stored : BootDataPayload) (b : SvcBoot) (w : u32) : Prop :=
  b.msg.type = kBootSvcMinBl0SecVerReqType ∧
    ∃ manifest ∈ b.bl0.images,
      rom_ext_verify b.bl0.verifier manifest (b.handled stored).bootdata = .kErrorOk ∧
        w ≤ manifest.security_version

/-- One boot is one turn of the ratchet. -/
theorem boot_turn (stored : BootDataPayload) (b : SvcBoot)
    (htype : b.msg.type ≠ kBootSvcOwnershipActivateReqType) :
    Turn (b.Allows stored) stored.min_security_version_bl0
      (b.left stored).min_security_version_bl0 := by
  rcases left_cases stored b htype with hsame | ⟨s, hstore, hleft⟩
  · exact .inl (by rw [hsame])
  rw [hleft]
  rcases to_store_cases b.bl0 hstore with ⟨-, -, rfl⟩ | ⟨hminimum, hasks, rfl⟩ | ⟨-, -, rfl⟩
  · -- the next-slot request stores the minimum that was read
    exact .inl rfl
  · obtain ⟨hhigher, hmax⟩ := hasks
    rw [max_sec_ver_eq] at hmax
    exact .inr ⟨hhigher, hminimum, exists_version_ge hhigher hmax⟩
  · exact .inl (after_unlock_minimum (b.handled stored))

/-- An image that a minimum request goes by passes under the boot data it leaves. -/
theorem verify_of_allows {stored : BootDataPayload} {b : SvcBoot} {boot_data : BootData}
    (h : b.Allows stored boot_data.min_security_version_bl0) :
    ∃ manifest ∈ b.bl0.images, rom_ext_verify b.bl0.verifier manifest boot_data = .kErrorOk := by
  obtain ⟨-, manifest, hmem, hok, hle⟩ := h
  exact ⟨manifest, hmem, rom_ext_verify_raise b.bl0.verifier hok hle⟩

/-! ## The override -/

/-- The primary slot in flash changes to the one a next-slot request names as primary. -/
theorem left_primary (stored : BootDataPayload) (b : SvcBoot)
    (htype : b.msg.type ≠ kBootSvcOwnershipActivateReqType) :
    (b.left stored).primary_bl0_slot = stored.primary_bl0_slot ∨
      b.msg.type = kBootSvcNextBl0SlotReqType ∧
        (b.left stored).primary_bl0_slot = b.msg.primary_bl0_slot := by
  rcases left_cases stored b htype with hsame | ⟨s, hstore, hleft⟩
  · exact .inl (by rw [hsame])
  rw [hleft]
  rcases to_store_cases b.bl0 hstore with ⟨hnext, -, rfl⟩ | ⟨-, -, rfl⟩ | ⟨-, -, rfl⟩
  · exact .inr ⟨hnext, rfl⟩
  · exact .inl rfl
  · exact .inl (after_unlock_primary (b.handled stored))

/-- Two next-slot requests that differ in the override alone. -/
structure SameButOverride (bl0 : Bl0) (msg msg' : BootSvcMsg) : Prop where
  type : msg.type = kBootSvcNextBl0SlotReqType
  type' : msg'.type = kBootSvcNextBl0SlotReqType
  primary : msg'.primary_bl0_slot = msg.primary_bl0_slot
  accepted : Accepted bl0 msg' ↔ Accepted bl0 msg

/-- They leave the same boot data, wherever their boots are cut. -/
theorem left_congr (stored : BootDataPayload) (b : SvcBoot) {msg' : BootSvcMsg}
    (h : SameButOverride b.bl0 b.msg msg') :
    { b with msg := msg' }.left stored = b.left stored := by
  obtain ⟨htype, htype', hprimary, haccepted⟩ := h
  have hstore : to_store b.bl0 (b.handled stored) msg' = to_store b.bl0 (b.handled stored) b.msg := by
    have hasks : AsksPrimary (b.handled stored) msg' ↔ AsksPrimary (b.handled stored) b.msg := by
      unfold AsksPrimary
      rw [hprimary]
    unfold to_store
    rw [if_pos htype, if_pos htype', hprimary]
    exact if_congr (not_congr haccepted) rfl (if_congr hasks rfl rfl)
  have hb : b.msg.type ≠ kBootSvcOwnershipActivateReqType := by
    rw [htype]
    decide
  have hb' : msg'.type ≠ kBootSvcOwnershipActivateReqType := by
    rw [htype']
    decide
  rw [left_eq stored b hb, left_eq stored { b with msg := msg' } hb']
  show (if b.fate 0 = .done then stored_after _ (to_store b.bl0 (b.handled stored) msg') else _) = _
  rw [hstore]
  rfl

/-! ## Any number of boots -/

/-- Over every sequence of boots services messages: the stored minimum never decreases, a
boot that raises it handles a minimum request and leaves an image that passes under the new
boot data, and the stored primary slot is never the override of a next-slot request. -/
theorem anti_rollback (stored : BootDataPayload) (boots : List SvcBoot)
    (hboots : ∀ b ∈ boots, b.msg.type ≠ kBootSvcOwnershipActivateReqType) :
    (∀ earlier later, boots = earlier ++ later →
      (flash_after stored earlier).min_security_version_bl0 ≤
        (flash_after stored boots).min_security_version_bl0) ∧
    (∀ earlier b later, boots = earlier ++ b :: later →
      (flash_after stored (earlier ++ [b])).min_security_version_bl0 ≠
          (flash_after stored earlier).min_security_version_bl0 →
        b.msg.type = kBootSvcMinBl0SecVerReqType ∧
        ∀ boot_data : BootData, boot_data.payload = flash_after stored (earlier ++ [b]) →
          rom_ext_verify b.bl0.verifier b.bl0.manifest_a boot_data = .kErrorOk ∨
            rom_ext_verify b.bl0.verifier b.bl0.manifest_b boot_data = .kErrorOk) ∧
    (∀ earlier b later, boots = earlier ++ b :: later →
      ((flash_after stored (earlier ++ [b])).primary_bl0_slot ≠
          (flash_after stored earlier).primary_bl0_slot →
        b.msg.type = kBootSvcNextBl0SlotReqType ∧
          (flash_after stored (earlier ++ [b])).primary_bl0_slot = b.msg.primary_bl0_slot) ∧
      ∀ msg', SameButOverride b.bl0 b.msg msg' →
        flash_after stored (earlier ++ [{ b with msg := msg' }]) =
          flash_after stored (earlier ++ [b])) := by
  have hturn : ∀ b ∈ boots, ∀ stored, Turn (b.Allows stored) stored.min_security_version_bl0
      (b.left stored).min_security_version_bl0 := fun b hb stored => boot_turn stored b (hboots b hb)
  have hlast : ∀ earlier (b : SvcBoot), flash_after stored (earlier ++ [b]) =
      b.left (flash_after stored earlier) := fun earlier b => run_append _ _ _ _
  refine ⟨?_, ?_, ?_⟩
  · rintro earlier later rfl
    unfold flash_after
    rw [run_append]
    exact run_le _ fun b hb => hturn b (List.mem_append_right earlier hb)
  · rintro earlier b later rfl hraised
    have hallows := (run_turn stored hturn).allows hraised
    refine ⟨hallows.1, fun boot_data hpayload => ?_⟩
    have hminimum : boot_data.min_security_version_bl0 =
        (flash_after stored (earlier ++ [b])).min_security_version_bl0 := by
      rw [← hpayload]
      rfl
    unfold flash_after at hminimum
    rw [← hminimum] at hallows
    obtain ⟨manifest, hmem, hok⟩ := verify_of_allows hallows
    rcases List.mem_pair.mp hmem with rfl | rfl
    · exact .inl hok
    · exact .inr hok
  · rintro earlier b later rfl
    have hb := hboots b (List.mem_append_right earlier List.mem_cons_self)
    refine ⟨fun hchanged => ?_, fun msg' hsame => ?_⟩
    · rw [hlast] at hchanged ⊢
      rcases left_primary (flash_after stored earlier) b hb with hprimary | hprimary
      · exact absurd hprimary hchanged
      · exact hprimary
    · rw [hlast, hlast]
      exact left_congr (flash_after stored earlier) b hsame

/-! A device with a version 5 image in slot A and an empty slot B. -/

/-- The words of the manifest that are not zero. -/
def bench_manifest : Manifest :=
  ⟨[(432, 7), (820, CHIP_BL0_IDENTIFIER), (824, 0x20000), (828, 1032), (832, 1032), (844, 5),
    (892, 1024), (896, 1032), (900, 1024)].foldl (fun mem w => writeWord mem w.1 w.2) fun _ => 0⟩

/-- An application key with identifier 7. -/
def bench_key : OwnerBlock.Item where
  data := ((Vector.replicate kOwnerDataSize 0).set 8 0x50).set 48 7
  offset := 0

def bench_bl0 : Bl0 where
  verifier :=
    { dev := bench_device
      manuf_state_creator := 0
      manuf_state_owner := 0
      life_cycle_state := 0
      keyring := [bench_key]
      owner_verify := fun _ => .kErrorOk }
  manifest_a := bench_manifest
  manifest_b := ⟨fun _ => 0⟩

def bench_msg (type word0 word1 : u32) : BootSvcMsg :=
  boot_svc_header_finalize checksum type 52
    { digest := Vector.replicate 8 0
      identifier := 0
      type := 0
      length := 0
      payload := Vector.ofFn fun i => if i.val = 0 then word0 else if i.val = 1 then word1 else 0 }

def bench_svc_boot (type word0 word1 : u32) : SvcBoot where
  bl0 := bench_bl0
  msg := bench_msg type word0 word1
  machine := bench_boot kOwnershipStateLockedOwner .erased .erased
  fate _ := .done

/-- A request for minimum 3, and one that makes slot B primary and boots slot A once. -/
def bench_boots : List SvcBoot :=
  [bench_svc_boot kBootSvcMinBl0SecVerReqType 3 0,
    bench_svc_boot kBootSvcNextBl0SlotReqType kBootSlotA kBootSlotB]

def bench_stored : BootDataPayload := (bench_boot kOwnershipStateLockedOwner .erased .erased).stored

theorem anti_rollback_bench :
    (flash_after bench_stored (bench_boots.take 1)).min_security_version_bl0 = 3 ∧
      (flash_after bench_stored bench_boots).primary_bl0_slot = kBootSlotB ∧
      (flash_after bench_stored (bench_boots.take 1)).min_security_version_bl0 ≤
        (flash_after bench_stored bench_boots).min_security_version_bl0 :=
  ⟨by decide, by decide,
    (anti_rollback bench_stored bench_boots (by decide)).1 (bench_boots.take 1)
      (bench_boots.drop 1) rfl⟩

end IbexFirmware.BootSvc
