/-
The boot log (`boot_log.c`).

`boot_log_check` folds the differences of eight digest words and the identifier into the code it
returns. The shares come out even, as they do for boot data, so a log passes when its differences
add up to zero (`boot_log_check_iff`), whether they are zero or not.
-/
import IbexFirmware.EntryCheck

set_option autoImplicit false

namespace IbexFirmware.Log

open Bytes XorFold BootDataStore

/-- `chip_info_scm_revision_t`. -/
structure ScmRevision where
  scm_revision_low : u32
  scm_revision_high : u32

/-- `boot_log_t`. -/
structure BootLog where
  digest : Vector u32 8
  identifier : u32
  chip_version : ScmRevision
  rom_ext_slot : u32
  rom_ext_major : u32
  rom_ext_minor : u32
  rom_ext_size : u32
  rom_ext_nonce : Vector u32 2
  bl0_slot : u32
  ownership_state : u32
  ownership_transfers : u32
  rom_ext_min_sec_ver : u32
  bl0_min_sec_ver : u32
  primary_bl0_slot : u32
  retention_ram_initialized : u32
  reserved : Vector u32 8

def kBootLogIdentifier : u32 := 0x474f4c42

/-- The words behind the digest, as they lie in memory. -/
def BootLog.digest_region (boot_log : BootLog) : List u32 :=
  [boot_log.identifier, boot_log.chip_version.scm_revision_low,
    boot_log.chip_version.scm_revision_high, boot_log.rom_ext_slot, boot_log.rom_ext_major,
    boot_log.rom_ext_minor, boot_log.rom_ext_size] ++ boot_log.rom_ext_nonce.toList ++
  [boot_log.bl0_slot, boot_log.ownership_state, boot_log.ownership_transfers,
    boot_log.rom_ext_min_sec_ver, boot_log.bl0_min_sec_ver, boot_log.primary_bl0_slot,
    boot_log.retention_ram_initialized] ++ boot_log.reserved.toList

section

variable (hmac_sha256 : List u8 → Vector u32 8)

def boot_log_digest_compute (boot_log : BootLog) : Vector u32 8 :=
  hmac_sha256 (boot_log.digest_region.flatMap le32)

def boot_log_digest_update (boot_log : BootLog) : BootLog :=
  { boot_log with digest := boot_log_digest_compute hmac_sha256 boot_log }

def kCheckShares : Vector u32 9 :=
  #v[0x7b00d08e, 0xfdb69374, 0x336c86df, 0xff2ef417, 0xe1517012, 0x4bf5408c, 0x9c6a7b25,
    0xf771f8fa, 0xcd468505]

def boot_log_check (boot_log : BootLog) : RomError :=
  let actual_digest := boot_log_digest_compute hmac_sha256 boot_log
  let error := (List.finRange 8).foldl (fun error i =>
    error ^^^ (boot_log.digest.get i ^^^ actual_digest.get i ^^^ kCheckShares.get i.castSucc))
    RomError.kErrorBootLogInvalid.code
  let error := error ^^^ (boot_log.identifier ^^^ kCheckShares.get (Fin.last 8))
  if error = RomError.kErrorOk.code then .kErrorOk else .kErrorBootLogInvalid

/-- A log that passes is left as it is. -/
def boot_log_check_or_init (boot_log : BootLog) (rom_ext_slot : u32) (scm_revision : ScmRevision) :
    BootLog :=
  if boot_log_check hmac_sha256 boot_log = .kErrorOk then boot_log
  else
    boot_log_digest_update hmac_sha256
      { boot_log with
        identifier := kBootLogIdentifier
        chip_version := scm_revision
        rom_ext_slot := rom_ext_slot
        bl0_slot := 0
        reserved := Vector.replicate 8 0 }

/-! ## What passes -/

/-- The words that are zero in a good log. -/
def boot_log_mismatches (boot_log : BootLog) : List u32 :=
  (List.finRange 8).map (fun i =>
      boot_log.digest.get i ^^^ (boot_log_digest_compute hmac_sha256 boot_log).get i)
    ++ [boot_log.identifier ^^^ kBootLogIdentifier]

/-- A log with the right identifier and digest. -/
def BootLogExact (boot_log : BootLog) : Prop :=
  boot_log.identifier = kBootLogIdentifier ∧
    boot_log.digest = boot_log_digest_compute hmac_sha256 boot_log

theorem boot_log_mismatches_iff (boot_log : BootLog) :
    (∀ x ∈ boot_log_mismatches hmac_sha256 boot_log, x = 0) ↔ BootLogExact hmac_sha256 boot_log := by
  rw [boot_log_mismatches, List.forall_mem_append, digest_words_iff, List.forall_mem_singleton,
    BootLogExact, and_comm]
  exact and_congr_left fun _ => BitVec.xor_eq_zero_iff

/-- The shares make up for the difference of the two codes. -/
theorem boot_log_check_iff (boot_log : BootLog) :
    boot_log_check hmac_sha256 boot_log = .kErrorOk ↔
      xor_all (boot_log_mismatches hmac_sha256 boot_log) = 0 := by
  have hshares : RomError.kErrorBootLogInvalid.code ^^^
      (xor_all ((List.finRange 8).map fun i => kCheckShares.get i.castSucc) ^^^
        (kBootLogIdentifier ^^^ kCheckShares.get (Fin.last 8))) = RomError.kErrorOk.code := by
    decide
  unfold boot_log_check boot_log_mismatches
  dsimp only
  rw [foldl_xor, xor_all_map_xor, xor_last _ _ _ _ _ kBootLogIdentifier, xor_all_append,
    xor_all_singleton]
  constructor
  · intro h
    by_contra hne
    rw [if_neg (fun heq => hne ((xor_eq_iff hshares _).mp heq))] at h
    cases h
  · intro h
    exact if_pos ((xor_eq_iff hshares _).mpr h)

theorem boot_log_check_of_exact {boot_log : BootLog} (h : BootLogExact hmac_sha256 boot_log) :
    boot_log_check hmac_sha256 boot_log = .kErrorOk :=
  (boot_log_check_iff hmac_sha256 boot_log).mpr
    (xor_all_of_zero ((boot_log_mismatches_iff hmac_sha256 boot_log).mpr h))

/-- The digest does not cover itself. -/
theorem boot_log_digest_update_exact {boot_log : BootLog}
    (h : boot_log.identifier = kBootLogIdentifier) :
    BootLogExact hmac_sha256 (boot_log_digest_update hmac_sha256 boot_log) := ⟨h, rfl⟩

/-- Whatever was there before, there is a log that passes afterwards. -/
theorem boot_log_check_or_init_passes (boot_log : BootLog) (rom_ext_slot : u32)
    (scm_revision : ScmRevision) :
    boot_log_check hmac_sha256
      (boot_log_check_or_init hmac_sha256 boot_log rom_ext_slot scm_revision) = .kErrorOk := by
  rw [boot_log_check_or_init]
  split_ifs with h
  · exact h
  · exact boot_log_check_of_exact hmac_sha256 (boot_log_digest_update_exact hmac_sha256 rfl)

/-- What is asked of the check: it accepts the logs with the right identifier and digest, and those
whose digest has been updated are among them. -/
structure LogCheckExact (boot_log : BootLog) : Prop where
  exact : boot_log_check hmac_sha256 boot_log = .kErrorOk ↔ BootLogExact hmac_sha256 boot_log
  updated : boot_log.identifier = kBootLogIdentifier →
    boot_log_check hmac_sha256 (boot_log_digest_update hmac_sha256 boot_log) = .kErrorOk

/-- The check is exact, unless mismatches cancel. -/
theorem boot_log_check_exact_iff (boot_log : BootLog) :
    LogCheckExact hmac_sha256 boot_log ↔ ¬ Cancels (boot_log_mismatches hmac_sha256 boot_log) := by
  rw [← xor_all_eq_zero_iff, ← boot_log_check_iff, boot_log_mismatches_iff]
  constructor
  · exact LogCheckExact.exact
  · intro h
    exact ⟨h, fun hid =>
      boot_log_check_of_exact hmac_sha256 (boot_log_digest_update_exact hmac_sha256 hid)⟩

end

/-- The empty log with its digest, but for the lowest bit of two words. -/
def two_wrong_bits : BootLog :=
  let boot_log := boot_log_digest_update device_sha256
    ⟨Vector.replicate 8 0, kBootLogIdentifier, ⟨0, 0⟩, 0, 0, 0, 0, Vector.replicate 2 0, 0, 0, 0, 0, 0,
      0, 0, Vector.replicate 8 0⟩
  let digest := boot_log.digest
  { boot_log with digest := flip_two digest }

/-- Such a log passes. -/
theorem two_wrong_bits_pass :
    boot_log_check device_sha256 two_wrong_bits = .kErrorOk ∧
      ¬ BootLogExact device_sha256 two_wrong_bits := by
  unfold BootLogExact
  decide +kernel

end IbexFirmware.Log
