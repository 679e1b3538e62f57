/-
What the two header checks accept.

`boot_data_check` and `boot_svc_header_check` compare eight digest words and an
identifier by folding the differences into one word with precomputed shares. The shares
come out even (`boot_data_check_iff`, `boot_svc_header_check_iff`), so a header passes
exactly when its differences add up to zero, and that is what is asked of it unless the
differences of several words cancel.
-/
import IbexFirmware.BootDataCrash
import IbexFirmware.BootSvcStore
import IbexFirmware.Lib.XorFold

set_option autoImplicit false

namespace IbexFirmware.BootDataStore

open Bytes XorFold

section

variable (hmac_sha256 : List u8 → Vector u32 8)

/-! ## Boot data entries -/

/-- The words that differ from what they should be by nothing in a good entry. -/
def boot_data_mismatches (e : BootData) : List u32 :=
  (List.finRange 8).map (fun i =>
      e.digest.get i ^^^ (boot_data_digest_compute hmac_sha256 e).get i)
    ++ [e.identifier ^^^ kBootDataIdentifier]

/-- An entry with the right identifier and digest. -/
def BootDataExact (e : BootData) : Prop :=
  e.identifier = kBootDataIdentifier ∧ e.digest = boot_data_digest_compute hmac_sha256 e

/-- Two digests are the same when their words differ by nothing. -/
theorem digest_words_iff (a b : Vector u32 8) :
    (∀ x ∈ (List.finRange 8).map (fun i => a.get i ^^^ b.get i), x = 0) ↔ a = b := by
  constructor
  · intro h
    apply Vector.ext
    intro i hi
    have hzero := h _ (List.mem_map_of_mem (List.mem_finRange ⟨i, hi⟩))
    exact BitVec.xor_eq_zero_iff.mp hzero
  · rintro rfl x hx
    obtain ⟨i, -, rfl⟩ := List.mem_map.mp hx
    exact BitVec.xor_self

theorem boot_data_mismatches_iff (e : BootData) :
    (∀ x ∈ boot_data_mismatches hmac_sha256 e, x = 0) ↔ BootDataExact hmac_sha256 e := by
  rw [boot_data_mismatches, List.forall_mem_append, digest_words_iff, List.forall_mem_singleton,
    BootDataExact, and_comm]
  exact and_congr_left fun _ => BitVec.xor_eq_zero_iff

/-- The shares make up for the difference of the two codes. -/
theorem boot_data_check_iff (e : BootData) :
    boot_data_check hmac_sha256 e = .kErrorOk ↔ xor_all (boot_data_mismatches hmac_sha256 e) = 0 := by
  have hshares : RomError.kErrorBootDataInvalid.code ^^^
      (xor_all ((List.finRange 8).map fun i => kCheckShares.get i.castSucc) ^^^
        (kBootDataIdentifier ^^^ kCheckShares.get (Fin.last 8))) = RomError.kErrorOk.code := by
    decide
  unfold boot_data_check boot_data_mismatches
  dsimp only
  rw [foldl_xor, xor_all_map_xor, xor_last _ _ _ _ _ kBootDataIdentifier, xor_all_append,
    xor_all_singleton]
  constructor
  · intro h
    by_contra hne
    rw [if_neg (fun heq => hne ((xor_eq_iff hshares _).mp heq))] at h
    cases h
  · intro h
    exact if_pos ((xor_eq_iff hshares _).mpr h)

/-- The check accepts the entries with the right identifier and digest, and no others,
unless mismatches cancel. -/
theorem boot_data_check_exact_iff (e : BootData) :
    (boot_data_check hmac_sha256 e = .kErrorOk ↔ BootDataExact hmac_sha256 e) ↔
      ¬ Cancels (boot_data_mismatches hmac_sha256 e) := by
  rw [boot_data_check_iff, ← boot_data_mismatches_iff]
  exact xor_all_eq_zero_iff _

end

/-- A digest but for the lowest bit of two words. -/
def flip_two (digest : Vector u32 8) : Vector u32 8 :=
  Vector.ofFn fun i => if i.val < 2 then digest.get i ^^^ 1 else digest.get i

/-- The entry `e` with its digest, but for the lowest bit of two words. -/
def two_wrong_bits (e : BootData) : BootData :=
  let digest := boot_data_digest_compute device_sha256 e
  { e with digest := flip_two digest }

/-- Such an entry passes. -/
theorem two_wrong_bits_accepted :
    boot_data_check device_sha256 (two_wrong_bits
        { record_of_version kBootDataVersion2 with identifier := kBootDataIdentifier }) = .kErrorOk ∧
      ¬ BootDataExact device_sha256 (two_wrong_bits
        { record_of_version kBootDataVersion2 with identifier := kBootDataIdentifier }) := by
  unfold BootDataExact
  decide +kernel

end IbexFirmware.BootDataStore

namespace IbexFirmware.BootSvc

open Bytes XorFold BootDataStore

section

variable (hmac_sha256 : List u8 → Vector u32 8)

/-! ## Boot services messages -/

def boot_svc_mismatches (msg : BootSvcMsg) : List u32 :=
  (List.finRange 8).map (fun i =>
      msg.digest.get i ^^^ (boot_svc_header_digest_compute hmac_sha256 msg).get i)
    ++ [msg.identifier ^^^ kBootSvcIdentifier]

/-- A length that the check lets through. -/
def LengthInRange (length : u32) : Prop :=
  CHIP_BOOT_SVC_MSG_HEADER_SIZE ≤ length ∧ length ≤ CHIP_BOOT_SVC_MSG_SIZE_MAX

/-- A message with the right length, identifier and digest. -/
def BootSvcExact (msg : BootSvcMsg) : Prop :=
  LengthInRange msg.length ∧ msg.identifier = kBootSvcIdentifier ∧
    msg.digest = boot_svc_header_digest_compute hmac_sha256 msg

/-- A message that `boot_svc_header_finalize` has made. -/
def BootSvcFinalized (msg : BootSvcMsg) : Prop :=
  ∃ type length msg', LengthInRange length ∧
    boot_svc_header_finalize hmac_sha256 type length msg' = msg

theorem header_mismatches_iff (msg : BootSvcMsg) :
    (∀ x ∈ boot_svc_mismatches hmac_sha256 msg, x = 0) ↔
      msg.identifier = kBootSvcIdentifier ∧
        msg.digest = boot_svc_header_digest_compute hmac_sha256 msg := by
  rw [boot_svc_mismatches, List.forall_mem_append, List.forall_mem_singleton, and_comm]
  exact and_congr BitVec.xor_eq_zero_iff (digest_words_iff _ _)

theorem header_check_in_range {msg : BootSvcMsg} (h : LengthInRange msg.length) :
    boot_svc_header_check hmac_sha256 msg = .kErrorOk ↔
      xor_all (boot_svc_mismatches hmac_sha256 msg) = 0 := by
  have hshares : (RomError.code .kErrorBootSvcBadHeader ^^^ kCheckShares[0] ^^^ kCheckShares[1]) ^^^
      (xor_all ((List.finRange 8).map fun j : Fin 8 => kCheckShares[j.val + 2]) ^^^
        (kBootSvcIdentifier ^^^ kCheckShares[10])) = RomError.code .kErrorOk := by
    decide
  have hshort : ¬ msg.length < CHIP_BOOT_SVC_MSG_HEADER_SIZE := BitVec.not_lt.mpr h.1
  have hlong : ¬ CHIP_BOOT_SVC_MSG_SIZE_MAX < msg.length := BitVec.not_lt.mpr h.2
  have hwords : boot_svc_mismatches hmac_sha256 msg = ((List.finRange 8).map fun j : Fin 8 =>
      msg.digest[j] ^^^ (boot_svc_header_digest_compute hmac_sha256 msg)[j])
        ++ [msg.identifier ^^^ kBootSvcIdentifier] := rfl
  unfold boot_svc_header_check
  rw [hwords, if_neg hshort, if_neg hlong]
  dsimp only
  rw [foldl_xor, xor_all_map_xor, xor_last _ _ _ _ _ kBootSvcIdentifier, xor_all_append,
    xor_all_singleton]
  constructor
  · intro hok
    by_contra hne
    rw [if_neg (fun heq => hne ((xor_eq_iff hshares _).mp heq))] at hok
    cases hok
  · intro hzero
    exact if_pos ((xor_eq_iff hshares _).mpr hzero)

/-- Without a length in range nothing is hashed. -/
theorem header_check_out_of_range {msg : BootSvcMsg} (h : ¬ LengthInRange msg.length) :
    boot_svc_header_check hmac_sha256 msg = .kErrorBootSvcBadHeader := by
  unfold boot_svc_header_check
  split_ifs with hshort hlong
  · rfl
  · rfl
  · exact absurd ⟨BitVec.not_lt.mp hshort, BitVec.not_lt.mp hlong⟩ h

theorem finalized_iff (msg : BootSvcMsg) :
    BootSvcFinalized hmac_sha256 msg ↔ BootSvcExact hmac_sha256 msg := by
  constructor
  · rintro ⟨type, length, msg', hlength, rfl⟩
    exact ⟨hlength, rfl, rfl⟩
  · rintro ⟨hlength, hidentifier, hdigest⟩
    refine ⟨msg.type, msg.length, msg, hlength, ?_⟩
    obtain ⟨digest, identifier, type, length, payload⟩ := msg
    subst hidentifier
    exact congrArg (BootSvcMsg.mk · kBootSvcIdentifier type length payload) hdigest.symm

/-- What is asked of the check: it accepts the messages with the right length, identifier
and digest, which are those that `boot_svc_header_finalize` makes, it hashes only where the
length is in range, and then no more than the message has. -/
structure HeaderCheckExact (msg : BootSvcMsg) : Prop where
  exact : boot_svc_header_check hmac_sha256 msg = .kErrorOk ↔ BootSvcExact hmac_sha256 msg
  finalized : boot_svc_header_check hmac_sha256 msg = .kErrorOk ↔ BootSvcFinalized hmac_sha256 msg
  unhashed : ¬ LengthInRange msg.length →
    ∀ hash, boot_svc_header_check hash msg = .kErrorBootSvcBadHeader
  inside : LengthInRange msg.length → (msg.length - 32).toNat ≤ msg.hashed_bytes.length

theorem length_hashed_bytes (msg : BootSvcMsg) : msg.hashed_bytes.length = 224 := by
  simp [BootSvcMsg.hashed_bytes, Ownership.words_bytes, List.length_flatMap]

theorem hashed_inside {msg : BootSvcMsg} (h : LengthInRange msg.length) :
    (msg.length - 32).toNat ≤ msg.hashed_bytes.length := by
  have hlow : 44 ≤ msg.length.toNat := BitVec.le_def.mp h.1
  have hhigh : msg.length.toNat ≤ 256 := BitVec.le_def.mp h.2
  have hsub : (msg.length - 32).toNat = msg.length.toNat - 32 :=
    BitVec.toNat_sub_of_le (BitVec.le_def.mpr (by show 32 ≤ msg.length.toNat; omega))
  rw [length_hashed_bytes, hsub]
  omega

/-- The check is exact, unless the length is in range and mismatches cancel. -/
theorem boot_svc_header_check_exact_iff (msg : BootSvcMsg) :
    HeaderCheckExact hmac_sha256 msg ↔
      ¬ (LengthInRange msg.length ∧ Cancels (boot_svc_mismatches hmac_sha256 msg)) := by
  -- In range it is the fold that decides, out of range neither side holds.
  have hexact : (boot_svc_header_check hmac_sha256 msg = .kErrorOk ↔ BootSvcExact hmac_sha256 msg) ↔
      ¬ (LengthInRange msg.length ∧ Cancels (boot_svc_mismatches hmac_sha256 msg)) := by
    by_cases hrange : LengthInRange msg.length
    · rw [header_check_in_range hmac_sha256 hrange, BootSvcExact, ← header_mismatches_iff,
        and_iff_right hrange, and_iff_right hrange]
      exact xor_all_eq_zero_iff _
    · refine iff_of_true ⟨fun hok => ?_, fun hmsg => absurd hmsg.1 hrange⟩ fun h => hrange h.1
      rw [header_check_out_of_range hmac_sha256 hrange] at hok
      cases hok
  rw [← hexact]
  constructor
  · exact HeaderCheckExact.exact
  · intro h
    exact ⟨h, h.trans (finalized_iff hmac_sha256 msg).symm,
      fun hrange hash => header_check_out_of_range hash hrange, hashed_inside⟩

end

/-- The empty request with its digest, but for the lowest bit of two words. -/
def two_wrong_bits : BootSvcMsg :=
  let msg := boot_svc_header_finalize device_sha256 kBootSvcEmptyReqType 44
    ⟨Vector.replicate 8 0, 0, 0, 0, Vector.replicate 53 0⟩
  { msg with digest := flip_two msg.digest }

/-- Such a message passes. -/
theorem two_wrong_bits_passes :
    boot_svc_header_check device_sha256 two_wrong_bits = .kErrorOk ∧
      ¬ BootSvcExact device_sha256 two_wrong_bits := by
  unfold BootSvcExact LengthInRange
  decide +kernel

end IbexFirmware.BootSvc
