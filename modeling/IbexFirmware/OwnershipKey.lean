/-
Seals and signatures on owner blocks (`ownership_key.c`).

What the device brings to them is a parameter record, `Device`: its identity, the
sealing function of its key manager and KMAC block, the hash, the verification of one
signature under one key, and the flash region that is searched for detached
signatures. A seal is then a deterministic function of the bytes in front of it, and
`ownership_key_validate` is reduced in `key_validate_iff` to what it means: one of
the keys the caller allows, or the owner key of the page, verifies the signature that
the message carries or names.
-/
import IbexFirmware.OwnerBlockParse

set_option autoImplicit false

namespace IbexFirmware.Ownership

open Bytes OwnerBlock

/-! ## The device -/

/-- `owner_detached_signature_t`, without the fields that the search does not read. -/
structure DetachedSignature where
  header : TlvHeader
  command : u32
  nonce : Nonce
  raw : Vector u32 2040

/-- Length of an ECDSA signature and of a SPHINCS+ signature, in words. -/
def kEcdsaSigNumWords : ℕ := 16
def kSigverifySpxSigNumWords : ℕ := 1964

/-- `sizeof(owner_detached_signature_t)`. -/
def kDetachedSignatureSize : ℕ := 8192

structure Device where
  device_id : Vector u32 8
  /-- KMAC under the sealing key. -/
  kmac : List u8 → Vector u32 8
  hmac_sha256 : List u8 → Vector u32 8
  /-- Whether `owner_verify` returns `kErrorOk` for the algorithm, the key, the two
  signatures, the message and its digest. -/
  owner_verify : u32 → OwnerKeydata → Option (List u32) → Option (List u32) → List u8 →
    Vector u32 8 → Bool
  kNoOwnerRecoveryKey : Option OwnerKeydata
  /-- What the pages of the data flash hold, read as detached signatures. -/
  flash : List DetachedSignature
  /-- `kDeviceType == kDeviceSilicon`. -/
  is_silicon : Bool
  /-- `FLASH_CTRL_PARAM_REG_PAGES_PER_BANK` and `FLASH_CTRL_PARAM_REG_NUM_BANKS`. -/
  pages_per_bank : u32
  num_banks : ℕ
  /-- The values of `rnd_uint32`, in order. -/
  rnd : ℕ → u32

variable (dev : Device)

/-- `lifecycle_din_eq`. -/
def lifecycle_din_eq (din : Vector u32 2) : Bool :=
  dev.device_id.get 1 = din.get 0 && dev.device_id.get 2 = din.get 1

/-! ## Signatures -/

def kOwnershipKeyOwner : u32 := 0x1111
def kOwnershipKeyActivate : u32 := 0x2222
def kOwnershipKeyUnlock : u32 := 0x4444
def kOwnershipKeyRecovery : u32 := 0x8888

def is_signature_empty (signature : OwnerSignature) : Bool := signature.raw.all (· = 0)

/-- The first page start that holds a detached signature for the command and nonce. -/
def ownership_signature_scan (command : u32) (nonce : Nonce) : Option DetachedSignature :=
  dev.flash.find? fun sig =>
    sig.header.tag = kTlvTagDetachedSignature && sig.header.length.toNat = kDetachedSignatureSize &&
      sig.header.version_major = 0 && sig.command = command && nonce_equal sig.nonce nonce

/-- The ECDSA and SPHINCS+ signatures that `ownership_key_validate` goes on with: the
one in the message, or those of a detached signature, by the page's algorithm. -/
def select_signature (page : OwnerBlock) (command : u32) (nonce : Nonce)
    (signature : OwnerSignature) : Except RomError (Option (List u32) × Option (List u32)) :=
  if is_signature_empty signature = false then
    if page.ownership_key_alg ≠ kOwnershipKeyAlgEcdsaP256 then
      .error .kErrorOwnershipInvalidAlgorithm
    else .ok (some signature.raw.toList, none)
  else match ownership_signature_scan dev command nonce with
    | none => .error .kErrorOwnershipSignatureNotFound
    | some detached =>
        let category := page.ownership_key_alg &&& kOwnershipKeyAlgCategoryMask
        let words := detached.raw.toList
        if category = kOwnershipKeyAlgCategoryEcdsa then
          .ok (some (words.take kEcdsaSigNumWords), none)
        else if category = kOwnershipKeyAlgCategorySpx then
          .ok (none, some (words.take kSigverifySpxSigNumWords))
        else if category = kOwnershipKeyAlgCategoryHybrid then
          .ok (some (words.take kEcdsaSigNumWords),
            some ((words.drop kEcdsaSigNumWords).take kSigverifySpxSigNumWords))
        else .error .kErrorOwnershipInvalidAlgorithm

/-- `ownership_key_validate` with the owner page it is given by index. -/
def ownership_key_validate (page : OwnerBlock) (key command : u32) (nonce : Nonce)
    (signature : OwnerSignature) (message : List u8) : RomError :=
  match select_signature dev page command nonce signature with
  | .error e => e
  | .ok (ecdsa, spx) =>
      let digest := dev.hmac_sha256 message
      let verify (k : OwnerKeydata) : Bool :=
        dev.owner_verify page.ownership_key_alg k ecdsa spx message digest
      if key &&& kOwnershipKeyUnlock = kOwnershipKeyUnlock ∧ verify page.unlock_key then .kErrorOk
      else if key &&& kOwnershipKeyActivate = kOwnershipKeyActivate ∧ verify page.activate_key then
        .kErrorOk
      else if key &&& kOwnershipKeyRecovery = kOwnershipKeyRecovery ∧
          dev.kNoOwnerRecoveryKey.any verify then .kErrorOk
      else if verify page.owner_key then .kErrorOk
      else .kErrorOwnershipInvalidSignature

/-- The keys a call allows: the requested ones, and the owner key of the page. -/
def allowed_keys (page : OwnerBlock) (key : u32) : List OwnerKeydata :=
  (if key &&& kOwnershipKeyUnlock = kOwnershipKeyUnlock then [page.unlock_key] else [])
    ++ (if key &&& kOwnershipKeyActivate = kOwnershipKeyActivate then [page.activate_key] else [])
    ++ (if key &&& kOwnershipKeyRecovery = kOwnershipKeyRecovery
        then dev.kNoOwnerRecoveryKey.toList else [])
    ++ [page.owner_key]

/-- The message's signature verifies under the key. -/
def SignedBy (page : OwnerBlock) (command : u32) (nonce : Nonce) (signature : OwnerSignature)
    (message : List u8) (k : OwnerKeydata) : Prop :=
  ∃ ecdsa spx, select_signature dev page command nonce signature = .ok (ecdsa, spx) ∧
    dev.owner_verify page.ownership_key_alg k ecdsa spx message (dev.hmac_sha256 message) = true

theorem mem_allowed_keys {page : OwnerBlock} {key : u32} {k : OwnerKeydata} :
    k ∈ allowed_keys dev page key ↔
      (key &&& kOwnershipKeyUnlock = kOwnershipKeyUnlock ∧ k = page.unlock_key) ∨
      (key &&& kOwnershipKeyActivate = kOwnershipKeyActivate ∧ k = page.activate_key) ∨
      (key &&& kOwnershipKeyRecovery = kOwnershipKeyRecovery ∧
        dev.kNoOwnerRecoveryKey = some k) ∨
      k = page.owner_key := by
  have hif : ∀ {p : Prop} [Decidable p] (l : List OwnerKeydata),
      k ∈ (if p then l else []) ↔ p ∧ k ∈ l := by
    intro p _ l
    by_cases hp : p
    · rw [if_pos hp, and_iff_right hp]
    · rw [if_neg hp]
      exact iff_of_false List.not_mem_nil fun h => hp h.1
  simp only [allowed_keys, List.mem_append, hif, List.mem_singleton, Option.mem_toList,
    or_assoc]

theorem select_signature_error {page : OwnerBlock} {command : u32} {nonce : Nonce}
    {signature : OwnerSignature} {e : RomError}
    (h : select_signature dev page command nonce signature = .error e) : e ≠ .kErrorOk := by
  unfold select_signature at h
  split at h
  · split at h
    · cases h
      decide
    · cases h
  · split at h
    · cases h
      decide
    · dsimp only at h
      split_ifs at h
      cases h
      decide

/-- Validation succeeds exactly when an allowed key verifies the signature. -/
theorem key_validate_iff (page : OwnerBlock) (key command : u32) (nonce : Nonce)
    (signature : OwnerSignature) (message : List u8) :
    ownership_key_validate dev page key command nonce signature message = .kErrorOk ↔
      ∃ k ∈ allowed_keys dev page key, SignedBy dev page command nonce signature message k := by
  unfold ownership_key_validate
  cases hsel : select_signature dev page command nonce signature with
  | error e =>
      refine iff_of_false (select_signature_error dev hsel) ?_
      rintro ⟨k, -, ecdsa, spx, hok, -⟩
      rw [hsel] at hok
      cases hok
  | ok sigs =>
      obtain ⟨ecdsa, spx⟩ := sigs
      have hsigned : ∀ k, SignedBy dev page command nonce signature message k ↔
          dev.owner_verify page.ownership_key_alg k ecdsa spx message
            (dev.hmac_sha256 message) = true := by
        intro k
        simp [SignedBy, hsel]
      simp only [hsigned, mem_allowed_keys]
      split_ifs with h1 h2 h3 h4
      · exact iff_of_true rfl ⟨_, .inl ⟨h1.1, rfl⟩, h1.2⟩
      · exact iff_of_true rfl ⟨_, .inr (.inl ⟨h2.1, rfl⟩), h2.2⟩
      · obtain ⟨hflag, hany⟩ := h3
        obtain ⟨k, hk, hverify⟩ := Option.any_eq_true _ _ |>.mp hany
        exact iff_of_true rfl ⟨k, .inr (.inr (.inl ⟨hflag, hk⟩)), hverify⟩
      · exact iff_of_true rfl ⟨_, .inr (.inr (.inr rfl)), h4⟩
      · refine iff_of_false (fun h => by cases h) ?_
        rintro ⟨k, ⟨hflag, rfl⟩ | ⟨hflag, rfl⟩ | ⟨hflag, hk⟩ | rfl, hverify⟩
        · exact h1 ⟨hflag, hverify⟩
        · exact h2 ⟨hflag, hverify⟩
        · exact h3 ⟨hflag, Option.any_eq_true _ _ |>.mpr ⟨k, hk, hverify⟩⟩
        · exact h4 hverify

/-! ## Seals -/

def seal_generate (page : OwnerBlock) : Vector u32 8 := dev.kmac page.sealed_bytes

def ownership_seal_page (page : OwnerBlock) : OwnerBlock :=
  { page with seal_value := seal_generate dev page }

def ownership_seal_check (page : OwnerBlock) : Bool := page.seal_value = seal_generate dev page

theorem seal_check_seal_page (page : OwnerBlock) :
    ownership_seal_check dev (ownership_seal_page dev page) = true :=
  decide_eq_true rfl

end IbexFirmware.Ownership
