/-
The two signature checks behind the flash execution unlock.

`sigverify_ecdsa_p256_finish` and `sigverify_spx_verify` each fold their comparison
into the word `*flash_exec`. What they contribute on success are two constants whose
exclusive or is the unlock value, and what they contribute on failure is all ones or
nothing. `flash_exec_unlocked_iff` goes through all pairs of contributions: the word is
the unlock value after both calls exactly when both returned `kErrorOk`.

The OTBN routine that recovers `r` and the SPHINCS+ routine that computes the root
enter by their results. `launder32` and the checks that repeat a comparison are left out.
-/
import IbexFirmware.BootDataStore
import IbexFirmware.Lib.ConstTime

set_option autoImplicit false

namespace IbexFirmware.Sigverify

open Bytes ConstTime BootDataStore

/-! ## Constants -/

def kSigverifyFlashExec : u32 := 0xa26a38f7
def kSigverifyEcdsaSuccess : u32 := 0x2f06b4e0
def kSigverifySpxSuccess : u32 := 0x8d6c8c17
def kSigverifySpxDisabledOtp : u32 := kSigverifySpxSuccess

def kSigverifySpxConfigIdSha2128s : u32 := 0x0142410e
def kSigverifySpxConfigIdSha2128sPrehash : u32 := 0x4694e9cb

def kSigverifyShares : Vector u32 8 :=
  #v[0xaf28073b, 0x5eb7dcfb, 0x177240b5, 0xa8469df3,
    0x2e92e9c0, 0x83ed133b, 0x0c9e99f0, 0xc04cd16d]

def kSpxVerifyShares : Vector u32 4 := #v[0xa5bda1e8, 0x229044e4, 0x94eadad8, 0x9eabb3c3]

def sigverify_ecdsa_p256_success_to_ok (v : u32) : u32 := (v <<< 22 ^^^ v <<< 19 ^^^ v <<< 3) >>> 21

def sigverify_spx_success_to_ok (v : u32) : u32 := (v <<< 22 ^^^ v <<< 8 ^^^ v <<< 1) >>> 20

/-! ## Comparing in shares -/

/-- Step 1 of both checks: each actual word with its expected word and its share, next to
that share. -/
def shared {n : ℕ} (actual expected shares : Vector u32 n) : List (u32 × u32) :=
  (List.finRange n).map fun i => (actual[i] ^^^ (expected[i] ^^^ shares[i]), shares[i])

/-- A word in shares is its share exactly if it is the expected word. -/
theorem shared_correct_iff {n : ℕ} (actual expected shares : Vector u32 n) :
    (∀ p ∈ shared actual expected shares, p.1 = p.2) ↔ actual = expected := by
  have hword : ∀ a e s : u32, a ^^^ (e ^^^ s) = s ↔ a = e := by
    intro a e s
    rw [← BitVec.xor_assoc]
    constructor
    · intro h
      have hzero : a ^^^ e = 0#32 := by
        have hcancel := congrArg (· ^^^ s) h
        simpa only [BitVec.xor_assoc, BitVec.xor_self, BitVec.xor_zero] using hcancel
      exact BitVec.xor_eq_zero_iff.mp hzero
    · rintro rfl
      rw [BitVec.xor_self, BitVec.zero_xor]
  simp only [shared, List.mem_map, List.mem_finRange, true_and, forall_exists_index,
    forall_apply_eq_imp_iff, hword]
  constructor
  · exact fun h => Vector.ext fun i hi => h ⟨i, hi⟩
  · rintro rfl i
    rfl

/-- The shares themselves do not depend on what is compared. -/
theorem map_snd_shared {n : ℕ} (actual expected shares : Vector u32 n) :
    (shared actual expected shares).map Prod.snd = (List.finRange n).map fun i => shares[i] := by
  simp only [shared, List.map_map, Function.comp_def]

/-! ## ECDSA -/

def sigverify_encoded_message_check (recovered_r signature : Vector u32 8) (flash_exec : u32) :
    RomError × u32 :=
  let flash_exec_ecdsa :=
    ((shared recovered_r signature kSigverifyShares).foldl check_share (0, 0)).1
  let result := sigverify_ecdsa_p256_success_to_ok flash_exec_ecdsa
  let flash_exec := flash_exec ^^^ flash_exec_ecdsa
  if result = RomError.code .kErrorOk then (.kErrorOk, flash_exec)
  else (.kErrorSigverifyBadEcdsaSignature, flash_exec)

/-- `otbn` is what `otbn_boot_sigverify_finish` returns, with the words it stores. -/
def sigverify_ecdsa_p256_finish (otbn : RomError × Vector u32 8)
    (signature : Option (Vector u32 8)) (flash_exec : u32) : RomError × u32 :=
  match signature with
  | none => (.kErrorSigverifyEcdsaNotFound, flash_exec)
  | some signature =>
      if otbn.1 ≠ .kErrorOk then (otbn.1, flash_exec ^^^ BitVec.allOnes 32)
      else sigverify_encoded_message_check otbn.2 signature flash_exec

/-! ## SPHINCS+ -/

/-- `otp` is the OTP word `CREATOR_SW_CFG_SIGVERIFY_SPX_EN`. -/
def sigverify_spx_verify_enabled (otp : u32) : LcState → u32
  | .kLcStateTest => kSigverifySpxDisabledOtp
  | .kLcStateDev => otp
  | .kLcStateProd => otp
  | .kLcStateProdEnd => otp
  | .kLcStateRma => otp

/-- The comparison of the computed root, from the last word down. -/
def spx_root_check (actual_root expected_root : Vector u32 4) : u32 :=
  ((shared actual_root expected_root kSpxVerifyShares).reverse.foldl check_share (0, 0)).1

/-- `spx_verify` is what the function of that name returns for a configuration, with the
root it stores, and `expected_root` the root of the public key. -/
def sigverify_spx_verify (otp : u32) (lc_state : LcState) (config : u32)
    (spx_verify : u32 → RomError × Vector u32 4) (expected_root : Vector u32 4)
    (flash_exec : u32) : RomError × u32 :=
  let spx_en := sigverify_spx_verify_enabled otp lc_state
  if spx_en ≠ kSigverifySpxDisabledOtp then
    if config = kSigverifySpxConfigIdSha2128sPrehash ∨ config = kSigverifySpxConfigIdSha2128s then
      if (spx_verify config).1 ≠ .kErrorOk then ((spx_verify config).1, flash_exec)
      else
        let flash_exec_spx := spx_root_check (spx_verify config).2 expected_root
        let error := sigverify_spx_success_to_ok flash_exec_spx
        (if error = RomError.code .kErrorOk then .kErrorOk else .kErrorSigverifyBadSpxSignature,
          flash_exec ^^^ flash_exec_spx)
    else (.kErrorSigverifyBadSpxConfig, flash_exec)
  else
    -- the OTP word is read a second time
    let otp_val := sigverify_spx_verify_enabled otp lc_state
    let error := sigverify_spx_success_to_ok otp_val
    (if error = RomError.code .kErrorOk then .kErrorOk else .kErrorSigverifyBadSpxSignature,
      flash_exec ^^^ spx_en)

/-! ## What the two calls contribute -/

/-- The recovered `r` is there and is that of the signature, word for word. -/
def RecoveredAgrees (otbn : RomError × Vector u32 8) (signature : Option (Vector u32 8)) : Prop :=
  otbn.1 = .kErrorOk ∧ signature = some otbn.2

/-- A call that left with `r` from the accumulator `flash_exec`: it succeeded and added
`success`, or it failed and added nothing or all ones. -/
def Contributes (success flash_exec : u32) (r : RomError × u32) : Prop :=
  (r.1 = .kErrorOk ∧ r.2 = flash_exec ^^^ success) ∨
    (r.1 ≠ .kErrorOk ∧ (r.2 = flash_exec ∨ r.2 = flash_exec ^^^ BitVec.allOnes 32))

/-- The pass over the ECDSA shares: the success value, or all ones. -/
theorem fold_ecdsa_shares (recovered_r signature : Vector u32 8) :
    ((shared recovered_r signature kSigverifyShares).foldl check_share (0, 0)).1 =
      if recovered_r = signature then kSigverifyEcdsaSuccess else BitVec.allOnes 32 := by
  refine (fold_check_share _ _).trans ?_
  rw [map_snd_shared]
  exact if_congr (shared_correct_iff _ _ _) (by decide) rfl

theorem fold_spx_shares (actual_root expected_root : Vector u32 4) :
    spx_root_check actual_root expected_root =
      if actual_root = expected_root then kSigverifySpxSuccess else BitVec.allOnes 32 := by
  refine (fold_check_share _ _).trans ?_
  rw [List.map_reverse, map_snd_shared]
  refine if_congr ?_ (by decide) rfl
  simp only [List.mem_reverse]
  exact shared_correct_iff _ _ _

/-- The result is read off that value. -/
theorem message_check_eq (recovered_r signature : Vector u32 8) (flash_exec : u32) :
    sigverify_encoded_message_check recovered_r signature flash_exec =
      if recovered_r = signature then (.kErrorOk, flash_exec ^^^ kSigverifyEcdsaSuccess)
      else (.kErrorSigverifyBadEcdsaSignature, flash_exec ^^^ BitVec.allOnes 32) := by
  unfold sigverify_encoded_message_check
  rw [fold_ecdsa_shares]
  by_cases hagree : recovered_r = signature
  · rw [if_pos hagree, if_pos hagree]
    exact if_pos (by decide)
  · rw [if_neg hagree, if_neg hagree]
    exact if_neg (by decide)

theorem finish_contributes (otbn : RomError × Vector u32 8) (signature : Option (Vector u32 8))
    (flash_exec : u32) :
    Contributes kSigverifyEcdsaSuccess flash_exec
      (sigverify_ecdsa_p256_finish otbn signature flash_exec) := by
  unfold sigverify_ecdsa_p256_finish
  cases signature with
  | none => exact .inr ⟨nofun, .inl rfl⟩
  | some signature =>
      dsimp only
      by_cases hotbn : otbn.1 ≠ .kErrorOk
      · rw [if_pos hotbn]
        exact .inr ⟨hotbn, .inr rfl⟩
      · rw [if_neg hotbn, message_check_eq]
        by_cases hagree : otbn.2 = signature
        · rw [if_pos hagree]
          exact .inl ⟨rfl, rfl⟩
        · rw [if_neg hagree]
          exact .inr ⟨nofun, .inr rfl⟩

theorem finish_ok_iff (otbn : RomError × Vector u32 8) (signature : Option (Vector u32 8))
    (flash_exec : u32) :
    (sigverify_ecdsa_p256_finish otbn signature flash_exec).1 = .kErrorOk ↔
      RecoveredAgrees otbn signature := by
  unfold sigverify_ecdsa_p256_finish RecoveredAgrees
  cases signature with
  | none => exact iff_of_false nofun nofun
  | some signature =>
      dsimp only
      by_cases hotbn : otbn.1 ≠ .kErrorOk
      · rw [if_pos hotbn]
        exact iff_of_false hotbn fun h => hotbn h.1
      · rw [if_neg hotbn, message_check_eq]
        by_cases hagree : otbn.2 = signature
        · rw [if_pos hagree]
          exact iff_of_true rfl ⟨not_not.mp hotbn, by rw [hagree]⟩
        · rw [if_neg hagree]
          exact iff_of_false nofun fun h => hagree (Option.some.inj h.2).symm

/-- The cases are those of `Contributes`: disabled, successful or failed. -/
theorem spx_contributes (otp : u32) (lc_state : LcState) (config : u32)
    (spx_verify : u32 → RomError × Vector u32 4) (expected_root : Vector u32 4)
    (flash_exec : u32) :
    Contributes kSigverifySpxSuccess flash_exec
      (sigverify_spx_verify otp lc_state config spx_verify expected_root flash_exec) := by
  unfold sigverify_spx_verify
  dsimp only
  by_cases hen : sigverify_spx_verify_enabled otp lc_state ≠ kSigverifySpxDisabledOtp
  · rw [if_pos hen]
    by_cases hconfig : config = kSigverifySpxConfigIdSha2128sPrehash ∨
        config = kSigverifySpxConfigIdSha2128s
    · rw [if_pos hconfig]
      by_cases hspx : (spx_verify config).1 ≠ .kErrorOk
      · rw [if_pos hspx]
        exact .inr ⟨hspx, .inl rfl⟩
      · rw [if_neg hspx, fold_spx_shares]
        by_cases hroot : (spx_verify config).2 = expected_root
        · rw [if_pos hroot, if_pos (by decide)]
          exact .inl ⟨rfl, rfl⟩
        · rw [if_neg hroot, if_neg (by decide)]
          exact .inr ⟨nofun, .inr rfl⟩
    · rw [if_neg hconfig]
      exact .inr ⟨nofun, .inl rfl⟩
  · -- disabled by the word that is also the success value
    rw [if_neg hen, not_not.mp hen, if_pos (by decide)]
    exact .inl ⟨rfl, rfl⟩

/-- Flash execution is unlocked by two successes and by nothing else: of the nine ways
the two contributions can combine, the one of both success values is the unlock value. -/
theorem flash_exec_unlocked_iff (otbn : RomError × Vector u32 8)
    (signature : Option (Vector u32 8)) (otp : u32) (lc_state : LcState) (config : u32)
    (spx_verify : u32 → RomError × Vector u32 4) (expected_root : Vector u32 4) :
    let ecdsa := sigverify_ecdsa_p256_finish otbn signature 0
    let spx := sigverify_spx_verify otp lc_state config spx_verify expected_root ecdsa.2
    (spx.2 = kSigverifyFlashExec ↔ ecdsa.1 = .kErrorOk ∧ spx.1 = .kErrorOk) ∧
      (ecdsa.1 = .kErrorOk ↔ RecoveredAgrees otbn signature) := by
  intro ecdsa spx
  refine ⟨?_, finish_ok_iff otbn signature 0⟩
  have hecdsa : Contributes kSigverifyEcdsaSuccess 0 ecdsa := finish_contributes _ _ _
  have hspx : Contributes kSigverifySpxSuccess ecdsa.2 spx := spx_contributes _ _ _ _ _ _
  rcases hecdsa with ⟨he, hv⟩ | ⟨he, hv | hv⟩ <;> rw [hv] at hspx <;>
    rcases hspx with ⟨hs, hw⟩ | ⟨hs, hw | hw⟩ <;> rw [hw]
  · exact iff_of_true (by decide) ⟨he, hs⟩
  · exact iff_of_false (by decide) fun h => hs h.2
  · exact iff_of_false (by decide) fun h => hs h.2
  all_goals exact iff_of_false (by decide) fun h => he h.1

end IbexFirmware.Sigverify
