/-
Verifying with an owner key (`ownership/owner_verify.c`).

An owner key is an ECDSA key, a SPHINCS+ key or both. The root of a SPHINCS+ signature is
compared in shares, from the last word down, and two words are accumulated on the way: the
result, which starts at 0, and `*flash_exec`, which starts at a value that turns one into
the other. `root_compare_eq` says that both come out as they should or as all ones.

The SPHINCS+ computation and the OTBN are in `Backends`. `launder32` and the check of the
loop counter are left out.
-/
import IbexFirmware.Sigverify
import IbexFirmware.OwnerBlock

set_option autoImplicit false

namespace IbexFirmware.OwnerVerify

open Bytes ConstTime Sigverify OwnerBlock

/-! ## Constants -/

def kOwnershipKeyAlgSpxPure : u32 := 0x75502b53
def kOwnershipKeyAlgSpxPrehash : u32 := 0x32532b53

def kSpxVerifyPureDomainSep : List u8 := [0x00, 0x00]

def kSpxVerifyPrehashDomainSep : List u8 :=
  [0x01, 0x00, 0x06, 0x09, 0x60, 0x86, 0x48, 0x01, 0x65, 0x03, 0x04, 0x02, 0x01]

/-- `shares`: their exclusive or is `kErrorOk`. -/
def shares : Vector u32 4 := #v[0x11deb806, 0x06457f69, 0x647f10c4, 0x73e4d092]

/-! ## Arguments -/

/-- `sigverify_spx_key_t`. -/
structure SpxKey where
  data : Vector u32 8

/-- `ecdsa_p256_public_key_t`. -/
structure EcdsaKey where
  x : Vector u32 8
  y : Vector u32 8

/-- `ecdsa_p256_signature_t`. -/
structure EcdsaSignature where
  r : Vector u32 8
  s : Vector u32 8

/-- `sigverify_spx_signature_t`. -/
structure SpxSignature where
  data : Vector u32 1964

/-- The message with its two optional prefixes and its digest. -/
structure Message where
  msg_prefix_1 : List u8
  msg_prefix_2 : List u8
  msg : List u8
  digest : Vector u32 8

/-- The members of `owner_keydata_t`. -/
def keydata_ecdsa (key : OwnerKeydata) : EcdsaKey :=
  ⟨Vector.ofFn fun i => key.raw[i.val], Vector.ofFn fun i => key.raw[8 + i.val]⟩

def keydata_spx (key : OwnerKeydata) : SpxKey := ⟨Vector.ofFn fun i => key.raw[i.val]⟩

def keydata_hybrid_ecdsa (key : OwnerKeydata) : EcdsaKey := keydata_ecdsa key

def keydata_hybrid_spx (key : OwnerKeydata) : SpxKey :=
  ⟨Vector.ofFn fun i => key.raw[16 + i.val]⟩

/-- `spx_verify` gets the signature, three prefixes, the message and the key and returns an
error code with the root that it stores. `otbn_boot_sigverify_finish` returns what comes
of the key, the signature and the digest that the OTBN was started on. -/
structure Backends where
  spx_verify : SpxSignature → List u8 → List u8 → List u8 → List u8 → SpxKey →
    RomError × Vector u32 4
  otbn_boot_sigverify_start : EcdsaKey → Option EcdsaSignature → Vector u32 8 → RomError
  otbn_boot_sigverify_finish : EcdsaKey → Option EcdsaSignature → Vector u32 8 →
    RomError × Vector u32 8

/-! ## SPHINCS+ -/

/-- The second half of the key. -/
def spx_public_key_root (key : SpxKey) : Vector u32 4 :=
  Vector.ofFn fun i => key.data[4 + i.val]

def util_reverse_bytes (bytes : List u8) : List u8 := bytes.reverse

/-- A word of the expected root in its share. -/
def expected_share (expected_root : Vector u32 4) (i : Fin 4) : u32 := expected_root[i] ^^^ shares[i]

/-- The values of the loop. -/
structure RootCompare where
  result : u32
  diff : u32
  flash_exec : u32

/-- One iteration of the loop. -/
def root_compare_step (expected_root actual_root : Vector u32 4) (c : RootCompare) (i : Fin 4) :
    RootCompare :=
  let val := expected_share expected_root i ^^^ actual_root[i]
  let diff := c.diff ||| (val ^^^ shares[i])
  -- Set the upper bits to 1 if it is not 0.
  let diff := diff ||| (~~~diff + 1)
  -- Set all bits to 1 if the sign bit is set.
  let diff := diff ||| (~~~(diff >>> 31) + 1)
  ⟨(c.result ^^^ val) ||| diff, diff, (c.flash_exec ^^^ val) ||| diff⟩

/-- The loop, from the last word down. -/
def root_compare (expected_root actual_root : Vector u32 4) : RootCompare :=
  (List.finRange 4).reverse.foldl (root_compare_step expected_root actual_root)
    ⟨0, 0, RomError.code .kErrorOk ^^^ kSigverifySpxSuccess⟩

section

variable (b : Backends)

/-- The root, unless there is an error. -/
def root_or_error (r : RomError × Vector u32 4) : Except RomError (Vector u32 4) :=
  if r.1 ≠ .kErrorOk then .error r.1 else .ok r.2

/-- `owner_spx_verify` up to the comparison: the root of the signature. -/
def spx_root (key_alg : u32) (key : SpxKey) (signature : Option SpxSignature) (m : Message) :
    Except RomError (Vector u32 4) :=
  match signature with
  | none => .error .kErrorSigverifySpxNotFound
  | some signature =>
      let key_alg := key_alg &&& ~~~kOwnershipKeyAlgCategoryMask
      let key_alg := key_alg ||| kOwnershipKeyAlgCategorySpx
      if key_alg = kOwnershipKeyAlgSpxPure then
        root_or_error (b.spx_verify signature kSpxVerifyPureDomainSep m.msg_prefix_1
          m.msg_prefix_2 m.msg key)
      else if key_alg = kOwnershipKeyAlgSpxPrehash then
        let digest := util_reverse_bytes (m.digest.toList.flatMap le32)
        root_or_error (b.spx_verify signature kSpxVerifyPrehashDomainSep [] [] digest key)
      else .error .kErrorSigverifyBadSpxConfig

/-- What is returned and what is in `*flash_exec`. -/
def owner_spx_verify (key_alg : u32) (key : SpxKey) (signature : Option SpxSignature)
    (m : Message) (flash_exec : u32) : RomError × u32 :=
  match spx_root b key_alg key signature m with
  | .error error => (error, flash_exec)
  | .ok actual_root =>
      let c := root_compare (spx_public_key_root key) actual_root
      if c.result ≠ RomError.code .kErrorOk then (.kErrorSigverifyBadSpxSignature, c.flash_exec)
      else (.kErrorOk, c.flash_exec)

/-! ## Both kinds of keys -/

/-- `sigverify_ecdsa_p256_finish` after a start on the same key and digest. -/
def ecdsa_finish (key : EcdsaKey) (signature : Option EcdsaSignature) (m : Message)
    (flash_exec : u32) : RomError × u32 :=
  sigverify_ecdsa_p256_finish (b.otbn_boot_sigverify_finish key signature m.digest)
    (signature.map EcdsaSignature.r) flash_exec

/-- The code that is returned, and what is stored in `*flash_exec` unless it is null. `none`
is a trap, of an algorithm that is of no category. -/
def owner_verify (key_alg : u32) (key : OwnerKeydata) (ecdsa_sig : Option EcdsaSignature)
    (spx_sig : Option SpxSignature) (m : Message) (flash_exec : Option u32) :
    Option (u32 × Option u32) :=
  let category := key_alg &&& kOwnershipKeyAlgCategoryMask
  let has_ecdsa := category = kOwnershipKeyAlgCategoryEcdsa ∨ category = kOwnershipKeyAlgCategoryHybrid
  let has_spx := category = kOwnershipKeyAlgCategorySpx ∨ category = kOwnershipKeyAlgCategoryHybrid
  let ecdsa_key := if category = kOwnershipKeyAlgCategoryHybrid then keydata_hybrid_ecdsa key
    else keydata_ecdsa key
  let spx_key := if category = kOwnershipKeyAlgCategoryHybrid then keydata_hybrid_spx key
    else keydata_spx key
  let started := if has_ecdsa then b.otbn_boot_sigverify_start ecdsa_key ecdsa_sig m.digest
    else .kErrorOk
  if started ≠ .kErrorOk then some (started.code, flash_exec)
  else do
    let spx : RomError × u32 ←
      if has_spx then some (owner_spx_verify b key_alg spx_key spx_sig m 0)
      else do
        hardened_check (category = kOwnershipKeyAlgCategoryEcdsa)
        pure (.kErrorOk, kSigverifySpxSuccess)
    let ecdsa : RomError × u32 ←
      if has_ecdsa then some (ecdsa_finish b ecdsa_key ecdsa_sig m 0)
      else do
        hardened_check (category = kOwnershipKeyAlgCategorySpx)
        pure (.kErrorOk, kSigverifyEcdsaSuccess)
    if spx.1 ≠ .kErrorOk then return (spx.1.code, flash_exec)
    else if ecdsa.1 ≠ .kErrorOk then return (ecdsa.1.code, flash_exec)
    else return ((spx.1.code + ecdsa.1.code) >>> 1, flash_exec.map fun _ => ecdsa.2 ^^^ spx.2)

/-! ## The comparison -/

/-- Both words go through the accumulation of `ConstTime`, from different starts. -/
theorem fold_root_compare (expected_root actual_root : Vector u32 4) (is : List (Fin 4))
    (c : RootCompare) :
    let c' := is.foldl (root_compare_step expected_root actual_root) c
    let ps := is.map fun i => (actual_root[i] ^^^ (expected_root[i] ^^^ shares[i]), shares[i])
    (c'.result, c'.diff) = ps.foldl check_share (c.result, c.diff) ∧
      (c'.flash_exec, c'.diff) = ps.foldl check_share (c.flash_exec, c.diff) := by
  induction is generalizing c with
  | nil => exact ⟨rfl, rfl⟩
  | cons i is ih =>
      have hval : expected_share expected_root i ^^^ actual_root[i] =
          actual_root[i] ^^^ (expected_root[i] ^^^ shares[i]) := BitVec.xor_comm _ _
      have hresult : ((root_compare_step expected_root actual_root c i).result,
          (root_compare_step expected_root actual_root c i).diff) =
            check_share (c.result, c.diff)
              (actual_root[i] ^^^ (expected_root[i] ^^^ shares[i]), shares[i]) := by
        rw [← hval]
        rfl
      have hexec : ((root_compare_step expected_root actual_root c i).flash_exec,
          (root_compare_step expected_root actual_root c i).diff) =
            check_share (c.flash_exec, c.diff)
              (actual_root[i] ^^^ (expected_root[i] ^^^ shares[i]), shares[i]) := by
        rw [← hval]
        rfl
      intro c' ps
      obtain ⟨hr, he⟩ := ih (root_compare_step expected_root actual_root c i)
      rw [hresult] at hr
      rw [hexec] at he
      exact ⟨hr, he⟩

/-- Equal roots leave `kErrorOk` and the success word, and other roots all ones. -/
theorem root_compare_eq (expected_root actual_root : Vector u32 4) :
    ((root_compare expected_root actual_root).result,
        (root_compare expected_root actual_root).flash_exec) =
      if actual_root = expected_root then (RomError.code .kErrorOk, kSigverifySpxSuccess)
      else (BitVec.allOnes 32, BitVec.allOnes 32) := by
  have hfold : ∀ x, (((List.finRange 4).reverse.map fun i =>
      (actual_root[i] ^^^ (expected_root[i] ^^^ shares[i]), shares[i])).foldl check_share (x, 0)).1 =
        if actual_root = expected_root then
          ((List.finRange 4).reverse.map fun i => shares[i]).foldl (· ^^^ ·) x
        else BitVec.allOnes 32 := by
    intro x
    refine (fold_check_share _ _).trans (if_congr ?_ ?_ rfl)
    · rw [List.map_reverse]
      simp only [List.mem_reverse]
      exact shared_correct_iff actual_root expected_root shares
    · simp only [List.map_map, Function.comp_def]
  obtain ⟨hresult, hexec⟩ := fold_root_compare expected_root actual_root (List.finRange 4).reverse
    ⟨0, 0, RomError.code .kErrorOk ^^^ kSigverifySpxSuccess⟩
  have hr := (congrArg Prod.fst hresult).trans (hfold _)
  have he := (congrArg Prod.fst hexec).trans (hfold _)
  refine Prod.ext ?_ ?_
  · refine hr.trans ?_
    split_ifs
    · decide
    · rfl
  · refine he.trans ?_
    split_ifs
    · decide
    · rfl

theorem owner_spx_verify_ok (key_alg : u32) (key : SpxKey) (signature : Option SpxSignature)
    (m : Message) (flash_exec : u32) {actual_root : Vector u32 4}
    (h : spx_root b key_alg key signature m = .ok actual_root) :
    owner_spx_verify b key_alg key signature m flash_exec =
      if actual_root = spx_public_key_root key then (.kErrorOk, kSigverifySpxSuccess)
      else (.kErrorSigverifyBadSpxSignature, BitVec.allOnes 32) := by
  have hcompare := root_compare_eq (spx_public_key_root key) actual_root
  rw [owner_spx_verify, h]
  dsimp only
  split_ifs at hcompare ⊢ with hresult hroot hroot
  · exact absurd (congrArg Prod.fst hcompare) hresult
  · rw [show (root_compare (spx_public_key_root key) actual_root).flash_exec = BitVec.allOnes 32 from
      congrArg Prod.snd hcompare]
  · rw [show (root_compare (spx_public_key_root key) actual_root).flash_exec = kSigverifySpxSuccess from
      congrArg Prod.snd hcompare]
  · have hzero := (congrArg Prod.fst hcompare).symm.trans (not_not.mp hresult)
    exact absurd hzero (by decide)

theorem root_or_error_error {r : RomError × Vector u32 4} {error : RomError}
    (h : root_or_error r = .error error) : error ≠ .kErrorOk := by
  unfold root_or_error at h
  split_ifs at h with hr
  cases h
  exact hr

/-- A root is only compared if it has been computed. -/
theorem spx_root_error {key_alg : u32} {key : SpxKey} {signature : Option SpxSignature}
    {m : Message} {error : RomError} (h : spx_root b key_alg key signature m = .error error) :
    error ≠ .kErrorOk := by
  cases signature with
  | none =>
      cases h
      decide
  | some signature =>
      unfold spx_root at h
      dsimp only at h
      split_ifs at h with hpure hprehash
      · exact root_or_error_error h
      · exact root_or_error_error h
      · cases h
        decide

/-! ## The result -/

/-- The SPHINCS+ verification succeeds: a root is computed, and it is that of the key. -/
def SpxSucceeds (key_alg : u32) (key : SpxKey) (signature : Option SpxSignature) (m : Message) :
    Prop := spx_root b key_alg key signature m = .ok (spx_public_key_root key)

/-- The ECDSA verification succeeds: the OTBN recovers the `r` of the signature. -/
def EcdsaSucceeds (key : EcdsaKey) (signature : Option EcdsaSignature) (m : Message) : Prop :=
  b.otbn_boot_sigverify_start key signature m.digest = .kErrorOk ∧
    RecoveredAgrees (b.otbn_boot_sigverify_finish key signature m.digest)
      (signature.map EcdsaSignature.r)

/-- The three answers: success with its word, failure with all ones, or no root and nothing changed.
-/
theorem owner_spx_verify_spec (key_alg : u32) (key : SpxKey) (signature : Option SpxSignature)
    (m : Message) (flash_exec : u32) :
    ((owner_spx_verify b key_alg key signature m flash_exec).1 = .kErrorOk ↔
        SpxSucceeds b key_alg key signature m) ∧
      (SpxSucceeds b key_alg key signature m →
        (owner_spx_verify b key_alg key signature m flash_exec).2 = kSigverifySpxSuccess) ∧
      (¬ SpxSucceeds b key_alg key signature m →
        (owner_spx_verify b key_alg key signature m flash_exec).2 = BitVec.allOnes 32 ∨
          (owner_spx_verify b key_alg key signature m flash_exec).2 = flash_exec ∧
            ∀ root, spx_root b key_alg key signature m ≠ .ok root) := by
  unfold SpxSucceeds
  cases hroot : spx_root b key_alg key signature m with
  | error error =>
      have hverify : owner_spx_verify b key_alg key signature m flash_exec = (error, flash_exec) := by
        rw [owner_spx_verify, hroot]
      rw [hverify]
      exact ⟨iff_of_false (spx_root_error b hroot) nofun, nofun, fun _ => .inr ⟨rfl, nofun⟩⟩
  | ok actual_root =>
      rw [owner_spx_verify_ok b key_alg key signature m flash_exec hroot]
      by_cases hequal : actual_root = spx_public_key_root key
      · rw [if_pos hequal, hequal]
        exact ⟨iff_of_true rfl rfl, fun _ => rfl, fun hne => absurd rfl hne⟩
      · rw [if_neg hequal]
        have hne : Except.ok (ε := RomError) actual_root ≠ .ok (spx_public_key_root key) :=
          fun h => hequal (Except.ok.inj h)
        exact ⟨iff_of_false nofun hne, fun h => absurd h hne, fun _ => .inl rfl⟩

/-- A key of the hybrid category needs both. -/
theorem owner_verify_hybrid {key_alg : u32} {key : OwnerKeydata} {ecdsa_sig : Option EcdsaSignature}
    {spx_sig : Option SpxSignature} {m : Message} {flash_exec exec : Option u32}
    (hhybrid : key_alg &&& kOwnershipKeyAlgCategoryMask = kOwnershipKeyAlgCategoryHybrid)
    (h : owner_verify b key_alg key ecdsa_sig spx_sig m flash_exec =
      some (RomError.code .kErrorOk, exec)) :
    EcdsaSucceeds b (keydata_hybrid_ecdsa key) ecdsa_sig m ∧
      SpxSucceeds b key_alg (keydata_hybrid_spx key) spx_sig m := by
  unfold owner_verify at h
  rw [hhybrid] at h
  simp only [or_true, if_true, Option.bind_eq_bind, Option.bind_some] at h
  split_ifs at h with hstarted hspx hecdsa
  · obtain ⟨hcode, -⟩ := Prod.mk.inj (Option.some.inj h)
    exact absurd (RomError.code_eq_ok.mp hcode) hstarted
  · obtain ⟨hcode, -⟩ := Prod.mk.inj (Option.some.inj h)
    exact absurd (RomError.code_eq_ok.mp hcode) hspx
  · obtain ⟨hcode, -⟩ := Prod.mk.inj (Option.some.inj h)
    exact absurd (RomError.code_eq_ok.mp hcode) hecdsa
  · have hroot := (owner_spx_verify_spec b key_alg (keydata_hybrid_spx key) spx_sig m 0).1
    have hagrees := finish_ok_iff (b.otbn_boot_sigverify_finish (keydata_hybrid_ecdsa key)
      ecdsa_sig m.digest) (ecdsa_sig.map EcdsaSignature.r) 0
    exact ⟨⟨not_not.mp hstarted, hagrees.mp (not_not.mp hecdsa)⟩, hroot.mp (not_not.mp hspx)⟩

/-- The comparison is exact, `*flash_exec` says the same, and so a hybrid key needs both of
its verifications. `owner_verify` starts with 0 in `*flash_exec`, which is what it keeps
where no root is computed. -/
theorem owner_spx_verify_exact :
    (∀ key_alg key signature m flash_exec actual_root,
      spx_root b key_alg key signature m = .ok actual_root →
      let r := owner_spx_verify b key_alg key signature m flash_exec
      (r.1 = .kErrorOk ↔ ∀ i : Fin 4, actual_root[i] = (spx_public_key_root key)[i]) ∧
        (r.1 = .kErrorOk → r.2 = kSigverifySpxSuccess) ∧
        (r.1 ≠ .kErrorOk → r.2 ≠ kSigverifySpxSuccess)) ∧
    (∀ key_alg key signature m, (∀ root, spx_root b key_alg key signature m ≠ .ok root) →
      let r := owner_spx_verify b key_alg key signature m 0
      r.1 ≠ .kErrorOk ∧ r.2 ≠ kSigverifySpxSuccess) ∧
    (∀ key_alg key ecdsa_sig spx_sig m flash_exec exec,
      key_alg &&& kOwnershipKeyAlgCategoryMask = kOwnershipKeyAlgCategoryHybrid →
      owner_verify b key_alg key ecdsa_sig spx_sig m flash_exec =
        some (RomError.code .kErrorOk, exec) →
      EcdsaSucceeds b (keydata_hybrid_ecdsa key) ecdsa_sig m ∧
        SpxSucceeds b key_alg (keydata_hybrid_spx key) spx_sig m) := by
  refine ⟨?_, ?_, fun _ _ _ _ _ _ _ => owner_verify_hybrid b⟩
  · intro key_alg key signature m flash_exec actual_root hroot
    have hwords : actual_root = spx_public_key_root key ↔
        ∀ i : Fin 4, actual_root[i] = (spx_public_key_root key)[i] := by
      constructor
      · rintro rfl i
        rfl
      · exact fun h => Vector.ext fun i hi => h ⟨i, hi⟩
    intro r
    have hr : r = _ := owner_spx_verify_ok b key_alg key signature m flash_exec hroot
    rw [hr, ← hwords]
    split_ifs with hequal
    · exact ⟨iff_of_true rfl hequal, fun _ => rfl, fun h => absurd rfl h⟩
    · exact ⟨iff_of_false nofun hequal, nofun, fun _ => by decide⟩
  · intro key_alg key signature m hnone r
    obtain ⟨hok, -, hfail⟩ := owner_spx_verify_spec b key_alg key signature m 0
    have hnot : ¬ SpxSucceeds b key_alg key signature m := hnone _
    refine ⟨fun h => hnot (hok.mp h), ?_⟩
    obtain hones | ⟨hzero, -⟩ := hfail hnot
    · rw [show r.2 = _ from hones]
      decide
    · rw [show r.2 = _ from hzero]
      decide

end

end IbexFirmware.OwnerVerify
