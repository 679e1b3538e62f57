/-
Which key an image is verified with (`rom_ext_verify`, `owner_keyring_find_key`,
`owner_verify`).

The image names its key by one word: the identifier of its ECDSA key, combined with that of
its SPHINCS+ key if it has one. The keyring is searched for that word, and the algorithm of
the entry that is found decides which signatures are looked at. The identifier of a hybrid
entry is an exclusive or of two words, so an image can meet it with an ECDSA key of its own
choice and without a SPHINCS+ signature, and `rom_ext_verify` has not set the pointer then.
`spx_signature_found_iff` says when this does not happen.
-/
import IbexFirmware.ManifestExt
import IbexFirmware.OwnerVerify
import IbexFirmware.OwnershipPages

set_option autoImplicit false

namespace IbexFirmware.KeySelect

open Bytes OwnerBlock BootPolicy ManifestExt OwnerVerify

/-! ## Algorithms -/

def category (key_alg : u32) : u32 := key_alg &&& kOwnershipKeyAlgCategoryMask

/-- The algorithm as `owner_spx_verify` tells it apart, with its category replaced. -/
def spx_alg (key_alg : u32) : u32 :=
  key_alg &&& ~~~kOwnershipKeyAlgCategoryMask ||| kOwnershipKeyAlgCategorySpx

/-- The algorithms for which `owner_verify` reads the SPHINCS+ signature. -/
def ReadsSpxSignature (key_alg : u32) : Prop :=
  (category key_alg = kOwnershipKeyAlgCategorySpx ∨
      category key_alg = kOwnershipKeyAlgCategoryHybrid) ∧
    (spx_alg key_alg = kOwnershipKeyAlgSpxPure ∨ spx_alg key_alg = kOwnershipKeyAlgSpxPrehash)

instance (key_alg : u32) : Decidable (ReadsSpxSignature key_alg) :=
  inferInstanceAs (Decidable (_ ∧ _))

/-! ## Identifiers -/

/-- `sigverify_ecdsa_p256_key_id_get` of the key in the manifest. -/
def manifest_ecdsa_id (manifest : Manifest) : u32 := manifest.wordAt 432

/-- `sigverify_spx_key_id_get` of the key in an extension. -/
def manifest_spx_id (manifest : Manifest) (ext_offset : u32) : u32 :=
  manifest.wordAt (ext_offset.toNat + 8)

/-- `sigverify_spx_key_id_get` of the SPHINCS+ key of an entry, which is behind the other
key if there are two. -/
def entry_spx_id (key : Item) : u32 :=
  if category (key.u32At 8) = kOwnershipKeyAlgCategoryHybrid then key.u32At (48 + 64)
  else key.u32At 48

/-- The identifier that the key is looked for by: with both extensions, with neither, and an
error with one of them. -/
theorem manifest_key_id_cases (manifest : Manifest) :
    (Declared .spx_key manifest ∧ Declared .spx_signature manifest ∧
        manifest_key_id manifest = .ok (manifest_ecdsa_id manifest ^^^
          manifest_spx_id manifest (manifest.ext_offset Extension.spx_key.index))) ∨
      (¬ Declared .spx_key manifest ∧ ¬ Declared .spx_signature manifest ∧
        manifest_key_id manifest = .ok (manifest_ecdsa_id manifest)) ∨
      ((Declared .spx_key manifest ↔ ¬ Declared .spx_signature manifest) ∧
        manifest_key_id manifest = .error .kErrorManifestBadExtension) := by
  have hget : ∀ ext : Extension, (Declared ext manifest ∧
        ext.get manifest = .ok (manifest.ext_offset ext.index)) ∨
      (¬ Declared ext manifest ∧ ext.get manifest = .error .kErrorManifestBadExtension) := by
    intro ext
    by_cases h : Declared ext manifest
    · exact .inl ⟨h, (get_eq_ok_iff ext manifest _).mpr ⟨h, rfl⟩⟩
    · refine .inr ⟨h, if_neg fun hall => h ?_⟩
      exact ⟨hall.1, hall.2.1, hall.2.2.1, hall.2.2.2⟩
  have hok : ∀ offset, ext_code (.ok offset) = RomError.code .kErrorOk := fun _ => rfl
  have hbad : ext_code (.error .kErrorManifestBadExtension) =
      RomError.code .kErrorManifestBadExtension := rfl
  unfold manifest_key_id
  rw [← get_spx_key, ← get_spx_signature]
  rcases hget .spx_key with ⟨hkey, hkget⟩ | ⟨hkey, hkget⟩
  · rcases hget .spx_signature with ⟨hsig, hsget⟩ | ⟨hsig, hsget⟩
    · rw [hkget, hsget]
      simp only [hok]
      exact .inl ⟨hkey, hsig, if_pos (by decide)⟩
    · rw [hkget, hsget]
      simp only [hok, hbad]
      exact .inr (.inr ⟨iff_of_true hkey hsig, (if_neg (by decide)).trans (if_neg (by decide))⟩)
  · rcases hget .spx_signature with ⟨hsig, hsget⟩ | ⟨hsig, hsget⟩
    · rw [hkget, hsget]
      simp only [hok, hbad]
      exact .inr (.inr ⟨iff_of_false hkey (not_not.mpr hsig),
        (if_neg (by decide)).trans (if_neg (by decide))⟩)
    · rw [hkget, hsget]
      exact .inr (.inl ⟨hkey, hsig, (if_neg (by decide)).trans (if_pos (by decide))⟩)

/-- An entry that is found has the identifier that it was looked for by. -/
theorem key_id_of_found {keyring : List Item} {key_id : u32} {key : Item}
    (h : owner_keyring_find_key keyring key_id = .ok key) : keyring_key_id key = key_id := by
  unfold owner_keyring_find_key at h
  cases hfind : (keyring.take kKeyringSize).find? fun key => keyring_key_id key = key_id with
  | none =>
      rw [hfind] at h
      exact absurd h nofun
  | some found =>
      rw [hfind] at h
      obtain rfl := Except.ok.inj h
      simpa using List.find?_some hfind

/-! ## The signature that is read -/

/-- When the SPHINCS+ signature is read, both extensions were found, and the entry has the
SPHINCS+ key that the image names. -/
def SpxSignatureFound (verifier : Verifier) (manifest : Manifest) : Prop :=
  ∀ call, rom_ext_verify_call verifier manifest = .ok call → ReadsSpxSignature call.key_alg →
    ∃ key_offset sig_offset, manifest_ext_get_spx_key manifest = .ok key_offset ∧
      manifest_ext_get_spx_signature manifest = .ok sig_offset ∧
      entry_spx_id call.key = manifest_spx_id manifest key_offset

/-- What is needed of the entry that the image selects, by what its manifest declares. With both
extensions it is looked for by the two identifiers in one word. If it reads a SPHINCS+ signature,
the ECDSA part has to be its own: the identifier of its ECDSA key if it is hybrid, and zero for a
SPHINCS+ key alone. With neither extension it is looked for by the ECDSA identifier, and has to be
one that reads no SPHINCS+ signature. With one of them nothing is looked for. -/
structure EcdsaKeysAgree (keyring : List Item) (manifest : Manifest) : Prop where
  both : Declared .spx_key manifest → Declared .spx_signature manifest → ∀ key,
    owner_keyring_find_key keyring (manifest_ecdsa_id manifest ^^^
      manifest_spx_id manifest (manifest.ext_offset Extension.spx_key.index)) = .ok key →
    ReadsSpxSignature (key.u32At 8) →
      manifest_ecdsa_id manifest =
        if category (key.u32At 8) = kOwnershipKeyAlgCategoryHybrid then key.u32At 48 else 0
  neither : ¬ Declared .spx_key manifest → ¬ Declared .spx_signature manifest → ∀ key,
    owner_keyring_find_key keyring (manifest_ecdsa_id manifest) = .ok key →
      ¬ ReadsSpxSignature (key.u32At 8)

theorem rom_ext_verify_call_eq_ok_iff (verifier : Verifier) (manifest : Manifest)
    (call : OwnerVerifyCall) :
    rom_ext_verify_call verifier manifest = .ok call ↔
      ∃ key_id key, manifest_key_id manifest = .ok key_id ∧
        owner_keyring_find_key verifier.keyring key_id = .ok key ∧
        owner_verify_call verifier manifest key = call := by
  constructor
  · intro h
    obtain ⟨key_id, hid, h⟩ := Checks.ok_of_bind h
    obtain ⟨key, hkey, h⟩ := Checks.ok_of_bind h
    exact ⟨key_id, key, hid, hkey, Except.ok.inj h⟩
  · rintro ⟨key_id, key, hid, hkey, rfl⟩
    rw [rom_ext_verify_call, hid]
    show (owner_keyring_find_key verifier.keyring key_id >>= _) = _
    rw [hkey]
    rfl

/-- In an exclusive or, one part agrees exactly if the other does. -/
theorem xor_right_eq_iff {a b c d : u32} (h : a ^^^ b = c ^^^ d) : b = d ↔ c = a := by
  constructor
  · rintro rfl
    exact (BitVec.xor_left_inj b).mp h.symm
  · rintro rfl
    exact (BitVec.xor_right_inj c).mp h

/-- The identifiers of a found entry, when both extensions are there. -/
theorem entry_spx_id_eq_iff {manifest : Manifest} {key : Item} {offset : u32}
    (h : keyring_key_id key = manifest_ecdsa_id manifest ^^^ manifest_spx_id manifest offset) :
    entry_spx_id key = manifest_spx_id manifest offset ↔
      manifest_ecdsa_id manifest =
        if category (key.u32At 8) = kOwnershipKeyAlgCategoryHybrid then key.u32At 48 else 0 := by
  unfold entry_spx_id
  by_cases hhybrid : category (key.u32At 8) = kOwnershipKeyAlgCategoryHybrid
  · have hid : keyring_key_id key = key.u32At 48 ^^^ key.u32At (48 + 64) := if_pos hhybrid
    rw [if_pos hhybrid, if_pos hhybrid]
    exact xor_right_eq_iff (hid.symm.trans h)
  · have hid : keyring_key_id key = key.u32At 48 := if_neg hhybrid
    rw [if_neg hhybrid, if_neg hhybrid]
    refine xor_right_eq_iff (a := 0) ?_
    rw [← h, hid]
    exact BitVec.zero_xor

/-- A SPHINCS+ signature is read only where there is one, and with the key that goes with
it, exactly when the entries that the identifier can select agree in their ECDSA part. -/
theorem spx_signature_found_iff (verifier : Verifier) (manifest : Manifest)
    (boot_data : BootData) :
    (rom_ext_boot_policy_manifest_check manifest boot_data = .kErrorOk →
        SpxSignatureFound verifier manifest) ↔
      (rom_ext_boot_policy_manifest_check manifest boot_data = .kErrorOk →
        EcdsaKeysAgree verifier.keyring manifest) := by
  refine forall_congr' fun _ => ?_
  have hcall : ∀ {key_id key}, manifest_key_id manifest = .ok key_id →
      owner_keyring_find_key verifier.keyring key_id = .ok key →
      rom_ext_verify_call verifier manifest = .ok (owner_verify_call verifier manifest key) :=
    fun hid hkey => (rom_ext_verify_call_eq_ok_iff _ _ _).mpr ⟨_, _, hid, hkey, rfl⟩
  rcases manifest_key_id_cases manifest with
    ⟨hkdeclared, hsdeclared, hid⟩ | ⟨hkno, hsno, hid⟩ | ⟨hone, hid⟩
  · -- both are declared: what is left is the identifier of the SPHINCS+ key
    constructor
    · intro hfound
      refine ⟨fun _ _ key hkey hreads => ?_, fun hno => absurd hkdeclared hno⟩
      obtain ⟨key_offset, sig_offset, hkget, -, hspx⟩ := hfound _ (hcall hid hkey) hreads
      obtain ⟨-, rfl⟩ := (get_eq_ok_iff .spx_key manifest key_offset).mp hkget
      exact (entry_spx_id_eq_iff (key_id_of_found hkey)).mp hspx
    · intro hagree call hok hreads
      obtain ⟨key_id, key, hid', hkey, rfl⟩ := (rom_ext_verify_call_eq_ok_iff _ _ _).mp hok
      obtain rfl := Except.ok.inj (hid.symm.trans hid')
      exact ⟨_, _, (get_eq_ok_iff .spx_key manifest _).mpr ⟨hkdeclared, rfl⟩,
        (get_eq_ok_iff .spx_signature manifest _).mpr ⟨hsdeclared, rfl⟩,
        (entry_spx_id_eq_iff (key_id_of_found hkey)).mpr
          (hagree.both hkdeclared hsdeclared key hkey hreads)⟩
  · -- neither is: a signature that is read is not there
    constructor
    · intro hfound
      refine ⟨fun hkdeclared => absurd hkdeclared hkno, fun _ _ key hkey hreads => ?_⟩
      obtain ⟨key_offset, -, hkget, -⟩ := hfound _ (hcall hid hkey) hreads
      exact hkno ((get_eq_ok_iff .spx_key manifest key_offset).mp hkget).1
    · intro hagree call hok hreads
      obtain ⟨key_id, key, hid', hkey, rfl⟩ := (rom_ext_verify_call_eq_ok_iff _ _ _).mp hok
      obtain rfl := Except.ok.inj (hid.symm.trans hid')
      exact absurd hreads (hagree.neither hkno hsno key hkey)
  · -- with one of them the image is refused before a key is looked for
    refine iff_of_true (fun call hok => ?_) ⟨fun hk hs => absurd hs (hone.mp hk),
      fun hk hs => absurd (hone.mpr hs) hk⟩
    obtain ⟨key_id, key, hid', -⟩ := (rom_ext_verify_call_eq_ok_iff _ _ _).mp hok
    exact absurd (hid.symm.trans hid') nofun

/-- A hybrid key whose two identifiers are zero. -/
def hybrid_key : Item where
  data := Vector.ofFn fun i =>
    (List.replicate 8 0 ++ le32 kOwnershipKeyAlgHybridSpxPure : List u8).getD i 0
  offset := 0

theorem hybrid_key_u8At {i : ℕ} (hi : i < kOwnerDataSize) :
    hybrid_key.u8At i = (List.replicate 8 0 ++ le32 kOwnershipKeyAlgHybridSpxPure).getD i 0 := by
  simp only [Item.u8At, hybrid_key, Nat.zero_add, Vector.getElem?_ofFn, hi, dif_pos,
    Option.getD_some]

def hybrid_verifier : Verifier where
  dev := Ownership.bench_device
  manuf_state_creator := 0
  manuf_state_owner := 0
  life_cycle_state := 0
  keyring := [hybrid_key]
  owner_verify := fun _ => .kErrorOk

/-- An image without extensions, with the identifier 0, for a keyring with a hybrid key. -/
theorem hybrid_key_without_signature :
    ¬ (rom_ext_boot_policy_manifest_check (manifest_of least_image) (BootData.ofWords []) = .kErrorOk →
      SpxSignatureFound hybrid_verifier (manifest_of least_image)) := by
  rw [spx_signature_found_iff hybrid_verifier (manifest_of least_image) (BootData.ofWords [])]
  intro h
  have hid : manifest_ecdsa_id (manifest_of least_image) = 0 := by decide
  have halg : hybrid_key.u32At 8 = kOwnershipKeyAlgHybridSpxPure := by
    rw [Item.u32At, hybrid_key_u8At (by decide), hybrid_key_u8At (by decide),
      hybrid_key_u8At (by decide), hybrid_key_u8At (by decide)]
    decide
  have hzero : ∀ i, 12 ≤ i → i + 3 < kOwnerDataSize → hybrid_key.u32At i = 0 := by
    intro i hge hi
    have hbyte : ∀ j, 12 ≤ j → j < kOwnerDataSize → hybrid_key.u8At j = 0 := by
      intro j hj hlt
      rw [hybrid_key_u8At hlt]
      exact List.getD_eq_default _ _ hj
    rw [Item.u32At, hbyte i hge (by omega), hbyte _ (by omega) (by omega),
      hbyte _ (by omega) (by omega), hbyte _ (by omega) hi]
    rfl
  have hentry : keyring_key_id hybrid_key = 0 := by
    rw [keyring_key_id, halg, hzero 48 (by decide) (by decide),
      hzero (48 + 64) (by decide) (by decide)]
    decide
  have hkey : owner_keyring_find_key hybrid_verifier.keyring 0 = .ok hybrid_key := by
    have htake : hybrid_verifier.keyring.take kKeyringSize = [hybrid_key] :=
      List.take_of_length_le (by decide)
    have hfind : [hybrid_key].find? (fun key => keyring_key_id key = 0) = some hybrid_key :=
      List.find?_cons_of_pos (decide_eq_true hentry)
    rw [owner_keyring_find_key, htake, hfind]
  have hreads : ReadsSpxSignature (hybrid_key.u32At 8) := by
    rw [halg]
    decide
  refine (h (by decide)).neither (fun hdeclared => ?_) (fun hdeclared => ?_) hybrid_key ?_ hreads
  · exact absurd hdeclared.table_id (by decide)
  · exact absurd hdeclared.table_id (by decide)
  · rw [hid]
    exact hkey

end IbexFirmware.KeySelect
