/-
The manifest checks and the manifest extensions (`manifest.h`).

`manifest_check` and the copy of it that the owner firmware is checked with agree on all
fields of a manifest. The copy lacks the loop over the extension table, so that the two part
where an extension has an unaligned offset (`manifest_checks_agree_iff`).

The getter of an extension bounds its offset by two constants. The digest region ends where
a field of the manifest says, and nothing relates the two; `signed_ext_covered_iff` is what
an image has to promise for its signature to cover its extensions.
-/
import IbexFirmware.BootPolicy
import IbexFirmware.Isfb

set_option autoImplicit false

namespace IbexFirmware.ManifestExt

open Bytes BootPolicy

/-! ## The table of extensions -/

def CHIP_MANIFEST_EXT_TABLE_ENTRY_COUNT : ℕ := 15

def kManifestExtIdSecVerWrite : u32 := 0x3f086a41
def kManifestExtIdIsfb : u32 := Isfb.kManifestExtIdIsfb
def kManifestExtIdIsfbErase : u32 := 0x45465349

/-- The rows of `MANIFEST_EXTENSIONS`. -/
inductive Extension where
  | spx_key
  | spx_signature
  | secver_write
  | isfb
  | isfb_erase
  deriving DecidableEq

namespace Extension

def index : Extension → ℕ
  | spx_key => 0
  | spx_signature => 1
  | secver_write => 2
  | isfb => 3
  | isfb_erase => 4

def id : Extension → u32
  | spx_key => kManifestExtIdSpxKey
  | spx_signature => kManifestExtIdSpxSignature
  | secver_write => kManifestExtIdSecVerWrite
  | isfb => kManifestExtIdIsfb
  | isfb_erase => kManifestExtIdIsfbErase

/-- `sizeof` of the type. -/
def size : Extension → u32
  | spx_key => 40
  | spx_signature => 7864
  | secver_write => 12
  | isfb => 28
  | isfb_erase => 12

def signed : Extension → Bool
  | spx_signature => false
  | _ => true

/-- The getter that `DEFINE_GETTER` makes of the row. -/
def get (ext : Extension) : Manifest → Except RomError u32 :=
  manifest_ext_get ext.index ext.id ext.size

/-- How long the structure at an offset is: its type, and in the case of `isfb` the product
expressions that it counts, which are a flexible array at its end. -/
def extent (ext : Extension) (manifest : Manifest) (offset : ℕ) : ℕ :=
  match ext with
  | isfb => isfb.size.toNat + 8 * (manifest.wordAt (offset + 24)).toNat
  | ext => ext.size.toNat

end Extension

/-- The generated getters are the ones the verification uses. -/
theorem get_spx_key : Extension.spx_key.get = manifest_ext_get_spx_key := rfl

theorem get_spx_signature : Extension.spx_signature.get = manifest_ext_get_spx_signature := rfl

/-! ## The two checks -/

def manifest_check (manifest : Manifest) : RomError :=
  if manifest.manifest_version_major ≠ kManifestVersionMajor2 then .kErrorManifestBadVersionMajor
  else if manifest.signed_region_end > manifest.length then .kErrorManifestBadSignedRegion
  else if manifest.code_start ≥ manifest.code_end ∨ manifest.code_start < CHIP_MANIFEST_SIZE ∨
      manifest.code_end > manifest.signed_region_end ∨ manifest.code_start &&& 3 ≠ 0 ∨
      manifest.code_end &&& 3 ≠ 0 then .kErrorManifestBadCodeRegion
  else if manifest.entry_point < manifest.code_start ∨ manifest.entry_point ≥ manifest.code_end ∨
      manifest.entry_point &&& 3 ≠ 0 then .kErrorManifestBadEntryPoint
  else if (List.range CHIP_MANIFEST_EXT_TABLE_ENTRY_COUNT).any
      (fun i => manifest.ext_offset i &&& 3 ≠ 0) then .kErrorManifestBadExtension
  else .kErrorOk

/-- What both checks ask of the fields in front of the extension table. -/
structure FieldsInOrder (manifest : Manifest) : Prop where
  version : manifest.manifest_version_major = kManifestVersionMajor2
  signed_region : manifest.signed_region_end ≤ manifest.length
  code_region : manifest.code_start < manifest.code_end ∧ CHIP_MANIFEST_SIZE ≤ manifest.code_start ∧
    manifest.code_end ≤ manifest.signed_region_end ∧ manifest.code_start &&& 3 = 0 ∧
    manifest.code_end &&& 3 = 0
  entry_point : manifest.code_start ≤ manifest.entry_point ∧
    manifest.entry_point < manifest.code_end ∧ manifest.entry_point &&& 3 = 0

section checks

variable {manifest : Manifest}

/-- Where the fields are in order, the copy succeeds and the original goes on to the table;
elsewhere they end in the same error. -/
theorem manifest_checks (manifest : Manifest) :
    (FieldsInOrder manifest ∧ manifest_check_rom_ext manifest = .kErrorOk ∧
        manifest_check manifest =
          if (List.range CHIP_MANIFEST_EXT_TABLE_ENTRY_COUNT).any
            (fun i => manifest.ext_offset i &&& 3 ≠ 0) then .kErrorManifestBadExtension
          else .kErrorOk) ∨
      (¬ FieldsInOrder manifest ∧ manifest_check_rom_ext manifest = manifest_check manifest ∧
        manifest_check_rom_ext manifest ≠ .kErrorOk) := by
  unfold manifest_check_rom_ext manifest_check
  by_cases hversion : manifest.manifest_version_major ≠ kManifestVersionMajor2
  · rw [if_pos hversion, if_pos hversion]
    exact .inr ⟨fun h => hversion h.version, rfl, nofun⟩
  rw [if_neg hversion, if_neg hversion]
  by_cases hsigned : manifest.signed_region_end > manifest.length
  · rw [if_pos hsigned, if_pos hsigned]
    exact .inr ⟨fun h => BitVec.not_lt.mpr h.signed_region hsigned, rfl, nofun⟩
  rw [if_neg hsigned, if_neg hsigned]
  by_cases hcode : manifest.code_start ≥ manifest.code_end ∨
      manifest.code_start < CHIP_MANIFEST_SIZE ∨ manifest.code_end > manifest.signed_region_end ∨
      manifest.code_start &&& 3 ≠ 0 ∨ manifest.code_end &&& 3 ≠ 0
  · rw [if_pos hcode, if_pos hcode]
    refine .inr ⟨fun h => ?_, rfl, nofun⟩
    obtain ⟨h1, h2, h3, h4, h5⟩ := h.code_region
    rcases hcode with hc | hc | hc | hc | hc
    · exact BitVec.not_lt.mpr hc h1
    · exact BitVec.not_lt.mpr h2 hc
    · exact BitVec.not_lt.mpr h3 hc
    · exact hc h4
    · exact hc h5
  rw [if_neg hcode, if_neg hcode]
  by_cases hentry : manifest.entry_point < manifest.code_start ∨
      manifest.entry_point ≥ manifest.code_end ∨ manifest.entry_point &&& 3 ≠ 0
  · rw [if_pos hentry, if_pos hentry]
    refine .inr ⟨fun h => ?_, rfl, nofun⟩
    obtain ⟨h1, h2, h3⟩ := h.entry_point
    rcases hentry with he | he | he
    · exact BitVec.not_lt.mpr h1 he
    · exact BitVec.not_lt.mpr he h2
    · exact he h3
  rw [if_neg hentry, if_neg hentry]
  simp only [not_or, not_not, ge_iff_le, gt_iff_lt, BitVec.not_lt, BitVec.not_le]
    at hversion hsigned hcode hentry
  exact .inl ⟨⟨hversion, hsigned, hcode, hentry⟩, rfl, rfl⟩

theorem and_three_eq_zero_iff (x : u32) : x &&& 3 = 0 ↔ x.toNat % 4 = 0 := by
  have hmask : (x &&& 3).toNat = x.toNat % 4 := by
    rw [BitVec.toNat_and]
    exact Nat.and_two_pow_sub_one_eq_mod x.toNat 2
  rw [← hmask]
  exact ⟨fun h => by rw [h]; rfl, fun h => BitVec.eq_of_toNat_eq h⟩

/-- The checks agree exactly when an earlier field is out of order or every extension of
the table, used or not, is word aligned. -/
theorem manifest_checks_agree_iff (manifest : Manifest) :
    manifest_check_rom_ext manifest = manifest_check manifest ↔
      (FieldsInOrder manifest →
        ∀ i < CHIP_MANIFEST_EXT_TABLE_ENTRY_COUNT, (manifest.ext_offset i).toNat % 4 = 0) := by
  have hany : (List.range CHIP_MANIFEST_EXT_TABLE_ENTRY_COUNT).any
      (fun i => manifest.ext_offset i &&& 3 ≠ 0) = true ↔
        ¬ ∀ i < CHIP_MANIFEST_EXT_TABLE_ENTRY_COUNT, (manifest.ext_offset i).toNat % 4 = 0 := by
    simp only [List.any_eq_true, List.mem_range, decide_eq_true_eq, ← and_three_eq_zero_iff]
    push Not
    rfl
  rcases manifest_checks manifest with ⟨horder, hcopy, hcheck⟩ | ⟨horder, hsame, -⟩
  · rw [hcopy, hcheck, forall_prop_of_true horder]
    by_cases haligned : ∀ i < CHIP_MANIFEST_EXT_TABLE_ENTRY_COUNT,
        (manifest.ext_offset i).toNat % 4 = 0
    · rw [if_neg (fun h => hany.mp h haligned)]
      exact iff_of_true rfl haligned
    · rw [if_pos (hany.mpr haligned)]
      exact iff_of_false nofun haligned
  · exact iff_of_true hsame fun h => absurd h horder

end checks

/-- A manifest with the given words, and zeros elsewhere. -/
def manifest_of (fields : List (ℕ × u32)) : Manifest :=
  ⟨fields.foldl (fun m field => writeWord m field.1 field.2) fun _ => 0⟩

/-- The fields of a least image: its code is one word behind the manifest. -/
def least_image : List (ℕ × u32) :=
  [(820, CHIP_BL0_IDENTIFIER), (824, 0x00020000), (828, 1028), (832, 2048), (892, 1024),
    (896, 1028), (900, 1024)]

/-- An unused entry with the offset 1. -/
theorem manifest_checks_differ :
    ¬ (manifest_check_rom_ext (manifest_of (least_image ++ [(1020, 1)])) =
      manifest_check (manifest_of (least_image ++ [(1020, 1)]))) := by
  decide

/-! ## The signed extensions -/

/-- What the getter looks at: the entry of the table has the identifier and an offset behind
the manifest, and the identifier is at that offset again. -/
structure Declared (ext : Extension) (manifest : Manifest) : Prop where
  table_id : manifest.ext_identifier ext.index = ext.id
  min : CHIP_MANIFEST_SIZE ≤ manifest.ext_offset ext.index
  max : manifest.ext_offset ext.index < CHIP_ROM_EXT_RESIZABLE_SIZE_MAX - ext.size
  header_id : manifest.wordAt (manifest.ext_offset ext.index).toNat = ext.id

theorem get_eq_ok_iff (ext : Extension) (manifest : Manifest) (offset : u32) :
    ext.get manifest = .ok offset ↔
      Declared ext manifest ∧ offset = manifest.ext_offset ext.index := by
  unfold Extension.get manifest_ext_get
  by_cases h : Declared ext manifest
  · rw [if_pos ⟨h.table_id, h.min, h.max, h.header_id⟩, and_iff_right h, Except.ok.injEq]
    exact eq_comm
  · rw [if_neg fun hall => h ⟨hall.1, hall.2.1, hall.2.2.1, hall.2.2.2⟩]
    exact iff_of_false nofun fun hall => h hall.1

/-- The digest region starts behind the usage constraints and ends where the manifest says,
without the length having wrapped, and a signed extension that is found is aligned and in
it with all of its structure. -/
def SignedExtCovered (manifest : Manifest) : Prop :=
  let region := manifest_digest_region_get manifest
  region.1 + region.2.toNat = manifest.signed_region_end.toNat ∧
    ∀ ext : Extension, ext.signed = true → ∀ offset, ext.get manifest = .ok offset →
      offset.toNat % 4 = 0 ∧ region.1 ≤ offset.toNat ∧
        offset.toNat + ext.extent manifest offset.toNat ≤ region.1 + region.2.toNat

/-- The code of an accepted image is behind the manifest, so the region is not empty. -/
theorem digest_region_of_accepted {manifest : Manifest} {boot_data : BootData}
    (hok : rom_ext_boot_policy_manifest_check manifest boot_data = .kErrorOk) :
    432 + (manifest_digest_region_get manifest).2.toNat = manifest.signed_region_end.toNat := by
  have hcheck : manifest_check_rom_ext manifest = .kErrorOk := by
    unfold rom_ext_boot_policy_manifest_check at hok
    split_ifs at hok
    exact hok
  have horder : FieldsInOrder manifest := by
    rcases manifest_checks manifest with h | h
    · exact h.1
    · exact absurd hcheck h.2.2
  obtain ⟨hcode, hstart, hend, -, -⟩ := horder.code_region
  have hsize : CHIP_MANIFEST_SIZE.toNat = 1024 := rfl
  have h432 : (432 : u32).toNat = 432 := rfl
  simp only [BitVec.lt_def, BitVec.le_def] at hcode hstart hend
  change 432 + (manifest.signed_region_end - 432).toNat = _
  rw [BitVec.toNat_sub, h432]
  omega

/-- The signature of an accepted image covers its signed extensions exactly when the
offsets of those that it declares are word aligned and their structures end in the signed
region. -/
theorem signed_ext_covered_iff (manifest : Manifest) (boot_data : BootData) :
    (rom_ext_boot_policy_manifest_check manifest boot_data = .kErrorOk →
        SignedExtCovered manifest) ↔
      (rom_ext_boot_policy_manifest_check manifest boot_data = .kErrorOk →
        ∀ ext : Extension, ext.signed = true → Declared ext manifest →
          let offset := (manifest.ext_offset ext.index).toNat
          offset % 4 = 0 ∧
            offset + ext.extent manifest offset ≤ manifest.signed_region_end.toNat) := by
  refine forall_congr' fun hok => ?_
  have hregion := digest_region_of_accepted hok
  constructor
  · rintro ⟨-, hcovered⟩ ext hsigned hdeclared
    obtain ⟨haligned, -, hinside⟩ :=
      hcovered ext hsigned _ ((get_eq_ok_iff ext manifest _).mpr ⟨hdeclared, rfl⟩)
    exact ⟨haligned, hinside.trans_eq hregion⟩
  · intro hpromise
    refine ⟨hregion, fun ext hsigned offset hget => ?_⟩
    obtain ⟨hdeclared, rfl⟩ := (get_eq_ok_iff ext manifest offset).mp hget
    obtain ⟨haligned, hinside⟩ := hpromise ext hsigned hdeclared
    have hmin : 1024 ≤ (manifest.ext_offset ext.index).toNat := hdeclared.min
    refine ⟨haligned, ?_, hinside.trans_eq hregion.symm⟩
    exact Nat.le_trans (show 432 ≤ 1024 by decide) hmin

/-- An extension for erasing, right behind the signed region. -/
def unsigned_erase : Manifest :=
  manifest_of (least_image ++ [(936, kManifestExtIdIsfbErase), (940, 1028),
    (1028, kManifestExtIdIsfbErase)])

theorem unsigned_erase_not_covered :
    ¬ (rom_ext_boot_policy_manifest_check unsigned_erase (BootData.ofWords []) = .kErrorOk →
      SignedExtCovered unsigned_erase) := by
  intro h
  have hcovered := h (by decide)
  have hinside := (hcovered.2 .isfb_erase rfl 1028 (by decide)).2.2
  exact absurd hinside (by decide)

end IbexFirmware.ManifestExt
