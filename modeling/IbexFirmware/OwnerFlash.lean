/-
The flash configuration of an owner (`owner_block_flash_check`, `owner_block_flash_apply`).

The check and the application look at the bounds of a region in different ways: the check
asks for the slot that the start and the end lie in, and the application asks whether a
region lies between the bounds of the slot to be configured. A region without pages could
lie in both slots for the second test and in none for the first one. `flash_region_check_accepts`
says that the check leaves no such region, and so the two applications, one for each slot,
go through all regions once.
-/
import IbexFirmware.Ownership

set_option autoImplicit false

namespace IbexFirmware.OwnerFlash

open Bytes Checks OwnerBlock

/-! ## Regions -/

def kMultiBitBool4False : u32 := 0x9

/-- `owner_flash_region_t`. -/
structure OwnerFlashRegion where
  start : u16
  size : u16
  access : u32
  properties : u32

/-- `flash->config[i]`. -/
def flash_region (flash : Item) (i : ℕ) : OwnerFlashRegion where
  start := flash.u16At (8 + 12 * i)
  size := flash.u16At (8 + 12 * i + 2)
  access := flash.u32At (8 + 12 * i + 4)
  properties := flash.u32At (8 + 12 * i + 8)

/-- `crypt` in iteration `i`. -/
def crypt (i : ℕ) : u32 := BitVec.ofNat 32 (0x11111111 * i)

/-- `bitfield_field32_read` with the mask `0xF` of all fields. -/
def field_read (val : u32) (index : ℕ) : u32 := (val >>> index) &&& 0xF

/-! ### Fields of `properties` and `access` -/

def FLASH_CONFIG_SCRAMBLE (val : u32) : u32 := field_read val 0
def FLASH_CONFIG_ECC (val : u32) : u32 := field_read val 4
def FLASH_CONFIG_HIGH_ENDURANCE (val : u32) : u32 := field_read val 8

def FLASH_CONFIG_READ (val : u32) : u32 := field_read val 0
def FLASH_CONFIG_PROGRAM (val : u32) : u32 := field_read val 4
def FLASH_CONFIG_ERASE (val : u32) : u32 := field_read val 8
def FLASH_CONFIG_PROTECT_WHEN_PRIMARY (val : u32) : u32 := field_read val 24
def FLASH_CONFIG_LOCK (val : u32) : u32 := field_read val 28

/-! ## Protection -/

/-- `flash_ctrl_cfg_t`. -/
structure FlashCtrlCfg where
  scrambling : u32
  ecc : u32
  he : u32

/-- `flash_ctrl_perms_t`. -/
structure FlashCtrlPerms where
  read : u32
  write : u32
  erase : u32

/-- A call of `flash_ctrl_data_region_protect`. -/
structure RegionProtect where
  region : ℕ
  page_offset : u16
  num_pages : u16
  perms : FlashCtrlPerms
  cfg : FlashCtrlCfg
  lock : Bool

/-- The calls so far and `*mp_index`. -/
structure Protection where
  calls : List RegionProtect
  mp_index : ℕ

/-- The call for a region, into the protection slot `region`. -/
def region_protect (config : OwnerFlashRegion) (crypt config_side owner_lockdown : u32)
    (region : ℕ) : RegionProtect :=
  let val := config.properties ^^^ crypt
  let cfg : FlashCtrlCfg :=
    { scrambling := FLASH_CONFIG_SCRAMBLE val
      ecc := FLASH_CONFIG_ECC val
      he := FLASH_CONFIG_HIGH_ENDURANCE val }
  let val := config.access ^^^ crypt
  let perm : FlashCtrlPerms :=
    { read := FLASH_CONFIG_READ val
      write := FLASH_CONFIG_PROGRAM val
      erase := FLASH_CONFIG_ERASE val }
  let pwp := FLASH_CONFIG_PROTECT_WHEN_PRIMARY val
  let lock := decide (FLASH_CONFIG_LOCK val ≠ kMultiBitBool4False)
  let perm :=
    if config_side = owner_lockdown ∧ pwp ≠ kMultiBitBool4False then
      { perm with write := kMultiBitBool4False, erase := kMultiBitBool4False }
    else perm
  let lock := if owner_lockdown = kHardenedBoolFalse then false else lock
  ⟨region, config.start, config.size, perm, cfg, lock⟩

/-- The number of regions. The length of the header is taken off as a `size_t`. -/
def flash_len (flash : Item) : ℕ := (BitVec.ofNat 32 flash.length - 8#32).toNat / 12

theorem flash_len_eq {flash : Item} (hlength : 8 ≤ flash.length) :
    flash_len flash = (flash.length - 8) / 12 := by
  have hshort : flash.length < 2 ^ 16 := (flash.u16At 4).isLt
  rw [flash_len, BitVec.toNat_sub, BitVec.toNat_ofNat, BitVec.toNat_ofNat]
  omega

section

variable (kFlashBankSize : u32)

/-- The bounds of the slot that is configured. -/
def slot_start (config_side : u32) : u32 :=
  if config_side = kBootSlotA then 0
  else if config_side = kBootSlotB then kFlashBankSize
  else 0xFFFFFFFF

def slot_end (config_side : u32) : u32 :=
  if config_side = kBootSlotA then kFlashBankSize
  else if config_side = kBootSlotB then 2 * kFlashBankSize
  else 0

/-- The condition of the loop. -/
def in_config_side (config : OwnerFlashRegion) (config_side : u32) : Bool :=
  slot_start kFlashBankSize config_side ≤ config.start.setWidth 32 &&
    config.start.setWidth 32 + config.size.setWidth 32 ≤ slot_end kFlashBankSize config_side

/-- One iteration of the loop. -/
def flash_apply_step (flash : Item) (config_side owner_lockdown : u32) (s : Protection) (i : ℕ) :
    Protection :=
  if in_config_side kFlashBankSize (flash_region flash i) config_side then
    let calls :=
      if s.mp_index < 2 * FLASH_CONFIG_REGIONS_PER_SLOT then
        s.calls ++ [region_protect (flash_region flash i) (crypt i) config_side owner_lockdown
          (kRomExtRegions + s.mp_index)]
      else s.calls
    ⟨calls, s.mp_index + 1⟩
  else s

def owner_block_flash_apply (flash : Option Item) (config_side owner_lockdown : u32)
    (s : Protection) : Except RomError Protection :=
  match flash with
  | none => .ok s
  | some flash =>
      if flash_len flash > kProtectSlots - kRomExtRegions then
        .error .kErrorOwnershipFlashConfigLength
      else .ok ((List.range (flash_len flash)).foldl
        (flash_apply_step kFlashBankSize flash config_side owner_lockdown) s)

/-! ## What the check leaves -/

/-- All pages of a region lie in the slot from `base` on. -/
def InSlot (base : ℕ) (config : OwnerFlashRegion) : Prop :=
  base ≤ config.start.toNat ∧ config.start.toNat + config.size.toNat ≤ base + kFlashBankSize.toNat

/-- No page of a region is one of the ROM_EXT, which each slot starts with. -/
def ClearOfRomExt (config : OwnerFlashRegion) : Prop :=
  ∀ page, config.start.toNat ≤ page → page < config.start.toNat + config.size.toNat →
    ¬ page < kRomExtSizeInPages.toNat ∧
      ¬ (kFlashBankSize.toNat ≤ page ∧ page < kFlashBankSize.toNat + kRomExtSizeInPages.toNat)

/-- What holds of the regions of an accepted configuration. -/
structure RegionAccepted (config : OwnerFlashRegion) : Prop where
  clear : ClearOfRomExt kFlashBankSize config
  one_slot : InSlot kFlashBankSize 0 config ∧ ¬ InSlot kFlashBankSize kFlashBankSize.toNat config ∨
    InSlot kFlashBankSize kFlashBankSize.toNat config ∧ ¬ InSlot kFlashBankSize 0 config

/-- The end of a region does not wrap around. -/
theorem toNat_region_end (config : OwnerFlashRegion) :
    (config.start.setWidth 32 + config.size.setWidth 32 : u32).toNat =
      config.start.toNat + config.size.toNat := by
  rw [BitVec.toNat_add, BitVec.toNat_setWidth, BitVec.toNat_setWidth]
  omega

theorem toNat_region_start (config : OwnerFlashRegion) :
    (config.start.setWidth 32 : u32).toNat = config.start.toNat := by
  rw [BitVec.toNat_setWidth]
  omega

theorem rom_ext_flash_overlap_iff (hbank : 2 * kFlashBankSize.toNat < 2 ^ 32)
    (config : OwnerFlashRegion) :
    rom_ext_flash_overlap kFlashBankSize (config.start.setWidth 32)
        (config.start.setWidth 32 + config.size.setWidth 32) = true ↔
      (config.start.toNat < kRomExtSizeInPages.toNat ∧
          0 < config.start.toNat + config.size.toNat) ∨
        (config.start.toNat < kFlashBankSize.toNat + kRomExtSizeInPages.toNat ∧
          kFlashBankSize.toNat < config.start.toNat + config.size.toNat) := by
  have hpages : kRomExtSizeInPages.toNat = 32 := by decide
  have hend : (kFlashBankSize + kRomExtSizeInPages).toNat =
      kFlashBankSize.toNat + kRomExtSizeInPages.toNat := by
    rw [BitVec.toNat_add]
    omega
  simp only [rom_ext_flash_overlap, decide_eq_true_eq, BitVec.lt_def, gt_iff_lt,
    toNat_region_start, toNat_region_end, hend]
  simp

theorem in_flash_slot_iff (base : u32) (hbase : base.toNat + kFlashBankSize.toNat < 2 ^ 32)
    (config : OwnerFlashRegion) :
    in_flash_slot kFlashBankSize base (config.start.setWidth 32)
        (config.start.setWidth 32 + config.size.setWidth 32) = true ↔
      InSlot kFlashBankSize base.toNat config ∧
        config.start.toNat < base.toNat + kFlashBankSize.toNat ∧
        base.toNat < config.start.toNat + config.size.toNat := by
  have hend : (base + kFlashBankSize).toNat = base.toNat + kFlashBankSize.toNat := by
    rw [BitVec.toNat_add]
    omega
  simp only [in_flash_slot, decide_eq_true_eq, BitVec.lt_def, BitVec.le_def,
    toNat_region_start, toNat_region_end, hend, InSlot]
  tauto

/-- One iteration of the check accepts only such regions. -/
theorem flash_region_check_accepts (hbank : 2 * kFlashBankSize.toNat < 2 ^ 32) (flash : Item)
    (num num' : ℕ × ℕ) (i : ℕ)
    (hcheck : flash_region_check kFlashBankSize flash num i = .ok num') :
    RegionAccepted kFlashBankSize (flash_region flash i) := by
  have hoverlap := rom_ext_flash_overlap_iff kFlashBankSize hbank (flash_region flash i)
  have hslotA := in_flash_slot_iff kFlashBankSize 0 (by simp; omega) (flash_region flash i)
  have hslotB := in_flash_slot_iff kFlashBankSize kFlashBankSize (by omega) (flash_region flash i)
  have hzero : (0 : u32).toNat = 0 := rfl
  unfold flash_region_check at hcheck
  dsimp only at hcheck
  split at hcheck
  · cases hcheck
  next hrom =>
    have hclear : ClearOfRomExt kFlashBankSize (flash_region flash i) := by
      intro page hstart hlast
      have hapart := mt hoverlap.mpr hrom
      omega
    refine ⟨hclear, ?_⟩
    split at hcheck
    next hA =>
      -- the check also asks that the start is before the end of the slot
      obtain ⟨hin, hbefore, _⟩ := hslotA.mp hA
      refine .inl ⟨hin, fun hother => ?_⟩
      have := hother.1
      omega
    next =>
      split at hcheck
      next hB =>
        -- and that the end is behind the start of the slot
        obtain ⟨hin, _, hafter⟩ := hslotB.mp hB
        refine .inr ⟨hin, fun hother => ?_⟩
        have := hother.2
        omega
      next => cases hcheck

theorem foldlM_flash_region_check (hbank : 2 * kFlashBankSize.toNat < 2 ^ 32) (flash : Item)
    (indices : List ℕ) (num num' : ℕ × ℕ)
    (hcheck : indices.foldlM (flash_region_check kFlashBankSize flash) num = .ok num') :
    ∀ i ∈ indices, RegionAccepted kFlashBankSize (flash_region flash i) := by
  induction indices generalizing num with
  | nil =>
      intro i hi
      cases hi
  | cons i indices ih =>
      rw [List.foldlM_cons] at hcheck
      obtain ⟨num1, hstep, hcheck⟩ := ok_of_bind hcheck
      intro j hj
      rcases List.mem_cons.mp hj with rfl | hj
      · exact flash_region_check_accepts kFlashBankSize hbank flash num num1 j hstep
      · exact ih num1 hcheck j hj

/-- All regions of an accepted configuration are accepted, and there is a protection slot
for each. -/
theorem owner_block_flash_check_accepts (hbank : 2 * kFlashBankSize.toNat < 2 ^ 32)
    (flash : Item) (hcheck : owner_block_flash_check kFlashBankSize flash = .ok ()) :
    flash_len flash ≤ kProtectSlots - kRomExtRegions ∧
      ∀ i < flash_len flash, RegionAccepted kFlashBankSize (flash_region flash i) := by
  unfold owner_block_flash_check at hcheck
  obtain ⟨hshort, hcheck⟩ := ok_of_error hcheck
  have hlen := flash_len_eq (Nat.not_lt.mp hshort)
  obtain ⟨hwhole, hcheck⟩ := ok_of_error hcheck
  obtain ⟨hmany, hcheck⟩ := ok_of_error hcheck
  obtain ⟨num, hfold, -⟩ := ok_of_bind hcheck
  refine ⟨by omega, fun i hi => ?_⟩
  rw [hlen] at hi
  exact foldlM_flash_region_check kFlashBankSize hbank flash _ _ _ hfold i (List.mem_range.mpr hi)

/-! ## What the two applications do -/

/-- The slot a region is configured for. -/
def region_side (config : OwnerFlashRegion) : u32 :=
  if in_config_side kFlashBankSize config kBootSlotA then kBootSlotA else kBootSlotB

theorem in_config_side_A_iff (config : OwnerFlashRegion) :
    in_config_side kFlashBankSize config kBootSlotA = true ↔ InSlot kFlashBankSize 0 config := by
  have hstart : slot_start kFlashBankSize kBootSlotA = 0 := rfl
  have hend : slot_end kFlashBankSize kBootSlotA = kFlashBankSize := rfl
  simp only [in_config_side, hstart, hend, Bool.and_eq_true, decide_eq_true_eq, BitVec.le_def,
    toNat_region_start, toNat_region_end, InSlot, Nat.zero_add]
  simp

theorem in_config_side_B_iff (hbank : 2 * kFlashBankSize.toNat < 2 ^ 32)
    (config : OwnerFlashRegion) :
    in_config_side kFlashBankSize config kBootSlotB = true ↔
      InSlot kFlashBankSize kFlashBankSize.toNat config := by
  have hstart : slot_start kFlashBankSize kBootSlotB = kFlashBankSize := rfl
  have hend : slot_end kFlashBankSize kBootSlotB = 2 * kFlashBankSize := rfl
  have hdouble : (2 * kFlashBankSize).toNat = kFlashBankSize.toNat + kFlashBankSize.toNat := by
    rw [BitVec.toNat_mul, show (2 : u32).toNat = 2 from rfl]
    omega
  simp only [in_config_side, hstart, hend, Bool.and_eq_true, decide_eq_true_eq, BitVec.le_def,
    toNat_region_start, toNat_region_end, InSlot, hdouble]

/-- The calls for the regions `order`, into the protection slots from `first` on. -/
def region_calls (flash : Item) (side : OwnerFlashRegion → u32) (owner_lockdown : u32)
    (order : List ℕ) (first : ℕ) : List RegionProtect :=
  (order.zipIdx first).map fun (i, slot) =>
    region_protect (flash_region flash i) (crypt i) (side (flash_region flash i)) owner_lockdown
      slot

theorem region_calls_append (flash : Item) (side : OwnerFlashRegion → u32) (owner_lockdown : u32)
    (order rest : List ℕ) (first : ℕ) :
    region_calls flash side owner_lockdown (order ++ rest) first =
      region_calls flash side owner_lockdown order first ++
        region_calls flash side owner_lockdown rest (first + order.length) := by
  simp only [region_calls, List.zipIdx_append, List.map_append]

/-- The calls depend on the sides of the regions in the list only. -/
theorem region_calls_congr (flash : Item) {side side' : OwnerFlashRegion → u32}
    (owner_lockdown : u32) (order : List ℕ) (first : ℕ)
    (hside : ∀ i ∈ order, side (flash_region flash i) = side' (flash_region flash i)) :
    region_calls flash side owner_lockdown order first =
      region_calls flash side' owner_lockdown order first := by
  refine List.map_congr_left fun (i, slot) hmem => ?_
  have hi : i ∈ order := List.fst_mem_of_mem_zipIdx hmem
  simp only [hside i hi]

/-- The protection slots are filled one after the other. -/
theorem region_calls_regions (flash : Item) (side : OwnerFlashRegion → u32) (owner_lockdown : u32)
    (order : List ℕ) (first : ℕ) :
    (region_calls flash side owner_lockdown order first).map (·.region) =
      List.range' first order.length := by
  rw [region_calls, List.map_map, ← List.zipIdx_map_snd first order]
  rfl

/-- As long as there are protection slots left, the loop appends a call for each region of
the side. -/
theorem foldl_flash_apply_step (flash : Item) (config_side owner_lockdown : u32)
    (indices : List ℕ) (s : Protection) {selected : List ℕ}
    (hselected : selected = indices.filter
      fun i => in_config_side kFlashBankSize (flash_region flash i) config_side)
    (hroom : s.mp_index + selected.length ≤ 2 * FLASH_CONFIG_REGIONS_PER_SLOT) :
    indices.foldl (flash_apply_step kFlashBankSize flash config_side owner_lockdown) s =
      ⟨s.calls ++ region_calls flash (fun _ => config_side) owner_lockdown selected
          (kRomExtRegions + s.mp_index),
        s.mp_index + selected.length⟩ := by
  induction indices generalizing s selected with
  | nil =>
      subst hselected
      simp [region_calls]
  | cons i indices ih =>
      rw [List.foldl_cons, flash_apply_step]
      by_cases hside : in_config_side kFlashBankSize (flash_region flash i) config_side = true
      · simp only [List.filter_cons, hside, if_true] at hselected
        subst hselected
        rw [List.length_cons] at hroom
        rw [if_pos hside, if_pos (by omega), ih _ rfl (by simp only; omega)]
        simp only [region_calls, List.zipIdx_cons, List.map_cons, List.append_assoc,
          List.singleton_append, List.length_cons, Nat.add_assoc, Nat.add_comm 1]
      · simp only [List.filter_cons, hside] at hselected
        rw [if_neg hside]
        exact ih s hselected hroom

/-- The regions of a side, in their order. -/
def side_regions (flash : Item) (config_side : u32) : List ℕ :=
  (List.range (flash_len flash)).filter
    fun i => in_config_side kFlashBankSize (flash_region flash i) config_side

/-- A region that was accepted is in slot B exactly if it is not in slot A. -/
theorem in_config_side_B_eq_not_A (hbank : 2 * kFlashBankSize.toNat < 2 ^ 32)
    {config : OwnerFlashRegion} (haccepted : RegionAccepted kFlashBankSize config) :
    in_config_side kFlashBankSize config kBootSlotB =
      !in_config_side kFlashBankSize config kBootSlotA := by
  have hA := in_config_side_A_iff kFlashBankSize config
  have hB := in_config_side_B_iff kFlashBankSize hbank config
  rcases haccepted.one_slot with ⟨hin, hout⟩ | ⟨hin, hout⟩
  · rw [hA.mpr hin, Bool.not_true, Bool.eq_false_iff]
    exact mt hB.mp hout
  · rw [hB.mpr hin, Bool.eq_false_iff.mpr (mt hA.mp hout), Bool.not_false]

/-- If every region has one slot, the two sides together have every region once. -/
theorem side_regions_perm (flash : Item)
    (hone : ∀ i < flash_len flash,
      in_config_side kFlashBankSize (flash_region flash i) kBootSlotB =
        !in_config_side kFlashBankSize (flash_region flash i) kBootSlotA) :
    (side_regions kFlashBankSize flash kBootSlotA ++
        side_regions kFlashBankSize flash kBootSlotB).Perm (List.range (flash_len flash)) := by
  have hother : side_regions kFlashBankSize flash kBootSlotB =
      (List.range (flash_len flash)).filter
        fun i => !in_config_side kFlashBankSize (flash_region flash i) kBootSlotA :=
    List.filter_congr fun i hi => hone i (List.mem_range.mp hi)
  rw [hother]
  exact List.filter_append_perm _ _

/-- The calls of the two passes, each with its side, are those of one pass in which every
region has the side it is configured for. -/
theorem region_calls_both (flash : Item) (owner_lockdown : u32)
    (hone : ∀ i < flash_len flash,
      in_config_side kFlashBankSize (flash_region flash i) kBootSlotB =
        !in_config_side kFlashBankSize (flash_region flash i) kBootSlotA) (first : ℕ) :
    region_calls flash (region_side kFlashBankSize) owner_lockdown
        (side_regions kFlashBankSize flash kBootSlotA ++
          side_regions kFlashBankSize flash kBootSlotB) first =
      region_calls flash (fun _ => kBootSlotA) owner_lockdown
          (side_regions kFlashBankSize flash kBootSlotA) first ++
        region_calls flash (fun _ => kBootSlotB) owner_lockdown
          (side_regions kFlashBankSize flash kBootSlotB)
          (first + (side_regions kFlashBankSize flash kBootSlotA).length) := by
  rw [region_calls_append]
  refine congrArg₂ _ (region_calls_congr flash owner_lockdown _ _ ?_)
    (region_calls_congr flash owner_lockdown _ _ ?_)
  · intro i hi
    exact if_pos (List.mem_filter.mp hi).2
  · intro i hi
    obtain ⟨hrange, hside⟩ := List.mem_filter.mp hi
    rw [hone i (List.mem_range.mp hrange), Bool.not_eq_true'] at hside
    rw [region_side, hside]
    rfl

/-- Accepted flash configurations leave the ROM_EXT alone, and the two applications put
every region into a protection slot of its own. -/
theorem owner_block_flash_protects (hbank : 2 * kFlashBankSize.toNat < 2 ^ 32) (flash : Item)
    (owner_lockdown : u32) (hcheck : owner_block_flash_check kFlashBankSize flash = .ok ()) :
    (∀ i < flash_len flash, RegionAccepted kFlashBankSize (flash_region flash i)) ∧
      ∃ sideA both order,
        owner_block_flash_apply kFlashBankSize (some flash) kBootSlotA owner_lockdown ⟨[], 0⟩
            = .ok sideA ∧
          owner_block_flash_apply kFlashBankSize (some flash) kBootSlotB owner_lockdown sideA
            = .ok both ∧
          order.Perm (List.range (flash_len flash)) ∧
          both.calls = region_calls flash (region_side kFlashBankSize) owner_lockdown order
            kRomExtRegions ∧
          (both.calls.map (·.region)).Nodup ∧
          (∀ call ∈ both.calls, 2 ≤ call.region ∧ call.region ≤ 7) ∧
          ∀ i < flash_len flash, ∀ slot,
            region_side kFlashBankSize (flash_region flash i) = owner_lockdown →
            FLASH_CONFIG_PROTECT_WHEN_PRIMARY ((flash_region flash i).access ^^^ crypt i)
              ≠ kMultiBitBool4False →
            let call := region_protect (flash_region flash i) (crypt i)
              (region_side kFlashBankSize (flash_region flash i)) owner_lockdown slot
            call.perms.write = kMultiBitBool4False ∧ call.perms.erase = kMultiBitBool4False := by
  obtain ⟨hlen, haccepted⟩ := owner_block_flash_check_accepts kFlashBankSize hbank flash hcheck
  have hone := fun i hi => in_config_side_B_eq_not_A kFlashBankSize hbank (haccepted i hi)
  refine ⟨haccepted, ?_⟩
  have hperm := side_regions_perm kFlashBankSize flash hone
  have hcalls := region_calls_both kFlashBankSize flash owner_lockdown hone kRomExtRegions
  obtain ⟨selA, hselA⟩ : ∃ sel, sel = side_regions kFlashBankSize flash kBootSlotA := ⟨_, rfl⟩
  obtain ⟨selB, hselB⟩ : ∃ sel, sel = side_regions kFlashBankSize flash kBootSlotB := ⟨_, rfl⟩
  rw [← hselA, ← hselB] at hperm hcalls
  have hcount : selA.length + selB.length ≤ 2 * FLASH_CONFIG_REGIONS_PER_SLOT := by
    have hall := hperm.length_eq
    rw [List.length_append, List.length_range] at hall
    rw [hall]
    exact hlen
  have happly : ∀ side s, owner_block_flash_apply kFlashBankSize (some flash) side owner_lockdown s
      = .ok ((List.range (flash_len flash)).foldl
          (flash_apply_step kFlashBankSize flash side owner_lockdown) s) :=
    fun side s => if_neg (Nat.not_lt.mpr hlen)
  have hpassA := foldl_flash_apply_step kFlashBankSize flash kBootSlotA owner_lockdown
    (List.range (flash_len flash)) ⟨[], 0⟩ hselA (by simp only; omega)
  simp only [Nat.zero_add, Nat.add_zero, List.nil_append] at hpassA
  have hpassB := fun calls => foldl_flash_apply_step kFlashBankSize flash kBootSlotB owner_lockdown
    (List.range (flash_len flash)) ⟨calls, selA.length⟩ hselB hcount
  have hregions := region_calls_regions flash (region_side kFlashBankSize) owner_lockdown
    (selA ++ selB) kRomExtRegions
  refine ⟨_, _, selA ++ selB, (happly _ _).trans (congrArg _ hpassA),
    (happly _ _).trans (congrArg _ (hpassB _)), hperm, hcalls.symm, ?_, ?_, ?_⟩
  · simp only [← hcalls, hregions]
    exact List.nodup_range'
  · intro call hmem
    have hslot : call.region ∈ List.range' kRomExtRegions (selA ++ selB).length := by
      rw [← hregions, hcalls]
      exact List.mem_map_of_mem hmem
    rw [List.mem_range'_1, List.length_append] at hslot
    have hsize : 2 * FLASH_CONFIG_REGIONS_PER_SLOT = 6 := rfl
    have hfirst : kRomExtRegions = 2 := rfl
    omega
  · intro i _ slot hside hpwp
    simp only [region_protect]
    rw [if_pos ⟨hside, hpwp⟩]
    exact ⟨rfl, rfl⟩

end

/-- A configuration with a region in each slot, in the order B, A. -/
def two_region_config : Item where
  data := data_with ((TlvHeader.mk kTlvTagFlashConfig 32 0 0).bytes ++
    [0x20, 0x01, 0x10, 0x00, 0x99, 0x96, 0x99, 0x66, 0x99, 0x09, 0x00, 0x00] ++
    [0x20, 0x00, 0xe0, 0x00, 0x77, 0x87, 0x88, 0x87, 0x88, 0x18, 0x11, 0x11]) (by decide)
  offset := 0

theorem two_regions_protected :
    ∃ sideA both,
      owner_block_flash_apply 256 (some two_region_config) kBootSlotA kBootSlotB ⟨[], 0⟩
          = .ok sideA ∧
        owner_block_flash_apply 256 (some two_region_config) kBootSlotB kBootSlotB sideA
          = .ok both ∧
        (both.calls.map (·.region)).Nodup := by
  obtain ⟨_, sideA, both, _, hA, hB, _, _, hslots, _⟩ :=
    owner_block_flash_protects 256 (by decide) two_region_config kBootSlotB (by decide)
  exact ⟨sideA, both, hA, hB, hslots⟩

/-- The order of the slots decides, not that of the configuration. -/
example :
    (do let sideA ← owner_block_flash_apply 256 (some two_region_config) kBootSlotA kBootSlotB
          ⟨[], 0⟩
        owner_block_flash_apply 256 (some two_region_config) kBootSlotB kBootSlotB sideA).map
      (fun both : Protection => both.calls.map fun call : RegionProtect =>
        (call.region, call.page_offset))
      = .ok [(2, 32), (3, 288)] := by decide

/-- `Ownership.owner_block_flash_apply` is what the boot flow sees of it. -/
theorem flash_apply_status (kFlashBankSize : u32) (flash : Option Item)
    (hlength : ∀ item ∈ flash, 8 ≤ item.length) (config_side owner_lockdown : u32)
    (s : Protection) :
    (owner_block_flash_apply kFlashBankSize flash config_side owner_lockdown s).map (fun _ => ())
      = Ownership.owner_block_flash_apply flash := by
  cases flash with
  | none => rfl
  | some flash =>
      simp only [owner_block_flash_apply, Ownership.owner_block_flash_apply,
        flash_len_eq (hlength flash rfl)]
      split_ifs <;> rfl

end IbexFirmware.OwnerFlash
