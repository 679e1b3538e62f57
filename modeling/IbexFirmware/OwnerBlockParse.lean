/-
Parsing an owner block (`owner_block.c`), and how well the test parse predicts the
real one.

`owner_block_parse` walks the tagged items of the data region. The walk itself, which
items there are and whether the lengths are right, does not depend on the mode: it
is `owner_items`, and `parse_loop_eq_foldlM` says that the source's loop is that walk
with `parse_item` folded over it. What is done with an item does depend on the mode.
The test parse checks its contents, the real one stores a pointer to it and, for the
four kinds that may occur once, refuses a second one. So the two disagree exactly on
blocks that pass every check and hold such an item twice.
-/
import IbexFirmware.Lib.Checks
import IbexFirmware.OwnerBlock

set_option autoImplicit false

namespace IbexFirmware.OwnerBlock

open Bytes Checks RomError

/-! ## Items -/

/-- A pointer into the data region of a block. -/
structure Item where
  data : Vector u8 kOwnerDataSize
  offset : ℕ
  deriving DecidableEq

namespace Item

def u8At (item : Item) (i : ℕ) : u8 := item.data[item.offset + i]?.getD 0

def u16At (item : Item) (i : ℕ) : u16 :=
  (item.u8At i).setWidth 16 ||| (item.u8At (i + 1)).setWidth 16 <<< 8

def u32At (item : Item) (i : ℕ) : u32 :=
  word (item.u8At i) (item.u8At (i + 1)) (item.u8At (i + 2)) (item.u8At (i + 3))

/-- The fields of `tlv_header_t`. -/
def tag (item : Item) : u32 := item.u32At 0
def length (item : Item) : ℕ := (item.u16At 4).toNat
def version_major (item : Item) : u8 := item.u8At 6

end Item

/-! ## The contents of an item -/

def is_owner_page (page : u8) : Bool := 5 ≤ page ∧ page ≤ 8

/-- `CHIP_ROM_EXT_SIZE_MAX / FLASH_CTRL_PARAM_BYTES_PER_PAGE`. -/
def kRomExtSizeInPages : u32 := 0x10000 / 2048

def kRomExtRegions : ℕ := 2
def kProtectSlots : ℕ := 8
def FLASH_CONFIG_REGIONS_PER_SLOT : ℕ := 3

section

-- `FLASH_CTRL_PARAM_REG_PAGES_PER_BANK`, from the generated register header.
variable (kFlashBankSize : u32)

def rom_ext_flash_overlap (start «end» : u32) : Bool :=
  (start < kRomExtSizeInPages ∧ «end» > 0) ∨
    (start < kFlashBankSize + kRomExtSizeInPages ∧ «end» > kFlashBankSize)

def in_flash_slot (bank_start start «end» : u32) : Bool :=
  let bank_end := bank_start + kFlashBankSize
  bank_start ≤ start ∧ start < bank_end ∧ bank_start < «end» ∧ «end» ≤ bank_end

def owner_block_application_key_check (key : Item) : Except RomError Unit :=
  if key.length < 48 ∨ key.length > 144 then .error kErrorOwnershipInvalidTagLength
  else if key.u32At 8 = kOwnershipKeyAlgEcdsaP256 ∨ key.u32At 8 = kOwnershipKeyAlgHybridSpxPure ∨
      key.u32At 8 = kOwnershipKeyAlgHybridSpxPrehash then .ok ()
  else .error kErrorOwnershipInvalidAlgorithm

def owner_block_flash_info_check (info : Item) : Except RomError Unit :=
  if info.length < 8 then .error kErrorOwnershipInvalidTagLength
  else if (info.length - 8) % 12 ≠ 0 then .error kErrorOwnershipInvalidTagLength
  else (List.range ((info.length - 8) / 12)).forM fun i =>
    if is_owner_page (info.u8At (8 + 12 * i + 1)) then .ok ()
    else .error kErrorOwnershipBadInfoPage

def owner_block_rescue_check (rescue : Item) : Except RomError Unit :=
  let start : u32 := (rescue.u16At 12).setWidth 32
  let size : u32 := (rescue.u16At 14).setWidth 32
  if rescue.length < 16 then .error kErrorOwnershipInvalidTagLength
  else if start < kRomExtSizeInPages ∨ start + size > kFlashBankSize then
    .error kErrorOwnershipInvalidRescueBounds
  else .ok ()

/-- One iteration of the loop in `owner_block_flash_check`, over the two counters. -/
def flash_region_check (flash : Item) (num : ℕ × ℕ) (i : ℕ) : Except RomError (ℕ × ℕ) :=
  let start : u32 := (flash.u16At (8 + 12 * i)).setWidth 32
  let «end» := start + (flash.u16At (8 + 12 * i + 2)).setWidth 32
  if rom_ext_flash_overlap kFlashBankSize start «end» then .error kErrorOwnershipFlashConfigRomExt
  else if in_flash_slot kFlashBankSize 0 start «end» then
    if num.1 + 1 > FLASH_CONFIG_REGIONS_PER_SLOT then .error kErrorOwnershipFlashConfigSlots
    else .ok (num.1 + 1, num.2)
  else if in_flash_slot kFlashBankSize kFlashBankSize start «end» then
    if num.2 + 1 > FLASH_CONFIG_REGIONS_PER_SLOT then .error kErrorOwnershipFlashConfigSlots
    else .ok (num.1, num.2 + 1)
  else .error kErrorOwnershipFlashConfigBounds

def owner_block_flash_check (flash : Item) : Except RomError Unit :=
  if flash.length < 8 then .error kErrorOwnershipInvalidTagLength
  else if (flash.length - 8) % 12 ≠ 0 then .error kErrorOwnershipInvalidTagLength
  else if (flash.length - 8) / 12 > kProtectSlots - kRomExtRegions then
    .error kErrorOwnershipFlashConfigLength
  else do
    let _ ← (List.range ((flash.length - 8) / 12)).foldlM
      (flash_region_check kFlashBankSize flash) (0, 0)

def owner_isfb_config_check (isfb : Item) : Except RomError Unit :=
  if isfb.length < 44 then .error kErrorOwnershipInvalidTagLength
  else if is_owner_page (isfb.u8At 9) = false then .error kErrorOwnershipISFBPage
  else if isfb.u32At 40 > 256 then .error kErrorOwnershipISFBSize
  else .ok ()

/-! ## The parser -/

/-- `owner_config_t`: a null pointer of the source (`kHardenedBoolFalse` there) is `none`. -/
structure OwnerConfig where
  sram_exec : u32
  flash : Option Item
  info : Option Item
  rescue : Option Item
  isfb : Option Item
  deriving DecidableEq

def owner_config_default : OwnerConfig :=
  ⟨kOwnerSramExecModeDisabledLocked, none, none, none, none⟩

/-- What the parser fills: the configuration and the keyring. -/
structure Parsed where
  config : OwnerConfig
  keyring : List Item
  deriving DecidableEq

/-- The capacity of `owner_application_keyring_t`. -/
def kKeyringSize : ℕ := 16

/-- The branch of an item that may occur once: `current` is what is there already,
`stored` the state with the item stored. -/
def parse_config_item (check_only : Bool) (item : Item) (version_error : RomError)
    (check : Item → Except RomError Unit) (current : Option Item) (st stored : Parsed) :
    Except RomError Parsed :=
  if item.version_major ≠ 0 then .error version_error
  else if check_only then (check item).map fun _ => st
  else if current.isSome then .error kErrorOwnershipDuplicateItem
  else .ok stored

/-- The switch over the tag. Configuring the pins of a rescue trigger is left out. -/
def parse_item (check_only : Bool) (st : Parsed) (item : Item) : Except RomError Parsed :=
  if item.tag = kTlvTagApplicationKey then
    if item.version_major ≠ 0 then .error kErrorOwnershipAPPKVersion
    else if check_only then (owner_block_application_key_check item).map fun _ => st
    else if st.keyring.length < kKeyringSize then
      .ok { st with keyring := st.keyring ++ [item] }
    else .ok st
  else if item.tag = kTlvTagFlashConfig then
    parse_config_item check_only item kErrorOwnershipFLSHVersion
      (owner_block_flash_check kFlashBankSize) st.config.flash st
      { st with config := { st.config with flash := some item } }
  else if item.tag = kTlvTagInfoConfig then
    parse_config_item check_only item kErrorOwnershipINFOVersion
      owner_block_flash_info_check st.config.info st
      { st with config := { st.config with info := some item } }
  else if item.tag = kTlvTagRescueConfig then
    parse_config_item check_only item kErrorOwnershipRESQVersion
      (owner_block_rescue_check kFlashBankSize) st.config.rescue st
      { st with config := { st.config with rescue := some item } }
  else if item.tag = kTlvTagIntegrationSpecificFirmwareBinding then
    parse_config_item check_only item kErrorOwnershipISFBVersion
      owner_isfb_config_check st.config.isfb st
      { st with config := { st.config with isfb := some item } }
  else .error kErrorOwnershipInvalidTag

/-- The length field of an item with `remain` bytes left is wrong. -/
def BadLength (item : Item) (remain : ℕ) : Prop :=
  item.length < 8 ∨ item.length > remain ∨ item.length % 4 ≠ 0

instance (item : Item) (remain : ℕ) : Decidable (BadLength item remain) :=
  inferInstanceAs (Decidable (_ ∨ _))

/-- The loop. Every item takes at least eight bytes, so one unit of fuel for each byte
of the region is more than it uses (`parse_loop_fuel`). -/
def parse_loop (check_only : Bool) (data : Vector u8 kOwnerDataSize) :
    (fuel remain offset : ℕ) → Parsed → Except RomError Parsed
  | 0, _, _, st => .ok st
  | fuel + 1, remain, offset, st =>
      let item : Item := ⟨data, offset⟩
      if remain < 8 ∨ item.tag = kTlvTagNotPresent then .ok st
      else if BadLength item remain then .error kErrorOwnershipInvalidTagLength
      else do
        let st ← parse_item kFlashBankSize check_only st item
        parse_loop check_only data fuel (remain - item.length) (offset + item.length) st

def owner_block_parse (block : OwnerBlock) (check_only : Bool) (st : Parsed) :
    Except RomError Parsed :=
  if block.header.tag ≠ kTlvTagOwner then .error kErrorOwnershipInvalidTag
  else if block.header.length.toNat ≠ kOwnerBlockSize then .error kErrorOwnershipInvalidTagLength
  else if block.header.version_major ≠ 0 then .error kErrorOwnershipOWNRVersion
  else
    let st := if check_only then st
      else { st with config := { owner_config_default with sram_exec := block.sram_exec_mode } }
    parse_loop kFlashBankSize check_only block.data kOwnerDataSize kOwnerDataSize 0 st

/-! ## The walk -/

/-- The items the loop comes to. -/
def items_from (data : Vector u8 kOwnerDataSize) : (fuel remain offset : ℕ) → List Item
  | 0, _, _ => []
  | fuel + 1, remain, offset =>
      let item : Item := ⟨data, offset⟩
      if remain < 8 ∨ item.tag = kTlvTagNotPresent ∨ BadLength item remain then []
      else item :: items_from data fuel (remain - item.length) (offset + item.length)

/-- The items of a block. -/
def owner_items (block : OwnerBlock) : List Item :=
  items_from block.data kOwnerDataSize kOwnerDataSize 0

/-- How the walk ends: at the end of the items, or at a wrong length. -/
def walk_end (data : Vector u8 kOwnerDataSize) : (fuel remain offset : ℕ) → Except RomError Unit
  | 0, _, _ => .ok ()
  | fuel + 1, remain, offset =>
      let item : Item := ⟨data, offset⟩
      if remain < 8 ∨ item.tag = kTlvTagNotPresent then .ok ()
      else if BadLength item remain then .error kErrorOwnershipInvalidTagLength
      else walk_end data fuel (remain - item.length) (offset + item.length)

/-- The loop is the walk with `parse_item` folded over it. -/
theorem parse_loop_eq_foldlM (check_only : Bool) (data : Vector u8 kOwnerDataSize)
    (fuel remain offset : ℕ) (st : Parsed) :
    parse_loop kFlashBankSize check_only data fuel remain offset st =
      (do let st ← (items_from data fuel remain offset).foldlM
            (parse_item kFlashBankSize check_only) st
          walk_end data fuel remain offset
          return st) := by
  induction fuel generalizing remain offset st with
  | zero => rfl
  | succ fuel ih =>
      rw [parse_loop, items_from, walk_end]
      by_cases hstop : remain < 8 ∨ Item.tag ⟨data, offset⟩ = kTlvTagNotPresent
      · rw [if_pos hstop, if_pos (by tauto), if_pos hstop]
        rfl
      · by_cases hbad : BadLength ⟨data, offset⟩ remain
        · rw [if_neg hstop, if_pos hbad, if_pos (by tauto), if_neg hstop, if_pos hbad]
          rfl
        · rw [if_neg hstop, if_neg hbad, if_neg (by tauto), if_neg hstop, if_neg hbad,
            List.foldlM_cons, bind_assoc]
          exact bind_congr fun st => ih _ _ st

/-- More fuel than eight-byte steps changes nothing. -/
theorem parse_loop_fuel (check_only : Bool) (data : Vector u8 kOwnerDataSize)
    (fuel extra remain offset : ℕ) (st : Parsed) (hfuel : remain < 8 * fuel) :
    parse_loop kFlashBankSize check_only data (fuel + extra) remain offset st
      = parse_loop kFlashBankSize check_only data fuel remain offset st := by
  induction fuel generalizing remain offset st with
  | zero => omega
  | succ fuel ih =>
      rw [Nat.add_right_comm]
      simp only [parse_loop]
      by_cases hstop : remain < 8 ∨ Item.tag ⟨data, offset⟩ = kTlvTagNotPresent
      · rw [if_pos hstop, if_pos hstop]
      · by_cases hbad : BadLength ⟨data, offset⟩ remain
        · rw [if_neg hstop, if_pos hbad, if_neg hstop, if_pos hbad]
        · rw [if_neg hstop, if_neg hbad, if_neg hstop, if_neg hbad]
          refine bind_congr fun st => ih _ _ st ?_
          simp only [BadLength, not_or, not_lt] at hbad hstop
          omega

/-! ## The two modes -/

/-- What the configuration holds for a tag of the kinds that may occur once. -/
def config_item (config : OwnerConfig) (tag : u32) : Option Item :=
  if tag = kTlvTagFlashConfig then config.flash
  else if tag = kTlvTagInfoConfig then config.info
  else if tag = kTlvTagRescueConfig then config.rescue
  else if tag = kTlvTagIntegrationSpecificFirmwareBinding then config.isfb
  else none

def kConfigTags : List u32 :=
  [kTlvTagFlashConfig, kTlvTagInfoConfig, kTlvTagRescueConfig,
    kTlvTagIntegrationSpecificFirmwareBinding]

/-- A branch the test parse gets through leaves the real one only the duplicate to
complain about. -/
theorem parse_config_item_of_checked {item : Item} {version_error : RomError}
    {check : Item → Except RomError Unit} {current0 : Option Item} {st0 stored0 st1 : Parsed}
    (hcheck : parse_config_item true item version_error check current0 st0 stored0 = .ok st1)
    (current : Option Item) (st stored : Parsed) :
    st1 = st0 ∧ parse_config_item false item version_error check current st stored =
      if current.isSome then .error kErrorOwnershipDuplicateItem else .ok stored := by
  simp only [parse_config_item] at hcheck ⊢
  obtain ⟨hversion, hcheck⟩ := ok_of_error hcheck
  rw [if_neg hversion]
  obtain ⟨_, -, rfl⟩ := ok_of_map hcheck
  exact ⟨rfl, by simp⟩

/-- What the real parse makes of an item, as far as the kinds that may occur once go. -/
def Stored (st st' : Parsed) (item : Item) : Prop :=
  ∀ tag ∈ kConfigTags, (config_item st'.config tag).isSome =
    (decide (item.tag = tag) || (config_item st.config tag).isSome)

theorem branch_of_checked {item : Item} {version_error : RomError}
    {check : Item → Except RomError Unit} {current0 current : Option Item}
    {st0 stored0 st1 st stored : Parsed}
    (hcheck : parse_config_item true item version_error check current0 st0 stored0 = .ok st1)
    (hcurrent : config_item st.config item.tag = current) (hstored : Stored st stored item) :
    st1 = st0 ∧
      if (config_item st.config item.tag).isSome then
        parse_config_item false item version_error check current st stored
          = .error kErrorOwnershipDuplicateItem
      else ∃ st', parse_config_item false item version_error check current st stored = .ok st' ∧
        Stored st st' item := by
  obtain ⟨hst, hreal⟩ := parse_config_item_of_checked hcheck current st stored
  refine ⟨hst, ?_⟩
  rw [hcurrent, hreal]
  split_ifs
  · rfl
  · exact ⟨stored, rfl, hstored⟩

/-- An item the test parse accepts is accepted by the real one unless its kind is there
already, and then its kind is there. -/
theorem parse_item_of_checked {item : Item} {st0 st1 : Parsed}
    (hcheck : parse_item kFlashBankSize true st0 item = .ok st1) (st : Parsed) :
    st1 = st0 ∧
      if (config_item st.config item.tag).isSome then
        parse_item kFlashBankSize false st item = .error kErrorOwnershipDuplicateItem
      else ∃ st', parse_item kFlashBankSize false st item = .ok st' ∧ Stored st st' item := by
  -- that the stored pointer is the one of this tag, for each of the four tags in turn
  have htags : ∀ {P : u32 → Prop}, P kTlvTagFlashConfig → P kTlvTagInfoConfig →
      P kTlvTagRescueConfig → P kTlvTagIntegrationSpecificFirmwareBinding →
      ∀ tag ∈ kConfigTags, P tag := by
    intro P h1 h2 h3 h4
    simp only [kConfigTags, List.forall_mem_cons]
    exact ⟨h1, h2, h3, h4, fun _ h => absurd h List.not_mem_nil⟩
  unfold parse_item at hcheck ⊢
  by_cases happ : item.tag = kTlvTagApplicationKey
  · rw [if_pos happ] at hcheck ⊢
    have hkept : ∀ keyring, Stored st { st with keyring := keyring } item := by
      intro keyring
      unfold Stored
      rw [happ]
      exact htags rfl rfl rfl rfl
    obtain ⟨hversion, hcheck⟩ := ok_of_error hcheck
    rw [if_neg hversion]
    obtain ⟨_, -, rfl⟩ := ok_of_map hcheck
    refine ⟨rfl, ?_⟩
    have hnone : config_item st.config item.tag = none := by
      rw [happ]
      rfl
    rw [hnone, if_neg (by simp), if_neg (by simp)]
    split_ifs
    · exact ⟨_, rfl, hkept _⟩
    · exact ⟨_, rfl, hkept st.keyring⟩
  rw [if_neg happ] at hcheck ⊢
  by_cases hflash : item.tag = kTlvTagFlashConfig
  · rw [if_pos hflash] at hcheck ⊢
    refine branch_of_checked hcheck (by rw [hflash]; rfl) ?_
    unfold Stored
    rw [hflash]
    exact htags rfl rfl rfl rfl
  rw [if_neg hflash] at hcheck ⊢
  by_cases hinfo : item.tag = kTlvTagInfoConfig
  · rw [if_pos hinfo] at hcheck ⊢
    refine branch_of_checked hcheck (by rw [hinfo]; rfl) ?_
    unfold Stored
    rw [hinfo]
    exact htags rfl rfl rfl rfl
  rw [if_neg hinfo] at hcheck ⊢
  by_cases hrescue : item.tag = kTlvTagRescueConfig
  · rw [if_pos hrescue] at hcheck ⊢
    refine branch_of_checked hcheck (by rw [hrescue]; rfl) ?_
    unfold Stored
    rw [hrescue]
    exact htags rfl rfl rfl rfl
  rw [if_neg hrescue] at hcheck ⊢
  by_cases hisfb : item.tag = kTlvTagIntegrationSpecificFirmwareBinding
  · rw [if_pos hisfb] at hcheck ⊢
    refine branch_of_checked hcheck (by rw [hisfb]; rfl) ?_
    unfold Stored
    rw [hisfb]
    exact htags rfl rfl rfl rfl
  · rw [if_neg hisfb] at hcheck
    cases hcheck

/-- Over a list of items the test parse accepts, the real parse succeeds exactly when
every kind that may occur once occurs once at most, counting what is there already. -/
theorem foldlM_of_checked (items : List Item) (st0 st1 st : Parsed)
    (hcheck : items.foldlM (parse_item kFlashBankSize true) st0 = .ok st1) :
    (∃ st', items.foldlM (parse_item kFlashBankSize false) st = .ok st') ↔
      ∀ tag ∈ kConfigTags, items.countP (·.tag = tag) +
        (config_item st.config tag).isSome.toNat ≤ 1 := by
  induction items generalizing st0 st with
  | nil =>
      refine iff_of_true ⟨st, rfl⟩ fun tag _ => ?_
      rw [List.countP_nil, Nat.zero_add]
      exact Bool.toNat_le _
  | cons item items ih =>
      rw [List.foldlM_cons] at hcheck ⊢
      obtain ⟨st2, hitem, hrest⟩ := ok_of_bind hcheck
      obtain ⟨rfl, hreal⟩ := parse_item_of_checked kFlashBankSize hitem st
      by_cases hthere : (config_item st.config item.tag).isSome
      · rw [if_pos hthere] at hreal
        rw [hreal]
        refine iff_of_false (fun ⟨st', h⟩ => by cases h) fun hcount => ?_
        have hmem : item.tag ∈ kConfigTags := by
          by_contra hmem
          have hnone : config_item st.config item.tag = none := by
            simp only [kConfigTags, List.mem_cons, List.not_mem_nil, or_false, not_or] at hmem
            obtain ⟨h1, h2, h3, h4⟩ := hmem
            rw [config_item, if_neg h1, if_neg h2, if_neg h3, if_neg h4]
          rw [hnone] at hthere
          cases hthere
        have hone := hcount item.tag hmem
        rw [List.countP_cons_of_pos (by simp), hthere, Bool.toNat_true] at hone
        omega
      · rw [if_neg hthere] at hreal
        obtain ⟨st', hst', hstored⟩ := hreal
        rw [hst']
        refine (ih st2 st' hrest).trans (forall₂_congr fun tag hmem => ?_)
        rw [hstored tag hmem]
        by_cases htag : item.tag = tag
        · subst htag
          rw [List.countP_cons_of_pos (by simp)]
          simp only [decide_true, Bool.true_or, Bool.toNat_true, hthere, Bool.toNat_false,
            Nat.add_zero]
        · rw [List.countP_cons_of_neg (by simpa using htag)]
          simp only [htag, decide_false, Bool.false_or]

/-- No kind of configuration item occurs twice in the block. -/
def NoDuplicateConfig (block : OwnerBlock) : Prop :=
  ∀ tag ∈ kConfigTags, (owner_items block).countP (·.tag = tag) ≤ 1

instance (block : OwnerBlock) : Decidable (NoDuplicateConfig block) :=
  List.decidableBAll (fun tag => (owner_items block).countP (·.tag = tag) ≤ 1) kConfigTags

/-- A block that passes the test parse parses into a fresh configuration if and only if
no kind of configuration item occurs twice in it. -/
theorem parse_of_check_only_iff (block : OwnerBlock) (st0 : Parsed)
    (hcheck : ∃ st1, owner_block_parse kFlashBankSize block true st0 = .ok st1) :
    (∃ st', owner_block_parse kFlashBankSize block false ⟨owner_config_default, []⟩ = .ok st') ↔
      NoDuplicateConfig block := by
  obtain ⟨st1, hcheck⟩ := hcheck
  unfold owner_block_parse at hcheck ⊢
  obtain ⟨htag, hcheck⟩ := ok_of_error hcheck
  obtain ⟨hlen, hcheck⟩ := ok_of_error hcheck
  obtain ⟨hversion, hcheck⟩ := ok_of_error hcheck
  rw [if_neg htag, if_neg hlen, if_neg hversion]
  simp only [if_true, Bool.false_eq_true, if_false, parse_loop_eq_foldlM] at hcheck ⊢
  obtain ⟨st2, hfold, hcheck⟩ := ok_of_bind hcheck
  obtain ⟨_, hend, -⟩ := ok_of_bind hcheck
  set fresh : Parsed := { config := { owner_config_default with
    sram_exec := block.sram_exec_mode }, keyring := [] } with hfresh
  have hreal := foldlM_of_checked kFlashBankSize _ st0 st2 fresh hfold
  have hnone : ∀ tag ∈ kConfigTags, (config_item fresh.config tag).isSome.toNat = 0 := by
    simp only [kConfigTags, List.forall_mem_cons]
    exact ⟨rfl, rfl, rfl, rfl, fun _ h => absurd h List.not_mem_nil⟩
  rw [hend]
  refine Iff.trans ?_ (hreal.trans (forall₂_congr fun tag hmem => ?_))
  · refine exists_congr fun st' => ?_
    cases (items_from block.data kOwnerDataSize kOwnerDataSize 0).foldlM
      (parse_item kFlashBankSize false) fresh with
    | ok st => rfl
    | error e => rfl
  · rw [hnone tag hmem, Nat.add_zero]
    rfl

end

/-- A data region that starts with `items` and has nothing behind them. -/
def data_with (items : List u8) (h : items.length ≤ kOwnerDataSize) : Vector u8 kOwnerDataSize :=
  ⟨(items ++ List.replicate (kOwnerDataSize - items.length) 0x5a).toArray, by simp; omega⟩

/-- A flash configuration without regions. -/
def empty_flash_config : List u8 := (TlvHeader.mk kTlvTagFlashConfig 8 0 0).bytes

/-- An owner block with `n` flash configurations without regions. -/
def block_with_flash_configs (n : ℕ) (h : n < 192) : OwnerBlock :=
  { OwnerBlock.filled 0 with
    header := ⟨kTlvTagOwner, 2048, 0, 0⟩
    data := data_with (List.replicate n empty_flash_config).flatten (by
      simp [empty_flash_config, TlvHeader.bytes, kOwnerDataSize]
      omega) }

theorem parse_one_flash_config :
    ∃ st', owner_block_parse 256 (block_with_flash_configs 1 (by decide)) false
      ⟨owner_config_default, []⟩ = .ok st' :=
  (parse_of_check_only_iff 256 (block_with_flash_configs 1 (by decide)) ⟨owner_config_default, []⟩
    ⟨⟨owner_config_default, []⟩, by decide⟩).mpr (by decide)

/-- Two flash configurations pass the test parse, and the real one refuses the second. -/
theorem parse_two_flash_configs :
    owner_block_parse 256 (block_with_flash_configs 2 (by decide)) true ⟨owner_config_default, []⟩
        = .ok ⟨owner_config_default, []⟩ ∧
      owner_block_parse 256 (block_with_flash_configs 2 (by decide)) false
        ⟨owner_config_default, []⟩ = .error kErrorOwnershipDuplicateItem := by
  decide

end IbexFirmware.OwnerBlock
