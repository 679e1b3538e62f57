/-
Who reads what of an owner block once it has been accepted.

The items of a block have declared lengths, and the test parse has a rule for each kind of
item. Later the items are read through the pointers that the real parse stores, and each
consumer has its own idea of how much there is: the regions, pages and commands are as many
as the length says, the configuration for firmware binding is a fixed structure, and an
application key is as long as its algorithm needs. Here the consumers record what they
read. For all but the last of them the rule of the test parse is enough
(`parsed_reads_in_bounds_iff`).
-/
import IbexFirmware.Isfb
import IbexFirmware.Lib.Reading
import IbexFirmware.OwnerFlash
import IbexFirmware.OwnerVerify
import IbexFirmware.Rescue

set_option autoImplicit false

namespace IbexFirmware.OwnerReads

open Bytes Checks OwnerBlock OwnerFlash Reading RomError

/-! ## Accesses -/

/-- A byte behind a pointer to an item. -/
structure Access where
  item : Item
  byte : ℕ
  deriving DecidableEq

/-- It is one of the item, by the length that the item declares, and one of the block. -/
def InBounds (access : Access) : Prop :=
  access.byte < access.item.length ∧ access.item.offset + access.byte < kOwnerDataSize

instance : DecidablePred InBounds := fun _ => inferInstanceAs (Decidable (_ ∧ _))

def read8 (item : Item) (i : ℕ) : Reading Access u8 := ⟨item.u8At i, [⟨item, i⟩]⟩

def read16 (item : Item) (i : ℕ) : Reading Access u16 :=
  ⟨item.u16At i, (List.range 2).map fun k => ⟨item, i + k⟩⟩

def read32 (item : Item) (i : ℕ) : Reading Access u32 :=
  ⟨item.u32At i, (List.range 4).map fun k => ⟨item, i + k⟩⟩

@[simp] theorem value_read8 (item : Item) (i : ℕ) : (read8 item i).value = item.u8At i := rfl
@[simp] theorem value_read16 (item : Item) (i : ℕ) : (read16 item i).value = item.u16At i := rfl
@[simp] theorem value_read32 (item : Item) (i : ℕ) : (read32 item i).value = item.u32At i := rfl

section

variable {item : Item}

theorem within_read8 (hfits : item.offset + item.length ≤ kOwnerDataSize) {i : ℕ}
    (hi : i < item.length) : Within InBounds (read8 item i) := by
  intro access hmem
  rw [List.mem_singleton.mp hmem]
  exact ⟨hi, by simp only; omega⟩

theorem within_read16 (hfits : item.offset + item.length ≤ kOwnerDataSize) {i : ℕ}
    (hi : i + 2 ≤ item.length) : Within InBounds (read16 item i) := by
  intro access hmem
  obtain ⟨k, hk, rfl⟩ := List.mem_map.mp hmem
  rw [List.mem_range] at hk
  exact ⟨by simp only; omega, by simp only; omega⟩

theorem within_read32 (hfits : item.offset + item.length ≤ kOwnerDataSize) {i : ℕ}
    (hi : i + 4 ≤ item.length) : Within InBounds (read32 item i) := by
  intro access hmem
  obtain ⟨k, hk, rfl⟩ := List.mem_map.mp hmem
  rw [List.mem_range] at hk
  exact ⟨by simp only; omega, by simp only; omega⟩

/-- The last byte of a word is in bounds only if the word is. -/
theorem length_of_within_read32 {i : ℕ} (hread : Within InBounds (read32 item i)) :
    i + 4 ≤ item.length := by
  have hlast : i + 3 < item.length :=
    (hread ⟨item, i + 3⟩ (List.mem_map.mpr ⟨3, by decide, rfl⟩)).1
  omega

end

/-! ## The keyring -/

/-- The ID that a key is looked for by. -/
def key_id_of (key : Item) : Reading Access u32 := do
  let id ← read32 key 48
  let key_alg ← read32 key 8
  if key_alg &&& kOwnershipKeyAlgCategoryMask = kOwnershipKeyAlgCategoryHybrid then do
    -- The ID of a hybrid key is the exclusive or of the IDs of each key.
    let spx_id ← read32 key 112
    pure (id ^^^ spx_id)
  else pure id

/-- The loop of `owner_keyring_find_key`, from the key with the index `i` on. -/
def find_key_from (key_id : u32) : ℕ → List Item → Reading Access (Except RomError ℕ)
  | _, [] => pure (.error kErrorOwnershipKeyNotFound)
  | i, key :: keys => do
      let id ← key_id_of key
      if id = key_id then pure (.ok i) else find_key_from key_id (i + 1) keys

def owner_keyring_find_key (keyring : List Item) (key_id : u32) :
    Reading Access (Except RomError ℕ) :=
  find_key_from key_id 0 (keyring.take kKeyringSize)

/-- The words of the key data that an algorithm needs: those of the ECDSA key, and those of
the SPHINCS+ key, which is behind the other one in a hybrid key. -/
def key_words (key_alg : u32) : List ℕ :=
  let category := key_alg &&& kOwnershipKeyAlgCategoryMask
  (if category = kOwnershipKeyAlgCategoryEcdsa ∨ category = kOwnershipKeyAlgCategoryHybrid then
      List.range 16 else []) ++
    if category = kOwnershipKeyAlgCategorySpx then List.range 8
    else if category = kOwnershipKeyAlgCategoryHybrid then List.range' 16 8
    else []

/-- What `rom_ext_verify` reads of the key that was found: the algorithm, the domain, the
usage constraint, and the key data for `owner_verify`. -/
def rom_ext_verify_key (key : Item) : Reading Access (u32 × u32 × u32 × List u32) := do
  let key_alg ← read32 key 8
  let key_domain ← read32 key 12
  let usage_constraint ← read32 key 44
  let data ← readAll (fun i => read32 key (48 + 4 * i)) (key_words key_alg)
  pure (key_alg, key_domain, usage_constraint, data)

/-- What `rom_ext_boot` reads of it: the diversifier and the domain. -/
def rom_ext_boot_key (key : Item) : Reading Access (List u32 × u32) := do
  let raw_diversifier ← readAll (fun i => read32 key (12 + 4 * i)) (List.range 8)
  let key_domain ← read32 key 12
  pure (raw_diversifier, key_domain)

/-! ## The configuration -/

def owner_rescue_command_allowed (rescue : Option Item) (command : u32) : Reading Access Bool :=
  match rescue with
  | none => pure true
  | some rescue => do
      let length ← read16 rescue 4
      (List.range ((length.setWidth 32 - 16#32).toNat / 4)).foldlM (fun allowed i => do
        let command_allow ← read32 rescue (16 + 4 * i)
        pure (if command = command_allow then true else allowed)) false

/-- The number of regions or info pages in an item of the length. -/
def entry_count (length : u16) : ℕ := (length.setWidth 32 - 8#32).toNat / 12

/-- The condition of the loop of `owner_block_flash_apply`. -/
def read_in_config_side (kFlashBankSize : u32) (flash : Item) (config_side : u32) (i : ℕ) :
    Reading Access Bool := do
  let start ← read16 flash (8 + 12 * i)
  if slot_start kFlashBankSize config_side ≤ start.setWidth 32 then do
    let size ← read16 flash (8 + 12 * i + 2)
    pure (decide (start.setWidth 32 + size.setWidth 32 ≤ slot_end kFlashBankSize config_side))
  else pure false

/-- One iteration of the loop. -/
def flash_apply_step (kFlashBankSize : u32) (flash : Item) (config_side owner_lockdown : u32)
    (s : Protection) (i : ℕ) : Reading Access Protection := do
  let inside ← read_in_config_side kFlashBankSize flash config_side i
  if inside then do
    let properties ← read32 flash (8 + 12 * i + 8)
    let access ← read32 flash (8 + 12 * i + 4)
    if s.mp_index < 2 * FLASH_CONFIG_REGIONS_PER_SLOT then do
      let start ← read16 flash (8 + 12 * i)
      let size ← read16 flash (8 + 12 * i + 2)
      pure ⟨s.calls ++ [region_protect ⟨start, size, access, properties⟩ (crypt i) config_side
        owner_lockdown (kRomExtRegions + s.mp_index)], s.mp_index + 1⟩
    else pure ⟨s.calls, s.mp_index + 1⟩
  else pure s

def owner_block_flash_apply (kFlashBankSize : u32) (flash : Option Item)
    (config_side owner_lockdown : u32) (s : Protection) :
    Reading Access (Except RomError Protection) :=
  match flash with
  | none => pure (.ok s)
  | some flash => do
      let length ← read16 flash 4
      if entry_count length > kProtectSlots - kRomExtRegions then
        pure (.error kErrorOwnershipFlashConfigLength)
      else do
        let s ← (List.range (entry_count length)).foldlM
          (flash_apply_step kFlashBankSize flash config_side owner_lockdown) s
        pure (.ok s)

/-- The calls of `flash_ctrl_info_cfg_set` and `flash_ctrl_info_perms_set` for a page. -/
structure InfoPageSet where
  page : Isfb.InfoPage
  cfg : FlashCtrlCfg
  perms : FlashCtrlPerms

/-- The loop of `owner_block_info_apply`. `none` is a trap on a page that there is not. -/
def info_apply_loop (flash_ctrl : Isfb.InfoFlash) (info : Item) :
    List ℕ → List InfoPageSet → Reading Access (Option (List InfoPageSet))
  | [], calls => pure (some calls)
  | i :: is, calls => do
      let config := 8 + 12 * i
      let bank ← read8 info config
      let page ← read8 info (config + 1)
      if is_owner_page page then do
        match Isfb.flash_ctrl_info_type0_params_build flash_ctrl bank page with
        | none => pure none
        | some info_page => do
            let properties ← read32 info (config + 8)
            let val := properties ^^^ crypt i
            let cfg : FlashCtrlCfg :=
              { scrambling := FLASH_CONFIG_SCRAMBLE val
                ecc := FLASH_CONFIG_ECC val
                he := FLASH_CONFIG_HIGH_ENDURANCE val }
            let access ← read32 info (config + 4)
            let val := access ^^^ crypt i
            let perm : FlashCtrlPerms :=
              { read := FLASH_CONFIG_READ val
                write := FLASH_CONFIG_PROGRAM val
                erase := FLASH_CONFIG_ERASE val }
            info_apply_loop flash_ctrl info is (calls ++ [⟨info_page, cfg, perm⟩])
      else info_apply_loop flash_ctrl info is calls

def owner_block_info_apply (flash_ctrl : Isfb.InfoFlash) (info : Option Item) :
    Reading Access (Option (List InfoPageSet)) :=
  match info with
  | none => pure (some [])
  | some info => do
      let length ← read16 info 4
      info_apply_loop flash_ctrl info (List.range (entry_count length)) []

def isfb_boot_request_process (flash_ctrl : Isfb.InfoFlash) (ext : Isfb.ManifestExtIsfb)
    (owner_config : OwnerConfig) : Reading Access Isfb.Result :=
  match owner_config.isfb with
  | none => pure (some (kErrorOwnershipISFBNotPresent, Isfb.UINT32_MAX))
  | some isfb => do
      if ext.name ≠ Isfb.kManifestExtIdIsfb then
        pure (some (kErrorOwnershipISFBNotPresent, Isfb.UINT32_MAX))
      else do
        let product_words ← read32 isfb 40
        if ext.product_expr_count * 2 > product_words ∨
            ext.product_expr_count.toNat > Isfb.kProductExprMaxCount then
          pure (some (kErrorOwnershipISFBProductExpCnt, Isfb.UINT32_MAX))
        else do
          let bank ← read8 isfb 8
          let page ← read8 isfb 9
          pure ((Isfb.flash_ctrl_info_type0_params_build flash_ctrl bank page).bind fun info_page =>
            Isfb.isfb_strike_check flash_ctrl ext info_page)

/-! ## The readings compute what the functions do

The modules of the functions have the results without the accesses. -/

theorem value_owner_rescue_command_allowed (rescue : Option Item) (command : u32) :
    (owner_rescue_command_allowed rescue command).value =
      Rescue.owner_rescue_command_allowed rescue command := by
  cases rescue with
  | none => rfl
  | some rescue =>
      have hlength : (rescue.u16At 4).setWidth 32 = BitVec.ofNat 32 rescue.length := by
        rw [Item.length, BitVec.ofNat_toNat]
      have hfold : ∀ (is : List ℕ) (allowed : Bool),
          is.foldl (fun allowed i =>
              if command = rescue.u32At (16 + 4 * i) then true else allowed) allowed =
            (allowed || is.any fun i => rescue.u32At (16 + 4 * i) = command) := by
        intro is
        induction is with
        | nil => intro allowed; simp
        | cons i is ih =>
            intro allowed
            rw [List.foldl_cons, ih, List.any_cons]
            by_cases heq : command = rescue.u32At (16 + 4 * i)
            · simp [heq]
            · simp [heq, Ne.symm heq]
      simp only [owner_rescue_command_allowed, Rescue.owner_rescue_command_allowed, value_bind,
        value_read16, value_foldlM, value_read32, value_pure, hlength, Rescue.command_allow_length]
      exact (hfold _ _).trans (Bool.false_or _)

theorem value_flash_apply_step (kFlashBankSize : u32) (flash : Item)
    (config_side owner_lockdown : u32) (s : Protection) (i : ℕ) :
    (flash_apply_step kFlashBankSize flash config_side owner_lockdown s i).value =
      OwnerFlash.flash_apply_step kFlashBankSize flash config_side owner_lockdown s i := by
  simp only [flash_apply_step, read_in_config_side, OwnerFlash.flash_apply_step, in_config_side,
    value_bind, value_read16]
  by_cases hstart : slot_start kFlashBankSize config_side ≤
      ((flash.u16At (8 + 12 * i)).setWidth 32 : u32)
  · by_cases hend : ((flash.u16At (8 + 12 * i)).setWidth 32 +
        (flash.u16At (8 + 12 * i + 2)).setWidth 32 : u32) ≤ slot_end kFlashBankSize config_side
    · by_cases hroom : s.mp_index < 2 * FLASH_CONFIG_REGIONS_PER_SLOT
      · simp [flash_region, hstart, hend, hroom]
      · simp [flash_region, hstart, hend, hroom]
    · simp [flash_region, hstart, hend]
  · simp [flash_region, hstart]

theorem value_owner_block_flash_apply (kFlashBankSize : u32) (flash : Option Item)
    (config_side owner_lockdown : u32) (s : Protection) :
    (owner_block_flash_apply kFlashBankSize flash config_side owner_lockdown s).value =
      OwnerFlash.owner_block_flash_apply kFlashBankSize flash config_side owner_lockdown s := by
  cases flash with
  | none => rfl
  | some flash =>
      have hlen : flash_len flash = entry_count (flash.u16At 4) := by
        rw [flash_len, Item.length, entry_count, BitVec.ofNat_toNat]
      simp only [owner_block_flash_apply, OwnerFlash.owner_block_flash_apply]
      rw [hlen, value_bind, value_read16, value_ite]
      by_cases hmany : entry_count (flash.u16At 4) > kProtectSlots - kRomExtRegions
      · rw [if_pos hmany, if_pos hmany, value_pure]
      · rw [if_neg hmany, if_neg hmany, value_bind, value_foldlM, value_pure]
        simp only [value_flash_apply_step]

theorem value_isfb_boot_request_process (flash_ctrl : Isfb.InfoFlash) (ext : Isfb.ManifestExtIsfb)
    (owner_config : OwnerConfig) :
    (isfb_boot_request_process flash_ctrl ext owner_config).value =
      Isfb.isfb_boot_request_process flash_ctrl ext owner_config := by
  unfold isfb_boot_request_process Isfb.isfb_boot_request_process
  cases owner_config.isfb with
  | none => rfl
  | some isfb =>
      rw [value_ite, value_bind, value_ite]
      rfl

/-- `owner_verify` uses no other words of the key. -/
theorem owner_verify_congr (b : OwnerVerify.Backends) (key_alg : u32) (key key' : OwnerKeydata)
    (hwords : ∀ i : Fin 24, i.val ∈ key_words key_alg → key.raw[i] = key'.raw[i])
    (ecdsa_sig : Option OwnerVerify.EcdsaSignature) (spx_sig : Option OwnerVerify.SpxSignature)
    (m : OwnerVerify.Message) (flash_exec : Option u32) :
    OwnerVerify.owner_verify b key_alg key ecdsa_sig spx_sig m flash_exec =
      OwnerVerify.owner_verify b key_alg key' ecdsa_sig spx_sig m flash_exec := by
  have hecdsa : key_alg &&& kOwnershipKeyAlgCategoryMask = kOwnershipKeyAlgCategoryEcdsa ∨
      key_alg &&& kOwnershipKeyAlgCategoryMask = kOwnershipKeyAlgCategoryHybrid →
      OwnerVerify.keydata_ecdsa key = OwnerVerify.keydata_ecdsa key' := by
    intro hcategory
    have hmem : ∀ i < 16, i ∈ key_words key_alg := by
      intro i hi
      rw [key_words, if_pos hcategory]
      exact List.mem_append_left _ (List.mem_range.mpr hi)
    refine congrArg₂ OwnerVerify.EcdsaKey.mk ?_ ?_
    · exact Vector.ext fun i hi => by
        simpa using hwords ⟨i, by omega⟩ (hmem i (by omega))
    · exact Vector.ext fun i hi => by
        simpa using hwords ⟨8 + i, by omega⟩ (hmem (8 + i) (by omega))
  have hspx : key_alg &&& kOwnershipKeyAlgCategoryMask = kOwnershipKeyAlgCategorySpx →
      OwnerVerify.keydata_spx key = OwnerVerify.keydata_spx key' := by
    intro hcategory
    refine congrArg OwnerVerify.SpxKey.mk (Vector.ext fun i hi => ?_)
    have hmem : i ∈ key_words key_alg := by
      simp only [key_words]
      rw [if_pos hcategory]
      exact List.mem_append_right _ (List.mem_range.mpr hi)
    simpa using hwords ⟨i, by omega⟩ hmem
  have hhybrid : key_alg &&& kOwnershipKeyAlgCategoryMask = kOwnershipKeyAlgCategoryHybrid →
      OwnerVerify.keydata_hybrid_spx key = OwnerVerify.keydata_hybrid_spx key' := by
    intro hcategory
    refine congrArg OwnerVerify.SpxKey.mk (Vector.ext fun i hi => ?_)
    have hmem : 16 + i ∈ key_words key_alg := by
      simp only [key_words]
      rw [hcategory]
      refine List.mem_append_right _ ?_
      rw [if_neg (by decide), if_pos rfl]
      exact List.mem_range'_1.mpr (by omega)
    simpa using hwords ⟨16 + i, by omega⟩ hmem
  simp only [OwnerVerify.owner_verify, OwnerVerify.keydata_hybrid_ecdsa]
  by_cases hH : key_alg &&& kOwnershipKeyAlgCategoryMask = kOwnershipKeyAlgCategoryHybrid
  · simp only [hH, if_true, hecdsa (.inr hH), hhybrid hH]
  by_cases hE : key_alg &&& kOwnershipKeyAlgCategoryMask = kOwnershipKeyAlgCategoryEcdsa
  · have hS : ¬ key_alg &&& kOwnershipKeyAlgCategoryMask = kOwnershipKeyAlgCategorySpx := by
      rw [hE]
      decide
    simp only [hH, hS, if_false, or_self, hecdsa (.inl hE)]
  by_cases hS : key_alg &&& kOwnershipKeyAlgCategoryMask = kOwnershipKeyAlgCategorySpx
  · simp only [hH, hE, if_false, or_self, hspx hS]
  · simp only [hH, hE, hS, if_false, or_self]

/-! ## What the test parse leaves -/

/-- An item of the block that has passed its check. -/
structure Accepted (check : Item → Except RomError Unit) (item : Item) : Prop where
  fits : item.offset + item.length ≤ kOwnerDataSize
  checked : check item = .ok ()

/-- Everything that has been stored is accepted. -/
structure ParsedAccepted (kFlashBankSize : u32) (st : Parsed) : Prop where
  keyring : ∀ key ∈ st.keyring, Accepted owner_block_application_key_check key
  flash : ∀ item ∈ st.config.flash, Accepted (owner_block_flash_check kFlashBankSize) item
  info : ∀ item ∈ st.config.info, Accepted owner_block_flash_info_check item
  rescue : ∀ item ∈ st.config.rescue, Accepted (owner_block_rescue_check kFlashBankSize) item
  isfb : ∀ item ∈ st.config.isfb, Accepted owner_isfb_config_check item

/-- The items of the walk are in the data region. -/
theorem fits_of_mem_items_from (data : Vector u8 kOwnerDataSize) (fuel remain offset : ℕ)
    (hregion : offset + remain ≤ kOwnerDataSize) :
    ∀ item ∈ items_from data fuel remain offset, item.offset + item.length ≤ kOwnerDataSize := by
  induction fuel generalizing remain offset with
  | zero =>
      intro item hmem
      cases hmem
  | succ fuel ih =>
      intro item hmem
      rw [items_from] at hmem
      split_ifs at hmem with hstop
      · cases hmem
      · simp only [not_or, BadLength, not_lt] at hstop
        rcases List.mem_cons.mp hmem with rfl | hmem
        · simp only
          omega
        · exact ih _ _ (by omega) item hmem

/-- Where the test parse gets through, the check of the kind has passed, and the real one
stores the item if it gets through as well. -/
theorem stored_of_checked {item : Item} {version_error : RomError}
    {check : Item → Except RomError Unit} {current0 current : Option Item}
    {st0 stored0 st1 st stored st' : Parsed}
    (hcheck : parse_config_item true item version_error check current0 st0 stored0 = .ok st1)
    (hreal : parse_config_item false item version_error check current st stored = .ok st') :
    check item = .ok () ∧ st' = stored := by
  simp only [parse_config_item] at hcheck hreal
  obtain ⟨-, hcheck⟩ := ok_of_error hcheck
  obtain ⟨_, hres, -⟩ := ok_of_map hcheck
  obtain ⟨-, hreal⟩ := ok_of_error hreal
  refine ⟨hres, ?_⟩
  by_cases hthere : current.isSome
  · simp [hthere] at hreal
  · simpa [hthere] using hreal.symm

theorem mem_of_mem_some {item item' : Item} (hmem : item' ∈ some item) : item' = item :=
  (Option.mem_some_iff.mp hmem).symm

section

variable (kFlashBankSize : u32)

/-- One item. The item is stored in the field of its kind or not at all. -/
theorem parse_item_accepted {item : Item} {st0 st1 st st' : Parsed}
    (hfits : item.offset + item.length ≤ kOwnerDataSize)
    (hcheck : parse_item kFlashBankSize true st0 item = .ok st1)
    (hreal : parse_item kFlashBankSize false st item = .ok st')
    (hst : ParsedAccepted kFlashBankSize st) : ParsedAccepted kFlashBankSize st' := by
  unfold parse_item at hcheck hreal
  by_cases happ : item.tag = kTlvTagApplicationKey
  · rw [if_pos happ] at hcheck hreal
    obtain ⟨-, hcheck⟩ := ok_of_error hcheck
    obtain ⟨_, hres, -⟩ := ok_of_map hcheck
    obtain ⟨-, hreal⟩ := ok_of_error hreal
    by_cases hroom : st.keyring.length < kKeyringSize
    · simp only [Bool.false_eq_true, if_false, hroom, if_true, Except.ok.injEq] at hreal
      subst hreal
      refine { hst with keyring := fun key hmem => ?_ }
      rcases List.mem_append.mp hmem with hmem | hmem
      · exact hst.keyring key hmem
      · rw [List.mem_singleton.mp hmem]
        exact ⟨hfits, hres⟩
    · simp only [Bool.false_eq_true, if_false, hroom, Except.ok.injEq] at hreal
      exact hreal ▸ hst
  rw [if_neg happ] at hcheck hreal
  by_cases hflash : item.tag = kTlvTagFlashConfig
  · rw [if_pos hflash] at hcheck hreal
    obtain ⟨hres, rfl⟩ := stored_of_checked hcheck hreal
    exact { hst with flash := fun key hmem => mem_of_mem_some hmem ▸ ⟨hfits, hres⟩ }
  rw [if_neg hflash] at hcheck hreal
  by_cases hinfo : item.tag = kTlvTagInfoConfig
  · rw [if_pos hinfo] at hcheck hreal
    obtain ⟨hres, rfl⟩ := stored_of_checked hcheck hreal
    exact { hst with info := fun key hmem => mem_of_mem_some hmem ▸ ⟨hfits, hres⟩ }
  rw [if_neg hinfo] at hcheck hreal
  by_cases hrescue : item.tag = kTlvTagRescueConfig
  · rw [if_pos hrescue] at hcheck hreal
    obtain ⟨hres, rfl⟩ := stored_of_checked hcheck hreal
    exact { hst with rescue := fun key hmem => mem_of_mem_some hmem ▸ ⟨hfits, hres⟩ }
  rw [if_neg hrescue] at hcheck hreal
  by_cases hisfb : item.tag = kTlvTagIntegrationSpecificFirmwareBinding
  · rw [if_pos hisfb] at hcheck hreal
    obtain ⟨hres, rfl⟩ := stored_of_checked hcheck hreal
    exact { hst with isfb := fun key hmem => mem_of_mem_some hmem ▸ ⟨hfits, hres⟩ }
  · rw [if_neg hisfb] at hcheck
    cases hcheck

theorem foldlM_parse_item_accepted (items : List Item) (st0 st1 st st' : Parsed)
    (hfits : ∀ item ∈ items, item.offset + item.length ≤ kOwnerDataSize)
    (hcheck : items.foldlM (parse_item kFlashBankSize true) st0 = .ok st1)
    (hreal : items.foldlM (parse_item kFlashBankSize false) st = .ok st')
    (hst : ParsedAccepted kFlashBankSize st) : ParsedAccepted kFlashBankSize st' := by
  induction items generalizing st0 st with
  | nil =>
      cases hreal
      exact hst
  | cons item items ih =>
      rw [List.foldlM_cons] at hcheck hreal
      obtain ⟨st0', hitem0, hcheck⟩ := ok_of_bind hcheck
      obtain ⟨st2, hitem, hreal⟩ := ok_of_bind hreal
      exact ih st0' st2 (fun other hmem => hfits other (List.mem_cons_of_mem _ hmem)) hcheck hreal
        (parse_item_accepted kFlashBankSize (hfits item List.mem_cons_self) hitem0 hitem hst)

/-- A parse that gets through has gone through all items of the block. -/
theorem foldlM_of_owner_block_parse (block : OwnerBlock) (check_only : Bool) {st st' : Parsed}
    (hparse : owner_block_parse kFlashBankSize block check_only st = .ok st') :
    (owner_items block).foldlM (parse_item kFlashBankSize check_only)
      (if check_only then st
        else { st with config := { owner_config_default with sram_exec := block.sram_exec_mode } })
      = .ok st' := by
  unfold owner_block_parse at hparse
  obtain ⟨-, hparse⟩ := ok_of_error hparse
  obtain ⟨-, hparse⟩ := ok_of_error hparse
  obtain ⟨-, hparse⟩ := ok_of_error hparse
  simp only [parse_loop_eq_foldlM] at hparse
  obtain ⟨st2, hfold, hparse⟩ := ok_of_bind hparse
  obtain ⟨_, -, hparse⟩ := ok_of_bind hparse
  obtain rfl := Except.ok.inj hparse
  exact hfold

/-- After both parses of a block, everything that is stored is accepted, if the keys in
the keyring before were. -/
theorem owner_block_parse_accepted (block : OwnerBlock) {st0 st1 st st' : Parsed}
    (hcheck : owner_block_parse kFlashBankSize block true st0 = .ok st1)
    (hreal : owner_block_parse kFlashBankSize block false st = .ok st')
    (hkeys : ∀ key ∈ st.keyring, Accepted owner_block_application_key_check key) :
    ParsedAccepted kFlashBankSize st' := by
  have hcheck := foldlM_of_owner_block_parse kFlashBankSize block true hcheck
  have hreal := foldlM_of_owner_block_parse kFlashBankSize block false hreal
  refine foldlM_parse_item_accepted kFlashBankSize (owner_items block) _ st1 _ st' ?_ hcheck hreal ?_
  · exact fits_of_mem_items_from block.data kOwnerDataSize kOwnerDataSize 0 (by omega)
  · -- the real parse starts from a configuration without items
    exact ⟨hkeys, nofun, nofun, nofun, nofun⟩

end

/-! ## What the consumers read -/

theorem entry_count_eq {length : u16} (hlength : 8 ≤ length.toNat) :
    entry_count length = (length.toNat - 8) / 12 := by
  rw [entry_count, BitVec.toNat_sub, BitVec.toNat_setWidth, BitVec.toNat_ofNat]
  omega

/-- The last entry ends before the item does. -/
theorem entry_end_le {item : Item} (hlength : 8 ≤ item.length) {i : ℕ}
    (hi : i < entry_count (item.u16At 4)) : 8 + 12 * i + 12 ≤ item.length := by
  have hcount : entry_count (item.u16At 4) = (item.length - 8) / 12 := entry_count_eq hlength
  omega

section

variable {item : Item} (hfits : item.offset + item.length ≤ kOwnerDataSize)
include hfits

theorem within_flash_apply_step (kFlashBankSize config_side owner_lockdown : u32) (s : Protection)
    {i : ℕ} (hentry : 8 + 12 * i + 12 ≤ item.length) :
    Within InBounds (flash_apply_step kFlashBankSize item config_side owner_lockdown s i) := by
  apply Within.bind
  · refine (within_read16 hfits (by omega)).bind (Within.ite (fun _ => ?_) fun _ => within_pure _)
    exact (within_read16 hfits (by omega)).bind (within_pure _)
  · refine Within.ite (fun _ => ?_) fun _ => within_pure _
    refine (within_read32 hfits (by omega)).bind ((within_read32 hfits (by omega)).bind ?_)
    refine Within.ite (fun _ => ?_) fun _ => within_pure _
    exact (within_read16 hfits (by omega)).bind
      ((within_read16 hfits (by omega)).bind (within_pure _))

theorem within_info_apply_loop (flash_ctrl : Isfb.InfoFlash) (is : List ℕ)
    (hentries : ∀ i ∈ is, 8 + 12 * i + 12 ≤ item.length) (calls : List InfoPageSet) :
    Within InBounds (info_apply_loop flash_ctrl item is calls) := by
  induction is generalizing calls with
  | nil => exact within_pure _
  | cons i is ih =>
      have hentry := hentries i List.mem_cons_self
      have hrest := ih fun j hmem => hentries j (List.mem_cons_of_mem _ hmem)
      refine (within_read8 hfits (by omega)).bind ((within_read8 hfits (by omega)).bind ?_)
      refine Within.ite (fun _ => ?_) fun _ => hrest calls
      cases Isfb.flash_ctrl_info_type0_params_build flash_ctrl (read8 item (8 + 12 * i)).value
          (read8 item (8 + 12 * i + 1)).value with
      | none => exact within_pure _
      | some info_page =>
          refine (within_read32 hfits (by omega)).bind ((within_read32 hfits (by omega)).bind ?_)
          exact hrest _

end

theorem within_owner_block_flash_apply {kFlashBankSize : u32} {flash : Option Item}
    (hflash : ∀ item ∈ flash, Accepted (owner_block_flash_check kFlashBankSize) item)
    (config_side owner_lockdown : u32) (s : Protection) :
    Within InBounds
      (owner_block_flash_apply kFlashBankSize flash config_side owner_lockdown s) := by
  cases flash with
  | none => exact within_pure _
  | some flash =>
      obtain ⟨hfits, hchecked⟩ := hflash flash rfl
      have hlength : 8 ≤ flash.length := by
        by_contra hshort
        rw [owner_block_flash_check, if_pos (by omega)] at hchecked
        cases hchecked
      refine (within_read16 hfits (by omega)).bind ?_
      refine Within.ite (fun _ => within_pure _) fun _ => Within.bind ?_ (within_pure _)
      refine Within.foldlM _ fun i hi s => ?_
      exact within_flash_apply_step hfits _ _ _ _
        (entry_end_le hlength (List.mem_range.mp hi))

theorem within_owner_block_info_apply {info : Option Item}
    (hinfo : ∀ item ∈ info, Accepted owner_block_flash_info_check item)
    (flash_ctrl : Isfb.InfoFlash) :
    Within InBounds (owner_block_info_apply flash_ctrl info) := by
  cases info with
  | none => exact within_pure _
  | some info =>
      obtain ⟨hfits, hchecked⟩ := hinfo info rfl
      have hlength : 8 ≤ info.length := by
        by_contra hshort
        rw [owner_block_flash_info_check, if_pos (by omega)] at hchecked
        cases hchecked
      refine (within_read16 hfits (by omega)).bind ?_
      exact within_info_apply_loop hfits flash_ctrl _
        (fun i hi => entry_end_le hlength (List.mem_range.mp hi)) []

theorem within_owner_rescue_command_allowed {kFlashBankSize : u32} {rescue : Option Item}
    (hrescue : ∀ item ∈ rescue, Accepted (owner_block_rescue_check kFlashBankSize) item)
    (command : u32) : Within InBounds (owner_rescue_command_allowed rescue command) := by
  cases rescue with
  | none => exact within_pure _
  | some rescue =>
      obtain ⟨hfits, hchecked⟩ := hrescue rescue rfl
      have hlength : 16 ≤ rescue.length := by
        by_contra hshort
        simp only [owner_block_rescue_check] at hchecked
        rw [if_pos (by omega)] at hchecked
        cases hchecked
      refine (within_read16 hfits (by omega)).bind (Within.foldlM _ fun i hi allowed => ?_)
      refine (within_read32 hfits ?_).bind (within_pure _)
      rw [Item.length] at hlength ⊢
      rw [List.mem_range, value_read16, BitVec.toNat_sub, BitVec.toNat_setWidth,
        BitVec.toNat_ofNat] at hi
      omega

theorem within_isfb_boot_request_process {config : OwnerConfig}
    (hisfb : ∀ item ∈ config.isfb, Accepted owner_isfb_config_check item)
    (flash_ctrl : Isfb.InfoFlash) (ext : Isfb.ManifestExtIsfb) :
    Within InBounds (isfb_boot_request_process flash_ctrl ext config) := by
  unfold isfb_boot_request_process
  cases hsome : config.isfb with
  | none => exact within_pure _
  | some isfb =>
      obtain ⟨hfits, hchecked⟩ := hisfb isfb hsome
      have hlength : 44 ≤ isfb.length := by
        by_contra hshort
        rw [owner_isfb_config_check, if_pos (by omega)] at hchecked
        cases hchecked
      refine Within.ite (fun _ => within_pure _) fun _ => ?_
      refine (within_read32 hfits (by omega)).bind (Within.ite (fun _ => within_pure _) fun _ => ?_)
      exact (within_read8 hfits (by omega)).bind
        ((within_read8 hfits (by omega)).bind (within_pure _))

/-! ## Application keys -/

def kTlvLenApplicationKeyEcdsa : ℕ := 48 + 64
def kTlvLenApplicationKeyHybrid : ℕ := 48 + (64 + 32)

/-- The length that a key of an accepted algorithm has to have. -/
def application_key_length (key_alg : u32) : ℕ :=
  if key_alg = kOwnershipKeyAlgEcdsaP256 then kTlvLenApplicationKeyEcdsa
  else kTlvLenApplicationKeyHybrid

/-- The declared length covers the key data of the algorithm. -/
def KeyComplete (key : Item) : Prop := application_key_length (key.u32At 8) ≤ key.length

instance : DecidablePred KeyComplete := fun _ => inferInstanceAs (Decidable (_ ≤ _))

/-- What the test parse knows of a key. -/
theorem accepted_key {key : Item} (hkey : Accepted owner_block_application_key_check key) :
    48 ≤ key.length ∧ (key.u32At 8 = kOwnershipKeyAlgEcdsaP256 ∨
      key.u32At 8 = kOwnershipKeyAlgHybridSpxPure ∨
      key.u32At 8 = kOwnershipKeyAlgHybridSpxPrehash) := by
  have hchecked := hkey.checked
  unfold owner_block_application_key_check at hchecked
  obtain ⟨hlength, hchecked⟩ := ok_of_error hchecked
  refine ⟨by omega, ?_⟩
  by_contra halg
  rw [if_neg halg] at hchecked
  cases hchecked

/-- The words of the key data are those up to the length the key has to have. -/
theorem key_words_of_accepted {key : Item}
    (hkey : Accepted owner_block_application_key_check key) :
    key_words (key.u32At 8) = List.range ((application_key_length (key.u32At 8) - 48) / 4) := by
  obtain ⟨_, halg | halg | halg⟩ := accepted_key hkey
  all_goals
    rw [halg]
    decide

theorem application_key_length_aligned (key_alg : u32) :
    ∃ n, 0 < n ∧ application_key_length key_alg = 48 + 4 * n := by
  unfold application_key_length
  split_ifs
  · exact ⟨16, by decide, rfl⟩
  · exact ⟨24, by decide, rfl⟩

/-- Verifying with a key stays in bounds exactly if the key is complete. -/
theorem within_rom_ext_verify_key_iff {key : Item}
    (hkey : Accepted owner_block_application_key_check key) :
    Within InBounds (rom_ext_verify_key key) ↔ KeyComplete key := by
  obtain ⟨hlength, _⟩ := accepted_key hkey
  obtain ⟨n, hpos, hn⟩ := application_key_length_aligned (key.u32At 8)
  have hwords : key_words (key.u32At 8) = List.range n := by
    rw [key_words_of_accepted hkey, hn, Nat.add_sub_cancel_left,
      Nat.mul_div_cancel_left n (by decide)]
  have hfits := hkey.fits
  rw [KeyComplete, hn]
  constructor
  · intro hread
    rw [rom_ext_verify_key, within_bind_iff, within_bind_iff, within_bind_iff, within_bind_iff,
      value_read32, hwords, within_readAll_iff] at hread
    obtain ⟨_, _, _, hdata, _⟩ := hread
    have hlast := length_of_within_read32 (hdata (n - 1) (List.mem_range.mpr (by omega)))
    omega
  · intro hcomplete
    refine (within_read32 hfits (by omega)).bind ((within_read32 hfits (by omega)).bind
      ((within_read32 hfits (by omega)).bind (Within.bind ?_ (within_pure _))))
    rw [value_read32, hwords, within_readAll_iff]
    intro i hi
    rw [List.mem_range] at hi
    exact within_read32 hfits (by omega)

theorem within_rom_ext_boot_key {key : Item}
    (hkey : Accepted owner_block_application_key_check key) :
    Within InBounds (rom_ext_boot_key key) := by
  obtain ⟨hlength, _⟩ := accepted_key hkey
  refine Within.bind ?_ ((within_read32 hkey.fits (by omega)).bind (within_pure _))
  rw [within_readAll_iff]
  intro i hi
  rw [List.mem_range] at hi
  exact within_read32 hkey.fits (by omega)

theorem within_key_id_of {key : Item} (hkey : Accepted owner_block_application_key_check key)
    (hcomplete : KeyComplete key) : Within InBounds (key_id_of key) := by
  have hfits := hkey.fits
  rw [KeyComplete, application_key_length] at hcomplete
  have hecdsa : kTlvLenApplicationKeyEcdsa = 112 := rfl
  have hhybrid : kTlvLenApplicationKeyHybrid = 144 := rfl
  refine (within_read32 hfits (by split_ifs at hcomplete <;> omega)).bind
    ((within_read32 hfits (by split_ifs at hcomplete <;> omega)).bind ?_)
  refine Within.ite (fun hcategory => ?_) fun _ => within_pure _
  rw [value_read32] at hcategory
  -- an ECDSA key is not of the hybrid category
  have halg : key.u32At 8 ≠ kOwnershipKeyAlgEcdsaP256 := by
    intro halg
    rw [halg] at hcategory
    exact absurd hcategory (by decide)
  rw [if_neg halg] at hcomplete
  exact (within_read32 hfits (by omega)).bind (within_pure _)

theorem within_find_key_from (key_id : u32) (keys : List Item) (i : ℕ)
    (hkeys : ∀ key ∈ keys, Accepted owner_block_application_key_check key)
    (hcomplete : ∀ key ∈ keys, KeyComplete key) :
    Within InBounds (find_key_from key_id i keys) := by
  induction keys generalizing i with
  | nil => exact within_pure _
  | cons key keys ih =>
      apply Within.bind
      · exact within_key_id_of (hkeys key List.mem_cons_self) (hcomplete key List.mem_cons_self)
      · refine Within.ite (fun _ => within_pure _) fun _ => ih (i + 1) ?_ ?_
        · exact fun other hmem => hkeys other (List.mem_cons_of_mem key hmem)
        · exact fun other hmem => hcomplete other (List.mem_cons_of_mem key hmem)

/-! ## All of them -/

/-- Whatever is read through the stored pointers is in the bounds of its item. -/
structure ReadsInBounds (kFlashBankSize : u32) (parsed : Parsed) : Prop where
  find_key : ∀ key_id, Within InBounds (owner_keyring_find_key parsed.keyring key_id)
  rescue : ∀ command,
    Within InBounds (owner_rescue_command_allowed parsed.config.rescue command)
  flash : ∀ config_side owner_lockdown s, Within InBounds
    (owner_block_flash_apply kFlashBankSize parsed.config.flash config_side owner_lockdown s)
  info : ∀ flash_ctrl, Within InBounds (owner_block_info_apply flash_ctrl parsed.config.info)
  isfb : ∀ flash_ctrl ext, Within InBounds (isfb_boot_request_process flash_ctrl ext parsed.config)
  verify : ∀ key ∈ parsed.keyring, Within InBounds (rom_ext_verify_key key)
  boot : ∀ key ∈ parsed.keyring, Within InBounds (rom_ext_boot_key key)

/-- After both parses of a block all reads are in bounds if and only if the keys in the
keyring are complete. -/
theorem parsed_reads_in_bounds_iff (kFlashBankSize : u32) (block : OwnerBlock)
    {st0 st1 st st' : Parsed}
    (hcheck : owner_block_parse kFlashBankSize block true st0 = .ok st1)
    (hparse : owner_block_parse kFlashBankSize block false st = .ok st')
    (hkeys : ∀ key ∈ st.keyring, Accepted owner_block_application_key_check key) :
    ReadsInBounds kFlashBankSize st' ↔ ∀ key ∈ st'.keyring, KeyComplete key := by
  have haccepted := owner_block_parse_accepted kFlashBankSize block hcheck hparse hkeys
  constructor
  · intro hreads key hmem
    exact (within_rom_ext_verify_key_iff (haccepted.keyring key hmem)).mp (hreads.verify key hmem)
  · intro hcomplete
    refine ⟨fun key_id => ?_, ?_, ?_, ?_, ?_, fun key hmem => ?_, fun key hmem => ?_⟩
    · exact within_find_key_from key_id _ 0
        (fun key hmem => haccepted.keyring key (List.mem_of_mem_take hmem))
        fun key hmem => hcomplete key (List.mem_of_mem_take hmem)
    · exact within_owner_rescue_command_allowed haccepted.rescue
    · exact within_owner_block_flash_apply haccepted.flash
    · exact within_owner_block_info_apply haccepted.info
    · exact within_isfb_boot_request_process haccepted.isfb
    · exact (within_rom_ext_verify_key_iff (haccepted.keyring key hmem)).mpr (hcomplete key hmem)
    · exact within_rom_ext_boot_key (haccepted.keyring key hmem)

/-! ### Two blocks -/

/-- A block with the items `items`. -/
def block_with_items (items : List u8) (h : items.length ≤ kOwnerDataSize) : OwnerBlock :=
  { OwnerBlock.filled 0 with
    header := ⟨kTlvTagOwner, 2048, 0, 0⟩
    data := data_with items h }

/-- An ECDSA key without a domain, with a declared length. -/
def ecdsa_key_item (length : u16) (data : List u8) : List u8 :=
  (TlvHeader.mk kTlvTagApplicationKey length 0 0).bytes ++ le32 kOwnershipKeyAlgEcdsaP256 ++
    List.replicate 36 0 ++ data

def complete_key_block : OwnerBlock :=
  block_with_items (ecdsa_key_item 112 (List.replicate 64 7)) (by decide)

/-- The state a parse ends with, for what it is to be evaluated for. -/
theorem exists_ok_of_any {x : Except RomError Parsed} {p : Parsed → Bool}
    (heval : x.toOption.any p = true) : ∃ st, x = .ok st ∧ p st = true := by
  cases x with
  | error e => cases heval
  | ok st => exact ⟨st, rfl, heval⟩

theorem complete_key_reads_in_bounds :
    ∃ st', owner_block_parse 256 complete_key_block false ⟨owner_config_default, []⟩ = .ok st' ∧
      st'.keyring.length = 1 ∧ ReadsInBounds 256 st' := by
  have hcheck : owner_block_parse 256 complete_key_block true ⟨owner_config_default, []⟩ =
      .ok ⟨owner_config_default, []⟩ := by decide +kernel
  obtain ⟨st', hparse, heval⟩ : ∃ st',
      owner_block_parse 256 complete_key_block false ⟨owner_config_default, []⟩ = .ok st' ∧
        decide (st'.keyring.length = 1 ∧ ∀ key ∈ st'.keyring, KeyComplete key) = true :=
    exists_ok_of_any (by decide +kernel)
  obtain ⟨hone, hcomplete⟩ := of_decide_eq_true heval
  exact ⟨st', hparse, hone,
    (parsed_reads_in_bounds_iff 256 complete_key_block hcheck hparse nofun).mpr hcomplete⟩

/-- A rescue configuration, and behind it, at the end of the data region, a key that
consists of its first 48 bytes. -/
def short_key_block : OwnerBlock :=
  block_with_items ((TlvHeader.mk kTlvTagRescueConfig 1488 0 0).bytes ++
    [0, 0, 0, 0, 0x20, 0, 0, 0] ++ List.replicate 1472 0 ++ ecdsa_key_item 48 [])
    (by decide +kernel)

/-- The test parse accepts the block, and looking for a key in the keyring reads behind the
data region. -/
theorem short_key_read_out_of_bounds :
    ∃ st', owner_block_parse 256 short_key_block true ⟨owner_config_default, []⟩ =
        .ok ⟨owner_config_default, []⟩ ∧
      owner_block_parse 256 short_key_block false ⟨owner_config_default, []⟩ = .ok st' ∧
      (∃ access ∈ (owner_keyring_find_key st'.keyring 0).places,
        kOwnerDataSize ≤ access.item.offset + access.byte) ∧
      ¬ ReadsInBounds 256 st' := by
  have hcheck : owner_block_parse 256 short_key_block true ⟨owner_config_default, []⟩ =
      .ok ⟨owner_config_default, []⟩ := by decide +kernel
  obtain ⟨st', hparse, heval⟩ : ∃ st',
      owner_block_parse 256 short_key_block false ⟨owner_config_default, []⟩ = .ok st' ∧
        decide (∃ access ∈ (owner_keyring_find_key st'.keyring 0).places,
          kOwnerDataSize ≤ access.item.offset + access.byte) = true :=
    exists_ok_of_any (by decide +kernel)
  obtain ⟨access, hmem, hbehind⟩ := of_decide_eq_true heval
  refine ⟨st', hcheck, hparse, ⟨access, hmem, hbehind⟩, fun hreads => ?_⟩
  have hin := (hreads.find_key 0 access hmem).2
  omega

end IbexFirmware.OwnerReads
