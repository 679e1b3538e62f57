/-
`ownership_init` seen from `rom_ext_start`.

Two things of it matter there. Its code: only `kErrorWriteBootdataThenReboot` ends the
boot, and neither the parser nor the two page repairs has it (`confined_ownership_init`).
And what it leaves of the boot data: nothing but the state and the nonce changes, unless
page 1 is a pending update.

For a boot that carries out the update `init_of_activation` is the exact result. The copy
of page 1 over page 0 makes two more flash operations, and boot services start behind
them, whether or not they are carried out. `services_at` is where.
-/
import IbexFirmware.OwnershipUnlock
import IbexFirmware.Lib.Session

set_option autoImplicit false

namespace IbexFirmware.Ownership

open Bytes OwnerBlock PowerFail Session OwnerPageStatus Proc

variable {dev : Device}

/-! ## The codes of the parser -/

/-- An error of the computation is not the code for a reboot. -/
def RebootFree {α : Type} (r : Except RomError α) : Prop :=
  ∀ e, r = .error e → e ≠ .kErrorWriteBootdataThenReboot

theorem rebootFree_ok {α : Type} (a : α) : RebootFree (.ok a) := nofun

theorem rebootFree_error {α : Type} {e : RomError} (he : e ≠ .kErrorWriteBootdataThenReboot) :
    RebootFree (.error e : Except RomError α) := by
  rintro _ ⟨⟩
  exact he

theorem RebootFree.bind {α β : Type} {r : Except RomError α} {f : α → Except RomError β}
    (hr : RebootFree r) (hf : ∀ a, RebootFree (f a)) : RebootFree (r >>= f) := by
  intro e he
  cases r with
  | ok a => exact hf a e he
  | error e' =>
      obtain rfl : e' = e := Except.error.inj he
      exact hr e' rfl

theorem RebootFree.map {α β : Type} {r : Except RomError α} (hr : RebootFree r) (f : α → β) :
    RebootFree (r.map f) := by
  intro e he
  cases r with
  | ok a => cases he
  | error e' =>
      obtain rfl : e' = e := Except.error.inj he
      exact hr e' rfl

theorem RebootFree.ite {α : Type} {c : Prop} [Decidable c] {r r' : Except RomError α}
    (hr : RebootFree r) (hr' : RebootFree r') : RebootFree (if c then r else r') := by
  split
  · exact hr
  · exact hr'

theorem RebootFree.foldlM {α β : Type} {f : β → α → Except RomError β}
    (hf : ∀ b a, RebootFree (f b a)) (l : List α) (b : β) : RebootFree (l.foldlM f b) := by
  induction l generalizing b with
  | nil => exact rebootFree_ok b
  | cons a l ih =>
      rw [List.foldlM_cons]
      exact (hf b a).bind ih

theorem RebootFree.forM {α : Type} {f : α → Except RomError PUnit} (hf : ∀ a, RebootFree (f a))
    (l : List α) : RebootFree (l.forM f) := by
  induction l with
  | nil => exact rebootFree_ok _
  | cons a l ih =>
      show RebootFree (f a >>= fun _ => l.forM f)
      exact (hf a).bind fun _ => ih

section parser

variable (kFlashBankSize : u32)

theorem rebootFree_application_key_check (key : Item) :
    RebootFree (owner_block_application_key_check key) :=
  .ite (rebootFree_error nofun) (.ite (rebootFree_ok _) (rebootFree_error nofun))

theorem rebootFree_flash_info_check (info : Item) :
    RebootFree (owner_block_flash_info_check info) := by
  have hpage : ∀ i, RebootFree (if is_owner_page (info.u8At (8 + 12 * i + 1)) then .ok ()
      else .error .kErrorOwnershipBadInfoPage : Except RomError Unit) := fun i =>
    .ite (rebootFree_ok _) (rebootFree_error nofun)
  exact .ite (rebootFree_error nofun) (.ite (rebootFree_error nofun) (.forM hpage _))

theorem rebootFree_rescue_check (rescue : Item) :
    RebootFree (owner_block_rescue_check kFlashBankSize rescue) :=
  .ite (rebootFree_error nofun) (.ite (rebootFree_error nofun) (rebootFree_ok _))

theorem rebootFree_flash_region_check (flash : Item) (num : ℕ × ℕ) (i : ℕ) :
    RebootFree (flash_region_check kFlashBankSize flash num i) :=
  .ite (rebootFree_error nofun)
    (.ite (.ite (rebootFree_error nofun) (rebootFree_ok _))
      (.ite (.ite (rebootFree_error nofun) (rebootFree_ok _)) (rebootFree_error nofun)))

theorem rebootFree_flash_check (flash : Item) :
    RebootFree (owner_block_flash_check kFlashBankSize flash) :=
  .ite (rebootFree_error nofun) (.ite (rebootFree_error nofun) (.ite (rebootFree_error nofun)
    ((RebootFree.foldlM (rebootFree_flash_region_check kFlashBankSize flash) _ _).bind
      fun _ => rebootFree_ok _)))

theorem rebootFree_isfb_check (isfb : Item) : RebootFree (owner_isfb_config_check isfb) :=
  .ite (rebootFree_error nofun) (.ite (rebootFree_error nofun) (.ite (rebootFree_error nofun)
    (rebootFree_ok _)))

theorem rebootFree_config_item {check_only : Bool} {item : Item} {version_error : RomError}
    {check : Item → Except RomError Unit} {current : Option Item} {st stored : Parsed}
    (hversion : version_error ≠ .kErrorWriteBootdataThenReboot)
    (hcheck : ∀ item, RebootFree (check item)) :
    RebootFree (parse_config_item check_only item version_error check current st stored) :=
  .ite (rebootFree_error hversion) (.ite ((hcheck item).map _) (.ite (rebootFree_error nofun)
    (rebootFree_ok _)))

theorem rebootFree_parse_item (check_only : Bool) (st : Parsed) (item : Item) :
    RebootFree (parse_item kFlashBankSize check_only st item) :=
  .ite (.ite (rebootFree_error nofun) (.ite ((rebootFree_application_key_check item).map _)
      (.ite (rebootFree_ok _) (rebootFree_ok _))))
    (.ite (rebootFree_config_item nofun (rebootFree_flash_check kFlashBankSize))
    (.ite (rebootFree_config_item nofun rebootFree_flash_info_check)
    (.ite (rebootFree_config_item nofun (rebootFree_rescue_check kFlashBankSize))
    (.ite (rebootFree_config_item nofun rebootFree_isfb_check) (rebootFree_error nofun)))))

theorem rebootFree_parse_loop (check_only : Bool) (data : Vector u8 kOwnerDataSize)
    (fuel remain offset : ℕ) (st : Parsed) :
    RebootFree (parse_loop kFlashBankSize check_only data fuel remain offset st) := by
  induction fuel generalizing remain offset st with
  | zero => exact rebootFree_ok st
  | succ fuel ih =>
      rw [parse_loop]
      exact .ite (rebootFree_ok _) (.ite (rebootFree_error (by decide))
        ((rebootFree_parse_item kFlashBankSize check_only st _).bind fun _ => ih _ _ _))

theorem rebootFree_parse (block : OwnerBlock) (check_only : Bool) (st : Parsed) :
    RebootFree (owner_block_parse kFlashBankSize block check_only st) :=
  .ite (rebootFree_error nofun) (.ite (rebootFree_error nofun) (.ite (rebootFree_error nofun)
    (rebootFree_parse_loop kFlashBankSize check_only block.data _ _ _ _)))

end parser

theorem rebootFree_flash_apply (flash : Option Item) : RebootFree (owner_block_flash_apply flash) := by
  cases flash with
  | none => exact rebootFree_ok _
  | some flash => exact .ite (rebootFree_error nofun) (rebootFree_ok _)

/-! ## What it keeps -/

/-- However it ends, the program keeps `I`, and does not ask for a reboot. -/
abbrev Quietly {α : Type} (I : RomExt → Prop) (p : Rom α) : Prop :=
  Confined I (fun e => e ≠ RomError.kErrorWriteBootdataThenReboot) p

section keeps

variable {I : RomExt → Prop}

theorem quietly_parse_page (page : Fin 2) (parsed : Parsed) :
    Quietly I (parse_page dev page parsed) :=
  .get fun s => .ofExcept (rebootFree_parse dev.pages_per_bank (s.owner_page page) false parsed)

theorem quietly_flash_apply (flash : Option Item) :
    Quietly I (.ofExcept (owner_block_flash_apply flash)) :=
  .ofExcept (rebootFree_flash_apply flash)

theorem quietly_info_apply (info : Option Item) : Quietly I (owner_block_info_apply dev info) := by
  unfold owner_block_info_apply
  exact .ite (.pure _) .trap

theorem quietly_locked_owner_apply (parsed : Parsed) : Quietly I (locked_owner_apply dev parsed) :=
  (quietly_parse_page 0 parsed).bind fun _ => (quietly_flash_apply _).bind fun _ =>
    (quietly_flash_apply _).bind fun _ => (quietly_info_apply _).bind fun _ => .pure _

theorem quietly_unlocked_primary (parsed : Parsed) : Quietly I (unlocked_primary dev parsed) :=
  .get fun _ => .ite ((quietly_parse_page 0 parsed).bind fun _ =>
    (quietly_flash_apply _).bind fun _ => .pure _) (.pure _)

theorem quietly_unlocked_secondary (parsed : Parsed) :
    Quietly I (unlocked_secondary dev parsed) :=
  .bind (.get fun _ => .ite (quietly_parse_page 1 parsed) (.pure _)) fun _ =>
    (quietly_flash_apply _).bind fun _ => (quietly_info_apply _).bind fun _ => .pure _

end keeps

/-- The security version is `version`, in RAM and in flash, and the state is `state` or
the one in which the owner pages have been given up. -/
structure HasVersion (version state : u32) (s : RomExt) : Prop where
  ram : s.bootdata.min_security_version_bl0 = version
  stored : s.stored.min_security_version_bl0 = version
  state : s.bootdata.ownership_state = state ∨
    s.bootdata.ownership_state = kOwnershipStateRecovery

section version

variable {version state : u32}

theorem quietly_copy_page (good bad : Fin 2) :
    Quietly (HasVersion version state) (copy_page good bad) := by
  -- nothing that a page copy changes is in the invariant
  refine Confined.bind (.modify fun _ h => ⟨h.ram, h.stored, h.state⟩) fun _ => ?_
  refine Confined.bind (.step nofun fun _ h => ⟨h.ram, h.stored, h.state⟩) fun _ => ?_
  refine Confined.bind (.step nofun fun _ h => ⟨h.ram, h.stored, h.state⟩) fun _ => ?_
  exact .modify fun _ h => ⟨h.ram, h.stored, h.state⟩

theorem quietly_enter_recovery {α : Type} :
    Quietly (HasVersion version state) (enter_recovery dev : Rom α) := by
  refine Confined.bind (.modify fun _ h => ⟨h.ram, h.stored, .inr rfl⟩) fun _ => ?_
  refine Confined.bind (.modify fun _ h => ⟨h.ram, h.stored, h.state⟩) fun _ => ?_
  -- the record that is written has the version of the one in RAM
  refine Confined.bind (.step nofun fun _ h => ⟨h.ram, h.ram, h.state⟩) fun _ => ?_
  exact .throw nofun

theorem quietly_locked_owner_repair :
    Quietly (HasVersion version state) (locked_owner_repair dev) :=
  .get fun _ => .ite (.pure _) (.ite (quietly_copy_page 1 0) (.ite (quietly_copy_page 0 1)
    quietly_enter_recovery))

/-- Unless page 1 is a pending update, the security version is what it was, and the code
is not the one for a reboot. -/
theorem leaves_ownership_init {s : RomExt} (h : HasVersion version s.bootdata.ownership_state s)
    (hpending : s.bootdata.ownership_state = kOwnershipStateLockedOwner →
      newversion_pending (load_pages dev s) = false) :
    Leaves (ownership_init dev) s (fun _ => HasVersion version s.bootdata.ownership_state)
      (fun e s' => e ≠ .kErrorWriteBootdataThenReboot ∧
        HasVersion version s.bootdata.ownership_state s')
      (HasVersion version s.bootdata.ownership_state) := by
  have hloaded : HasVersion version s.bootdata.ownership_state (load_pages dev s) :=
    ⟨h.ram, h.stored, h.state⟩
  refine Leaves.modify_bind (Leaves.get ?_)
  by_cases hlocked : s.bootdata.ownership_state = kOwnershipStateLockedOwner
  · show Leaves (if s.bootdata.ownership_state = kOwnershipStateLockedOwner then _ else _) _ _ _ _
    rw [if_pos hlocked]
    refine Leaves.bind (R := fun _ => HasVersion version s.bootdata.ownership_state) ?_
      fun _ s' hs' => quietly_locked_owner_apply _ s' hs'
    refine Leaves.bind (R := fun _ => HasVersion version s.bootdata.ownership_state) ?_
      fun _ s' hs' => quietly_locked_owner_repair s' hs'
    refine Leaves.get ?_
    rw [hpending hlocked]
    exact Leaves.pure hloaded
  · show Leaves (if s.bootdata.ownership_state = kOwnershipStateLockedOwner then _ else _) _ _ _ _
    rw [if_neg hlocked]
    have hunlocked : Quietly (HasVersion version s.bootdata.ownership_state)
        (unlocked_init dev ⟨owner_config_default, []⟩) :=
      .get fun _ => .ite quietly_enter_recovery
        ((quietly_unlocked_primary _).bind quietly_unlocked_secondary)
    have hnone : Quietly (HasVersion version s.bootdata.ownership_state)
        (.throw .kErrorOwnershipNoOwner : Rom Parsed) := .throw nofun
    exact Confined.ite hunlocked hnone _ hloaded

end version

/-! ## A boot that carries out an update -/

/-- Applying the configuration of a page does not trap. -/
def ConfigApplies (dev : Device) (page : OwnerBlock) : Prop :=
  ∀ parsed,
    owner_block_parse dev.pages_per_bank page false ⟨owner_config_default, []⟩ = .ok parsed →
    owner_block_flash_apply parsed.config.flash = .ok () →
    parsed.config.info.all fun info => (List.range ((info.length - 8) / 12)).all fun i =>
      is_owner_page (info.u8At (8 + 12 * i + 1)) →
        flash_ctrl_info_type0_params_build dev (info.u8At (8 + 12 * i))

/-- The operation that boot services do first, after an update: `n` is the one with which
the copy of the new page starts. -/
inductive ServicesAt (dev : Device) (page : OwnerBlock) (fate : ℕ → Fate) (n : ℕ) : ℕ → Prop
  | erase_failed (herase : fate n = .failed) : ServicesAt dev page fate n (n + 1)
  | write_failed (herase : fate n = .done) (hwrite : fate (n + 1) = .failed) :
      ServicesAt dev page fate n (n + 2)
  | copied (herase : fate n = .done) (hwrite : fate (n + 1) = .done)
      (happlies : ConfigApplies dev page) : ServicesAt dev page fate n (n + 2)

/-- The memory in which boot services start, as far as they look at it. -/
def updated (dev : Device) (s : RomExt) : RomExt := copied 1 0 (activated dev s)

section update

variable {m : Machine RomExt}

/-- Two operations were carried out if the activation returned. -/
theorem ownership_activate_run (h : (ownership_activate dev false m).1 = .ret ()) :
    ownership_activate dev false m = (.ret (), ⟨activated dev m.mem, m.fate, m.steps + 2⟩) := by
  obtain ⟨hmeets, -⟩ := ownership_activate_spec (F := fun _ => True) m rfl fun _ => trivial
  cases hparse : test_parse dev (m.mem.owner_page 1) with
  | error e =>
      have hrun : ownership_activate dev false m = (.error e, m) := by
        show (do let _ ← Proc.ofExcept (test_parse dev (m.mem.owner_page 1)); _ : Rom Unit) m = _
        rw [hparse]
        rfl
      rw [hrun] at h
      cases h
  | ok parsed =>
      have hrun : ownership_activate dev false m =
          (do .modify (seal_page1 dev); program_page1 1; pure () : Rom Unit) m := by
        show (do let _ ← Proc.ofExcept (test_parse dev (m.mem.owner_page 1)); _ : Rom Unit) m = _
        rw [hparse]
        rfl
      have htakes : Takes 2 (do .modify (seal_page1 dev); program_page1 1; pure () : Rom Unit) :=
        (Takes.modify (seal_page1 dev)).bind fun _ =>
          ((Takes.step _ _).bind fun _ => Takes.step _ _).bind fun _ => Takes.pure ()
      rcases hm' : ownership_activate dev false m with ⟨outcome, mem, fate, steps⟩
      rw [hm'] at h hmeets
      obtain rfl : outcome = .ret () := h
      obtain ⟨rfl, rfl⟩ := (htakes m).2 () ⟨mem, fate, steps⟩ (hrun.symm.trans hm')
      obtain rfl : mem = activated dev m.mem := hmeets
      rfl

/-- The status of page 0 is taken back, so that the repair copies page 1 over it. -/
theorem locked_owner_pages_activation (hpending : newversion_pending m.mem = true)
    (h : (ownership_activate dev false m).1 = .ret ()) :
    locked_owner_pages dev m = copy_page 1 0 ⟨{ activated dev m.mem with
      owner_page_valid := fun i => if i = 0 then kOwnerPageStatusInvalid
        else kOwnerPageStatusSealed }, m.fate, m.steps + 2⟩ := by
  have hupdate : locked_owner_update dev m = (.ret (), ⟨{ activated dev m.mem with
      owner_page_valid := fun i => if i = 0 then kOwnerPageStatusInvalid
        else kOwnerPageStatusSealed }, m.fate, m.steps + 2⟩) := by
    unfold locked_owner_update
    rw [get_bind, if_pos hpending, bind_of_ret (attempt_of_ret (ownership_activate_run h))]
    rfl
  unfold locked_owner_pages
  rw [bind_of_ret hupdate]
  rfl

variable (dev) in
/-- Only the configuration of the info pages can trap, if it comes to it. -/
theorem locked_owner_apply_trap_iff (m : Machine RomExt) :
    (locked_owner_apply dev ⟨owner_config_default, []⟩ m).1 = .trap ↔
      ¬ ConfigApplies dev (m.mem.owner_page 0) := by
  cases hparse : owner_block_parse dev.pages_per_bank (m.mem.owner_page 0) false
      ⟨owner_config_default, []⟩ with
  | error e =>
      have hpage : parse_page dev 0 ⟨owner_config_default, []⟩ m = (.error e, m) :=
        congrArg (fun r => (Outcome.ofExcept r, m)) hparse
      unfold locked_owner_apply
      rw [bind_of_error hpage]
      exact iff_of_false nofun fun h => h fun _ hok => nomatch hparse.symm.trans hok
  | ok parsed =>
      have hpage : parse_page dev 0 ⟨owner_config_default, []⟩ m = (.ret parsed, m) :=
        congrArg (fun r => (Outcome.ofExcept r, m)) hparse
      unfold locked_owner_apply
      rw [bind_of_ret hpage]
      cases hflash : owner_block_flash_apply parsed.config.flash with
      | error e =>
          refine iff_of_false nofun fun h => h fun parsed' hok hflash' => ?_
          obtain rfl : parsed = parsed' := Except.ok.inj (hparse.symm.trans hok)
          exact nomatch hflash.symm.trans hflash'
      | ok u =>
          have happly : ConfigApplies dev (m.mem.owner_page 0) ↔ _ :=
            ⟨fun h => h parsed hparse hflash, fun h parsed' hok _ =>
              Except.ok.inj (hparse.symm.trans hok) ▸ h⟩
          rw [happly]
          show ((owner_block_info_apply dev parsed.config.info >>= fun _ => pure parsed) m).1 = _ ↔ _
          unfold owner_block_info_apply
          split_ifs with hinfo
          · exact iff_of_false nofun fun h => h hinfo
          · exact iff_of_true rfl hinfo

/-- The parse of the new page and what is done with it decides without a flash operation. -/
theorem locked_owner_apply_run (m : Machine RomExt) :
    (ConfigApplies dev (m.mem.owner_page 0) → ∃ r,
        attempt (locked_owner_apply dev ⟨owner_config_default, []⟩) m = (.ret r, m) ∧
          init_error r ≠ .kErrorWriteBootdataThenReboot) ∧
      (¬ ConfigApplies dev (m.mem.owner_page 0) →
        locked_owner_apply dev ⟨owner_config_default, []⟩ m = (.trap, m)) := by
  have hquietly : Quietly (fun _ => True) (locked_owner_apply dev ⟨owner_config_default, []⟩) :=
    quietly_locked_owner_apply _
  have hquiet := hquietly m.mem trivial m rfl
  have htrap := locked_owner_apply_trap_iff dev m
  have hkeeps : Keeps (locked_owner_apply dev ⟨owner_config_default, []⟩) :=
    keeps_locked_owner_apply _
  obtain ⟨hmem, hlost⟩ := hkeeps m
  rcases hrun : locked_owner_apply dev ⟨owner_config_default, []⟩ m with ⟨outcome, m'⟩
  rw [hrun] at hquiet htrap hmem hlost
  obtain rfl : m' = m := hmem
  cases outcome with
  | ret parsed =>
      exact ⟨fun _ => ⟨_, attempt_of_ret hrun, nofun⟩, fun h => nomatch htrap.mpr h⟩
  | error e =>
      exact ⟨fun _ => ⟨_, attempt_of_error hrun, hquiet.1⟩, fun h => nomatch htrap.mpr h⟩
  | trap => exact ⟨fun h => absurd h (htrap.mp rfl), fun _ => rfl⟩
  | lost => exact absurd rfl hlost

/-- The boot carries out the update that page 1 is. -/
structure CarriesOut (dev : Device) (m : Machine RomExt) : Prop where
  state : m.mem.bootdata.ownership_state = kOwnershipStateLockedOwner
  pending : newversion_pending (load_pages dev m.mem) = true
  activates : (ownership_activate dev false (loaded dev m)).1 = .ret ()

/-- The page that is activated, as it lies in flash afterwards. -/
def new_page (dev : Device) (s : RomExt) : OwnerBlock :=
  ownership_seal_page dev ((load_pages dev s).owner_page 1)

theorem updated_page0 (s : RomExt) :
    (updated dev (load_pages dev s)).owner_page 0 = new_page dev s := by
  simp only [updated, copied, activated, seal_page1, Function.update_self, new_page]

/-- In front of the copy. -/
def activated_machine (dev : Device) (m : Machine RomExt) : Machine RomExt :=
  ⟨{ updated dev (load_pages dev m.mem) with
      owner_page_valid := fun i => if i = 0 then kOwnerPageStatusInvalid
        else kOwnerPageStatusSealed }, m.fate, m.steps + 2⟩

/-- Between the erase and the write of page 0. -/
def erased_machine (dev : Device) (m : Machine RomExt) : Machine RomExt :=
  { activated_machine dev m with
    mem := { (activated_machine dev m).mem with
      slot := Function.update (activated_machine dev m).mem.slot 0 .erased }
    steps := m.steps + 2 + 1 }

theorem erase_page0_run (herase : m.fate (m.steps + 2) = .done) :
    flash_ctrl_info_erase 0 (activated_machine dev m) = (.ret (), erased_machine dev m) :=
  step_of_done herase

theorem ownership_init_activation (h : CarriesOut dev m) :
    ownership_init dev m = (do
      (do
        flash_ctrl_info_erase 0
        flash_ctrl_info_write 0 0
        .modify fun s =>
          { s with owner_page_valid := Function.update s.owner_page_valid 0 (s.owner_page_valid 1) })
      locked_owner_apply dev ⟨owner_config_default, []⟩) (activated_machine dev m) := by
  rw [ownership_init_locked h.state, bind_run,
    locked_owner_pages_activation (m := loaded dev m) h.pending h.activates]
  rfl

/-- Page 0 is the new page in flash too, and what is left to do is to apply it. -/
def written_machine (dev : Device) (m : Machine RomExt) : Machine RomExt :=
  { erased_machine dev m with
    mem := { updated dev (load_pages dev m.mem) with
      slot := Function.update (erased_machine dev m).mem.slot 0
        (((erased_machine dev m).mem.slot 0).write ((erased_machine dev m).mem.owner_page 0))
      owner_page_valid := Function.update (erased_machine dev m).mem.owner_page_valid 0
        ((erased_machine dev m).mem.owner_page_valid 1) }
    steps := m.steps + 2 + 2 }

theorem ownership_init_written (h : CarriesOut dev m) (herase : m.fate (m.steps + 2) = .done)
    (hwrite : m.fate (m.steps + 2 + 1) = .done) : ownership_init dev m =
      locked_owner_apply dev ⟨owner_config_default, []⟩ (written_machine dev m) := by
  have hdone : flash_ctrl_info_write 0 0 (erased_machine dev m) = _ := step_of_done hwrite
  rw [ownership_init_activation h, bind_of_ret ((bind_of_ret (erase_page0_run herase)).trans
    ((bind_of_ret hdone).trans rfl))]
  rfl

theorem written_page0 (m : Machine RomExt) :
    (written_machine dev m).mem.owner_page 0 = new_page dev m.mem :=
  updated_page0 m.mem

/-- Boot services start with the new security version in RAM, and in flash the old one. -/
theorem init_reaches_services {k : ℕ} (h : CarriesOut dev m)
    (hk : ServicesAt dev (new_page dev m.mem) m.fate (m.steps + 2) k) : ∃ r slot valid,
    attempt (ownership_init dev) m = (.ret r, ⟨{ updated dev (load_pages dev m.mem) with
        slot := slot
        owner_page_valid := valid }, m.fate, k⟩) ∧
      init_error r ≠ .kErrorWriteBootdataThenReboot := by
  have hrun := ownership_init_activation h
  cases hk with
  | erase_failed herase =>
      have hcut : flash_ctrl_info_erase 0 (activated_machine dev m) = _ := step_of_failed herase
      rw [bind_of_error (bind_of_error hcut)] at hrun
      exact ⟨_, _, _, attempt_of_error hrun, nofun⟩
  | write_failed herase hwrite =>
      have hcut : flash_ctrl_info_write 0 0 (erased_machine dev m) = _ := step_of_failed hwrite
      rw [bind_of_error ((bind_of_ret (erase_page0_run herase)).trans (bind_of_error hcut))] at hrun
      exact ⟨_, _, _, attempt_of_error hrun, nofun⟩
  | copied herase hwrite happlies =>
      rw [← written_page0] at happlies
      obtain ⟨r, hr, hcode⟩ := (locked_owner_apply_run (written_machine dev m)).1 happlies
      refine ⟨r, (written_machine dev m).mem.slot, (written_machine dev m).mem.owner_page_valid,
        ?_, hcode⟩
      exact (attempt_congr (ownership_init_written h herase hwrite)).trans hr

/-- A boot that does not come to its boot services stops where nothing is written. -/
theorem init_stops (h : CarriesOut dev m)
    (hnone : ∀ k, ¬ ServicesAt dev (new_page dev m.mem) m.fate (m.steps + 2) k) : ∃ m',
    (ownership_init dev m = (.trap, m') ∨ ownership_init dev m = (.lost, m')) ∧
      m'.mem.stored = m.mem.stored := by
  have hrun := ownership_init_activation h
  cases herase : m.fate (m.steps + 2) with
  | failed => exact absurd (.erase_failed herase) (hnone _)
  | lost =>
      have hcut : flash_ctrl_info_erase 0 (activated_machine dev m) = _ := step_of_lost herase
      rw [bind_of_lost (bind_of_lost hcut)] at hrun
      exact ⟨_, .inr hrun, rfl⟩
  | done =>
      cases hwrite : m.fate (m.steps + 2 + 1) with
      | failed => exact absurd (.write_failed herase hwrite) (hnone _)
      | lost =>
          have hcut : flash_ctrl_info_write 0 0 (erased_machine dev m) = _ := step_of_lost hwrite
          rw [bind_of_lost ((bind_of_ret (erase_page0_run herase)).trans (bind_of_lost hcut))] at hrun
          exact ⟨_, .inr hrun, rfl⟩
      | done =>
          have htrap := (locked_owner_apply_run (written_machine dev m)).2 fun happlies =>
            hnone _ (.copied herase hwrite (written_page0 m ▸ happlies))
          exact ⟨_, .inl ((ownership_init_written h herase hwrite).trans htrap), rfl⟩

end update

end IbexFirmware.Ownership
