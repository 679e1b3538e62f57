/-
Whether the device keeps its owner when the power goes during a boot.

In the locked state it does: at every moment one of the two pages holds a block, and
the next boot copies it (`locked_still_owned`). In `UnlockedSelf` an activation writes
page 1 and then page 0, each by an erase and a write, and the next boot wants page 0
and does not look at page 1. Between the erase and the write of page 0 there is
nothing for it to find (`recovery_after_loss_iff`).
-/
import IbexFirmware.OwnershipActivate

set_option autoImplicit false

namespace IbexFirmware.Ownership

open Bytes OwnerBlock PowerFail OwnerPageStatus Proc

variable {dev : Device}

/-! ## The locked state -/

/-- One of the pages holds a block, and the state is what it was. -/
structure StillOwned (dev : Device) (s s' : RomExt) : Prop where
  held : ∃ i b, Holds dev (s'.slot i) b
  state : s'.bootdata.ownership_state = s.bootdata.ownership_state
  stored : s'.stored = s.stored

theorem still_owned_repaired {s t s' : RomExt} (hupdated : Updated dev (load_pages dev s) t)
    (hrepaired : Repaired t s') : StillOwned dev s s' := by
  have hbacked := hupdated.backed (backed_load_pages dev s) (filled_load_pages dev s)
  obtain ⟨-, -, hstate, hstored⟩ := hupdated.samePage0
  refine ⟨⟨0, _, hrepaired.holds hbacked 0⟩, ?_, ?_⟩
  · cases hrepaired with
    | both _ => exact hstate
    | copied _ => exact hstate
  · cases hrepaired with
    | both _ => exact hstored
    | copied _ => exact hstored

theorem still_owned_unrepaired {s t s' : RomExt} (hheld : ∃ i b, Holds dev (s.slot i) b)
    (hupdated : Updated dev (load_pages dev s) t) (hunrepaired : Unrepaired t s') :
    StillOwned dev s s' := by
  have hbacked := hupdated.backed (backed_load_pages dev s) (filled_load_pages dev s)
  obtain ⟨-, -, hstate, hstored⟩ := hupdated.samePage0
  obtain ⟨i, b, hb⟩ := hheld
  have hsealed := hupdated.sealed ⟨i, (load_pages_sealed_iff s i).mpr ⟨b, hb⟩⟩
  cases hunrepaired with
  | none hnone _ =>
      obtain ⟨j, hj⟩ := hsealed
      exact absurd hj (hnone j)
  | @cut good bad _ honly hcut =>
      obtain ⟨hne, hgood, -⟩ := honly
      rcases hcut with rfl | rfl
      · exact ⟨⟨good, _, hbacked good hgood⟩, hstate, hstored⟩
      · refine ⟨⟨good, t.owner_page good, ?_⟩, hstate, hstored⟩
        simp only [Function.update_of_ne hne]
        exact hbacked good hgood

/-- A boot in the locked state, cut anywhere or not, keeps the owner. -/
theorem locked_still_owned {m : Machine RomExt}
    (hstate : m.mem.bootdata.ownership_state = kOwnershipStateLockedOwner)
    (hheld : ∃ i b, Holds dev (m.mem.slot i) b) :
    StillOwned dev m.mem (ownership_init dev m).2.mem := by
  rw [ownership_init_locked_snd hstate]
  obtain ⟨hmeets, -⟩ := (pages_spec (F := fun _ => True) dev) (loaded dev m) rfl fun _ => trivial
  generalize locked_owner_pages dev (loaded dev m) = run at hmeets ⊢
  obtain ⟨outcome, m'⟩ := run
  cases outcome with
  | trap => exact hmeets.elim
  | ret u =>
      obtain ⟨t, hupdated, hrepaired⟩ := hmeets
      exact still_owned_repaired hupdated hrepaired
  | error e =>
      obtain ⟨t, hupdated, hunrepaired⟩ := hmeets
      exact still_owned_unrepaired hheld hupdated hunrepaired
  | lost =>
      rcases hmeets with ⟨hsealed, hsame⟩ | ⟨t, hupdated, hunrepaired⟩
      · obtain ⟨b, hb⟩ := (load_pages_sealed_iff m.mem 0).mp hsealed
        have hslot : m'.mem.slot 0 = m.mem.slot 0 := hsame.slot
        exact ⟨⟨0, b, hslot ▸ hb⟩, hsame.state, hsame.stored⟩
      · exact still_owned_unrepaired hheld hupdated hunrepaired

/-! ## The unlocked states -/

theorem keeps_unlocked_primary (parsed : Parsed) : Keeps (unlocked_primary dev parsed) := by
  refine Keeps.get.bind fun s => ?_
  split
  · exact (keeps_parse_page 0 parsed).bind fun _ => (Keeps.ofExcept _).bind fun _ => Keeps.pure _
  · exact Keeps.pure _

theorem keeps_unlocked_secondary (parsed : Parsed) : Keeps (unlocked_secondary dev parsed) := by
  refine Keeps.bind (Keeps.get.bind fun s => ?_) fun _ => (Keeps.ofExcept _).bind fun _ =>
    (keeps_info_apply _).bind fun _ => Keeps.pure _
  split
  · exact keeps_parse_page 1 parsed
  · exact Keeps.pure _

theorem ownership_init_unlocked {m : Machine RomExt}
    (hstate : m.mem.bootdata.ownership_state ∈ kUnlockedStates) :
    ownership_init dev m = unlocked_init dev ⟨owner_config_default, []⟩ (loaded dev m) := by
  have hlocked : m.mem.bootdata.ownership_state ≠ kOwnershipStateLockedOwner := by
    intro h
    rw [h] at hstate
    exact absurd hstate (by decide)
  show (if m.mem.bootdata.ownership_state = kOwnershipStateLockedOwner then _
    else if m.mem.bootdata.ownership_state ∈ kUnlockedStates then
      unlocked_init dev ⟨owner_config_default, []⟩ else _ : Rom Parsed) (loaded dev m) = _
  rw [if_neg hlocked, if_pos hstate]

/-- In `UnlockedSelf` a boot that finds a block in page 0 does nothing to the pages. -/
theorem self_init_held {m : Machine RomExt}
    (hstate : m.mem.bootdata.ownership_state = kOwnershipStateUnlockedSelf)
    (hheld : ∃ b, Holds dev (m.mem.slot 0) b) :
    (ownership_init dev m).2 = loaded dev m ∧ (ownership_init dev m).1 ≠ .lost := by
  have hsealed : (load_pages dev m.mem).owner_page_valid 0 = kOwnerPageStatusSealed :=
    (load_pages_sealed_iff m.mem 0).mpr hheld
  rw [ownership_init_unlocked (hstate ▸ by decide)]
  have hinit : unlocked_init dev ⟨owner_config_default, []⟩ (loaded dev m) = (do
      let parsed ← unlocked_primary dev ⟨owner_config_default, []⟩
      unlocked_secondary dev parsed) (loaded dev m) := by
    show (if m.mem.bootdata.ownership_state = kOwnershipStateUnlockedSelf ∧
      (load_pages dev m.mem).owner_page_valid 0 ≠ kOwnerPageStatusSealed then _ else _ :
      Rom Parsed) (loaded dev m) = _
    rw [if_neg fun h => h.2 hsealed]
  rw [hinit]
  exact (keeps_unlocked_primary _).bind keeps_unlocked_secondary _

/-- One that does not goes to recovery. -/
theorem self_init_not_held {m : Machine RomExt}
    (hstate : m.mem.bootdata.ownership_state = kOwnershipStateUnlockedSelf)
    (hheld : ¬ ∃ b, Holds dev (m.mem.slot 0) b) :
    (ownership_init dev m).2.mem.bootdata.ownership_state = kOwnershipStateRecovery := by
  have hsealed : (load_pages dev m.mem).owner_page_valid 0 ≠ kOwnerPageStatusSealed := fun h =>
    hheld ((load_pages_sealed_iff m.mem 0).mp h)
  rw [ownership_init_unlocked (hstate ▸ by decide)]
  have hinit : unlocked_init dev ⟨owner_config_default, []⟩ (loaded dev m)
      = (enter_recovery dev : Rom Parsed) (loaded dev m) := by
    show (if m.mem.bootdata.ownership_state = kOwnershipStateUnlockedSelf ∧
      (load_pages dev m.mem).owner_page_valid 0 ≠ kOwnerPageStatusSealed then _ else _ :
      Rom Parsed) (loaded dev m) = _
    rw [if_pos ⟨hstate, hsealed⟩]
  rw [hinit]
  have hspec : Spec (fun _ => True) (enter_recovery dev : Rom Parsed) (load_pages dev m.mem)
      (fun _ s' => s'.bootdata.ownership_state = kOwnershipStateRecovery) _ _ := enter_recovery_spec
  exact hspec.mem (P := fun s' => s'.bootdata.ownership_state = kOwnershipStateRecovery)
    (m := loaded dev m) (fun _ _ => id) (fun _ _ => And.right) (fun _ => And.right) rfl
    fun _ => trivial

/-- Whether a boot in `UnlockedSelf` ends in recovery depends on page 0 alone. -/
theorem self_init_recovery_iff {m : Machine RomExt}
    (hstate : m.mem.bootdata.ownership_state = kOwnershipStateUnlockedSelf) :
    (ownership_init dev m).2.mem.bootdata.ownership_state = kOwnershipStateRecovery ↔
      ¬ ∃ b, Holds dev (m.mem.slot 0) b := by
  by_cases hheld : ∃ b, Holds dev (m.mem.slot 0) b
  · rw [(self_init_held hstate hheld).1]
    refine iff_of_false (fun h => ?_) fun h => h hheld
    have hrecovery : m.mem.bootdata.ownership_state = kOwnershipStateRecovery := h
    rw [hstate] at hrecovery
    exact absurd hrecovery (by decide)
  · exact iff_of_true (self_init_not_held hstate hheld) hheld

/-! ## Where the power goes -/

theorem unlock_not_lost (msg : OwnershipUnlockReq) (m : Machine RomExt) :
    (ownership_unlock_handler dev msg m).1 ≠ .lost := by
  obtain ⟨hmeets, -⟩ := ownership_unlock_handler_spec dev (F := fun _ => True) msg m rfl
    fun _ => trivial
  intro hlost
  rw [hlost] at hmeets
  exact hmeets

/-- An activation in `UnlockedSelf` loses the power in `ownership_activate` or not at all. -/
theorem activate_lost {msg : OwnershipActivateReq} {m : Machine RomExt}
    (hstate : m.mem.bootdata.ownership_state = kOwnershipStateUnlockedSelf)
    (hlost : (ownership_activate_handler dev msg m).1 = .lost) :
    (activate_pages dev m).1 = .lost ∧
      (ownership_activate_handler dev msg m).2 = (activate_pages dev m).2 := by
  simp only [ownership_activate_handler, handler_run] at hlost ⊢
  by_cases hgranted : Granted dev m.mem msg
  · have htail : ∀ m1, (activate_tail dev msg m.mem m1).1 ≠ .lost := by
      intro m1
      have hret : (activate_tail dev msg m.mem m1).1 = .ret .kErrorWriteBootdataThenReboot := by
        show ((if m.mem.bootdata.ownership_state = kOwnershipStateUnlockedSelf then
          activate_finish dev else _ : Rom RomError) _).1 = _
        rw [if_pos hstate]
        rfl
      rw [hret]
      intro h
      cases h
    rw [activate_switch_granted hgranted, activate_handler_granted hgranted, bind_run] at hlost ⊢
    generalize activate_pages dev m = run at hlost ⊢
    obtain ⟨outcome, m1⟩ := run
    cases outcome with
    | lost => exact ⟨rfl, rfl⟩
    | error e => cases hlost
    | trap => cases hlost
    | ret u =>
        have hnot := htail m1
        dsimp only at hlost
        generalize activate_tail dev msg m.mem m1 = run at hlost hnot
        obtain ⟨outcome, m2⟩ := run
        cases outcome with
        | lost => exact absurd rfl hnot
        | ret e => cases hlost
        | error e => cases hlost
        | trap => cases hlost
  · obtain ⟨e, hrun⟩ := activate_switch_refused hgranted
    rw [hrun] at hlost
    cases hlost

/-- In which operation the power goes, and what is in page 0 then. -/
theorem activate_pages_lostAt {n : ℕ} {s : RomExt}
    (hlost : (activate_pages dev ⟨s, lostAt n, 0⟩).1 = .lost) :
    n < 4 ∧ (activate_pages dev ⟨s, lostAt n, 0⟩).2.mem.stored = s.stored ∧
      (activate_pages dev ⟨s, lostAt n, 0⟩).2.mem.slot 0
        = if n = 3 then .erased else s.slot 0 := by
  have hn : n < 4 := by
    by_contra hn
    have hdone : ∀ i < 4, lostAt n (0 + i) = .done := fun i hi => if_pos (by omega)
    obtain ⟨u, hret⟩ := (takes_activate_pages dev ⟨s, lostAt n, 0⟩).1.mpr hdone
    rw [hret] at hlost
    cases hlost
  refine ⟨hn, ?_⟩
  interval_cases n
  all_goals exact ⟨rfl, rfl⟩

/-! ## The next boot -/

/-- What a loss of power and the next power-on leave: the flash, with the boot data read
from it. -/
structure PowerCycle (s s' : RomExt) : Prop where
  slot : s'.slot = s.slot
  secret : s'.secret = s.secret
  stored : s'.stored = s.stored
  read : s'.bootdata.payload = s.stored

theorem PowerCycle.state {s t s' : RomExt} (h : PowerCycle t s') (hstored : t.stored = s.stored)
    (hread : s.bootdata.payload = s.stored) :
    s'.bootdata.ownership_state = s.bootdata.ownership_state := by
  have hpayload : s'.bootdata.payload = s.bootdata.payload := by rw [h.read, hstored, hread]
  exact congrArg BootDataPayload.ownership_state hpayload

/-- A boot that loses the power does so in `ownership_init` or in the handler. -/
theorem rom_ext_start_lost {request : Option Request} {m : Machine RomExt}
    (hlost : (rom_ext_start dev request m).1 = .lost) :
    (ownership_init dev m).1 = .lost ∧
        (rom_ext_start dev request m).2 = (ownership_init dev m).2 ∨
      (ownership_init dev m).1 ≠ .lost ∧ ∃ r, request = some r ∧
        (handle dev r (ownership_init dev m).2).1 = .lost ∧
        (rom_ext_start dev request m).2 = (handle dev r (ownership_init dev m).2).2 := by
  unfold rom_ext_start at hlost ⊢
  rw [bind_run] at hlost ⊢
  unfold Proc.attempt at hlost ⊢
  generalize ownership_init dev m = run at hlost ⊢
  obtain ⟨outcome, m1⟩ := run
  have hhandle : (request.elim (return .kErrorOk) (handle dev) m1).1 = .lost →
      ∃ r, request = some r ∧ (handle dev r m1).1 = .lost ∧
        (request.elim (return .kErrorOk) (handle dev) m1).2 = (handle dev r m1).2 := by
    intro h
    cases request with
    | none => cases h
    | some r => exact ⟨r, rfl, h, rfl⟩
  cases outcome with
  | lost => exact .inl ⟨rfl, rfl⟩
  | trap => cases hlost
  | ret parsed => exact .inr ⟨nofun, hhandle hlost⟩
  | error e =>
      refine .inr ⟨nofun, ?_⟩
      by_cases he : e = .kErrorWriteBootdataThenReboot
      · subst he
        cases hlost
      · have hcode : init_error (.error e) ≠ .kErrorWriteBootdataThenReboot := he
        dsimp only at hlost ⊢
        rw [if_neg hcode] at hlost ⊢
        exact hhandle hlost

/-- A boot from the locked state that loses the power leaves an owned device. -/
theorem locked_boot_lost {request : Option Request} {m : Machine RomExt}
    (hstate : m.mem.bootdata.ownership_state = kOwnershipStateLockedOwner)
    (hheld : ∃ i b, Holds dev (m.mem.slot i) b)
    (hlost : (rom_ext_start dev request m).1 = .lost) :
    StillOwned dev m.mem (rom_ext_start dev request m).2.mem := by
  have howned := locked_still_owned hstate hheld
  rcases rom_ext_start_lost hlost with ⟨-, heq⟩ | ⟨-, r, rfl, hhandle, -⟩
  · rw [heq]
    exact howned
  · -- no handler does anything to the flash in the locked state
    cases r with
    | unlock msg => exact absurd hhandle (unlock_not_lost msg _)
    | activate msg =>
        have hrefused : ¬ Granted dev (ownership_init dev m).2.mem msg := by
          intro hgranted
          have hunlocked := hgranted.1
          rw [howned.state, hstate] at hunlocked
          exact absurd hunlocked (by decide)
        obtain ⟨e, hrun⟩ := activate_switch_refused hrefused
        simp only [handle, ownership_activate_handler, handler_run, hrun] at hhandle
        cases hhandle

/-- From `LockedOwner` or `UnlockedSelf` with a block in page 0, a loss of power in the
boot takes the next boot to `Recovery` if and only if the state is `UnlockedSelf` and the
power goes between the erase and the write of page 0. The exception would be a device
for which an erased page passes for a sealed one. -/
theorem recovery_after_loss_iff (dev : Device) (s : RomExt)
    (hstate : s.bootdata.ownership_state = kOwnershipStateLockedOwner ∨
      s.bootdata.ownership_state = kOwnershipStateUnlockedSelf)
    (hpage0 : ∃ b, Holds dev (s.slot 0) b) (hread : s.bootdata.payload = s.stored)
    (request : Option Request) (n : ℕ)
    (hlost : (rom_ext_start dev request (Machine.on s (lostAt n))).1 = .lost) (s' : RomExt)
    (hcycle : PowerCycle (rom_ext_start dev request (Machine.on s (lostAt n))).2.mem s')
    (fate : ℕ → Fate) :
    (ownership_init dev (Machine.on s' fate)).2.mem.bootdata.ownership_state
        ≠ kOwnershipStateRecovery ↔
      ¬ (s.bootdata.ownership_state = kOwnershipStateUnlockedSelf ∧ n = 3 ∧
        ¬ BlankSealed dev) := by
  rcases hstate with hlocked | hself
  · have howned := locked_boot_lost (m := Machine.on s (lostAt n)) hlocked ⟨0, hpage0⟩ hlost
    have hstate' : s'.bootdata.ownership_state = kOwnershipStateLockedOwner :=
      (hcycle.state howned.stored hread).trans hlocked
    have hheld' : ∃ i b, Holds dev (s'.slot i) b := hcycle.slot ▸ howned.held
    have hnext := (locked_still_owned (m := Machine.on s' fate) hstate' hheld').state
    refine iff_of_true (fun h => ?_) fun h => ?_
    · have hrecovery := hnext.symm.trans h
      rw [show (Machine.on s' fate).mem.bootdata.ownership_state = _ from hstate'] at hrecovery
      exact absurd hrecovery (by decide)
    · rw [hlocked] at h
      exact absurd h.1 (by decide)
  · obtain ⟨hloaded, hrunning⟩ := self_init_held (m := Machine.on s (lostAt n)) hself hpage0
    rcases rom_ext_start_lost hlost with ⟨hinit, -⟩ | ⟨-, r, rfl, hhandle, hafter⟩
    · exact absurd hinit hrunning
    rw [hloaded] at hhandle hafter
    cases r with
    | unlock msg => exact absurd hhandle (unlock_not_lost msg _)
    | activate msg =>
        obtain ⟨hpages, hsnd⟩ := activate_lost (m := loaded dev (Machine.on s (lostAt n))) hself
          hhandle
        obtain ⟨-, hstored, hslot⟩ := activate_pages_lostAt (s := load_pages dev s) hpages
        have hafter' : (rom_ext_start dev (some (.activate msg)) (Machine.on s (lostAt n))).2
            = (activate_pages dev ⟨load_pages dev s, lostAt n, 0⟩).2 := hafter.trans hsnd
        rw [hafter'] at hcycle
        have hstate' : s'.bootdata.ownership_state = kOwnershipStateUnlockedSelf :=
          (hcycle.state (s := s) hstored hread).trans hself
        have hslot' : s'.slot 0 = if n = 3 then .erased else s.slot 0 :=
          (congrFun hcycle.slot 0).trans hslot
        rw [Ne, self_init_recovery_iff (m := Machine.on s' fate) hstate']
        show ¬ ¬ (∃ b, Holds dev (s'.slot 0) b) ↔ _
        rw [hslot']
        by_cases hn : n = 3
        · rw [if_pos hn]
          exact not_congr ⟨fun h => ⟨hself, hn, h⟩, fun h => h.2.2⟩
        · rw [if_neg hn]
          exact iff_of_true (not_not_intro hpage0) fun h => hn h.2.1

theorem bench_boot_stored (ownership_state : u32) (slot0 slot1 : InfoPage OwnerBlock) :
    (bench_boot ownership_state slot0 slot1).bootdata.payload =
      (bench_boot ownership_state slot0 slot1).stored :=
  rfl

/-- Version 1 in page 0 and version 2, signed by the same owner, in page 1. -/
def self_update : RomExt :=
  bench_boot kOwnershipStateUnlockedSelf (.programmed (bench_sealed 1 kOwnershipUpdateModeOpen 17))
    (.programmed (bench_signed 2 kOwnershipUpdateModeOpen 17))

/-- The request to activate it. -/
def self_activate : Option Request :=
  some (.activate (bench_activate ⟨Vector.replicate 2 0⟩
    (bench_signed 2 kOwnershipUpdateModeOpen 17).activate_key))

/-- What is left when the power goes at operation `n`. -/
def after_loss (n : ℕ) : RomExt :=
  (rom_ext_start bench_device self_activate (Machine.on self_update (lostAt n))).2.mem

/-- Boot data that has not changed reads back as it is. -/
theorem PowerCycle.of_unchanged {s : RomExt} (h : s.bootdata.payload = s.stored) :
    PowerCycle s s :=
  ⟨rfl, rfl, rfl, h⟩

theorem lost_before_page0 :
    (rom_ext_start bench_device self_activate (Machine.on self_update (lostAt 2))).1 = .lost ∧
      (after_loss 2).bootdata.payload = (after_loss 2).stored := by
  decide +kernel

theorem no_recovery_before_page0 :
    (ownership_init bench_device
        (Machine.on (after_loss 2) fun _ => .done)).2.mem.bootdata.ownership_state
        ≠ kOwnershipStateRecovery := by
  have hcycle : PowerCycle (after_loss 2) (after_loss 2) := .of_unchanged lost_before_page0.2
  refine (recovery_after_loss_iff bench_device self_update (.inr (by decide))
    ((load_pages_sealed_iff self_update 0).mp (by decide +kernel)) (bench_boot_stored _ _ _)
    self_activate 2 lost_before_page0.1 (after_loss 2) hcycle fun _ => .done).mpr ?_
  rintro ⟨-, hwrite, -⟩
  exact absurd hwrite (by decide)

/-- With page 0 erased and page 1 sealed, the next boot gives up the owner. -/
theorem recovery_between_erase_and_write :
    (rom_ext_start bench_device self_activate (Machine.on self_update (lostAt 3))).1 = .lost ∧
      (after_loss 3).bootdata.payload = (after_loss 3).stored ∧
      (ownership_init bench_device
        (Machine.on (after_loss 3) fun _ => .done)).2.mem.bootdata.ownership_state
        = kOwnershipStateRecovery := by
  decide +kernel

end IbexFirmware.Ownership
