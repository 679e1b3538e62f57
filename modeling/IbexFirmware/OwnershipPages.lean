/-
The two owner pages across boots.

`Holds` says what a flash page is to the ownership code: the block that reading it,
filling in the device identity and checking the seal accept. The whole argument is in
terms of it. `load_page_of_holds` puts the block in RAM, `update_spec` and
`repair_spec` say what the two parts of `locked_owner_init` do to RAM and flash,
whatever becomes of their flash operations.
-/
import IbexFirmware.Ownership

set_option autoImplicit false

namespace IbexFirmware.Ownership

open Bytes OwnerBlock PowerFail OwnerPageStatus

variable (dev : Device)

/-! ## What a page holds -/

/-- The page reads as a block that is, with the device's identity filled in, `b`, and
the seal of `b` is right. -/
def Holds (slot : InfoPage OwnerBlock) (b : OwnerBlock) : Prop :=
  ∃ raw, slot.read blank_page = some raw ∧ fill_device_id dev raw = b ∧
    ownership_seal_check dev b = true

/-- A block as it lies in RAM after a check, with its seal. -/
def SealedBlock (b : OwnerBlock) : Prop :=
  fill_device_id dev b = b ∧ ownership_seal_check dev b = true

/-- An erased page passes for a sealed one. -/
def BlankSealed : Prop := ∃ b, Holds dev .erased b

variable {dev}

@[simp] theorem fill_device_id_fill (page : OwnerBlock) :
    fill_device_id dev (fill_device_id dev page) = fill_device_id dev page := rfl

theorem fill_device_id_seal_page {page : OwnerBlock} (h : fill_device_id dev page = page) :
    fill_device_id dev (ownership_seal_page dev page) = ownership_seal_page dev page := by
  have hid : (fill_device_id dev page).device_id = page.device_id := by rw [h]
  show { ownership_seal_page dev page with device_id := (fill_device_id dev page).device_id } = _
  rw [hid]
  rfl

theorem sealedBlock_seal_page {page : OwnerBlock} (h : fill_device_id dev page = page) :
    SealedBlock dev (ownership_seal_page dev page) :=
  ⟨fill_device_id_seal_page h, seal_check_seal_page dev page⟩

theorem Holds.sealedBlock {slot : InfoPage OwnerBlock} {b : OwnerBlock} (h : Holds dev slot b) :
    SealedBlock dev b := by
  obtain ⟨raw, -, rfl, hseal⟩ := h
  exact ⟨fill_device_id_fill raw, hseal⟩

theorem SealedBlock.holds {b : OwnerBlock} (h : SealedBlock dev b) :
    Holds dev (.programmed b) b :=
  ⟨b, rfl, h.1, h.2⟩

/-- A page holds one block at most. -/
theorem Holds.unique {slot : InfoPage OwnerBlock} {a b : OwnerBlock} (ha : Holds dev slot a)
    (hb : Holds dev slot b) : a = b := by
  obtain ⟨raw, hread, rfl, -⟩ := ha
  obtain ⟨raw', hread', rfl, -⟩ := hb
  rw [hread] at hread'
  rw [Option.some.inj hread']

theorem not_holds_unreadable (b : OwnerBlock) : ¬ Holds dev .unreadable b := by
  rintro ⟨raw, hread, -⟩
  cases hread

theorem blankSealed_iff :
    BlankSealed dev ↔ ownership_seal_check dev (fill_device_id dev blank_page) = true := by
  constructor
  · rintro ⟨b, raw, hread, rfl, hseal⟩
    rw [← Option.some.inj hread] at hseal
    exact hseal
  · exact fun h => ⟨_, blank_page, rfl, rfl, h⟩

/-! ## Loading -/

theorem load_page_of_holds (nonce : Nonce) {slot : InfoPage OwnerBlock} {b : OwnerBlock}
    (h : Holds dev slot b) : load_page dev nonce slot = (b, kOwnerPageStatusSealed) := by
  obtain ⟨raw, hread, rfl, hseal⟩ := h
  simp only [load_page, hread, owner_page_validity_check]
  rw [if_pos hseal]

/-- The three results of loading a page. -/
theorem load_page_cases (nonce : Nonce) (slot : InfoPage OwnerBlock) :
    (∃ b, Holds dev slot b ∧ load_page dev nonce slot = (b, kOwnerPageStatusSealed)) ∨
      (∃ b, (∀ a, ¬ Holds dev slot a) ∧ fill_device_id dev b = b ∧
        load_page dev nonce slot = (b, kOwnerPageStatusSigned)) ∨
      (∃ b, (∀ a, ¬ Holds dev slot a) ∧
        load_page dev nonce slot = (b, kOwnerPageStatusInvalid)) := by
  unfold load_page
  cases hread : slot.read blank_page with
  | none =>
      refine .inr (.inr ⟨_, fun a ha => ?_, rfl⟩)
      obtain ⟨raw, hraw, -⟩ := ha
      rw [hread] at hraw
      cases hraw
  | some raw =>
      dsimp only
      unfold owner_page_validity_check
      by_cases hseal : ownership_seal_check dev (fill_device_id dev raw) = true
      · rw [if_pos hseal]
        exact .inl ⟨_, ⟨raw, hread, rfl, hseal⟩, rfl⟩
      · have hnot : ∀ a, ¬ Holds dev slot a := by
          rintro a ⟨raw', hraw, rfl, ha⟩
          rw [hread] at hraw
          rw [Option.some.inj hraw] at hseal
          exact hseal ha
        rw [if_neg hseal]
        split
        · exact .inr (.inr ⟨_, hnot, rfl⟩)
        · exact .inr (.inl ⟨_, hnot, fill_device_id_fill raw, rfl⟩)

/-- The status of a page says whether its flash page holds a block, and the RAM copy
is then that block. -/
def Backed (dev : Device) (s : RomExt) : Prop :=
  ∀ i, s.owner_page_valid i = kOwnerPageStatusSealed → Holds dev (s.slot i) (s.owner_page i)

/-- Signed pages have the device's identity filled in. -/
def Filled (dev : Device) (s : RomExt) : Prop :=
  ∀ i, s.owner_page_valid i = kOwnerPageStatusSigned →
    fill_device_id dev (s.owner_page i) = s.owner_page i

theorem load_pages_sealed_iff (s : RomExt) (i : Fin 2) :
    (load_pages dev s).owner_page_valid i = kOwnerPageStatusSealed ↔ ∃ b, Holds dev (s.slot i) b := by
  show (load_page dev s.bootdata.nonce (s.slot i)).2 = _ ↔ _
  rcases load_page_cases s.bootdata.nonce (s.slot i) with ⟨b, hb, h⟩ | ⟨b, hno, -, h⟩ | ⟨b, hno, h⟩
  · rw [h]
    exact iff_of_true rfl ⟨b, hb⟩
  · rw [h]
    exact iff_of_false (by simp) fun ⟨a, ha⟩ => hno a ha
  · rw [h]
    exact iff_of_false (by simp) fun ⟨a, ha⟩ => hno a ha

theorem load_pages_page {s : RomExt} {i : Fin 2} {b : OwnerBlock} (h : Holds dev (s.slot i) b) :
    (load_pages dev s).owner_page i = b := by
  show (load_page dev s.bootdata.nonce (s.slot i)).1 = b
  rw [load_page_of_holds _ h]

variable (dev) in
theorem backed_load_pages (s : RomExt) : Backed dev (load_pages dev s) := by
  intro i hvalid
  obtain ⟨b, hb⟩ := (load_pages_sealed_iff s i).mp hvalid
  rw [load_pages_page hb]
  exact hb

variable (dev) in
theorem filled_load_pages (s : RomExt) : Filled dev (load_pages dev s) := by
  intro i hvalid
  show fill_device_id dev (load_page dev s.bootdata.nonce (s.slot i)).1 = (load_page _ _ _).1
  have hstatus : (load_page dev s.bootdata.nonce (s.slot i)).2 = kOwnerPageStatusSigned := hvalid
  rcases load_page_cases s.bootdata.nonce (s.slot i) with ⟨b, -, h⟩ | ⟨b, -, hfill, h⟩ | ⟨b, -, h⟩
  · rw [h] at hstatus
    cases hstatus
  · rw [h]
    exact hfill
  · rw [h] at hstatus
    cases hstatus

/-! ## Erase and write -/

/-- What an erase and a write of one page leave when they are cut short. -/
def Cut (page : Fin 2) (s s' : RomExt) : Prop :=
  s' = s ∨ s' = { s with slot := Function.update s.slot page .erased }

section specs

variable {F : Fate → Prop} {s : RomExt}

theorem erase_write_spec (page source : Fin 2) :
    Spec F (do flash_ctrl_info_erase page; flash_ctrl_info_write page source) s
      (fun _ s' => s' =
        { s with slot := Function.update s.slot page (.programmed (s.owner_page source)) })
      (fun _ s' => Cut page s s') (fun s' => Cut page s s') := by
  refine Spec.bind
    (R := fun _ s' => s' = { s with slot := Function.update s.slot page .erased })
    (Spec.step rfl (fun _ => .inl rfl) (fun _ => .inl rfl)) ?_
  rintro - s' rfl
  refine Spec.step ?_ (fun _ => .inr rfl) (fun _ => .inr rfl)
  simp only [Function.update_self, Function.update_idem, InfoPage.write]

/-- What `ownership_activate` leaves when it only writes page 1 and completes. -/
def activated (dev : Device) (s : RomExt) : RomExt :=
  { seal_page1 dev s with
    slot := Function.update s.slot 1 (.programmed (ownership_seal_page dev (s.owner_page 1))) }

theorem ownership_activate_spec :
    Spec F (ownership_activate dev false) s (fun _ s' => s' = activated dev s)
      (fun _ s' => s' = s ∨ Cut 1 (seal_page1 dev s) s')
      (fun s' => s' = s ∨ Cut 1 (seal_page1 dev s) s') := by
  refine Spec.get (Spec.bind (R := fun _ s' => s' = s)
    (Spec.ofExcept (fun _ _ => rfl) fun _ _ => .inl rfl) ?_)
  rintro - s' rfl
  refine Spec.bind (R := fun _ t => t = seal_page1 dev s') (Spec.modify rfl) ?_
  rintro - t rfl
  refine Spec.bind (R := fun _ t => t = activated dev s') ?_ ?_
  · refine (erase_write_spec 1 1).conseq ?_ (fun _ _ h => .inr h) (fun _ h => .inr h)
    rintro - t rfl
    simp only [activated, seal_page1, Function.update_self]
  · rintro - t rfl
    exact Spec.pure rfl

/-! ## The update -/

/-- Nothing of what the boot goes by has changed, page 1 apart. -/
structure SamePage0 (s s' : RomExt) : Prop where
  slot : s'.slot 0 = s.slot 0
  page : s'.owner_page 0 = s.owner_page 0
  state : s'.bootdata.ownership_state = s.bootdata.ownership_state
  stored : s'.stored = s.stored

theorem seal_page1_state (s : RomExt) :
    (seal_page1 dev s).bootdata.ownership_state = s.bootdata.ownership_state := by
  simp only [seal_page1]
  split <;> rfl

theorem zero_ne_one_page : (0 : Fin 2) ≠ 1 := by decide

variable (dev) in
theorem seal_page1_page0 (s : RomExt) : (seal_page1 dev s).owner_page 0 = s.owner_page 0 := by
  simp only [seal_page1, Function.update_of_ne zero_ne_one_page]

variable (dev) in
theorem samePage0_activated (s : RomExt) : SamePage0 s (activated dev s) where
  slot := by simp only [activated, Function.update_of_ne zero_ne_one_page]
  page := seal_page1_page0 dev s
  state := seal_page1_state s
  stored := rfl

theorem samePage0_cut {s' : RomExt} (h : s' = s ∨ Cut 1 (seal_page1 dev s) s') :
    SamePage0 s s' ∧ s'.owner_page_valid = s.owner_page_valid := by
  rcases h with rfl | rfl | rfl
  · exact ⟨⟨rfl, rfl, rfl, rfl⟩, rfl⟩
  · exact ⟨⟨rfl, seal_page1_page0 dev s, seal_page1_state s, rfl⟩, rfl⟩
  · refine ⟨⟨?_, seal_page1_page0 dev s, seal_page1_state s, rfl⟩, rfl⟩
    simp only [seal_page1, Function.update_of_ne zero_ne_one_page]

/-- The three ways through the update. -/
inductive Updated (dev : Device) (s : RomExt) : RomExt → Prop
  | skipped (hpending : newversion_pending s = false) : Updated dev s s
  | failed {s' : RomExt} (hpending : newversion_pending s = true) (hsame : SamePage0 s s')
      (hvalid : s'.owner_page_valid = s.owner_page_valid) : Updated dev s s'
  | activated (hpending : newversion_pending s = true) :
      Updated dev s { activated dev s with
        owner_page_valid := fun i =>
          if i = 0 then kOwnerPageStatusInvalid else kOwnerPageStatusSealed }

theorem pending_iff : newversion_pending s = true ↔
    s.owner_page_valid 0 = kOwnerPageStatusSealed ∧ s.owner_page_valid 1 = kOwnerPageStatusSigned ∧
      owner_block_newversion_mode s = true ∧
      (s.owner_page 0).config_version < (s.owner_page 1).config_version ∧
      (s.owner_page 0).owner_key = (s.owner_page 1).owner_key := by
  simp only [newversion_pending, Bool.and_eq_true, decide_eq_true_eq, gt_iff_lt, and_assoc]

theorem update_spec :
    Spec F (locked_owner_update dev) s (fun _ s' => Updated dev s s') (fun _ _ => False)
      (fun s' => s.owner_page_valid 0 = kOwnerPageStatusSealed ∧ SamePage0 s s') := by
  refine Spec.get ?_
  by_cases hpending : newversion_pending s = true
  · rw [if_pos hpending]
    refine Spec.bind
      (R := fun r s' => (∃ u, r = .ok u ∧ s' = activated dev s) ∨
        ∃ e, r = .error e ∧ SamePage0 s s' ∧ s'.owner_page_valid = s.owner_page_valid) ?_ ?_
    · refine Spec.attempt (ownership_activate_spec.conseq ?_ ?_ ?_)
      · exact fun u _ h => .inl ⟨u, rfl, h⟩
      · exact fun e _ h => .inr ⟨e, rfl, samePage0_cut h⟩
      · exact fun _ h => ⟨(pending_iff.mp hpending).1, (samePage0_cut h).1⟩
    · rintro r s' (⟨u, rfl, rfl⟩ | ⟨e, rfl, hsame, hvalid⟩)
      · exact Spec.modify (.activated hpending)
      · exact Spec.pure (.failed hpending hsame hvalid)
  · rw [if_neg hpending]
    exact Spec.pure (.skipped (Bool.not_eq_true _ ▸ hpending))

theorem Updated.samePage0 {s' : RomExt} (h : Updated dev s s') : SamePage0 s s' := by
  cases h with
  | skipped => exact ⟨rfl, rfl, rfl, rfl⟩
  | failed _ hsame _ => exact hsame
  | activated _ =>
      obtain ⟨hslot, hpage, hstate, hstored⟩ := samePage0_activated dev s
      exact ⟨hslot, hpage, hstate, hstored⟩

/-- Two sealed pages are not updated. -/
theorem Updated.eq_of_sealed {s' : RomExt} (h : Updated dev s s')
    (hvalid : s.owner_page_valid 1 = kOwnerPageStatusSealed) : s' = s := by
  have hnot : newversion_pending s ≠ true := by
    intro hpending
    obtain ⟨-, hsigned, -⟩ := pending_iff.mp hpending
    rw [hsigned] at hvalid
    cases hvalid
  cases h with
  | skipped => rfl
  | failed hpending => exact absurd hpending hnot
  | activated hpending => exact absurd hpending hnot

/-- The update leaves a sealed page, if there was one. -/
theorem Updated.sealed {s' : RomExt} (h : Updated dev s s')
    (hsealed : ∃ i, s.owner_page_valid i = kOwnerPageStatusSealed) :
    ∃ i, s'.owner_page_valid i = kOwnerPageStatusSealed := by
  cases h with
  | skipped => exact hsealed
  | failed _ _ hvalid => exact hvalid ▸ hsealed
  | activated _ => exact ⟨1, rfl⟩

/-- After the update the statuses still tell what is in flash. -/
theorem Updated.backed {s' : RomExt} (h : Updated dev s s') (hbacked : Backed dev s)
    (hfilled : Filled dev s) : Backed dev s' := by
  cases h with
  | skipped => exact hbacked
  | failed hpending hsame hvalid =>
      obtain ⟨-, hsigned, -⟩ := pending_iff.mp hpending
      refine Fin.forall_fin_two.mpr ⟨fun hi => ?_, fun hi => ?_⟩
      · rw [hsame.slot, hsame.page]
        exact hbacked 0 (hvalid ▸ hi)
      · rw [hvalid, hsigned] at hi
        cases hi
  | activated hpending =>
      obtain ⟨-, hsigned, -⟩ := pending_iff.mp hpending
      refine Fin.forall_fin_two.mpr ⟨fun hi => (by cases hi), fun _ => ?_⟩
      have hsealed := sealedBlock_seal_page (hfilled 1 hsigned)
      exact hsealed.holds

/-! ## The repair -/

/-- The RAM side of a page copy. -/
def copied (good bad : Fin 2) (s : RomExt) : RomExt :=
  { s with owner_page := Function.update s.owner_page bad (s.owner_page good) }

theorem copy_page_spec (good bad : Fin 2) :
    Spec F (copy_page good bad) s
      (fun _ s' => s' = { copied good bad s with
        slot := Function.update s.slot bad (.programmed (s.owner_page good))
        owner_page_valid := Function.update s.owner_page_valid bad (s.owner_page_valid good) })
      (fun _ s' => Cut bad (copied good bad s) s') (fun s' => Cut bad (copied good bad s) s') := by
  refine Spec.bind (R := fun _ s' => s' = copied good bad s) (Spec.modify rfl) ?_
  rintro - s' rfl
  refine Spec.bind (R := fun _ s' => s' = { copied good bad s with
    slot := Function.update s.slot bad .erased })
    (Spec.step rfl (fun _ => .inl rfl) (fun _ => .inl rfl)) ?_
  rintro - s' rfl
  refine Spec.bind (R := fun _ s' => s' = { copied good bad s with
    slot := Function.update s.slot bad (.programmed (s.owner_page good)) })
    (Spec.step ?_ (fun _ => .inr rfl) (fun _ => .inr rfl)) ?_
  · simp only [copied, Function.update_self, Function.update_idem, InfoPage.write]
  · rintro - s' rfl
    exact Spec.modify rfl

/-- One page is sealed and the other is not. -/
def OnlySealed (s : RomExt) (good bad : Fin 2) : Prop :=
  good ≠ bad ∧ s.owner_page_valid good = kOwnerPageStatusSealed ∧
    s.owner_page_valid bad ≠ kOwnerPageStatusSealed

/-- What a repair that returns leaves. -/
inductive Repaired (s : RomExt) : RomExt → Prop
  | both (hboth : ∀ i, s.owner_page_valid i = kOwnerPageStatusSealed) : Repaired s s
  | copied {good bad : Fin 2} (honly : OnlySealed s good bad) :
      Repaired s { copied good bad s with
        slot := Function.update s.slot bad (.programmed (s.owner_page good))
        owner_page_valid := Function.update s.owner_page_valid bad (s.owner_page_valid good) }

/-- What a repair that does not return leaves. -/
inductive Unrepaired (s : RomExt) : RomExt → Prop
  | cut {good bad : Fin 2} {s' : RomExt} (honly : OnlySealed s good bad)
      (hcut : Cut bad (copied good bad s) s') : Unrepaired s s'
  | none {s' : RomExt} (hnone : ∀ i, s.owner_page_valid i ≠ kOwnerPageStatusSealed)
      (hslot : s'.slot = s.slot) : Unrepaired s s'

theorem enter_recovery_spec {α : Type} {Q : α → RomExt → Prop} :
    Spec F (enter_recovery dev : Rom α) s Q
      (fun _ s' => s'.slot = s.slot ∧ s'.bootdata.ownership_state = kOwnershipStateRecovery)
      (fun s' => s'.slot = s.slot ∧ s'.bootdata.ownership_state = kOwnershipStateRecovery) := by
  refine Spec.bind (R := fun _ s' => s'.slot = s.slot ∧
    s'.bootdata.ownership_state = kOwnershipStateRecovery) (Spec.modify ⟨rfl, rfl⟩) ?_
  rintro - s1 h1
  refine Spec.bind (R := fun _ s' => s'.slot = s.slot ∧
    s'.bootdata.ownership_state = kOwnershipStateRecovery) (Spec.modify h1) ?_
  rintro - s2 h2
  refine Spec.bind (R := fun _ s' => s'.slot = s.slot ∧
    s'.bootdata.ownership_state = kOwnershipStateRecovery)
    (Spec.step h2 (fun _ => h2) (fun _ => h2)) ?_
  rintro - s3 h3
  exact Spec.throw h3

theorem repair_spec :
    Spec F (locked_owner_repair dev) s (fun _ s' => Repaired s s') (fun _ s' => Unrepaired s s')
      (fun s' => Unrepaired s s') := by
  refine Spec.get ?_
  by_cases h0 : s.owner_page_valid 0 = kOwnerPageStatusSealed
  · by_cases h1 : s.owner_page_valid 1 = kOwnerPageStatusSealed
    · rw [if_pos ⟨h0, h1⟩]
      exact Spec.pure (.both (Fin.forall_fin_two.mpr ⟨h0, h1⟩))
    · rw [if_neg (fun h => h1 h.2), if_neg h1, if_pos h0]
      have honly : OnlySealed s 0 1 := ⟨by decide, h0, h1⟩
      refine (copy_page_spec 0 1).conseq ?_ (fun _ _ => .cut honly) (fun _ => .cut honly)
      rintro - s' rfl
      exact .copied honly
  · by_cases h1 : s.owner_page_valid 1 = kOwnerPageStatusSealed
    · rw [if_neg (fun h => h0 h.1), if_pos h1]
      have honly : OnlySealed s 1 0 := ⟨by decide, h1, h0⟩
      refine (copy_page_spec 1 0).conseq ?_ (fun _ _ => .cut honly) (fun _ => .cut honly)
      rintro - s' rfl
      exact .copied honly
    · rw [if_neg (fun h => h0 h.1), if_neg h1, if_neg h0]
      have hnone : ∀ i, s.owner_page_valid i ≠ kOwnerPageStatusSealed :=
        Fin.forall_fin_two.mpr ⟨h0, h1⟩
      exact enter_recovery_spec.conseq (fun _ _ h => h) (fun _ _ h => .none hnone h.1)
        (fun _ h => .none hnone h.1)

/-- A page the repair left alone or copied is sealed. -/
theorem Repaired.holds {s' : RomExt} (h : Repaired s s') (hbacked : Backed dev s) (i : Fin 2) :
    Holds dev (s'.slot i) (s'.owner_page i) := by
  cases h with
  | both hboth => exact hbacked i (hboth i)
  | @copied good bad honly =>
      obtain ⟨hne, hgood, -⟩ := honly
      have hheld := hbacked good hgood
      by_cases hi : i = bad
      · subst hi
        simp only [Ownership.copied, Function.update_self]
        exact hheld.sealedBlock.holds
      · have hi' : i = good := by omega
        subst hi'
        simp only [Ownership.copied, Function.update_of_ne hi]
        exact hheld

variable (dev) in
/-- What `locked_owner_init` does in front of the parse. -/
theorem pages_spec :
    Spec F (locked_owner_pages dev) s
      (fun _ s' => ∃ t, Updated dev s t ∧ Repaired t s')
      (fun _ s' => ∃ t, Updated dev s t ∧ Unrepaired t s')
      (fun s' => (s.owner_page_valid 0 = kOwnerPageStatusSealed ∧ SamePage0 s s') ∨
        ∃ t, Updated dev s t ∧ Unrepaired t s') := by
  refine Spec.bind (R := fun _ t => Updated dev s t)
    (update_spec.conseq (fun _ _ h => h) (fun _ _ h => h.elim) fun _ h => .inl h) ?_
  intro _ t ht
  exact repair_spec.conseq (fun _ _ h => ⟨t, ht, h⟩) (fun _ _ h => ⟨t, ht, h⟩)
    fun _ h => .inr ⟨t, ht, h⟩

end specs

/-! ## The boot around it -/

open Proc

theorem keeps_parse_page (page : Fin 2) (parsed : Parsed) : Keeps (parse_page dev page parsed) :=
  Keeps.get.bind fun _ => Keeps.ofExcept _

theorem keeps_info_apply (info : Option Item) : Keeps (owner_block_info_apply dev info) := by
  unfold owner_block_info_apply
  split
  · exact Keeps.pure _
  · exact Keeps.trap

/-- Parsing and applying a configuration changes no memory. -/
theorem keeps_locked_owner_apply (parsed : Parsed) : Keeps (locked_owner_apply dev parsed) :=
  (keeps_parse_page 0 parsed).bind fun _ => (Keeps.ofExcept _).bind fun _ =>
    (Keeps.ofExcept _).bind fun _ => (keeps_info_apply _).bind fun _ => Keeps.pure _

/-- A machine on which the owner pages have been read. -/
def loaded (dev : Device) (m : Machine RomExt) : Machine RomExt :=
  { m with mem := load_pages dev m.mem }

theorem ownership_init_locked {m : Machine RomExt}
    (hstate : m.mem.bootdata.ownership_state = kOwnershipStateLockedOwner) :
    ownership_init dev m = (do
      locked_owner_pages dev
      locked_owner_apply dev ⟨owner_config_default, []⟩) (loaded dev m) := by
  show (if m.mem.bootdata.ownership_state = kOwnershipStateLockedOwner then
    locked_owner_init dev ⟨owner_config_default, []⟩ else _) (loaded dev m) = _
  rw [if_pos hstate]
  rfl

theorem ownership_init_locked_snd {m : Machine RomExt}
    (hstate : m.mem.bootdata.ownership_state = kOwnershipStateLockedOwner) :
    (ownership_init dev m).2 = (locked_owner_pages dev (loaded dev m)).2 := by
  rw [ownership_init_locked hstate]
  exact bind_snd _ (fun _ => keeps_locked_owner_apply _) _

/-! ## A device to run the code on -/

/-- A polynomial checksum, in place of the hash and of the seal. -/
def checksum (bytes : List u8) : Vector u32 8 :=
  Vector.replicate 8 (BitVec.ofNat 32 (bytes.foldl (fun h b => (31 * h + b.toNat) % 2 ^ 32) 7))

/-- The signature of a message is the key with the message's checksum over it. -/
def bench_sign (key : OwnerKeydata) (message : List u8) : OwnerSignature :=
  ⟨Vector.ofFn fun i => key.raw[i] ^^^ (checksum message)[i.val % 8]⟩

def bench_device : Device where
  device_id := #v[1, 2, 3, 4, 5, 6, 7, 8]
  kmac := checksum
  hmac_sha256 := checksum
  owner_verify _ key ecdsa _ message _ := ecdsa = some (bench_sign key message).raw.toList
  kNoOwnerRecoveryKey := none
  flash := []
  is_silicon := true
  pages_per_bank := 256
  num_banks := 2
  rnd n := BitVec.ofNat 32 n

/-- An owner block without items. -/
def bench_block (config_version update_mode owner : u32) : OwnerBlock :=
  { OwnerBlock.filled 0x5a with
    header := ⟨kTlvTagOwner, 2048, 0, 0⟩
    config_version := config_version
    update_mode := update_mode
    ownership_key_alg := kOwnershipKeyAlgEcdsaP256
    min_security_version_bl0 := 0xffffffff
    lock_constraint := 0
    device_id := Vector.replicate 8 kLockConstraintNone
    owner_key := ⟨Vector.replicate 24 owner⟩
    activate_key := ⟨Vector.replicate 24 (owner + 1)⟩
    unlock_key := ⟨Vector.replicate 24 (owner + 2)⟩ }

def bench_signed (config_version update_mode owner : u32) : OwnerBlock :=
  let block := bench_block config_version update_mode owner
  { block with signature := bench_sign block.owner_key block.signed_bytes }

def bench_sealed (config_version update_mode owner : u32) : OwnerBlock :=
  ownership_seal_page bench_device (bench_signed config_version update_mode owner)

def bench_boot (ownership_state : u32) (slot0 slot1 : InfoPage OwnerBlock) : RomExt :=
  let bootdata := { BootData.ofWords [] with
    ownership_state := ownership_state, primary_bl0_slot := kBootSlotA }
  { owner_page := fun _ => blank_page
    owner_page_valid := fun _ => kOwnerPageStatusInvalid
    bootdata := bootdata
    slot := fun i => if i = 0 then slot0 else slot1
    secret := .erased
    stored := bootdata.payload
    drawn := 0 }

end IbexFirmware.Ownership
