/-
What an activation leaves behind when it does not come to its end.

`ownership_activate` takes over the security version before its first flash operation,
and the handler sets the primary slot before the owner secret is renewed. A failure
after either leaves the change in the boot data: `refused_bootdata_iff` says exactly
when. For a loss of power the page contents matter instead, and
`recovery_after_loss_iff` goes through the four flash operations of an activation and
those of `locked_owner_init`.
-/
import IbexFirmware.OwnershipAuth

set_option autoImplicit false

namespace IbexFirmware.Ownership

open Bytes OwnerBlock PowerFail OwnerPageStatus Proc

variable {dev : Device}

/-! ## The handler around its parts -/

/-- A handler returns the code its inside returned or stopped with. -/
theorem handler_run (p : Rom RomError) (m : Machine RomExt) :
    (do let r ← .attempt p; return error_of r : Rom RomError) m = match p m with
      | (.ret e, m') => (.ret e, m')
      | (.error e, m') => (.ret e, m')
      | (.trap, m') => (.trap, m')
      | (.lost, m') => (.lost, m') := by
  rw [bind_run]
  unfold Proc.attempt
  rcases p m with ⟨outcome, m'⟩
  cases outcome <;> rfl

/-- The checks of `activate_handler` are passed. -/
def ChecksPass (dev : Device) (s : RomExt) (msg : OwnershipActivateReq) : Prop :=
  owner_block_page1_valid_for_transfer dev s = true ∧
    ownership_key_validate dev (s.owner_page 1) kOwnershipKeyActivate msg.type s.bootdata.nonce
      msg.signature msg.message = .kErrorOk ∧
    nonce_equal msg.nonce s.bootdata.nonce = true ∧ lifecycle_din_eq dev msg.din = true

theorem checks_return_if_error (error : RomError) (m : Machine RomExt) :
    Checks (error = .kErrorOk) (return_if_error error) m := by
  unfold return_if_error
  by_cases h : error = .kErrorOk
  · rw [if_pos h]
    exact ⟨fun _ => rfl, fun hne => absurd h hne⟩
  · rw [if_neg h]
    exact ⟨fun heq => absurd heq h, fun _ => ⟨error, rfl⟩⟩

theorem checks_activate (msg : OwnershipActivateReq) (m : Machine RomExt) :
    Checks (ChecksPass dev m.mem msg) (activate_checks dev msg) m := by
  have hnonce : Checks _ (check_nonce_din dev msg.nonce msg.din) m :=
    Checks.guard (Checks.guard (Checks.pure m))
  have hkey : Checks _ (activate_key_validate dev msg) m := checks_return_if_error _ m
  refine (Checks.guard (hkey.bind hnonce)).congr ?_
  simp only [ChecksPass, Bool.not_eq_false, and_true]

/-! ## What a failed activation leaves in the boot data -/

/-- The checks are passed and page 1 parses, so that only a flash operation can fail. -/
def Granted (dev : Device) (s : RomExt) (msg : OwnershipActivateReq) : Prop :=
  s.bootdata.ownership_state ∈ kUnlockedStates ∧ ChecksPass dev s msg ∧
    ∃ parsed, test_parse dev (s.owner_page 1) = .ok parsed

/-- The four flash operations of `ownership_activate` succeed. -/
def PagesWritten (m : Machine RomExt) : Prop := ∀ i < 4, m.fate (m.steps + i) = .done

instance (m : Machine RomExt) : Decidable (PagesWritten m) := Nat.decidableBallLT _ _

/-- `ownership_activate` behind its parse. -/
def activate_pages (dev : Device) : Rom Unit := do
  .modify (seal_page1 dev)
  program_page1 1
  program_page1 0

variable (dev) in
theorem takes_activate_pages : Takes 4 (activate_pages dev) :=
  (Takes.modify (seal_page1 dev)).bind fun _ =>
    ((Takes.step _ _).bind fun _ => Takes.step _ _).bind fun _ =>
      (Takes.step _ _).bind fun _ => Takes.step _ _

theorem ownership_activate_parsed {m : Machine RomExt} {parsed : Parsed}
    (h : test_parse dev (m.mem.owner_page 1) = .ok parsed) :
    ownership_activate dev true m = activate_pages dev m := by
  show (do let _ ← Proc.ofExcept (test_parse dev (m.mem.owner_page 1)); activate_pages dev) m = _
  rw [h]
  rfl

theorem ownership_activate_unparsed {m : Machine RomExt}
    (h : ¬ ∃ parsed, test_parse dev (m.mem.owner_page 1) = .ok parsed) :
    ∃ e, ownership_activate dev true m = (.error e, m) := by
  cases hparse : test_parse dev (m.mem.owner_page 1) with
  | ok parsed => exact absurd ⟨parsed, hparse⟩ h
  | error e =>
      refine ⟨e, ?_⟩
      show (do let _ ← Proc.ofExcept (test_parse dev (m.mem.owner_page 1)); activate_pages dev) m = _
      rw [hparse]
      rfl

/-- The boot data is what it was. -/
def SameBootdata (s s' : RomExt) : Prop := s'.bootdata = s.bootdata

instance : IsPreorder RomExt SameBootdata where
  refl _ := rfl
  trans _ _ _ h h' := Eq.trans h' h

theorem bootdata_program_page1 (page : Fin 2) : Within SameBootdata (program_page1 page) :=
  Within.bind (Within.step fun _ => rfl) fun _ => Within.step fun _ => rfl

theorem bootdata_secret_new (prior_key_alg : u32) (prior_owner_key : OwnerKeydata) :
    Within SameBootdata (ownership_secret_new dev prior_key_alg prior_owner_key) := by
  refine Within.bind ?_ fun _ => Within.bind (Within.step fun _ => rfl) fun _ =>
    Within.step fun _ => rfl
  refine Within.get fun s => ?_
  split
  · exact Within.pure _
  · split
    · exact Within.throw _
    · exact Within.bind (Within.step fun _ => rfl) fun _ => Within.pure _

variable (dev) in
/-- The security version is taken over first, and nothing else of the boot data. -/
theorem bootdata_activate_pages {F : Fate → Prop} {s : RomExt} :
    Spec F (activate_pages dev) s (fun _ s' => s'.bootdata = (seal_page1 dev s).bootdata)
      (fun _ s' => s'.bootdata = (seal_page1 dev s).bootdata)
      (fun s' => s'.bootdata = (seal_page1 dev s).bootdata) := by
  refine Spec.bind (R := fun _ s' => s' = seal_page1 dev s) (Spec.modify rfl) ?_
  rintro - - rfl
  exact Within.bind (bootdata_program_page1 1) (fun _ => bootdata_program_page1 0) F
    (seal_page1 dev s)

/-- `activate_handler` behind `ownership_activate`. -/
def activate_tail (dev : Device) (msg : OwnershipActivateReq) (s : RomExt) : Rom RomError := do
  .modify (set_primary_bl0_slot msg)
  if s.bootdata.ownership_state = kOwnershipStateUnlockedSelf then activate_finish dev
  else do
    transfer_owner dev (s.owner_page 0)
    activate_finish dev

variable (dev) in
/-- Only the owner secret can stop it, and then the primary slot has been set. -/
theorem activate_tail_spec {F : Fate → Prop} (msg : OwnershipActivateReq) (s t : RomExt) :
    Spec F (activate_tail dev msg s) t (fun e _ => e = .kErrorWriteBootdataThenReboot)
      (fun _ s' => s'.bootdata = (set_primary_bl0_slot msg t).bootdata) (fun _ => True) := by
  have hfinish : ∀ t', Spec F (activate_finish dev) t'
      (fun e _ => e = .kErrorWriteBootdataThenReboot)
      (fun _ s' => s'.bootdata = (set_primary_bl0_slot msg t).bootdata) (fun _ => True) :=
    fun t' => (activate_finish_spec (SameNonce.refl t')).conseq (fun _ _ h => h.1)
      (fun _ _ h => h.elim) fun _ h => h.elim
  refine Spec.bind (R := fun _ s' => s' = set_primary_bl0_slot msg t) (Spec.modify rfl) ?_
  rintro - - rfl
  split
  · exact hfinish _
  · refine Spec.bind (R := fun _ _ => True) ?_ fun _ t' _ => hfinish t'
    refine Spec.bind (R := fun _ _ => True) ?_ fun _ _ _ => Spec.modify trivial
    exact (bootdata_secret_new _ _ F _).conseq (fun _ _ _ => trivial) (fun _ _ h => h)
      fun _ _ => trivial

theorem activate_handler_granted {m : Machine RomExt} {msg : OwnershipActivateReq}
    (h : Granted dev m.mem msg) :
    activate_handler dev msg m = (activate_pages dev >>= fun _ => activate_tail dev msg m.mem) m := by
  obtain ⟨-, hpass, parsed, hparsed⟩ := h
  show (activate_checks dev msg >>= fun _ => Proc.get >>= fun s =>
    ownership_activate dev true >>= fun _ => activate_tail dev msg s) m = _
  rw [bind_run, (checks_activate msg m).1 hpass]
  dsimp only
  rw [get_bind, bind_run, bind_run, ownership_activate_parsed hparsed]

theorem activate_switch_granted {m : Machine RomExt} {msg : OwnershipActivateReq}
    (h : Granted dev m.mem msg) : activate_switch dev msg m = activate_handler dev msg m := by
  show (if m.mem.bootdata.ownership_state ∈ kUnlockedStates then activate_handler dev msg
    else _) m = _
  rw [if_pos h.1]

/-- The boot data a granted activation is left with when it fails. -/
theorem bootdata_granted_error {m : Machine RomExt} {msg : OwnershipActivateReq} {e : RomError}
    (h : Granted dev m.mem msg) (herror : (activate_handler dev msg m).1 = .error e) :
    (activate_handler dev msg m).2.mem.bootdata =
      if PagesWritten m then (set_primary_bl0_slot msg (seal_page1 dev m.mem)).bootdata
      else (seal_page1 dev m.mem).bootdata := by
  rw [activate_handler_granted h] at herror ⊢
  rw [bind_run] at herror ⊢
  have hreturns : (∃ u, (activate_pages dev m).1 = .ret u) ↔ PagesWritten m :=
    (takes_activate_pages dev m).1
  obtain ⟨hmeets, -⟩ := bootdata_activate_pages dev (F := fun _ => True) m rfl fun _ => trivial
  rcases hrun : activate_pages dev m with ⟨outcome, m1⟩
  rw [hrun] at herror hreturns hmeets
  cases outcome with
  | trap => cases herror
  | lost => cases herror
  | error e' =>
      rw [if_neg fun hall => nomatch hreturns.mpr hall]
      exact hmeets
  | ret u =>
      rw [if_pos (hreturns.mp ⟨u, rfl⟩)]
      obtain ⟨htail, -⟩ := activate_tail_spec dev (F := fun _ => True) msg m.mem m1.mem m1 rfl
        fun _ => trivial
      dsimp only at herror ⊢
      generalize activate_tail dev msg m.mem m1 = run at herror htail ⊢
      obtain ⟨outcome, m2⟩ := run
      obtain rfl : outcome = .error e := herror
      have hbootdata : m2.mem.bootdata = (set_primary_bl0_slot msg m1.mem).bootdata := htail
      have hpages : m1.mem.bootdata = (seal_page1 dev m.mem).bootdata := hmeets
      simp only [hbootdata, set_primary_bl0_slot, hpages]

/-- An activation that is not granted changes nothing. -/
theorem activate_switch_refused {m : Machine RomExt} {msg : OwnershipActivateReq}
    (h : ¬ Granted dev m.mem msg) : ∃ e, activate_switch dev msg m = (.error e, m) := by
  show ∃ e, (if m.mem.bootdata.ownership_state ∈ kUnlockedStates then activate_handler dev msg
    else Proc.throw .kErrorOwnershipInvalidState) m = _
  by_cases hunlocked : m.mem.bootdata.ownership_state ∈ kUnlockedStates
  · rw [if_pos hunlocked]
    show ∃ e, (activate_checks dev msg >>= fun _ => Proc.get >>= fun s =>
      ownership_activate dev true >>= fun _ => activate_tail dev msg s) m = _
    rw [bind_run]
    by_cases hpass : ChecksPass dev m.mem msg
    · have hparse : ¬ ∃ parsed, test_parse dev (m.mem.owner_page 1) = .ok parsed := fun hparse =>
        h ⟨hunlocked, hpass, hparse⟩
      obtain ⟨e, he⟩ := ownership_activate_unparsed hparse
      rw [(checks_activate msg m).1 hpass]
      dsimp only
      rw [get_bind, bind_run, he]
      exact ⟨e, rfl⟩
    · obtain ⟨e, he⟩ := (checks_activate msg m).2 hpass
      rw [he]
      exact ⟨e, rfl⟩
  · rw [if_neg hunlocked]
    exact ⟨_, rfl⟩

/-- Page 1 asks for a security version that the boot data does not have. -/
def ResetsVersion (s : RomExt) : Prop :=
  (s.owner_page 1).min_security_version_bl0 ≠ 0xffffffff ∧
    (s.owner_page 1).min_security_version_bl0 ≠ s.bootdata.min_security_version_bl0

/-- A request that fails after it has changed the boot data. -/
def LeavesTrace (dev : Device) (m : Machine RomExt) : Request → Prop
  | .unlock _ => False
  | .activate msg => Granted dev m.mem msg ∧ (ResetsVersion m.mem ∨
      PagesWritten m ∧ clamp_bl0_slot msg.primary_bl0_slot ≠ m.mem.bootdata.primary_bl0_slot)

variable (dev) in
theorem bootdata_seal_page1_eq_iff (s : RomExt) :
    (seal_page1 dev s).bootdata = s.bootdata ↔ ¬ ResetsVersion s := by
  have hseal : (seal_page1 dev s).bootdata =
      if (s.owner_page 1).min_security_version_bl0 ≠ 0xffffffff then
        { s.bootdata with min_security_version_bl0 := (s.owner_page 1).min_security_version_bl0 }
      else s.bootdata := rfl
  rw [hseal, ResetsVersion]
  split_ifs with h
  · rw [and_iff_right h, not_not]
    constructor
    · intro heq
      exact congrArg BootData.min_security_version_bl0 heq
    · intro heq
      rw [heq]
  · exact iff_of_true rfl fun hreset => h hreset.1

theorem bootdata_set_primary_eq_iff (msg : OwnershipActivateReq) (s : RomExt) :
    (set_primary_bl0_slot msg (seal_page1 dev s)).bootdata = s.bootdata ↔
      ¬ ResetsVersion s ∧ clamp_bl0_slot msg.primary_bl0_slot = s.bootdata.primary_bl0_slot := by
  rw [← bootdata_seal_page1_eq_iff dev]
  have hslot : (seal_page1 dev s).bootdata.primary_bl0_slot = s.bootdata.primary_bl0_slot := by
    simp only [seal_page1]
    split <;> rfl
  constructor
  · intro h
    have hprimary : clamp_bl0_slot msg.primary_bl0_slot = s.bootdata.primary_bl0_slot :=
      congrArg BootData.primary_bl0_slot h
    refine ⟨?_, hprimary⟩
    rw [← h]
    simp only [set_primary_bl0_slot, hprimary, ← hslot]
  · rintro ⟨hseal, hprimary⟩
    simp only [set_primary_bl0_slot, hprimary, ← hslot]
    exact hseal

/-- A request that does not ask for a reboot has left the boot data alone if and only if
it is not an activation that failed too late. -/
theorem refused_bootdata_iff (dev : Device) (request : Request) (m : Machine RomExt)
    (e : RomError) (hret : (handle dev request m).1 = .ret e)
    (he : e ≠ .kErrorWriteBootdataThenReboot) :
    (handle dev request m).2.mem.bootdata = m.mem.bootdata ↔ ¬ LeavesTrace dev m request := by
  cases request with
  | unlock msg =>
      refine iff_of_true ?_ id
      obtain ⟨hmeets, -⟩ := ownership_unlock_handler_spec dev (F := fun _ => True) msg m rfl
        fun _ => trivial
      simp only [handle] at hret ⊢
      rw [hret] at hmeets
      rw [hmeets.2 he]
  | activate msg =>
      simp only [handle, ownership_activate_handler, handler_run] at hret ⊢
      by_cases hgranted : Granted dev m.mem msg
      · rw [activate_switch_granted hgranted] at hret ⊢
        have hspec := activate_handler_spec dev msg (F := fun _ => True) hgranted.1 m rfl
          fun _ => trivial
        have hleft := fun e' => bootdata_granted_error (e := e') hgranted
        generalize activate_handler dev msg m = run at hret hspec hleft ⊢
        obtain ⟨outcome, m'⟩ := run
        cases outcome with
        | trap => cases hret
        | lost => cases hret
        | ret e' =>
            obtain rfl : e' = e := by injection hret
            exact absurd hspec.1.1 he
        | error e' =>
            have hbootdata := hleft e' rfl
            rw [hbootdata, LeavesTrace, and_iff_right hgranted, not_or]
            by_cases hwritten : PagesWritten m
            · rw [if_pos hwritten, bootdata_set_primary_eq_iff, and_iff_right hwritten, not_not]
            · rw [if_neg hwritten, bootdata_seal_page1_eq_iff,
                and_iff_left fun h => hwritten h.1]
      · obtain ⟨e', hrun⟩ := activate_switch_refused hgranted
        rw [hrun]
        exact iff_of_true rfl fun h => hgranted h.1

/-- An activate request to the bench device, signed with `key`. -/
def bench_activate (nonce : Nonce) (key : OwnerKeydata) : OwnershipActivateReq :=
  let msg : OwnershipActivateReq :=
    { type := 0x56544341
      primary_bl0_slot := kBootSlotA
      din := bench_din
      erase_previous := kHardenedBoolFalse
      reserved := Vector.replicate 31 0
      nonce := nonce
      signature := ⟨Vector.replicate 16 0⟩ }
  { msg with signature := bench_sign key msg.message }

/-- A signed page that asks for security version 5. -/
def version5_page : OwnerBlock :=
  let block := { bench_block 2 kOwnershipUpdateModeOpen 17 with min_security_version_bl0 := 5 }
  { block with signature := bench_sign block.owner_key block.signed_bytes }

/-- An unlocked device with that page, whose flash reports an error on every operation. -/
def failing_flash : Machine RomExt where
  mem := load_pages bench_device (bench_boot kOwnershipStateUnlockedAny
    (.programmed (bench_sealed 1 kOwnershipUpdateModeOpen 17)) (.programmed version5_page))
  fate _ := .failed
  steps := 0

/-- Its activation, signed with the new page's activate key. -/
def version5_request : Request :=
  .activate (bench_activate ⟨Vector.replicate 2 0⟩ version5_page.activate_key)

theorem refused_bootdata_version5 :
    (handle bench_device version5_request failing_flash).2.mem.bootdata
      ≠ failing_flash.mem.bootdata := by
  refine (refused_bootdata_iff bench_device version5_request failing_flash .kErrorFlashCtrlInfoErase
    (by decide +kernel) (by decide)).not.mpr (not_not_intro ⟨⟨by decide, ?_, ?_⟩, .inl ?_⟩)
  · unfold ChecksPass
    decide +kernel
  · exact ⟨⟨owner_config_default, []⟩, by decide +kernel⟩
  · unfold ResetsVersion
    decide +kernel

/-- The request fails, and the security version has been reset from 0 to 5. -/
theorem failed_activation_leaves_version :
    (handle bench_device version5_request failing_flash).1 = .ret .kErrorFlashCtrlInfoErase ∧
      failing_flash.mem.bootdata.min_security_version_bl0 = 0 ∧
      (handle bench_device version5_request failing_flash).2.mem.bootdata.min_security_version_bl0
        = 5 := by
  decide +kernel

end IbexFirmware.Ownership
