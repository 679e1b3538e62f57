/-
What an unlock request does, exactly.

`OwnershipAuth` says what a request may do. For the boot data it also matters whether it
does it: a request that passes its checks ends with the code that has the boot data
written, and all others leave everything as it was. `UnlockGranted` is the condition,
`after_unlock` the state, and `unlock_handler_granted` and `unlock_handler_refused` are
the two halves. No operation on the flash is made, so neither half depends on one.
-/
import IbexFirmware.OwnershipActivate

set_option autoImplicit false

namespace IbexFirmware.Ownership

open Bytes OwnerBlock PowerFail OwnerPageStatus Proc

/-- The request is signed with one of the keys `key` of page 0 and is for this moment and
this device. -/
def UnlockSigned (dev : Device) (s : RomExt) (key : u32) (msg : OwnershipUnlockReq) : Prop :=
  ownership_key_validate dev (s.owner_page 0) key msg.type s.bootdata.nonce msg.signature
      msg.message = .kErrorOk ∧
    nonce_equal msg.nonce s.bootdata.nonce = true ∧ lifecycle_din_eq dev msg.din = true

/-- The unlock modes that give up the owner. -/
def transfer_modes : List u32 := [kBootSvcUnlockAny, kBootSvcUnlockEndorsed]

/-- The request passes the checks of its mode. -/
def UnlockGranted (dev : Device) (s : RomExt) (msg : OwnershipUnlockReq) : Prop :=
  (msg.unlock_mode ∈ transfer_modes ∧ s.bootdata.ownership_state = kOwnershipStateLockedOwner ∧
    (s.owner_page 0).update_mode = kOwnershipUpdateModeOpen ∧
    UnlockSigned dev s (kOwnershipKeyUnlock ||| kOwnershipKeyRecovery) msg) ∨
  (msg.unlock_mode ∈ transfer_modes ∧ is_locked_none s.bootdata.ownership_state = true ∧
    UnlockSigned dev s kOwnershipKeyRecovery msg) ∨
  (msg.unlock_mode = kBootSvcUnlockUpdate ∧
    s.bootdata.ownership_state = kOwnershipStateLockedOwner ∧
    (s.owner_page 0).update_mode ≠ kOwnershipUpdateModeNewVersion ∧
    UnlockSigned dev s kOwnershipKeyUnlock msg) ∨
  (msg.unlock_mode = kBootSvcUnlockAbort ∧ s.bootdata.ownership_state ∈ kUnlockedStates ∧
    UnlockSigned dev s kOwnershipKeyUnlock msg)

instance (dev : Device) (s : RomExt) (key : u32) (msg : OwnershipUnlockReq) :
    Decidable (UnlockSigned dev s key msg) :=
  inferInstanceAs (Decidable (_ ∧ _ ∧ _))

instance (dev : Device) (s : RomExt) (msg : OwnershipUnlockReq) :
    Decidable (UnlockGranted dev s msg) :=
  inferInstanceAs (Decidable (_ ∨ _ ∨ _ ∨ _))

/-- The boot data with the state that a request asks for. -/
def unlocked_bootdata (dev : Device) (msg : OwnershipUnlockReq) (b : BootData) : BootData :=
  if msg.unlock_mode = kBootSvcUnlockEndorsed then
    { b with next_owner := dev.hmac_sha256 msg.next_owner_key.bytes
             ownership_state := kOwnershipStateUnlockedEndorsed }
  else if msg.unlock_mode = kBootSvcUnlockAny then
    { b with ownership_state := kOwnershipStateUnlockedAny }
  else if msg.unlock_mode = kBootSvcUnlockUpdate then
    { b with ownership_state := kOwnershipStateUnlockedSelf }
  else { b with ownership_state := kOwnershipStateLockedOwner }

/-- The state that a granted request leaves. -/
def after_unlock (dev : Device) (msg : OwnershipUnlockReq) (s : RomExt) : RomExt :=
  { s with
    bootdata := { unlocked_bootdata dev msg s.bootdata with nonce := nonce_at dev s.drawn }
    drawn := s.drawn + 2 }

section unlock

variable {dev : Device} {msg : OwnershipUnlockReq} {m : Machine RomExt}

/-! ## The state it leaves -/

@[simp] theorem after_unlock_minimum (s : RomExt) :
    (after_unlock dev msg s).bootdata.min_security_version_bl0 =
      s.bootdata.min_security_version_bl0 := by
  simp only [after_unlock, unlocked_bootdata]
  split_ifs <;> rfl

@[simp] theorem after_unlock_primary (s : RomExt) :
    (after_unlock dev msg s).bootdata.primary_bl0_slot = s.bootdata.primary_bl0_slot := by
  simp only [after_unlock, unlocked_bootdata]
  split_ifs <;> rfl

/-! ## The checks -/

/-- The checks that every mode makes. -/
def unlock_checks (dev : Device) (key : u32) (msg : OwnershipUnlockReq) : Rom Unit := do
  unlock_key_validate dev key msg
  check_nonce_din dev msg.nonce msg.din

theorem checks_unlock (dev : Device) (key : u32) (msg : OwnershipUnlockReq) (m : Machine RomExt) :
    Checks (UnlockSigned dev m.mem key msg) (unlock_checks dev key msg) m := by
  have hnonce : Checks _ (check_nonce_din dev msg.nonce msg.din) m :=
    Checks.guard (Checks.guard (Checks.pure m))
  have hkey : Checks _ (unlock_key_validate dev key msg) m := checks_return_if_error _ m
  refine (hkey.bind hnonce).congr ?_
  simp only [UnlockSigned, Bool.not_eq_false, and_true]

/-- What a mode does behind its checks. -/
def unlock_effect (dev : Device) (change : Rom Unit) : Rom RomError := do
  change
  nonce_new dev
  return .kErrorWriteBootdataThenReboot

theorem validated_eq (key : u32) :
    (do unlock_key_validate dev key msg; do_unlock dev msg : Rom RomError) =
      (do unlock_checks dev key msg; unlock_effect dev (set_unlock_state dev msg)) := by
  funext m
  unfold unlock_checks do_unlock
  simp only [bind_run]
  rcases unlock_key_validate dev key msg m with ⟨outcome, m1⟩
  cases outcome <;> rfl

theorem aborted_eq (key : u32) :
    (do unlock_key_validate dev key msg
        check_nonce_din dev msg.nonce msg.din
        Proc.modify lock_owner
        nonce_new dev
        return .kErrorWriteBootdataThenReboot : Rom RomError) =
      (do unlock_checks dev key msg; unlock_effect dev (.modify lock_owner)) := by
  funext m
  unfold unlock_checks
  simp only [bind_run]
  rcases unlock_key_validate dev key msg m with ⟨outcome, m1⟩
  cases outcome <;> rfl

/-- The checks decide between what is behind them and an error. -/
theorem checked_run {P : Prop} {p : Rom Unit} {q : Rom RomError} (h : Checks P p m) :
    (P → (do p; q : Rom RomError) m = q m) ∧
      (¬ P → ∃ e, (do p; q : Rom RomError) m = (.error e, m)) := by
  refine ⟨fun hP => ?_, fun hP => ?_⟩
  · rw [bind_run, h.1 hP]
  · obtain ⟨e, he⟩ := h.2 hP
    exact ⟨e, by rw [bind_run, he]⟩

/-! ## What they decide -/

/-- The effect of the three modes of `do_unlock`. -/
theorem unlock_effect_run
    (hmode : msg.unlock_mode ∈ transfer_modes ∨ msg.unlock_mode = kBootSvcUnlockUpdate) :
    unlock_effect dev (set_unlock_state dev msg) m =
      (.ret .kErrorWriteBootdataThenReboot, { m with mem := after_unlock dev msg m.mem }) := by
  unfold unlock_effect set_unlock_state after_unlock unlocked_bootdata
  split_ifs with hendorsed hany hupdate
  · rfl
  · rfl
  · rfl
  · exfalso
    rcases hmode with htransfer | hupdate'
    · rcases List.mem_cons.mp htransfer with h | h
      · exact hany h
      · exact hendorsed (List.mem_singleton.mp h)
    · exact hupdate hupdate'

theorem abort_effect_run (hmode : msg.unlock_mode = kBootSvcUnlockAbort) :
    unlock_effect dev (.modify lock_owner) m =
      (.ret .kErrorWriteBootdataThenReboot, { m with mem := after_unlock dev msg m.mem }) := by
  unfold after_unlock unlocked_bootdata
  rw [if_neg (hmode ▸ by decide), if_neg (hmode ▸ by decide), if_neg (hmode ▸ by decide)]
  rfl

/-- The program grants the request if `P` holds, and if not, refuses it. -/
def Decides (P : Prop) (dev : Device) (msg : OwnershipUnlockReq) (m : Machine RomExt)
    (p : Rom RomError) : Prop :=
  (P → p m = (.ret .kErrorWriteBootdataThenReboot,
    { m with mem := after_unlock dev msg m.mem })) ∧
    (¬ P → ∃ e, p m = (.error e, m))

theorem Decides.congr {P Q : Prop} {p : Rom RomError} (h : Decides P dev msg m p) (hiff : P ↔ Q) :
    Decides Q dev msg m p :=
  propext hiff ▸ h

theorem decides_throw (e : RomError) : Decides False dev msg m (.throw e) :=
  ⟨False.elim, fun _ => ⟨e, rfl⟩⟩

/-- A test on the state in front of a program. -/
theorem Decides.ite {c P Q : Prop} [Decidable c] {p q : Rom RomError}
    (hp : c → Decides P dev msg m p) (hq : ¬ c → Decides Q dev msg m q) :
    Decides (c ∧ P ∨ ¬ c ∧ Q) dev msg m (if c then p else q) := by
  by_cases hc : c
  · rw [if_pos hc]
    exact (hp hc).congr (by simp [hc])
  · rw [if_neg hc]
    exact (hq hc).congr (by simp [hc])

theorem decides_validated (key : u32)
    (hmode : msg.unlock_mode ∈ transfer_modes ∨ msg.unlock_mode = kBootSvcUnlockUpdate) :
    Decides (UnlockSigned dev m.mem key msg) dev msg m
      (do unlock_key_validate dev key msg; do_unlock dev msg) := by
  rw [validated_eq]
  obtain ⟨hgranted, hrefused⟩ := checked_run (q := unlock_effect dev (set_unlock_state dev msg))
    (checks_unlock dev key msg m)
  exact ⟨fun h => (hgranted h).trans (unlock_effect_run hmode), hrefused⟩

/-! ## The modes -/

theorem decides_unlock (hmode : msg.unlock_mode ∈ transfer_modes) :
    Decides (m.mem.bootdata.ownership_state = kOwnershipStateLockedOwner ∧
        (m.mem.owner_page 0).update_mode = kOwnershipUpdateModeOpen ∧
        UnlockSigned dev m.mem (kOwnershipKeyUnlock ||| kOwnershipKeyRecovery) msg ∨
      is_locked_none m.mem.bootdata.ownership_state = true ∧
        UnlockSigned dev m.mem kOwnershipKeyRecovery msg) dev msg m (unlock dev msg) := by
  refine Decides.congr (Decides.ite (fun _ => Decides.ite
    (fun _ => decides_validated _ (.inl hmode))
    fun _ => Decides.ite (fun _ => decides_throw _) fun _ => decides_throw _)
    fun _ => Decides.ite (fun _ => decides_validated _ (.inl hmode)) fun _ => decides_throw _) ?_
  -- a locked device is not one without an owner
  have hlocked : m.mem.bootdata.ownership_state = kOwnershipStateLockedOwner →
      is_locked_none m.mem.bootdata.ownership_state ≠ true := by
    intro h
    rw [h]
    decide
  tauto

theorem decides_unlock_update (hmode : msg.unlock_mode = kBootSvcUnlockUpdate) :
    Decides (m.mem.bootdata.ownership_state = kOwnershipStateLockedOwner ∧
        (m.mem.owner_page 0).update_mode ≠ kOwnershipUpdateModeNewVersion ∧
        UnlockSigned dev m.mem kOwnershipKeyUnlock msg) dev msg m (unlock_update dev msg) := by
  refine Decides.congr (Decides.ite (fun _ => Decides.ite (fun _ => decides_throw _)
    fun _ => decides_validated _ (.inr hmode)) fun _ => decides_throw _) ?_
  simp

theorem decides_unlock_abort (hmode : msg.unlock_mode = kBootSvcUnlockAbort) :
    Decides (m.mem.bootdata.ownership_state ∈ kUnlockedStates ∧
        UnlockSigned dev m.mem kOwnershipKeyUnlock msg) dev msg m (unlock_abort dev msg) := by
  have hchecked : Decides (UnlockSigned dev m.mem kOwnershipKeyUnlock msg) dev msg m
      (do unlock_checks dev kOwnershipKeyUnlock msg; unlock_effect dev (.modify lock_owner)) := by
    obtain ⟨hgranted, hrefused⟩ := checked_run (q := unlock_effect dev (.modify lock_owner))
      (checks_unlock dev kOwnershipKeyUnlock msg m)
    exact ⟨fun h => (hgranted h).trans (abort_effect_run hmode), hrefused⟩
  rw [← aborted_eq] at hchecked
  refine Decides.congr (Decides.ite (fun _ => hchecked) fun _ => decides_throw _) ?_
  simp

/-- The switch goes to `unlock` in the transfer modes. -/
theorem unlock_switch_transfer (hmode : msg.unlock_mode ∈ transfer_modes) :
    unlock_switch dev msg = unlock dev msg := by
  unfold unlock_switch
  rcases List.mem_cons.mp hmode with h | h
  · rw [if_pos h]
  · rw [List.mem_singleton.mp h]
    rfl

theorem unlock_switch_update (hmode : msg.unlock_mode = kBootSvcUnlockUpdate) :
    unlock_switch dev msg = unlock_update dev msg := by
  unfold unlock_switch
  rw [hmode]
  rfl

theorem unlock_switch_abort (hmode : msg.unlock_mode = kBootSvcUnlockAbort) :
    unlock_switch dev msg = unlock_abort dev msg := by
  unfold unlock_switch
  rw [hmode]
  rfl

/-- Each mode of the request is decided by the state it is allowed in. -/
theorem decides_unlock_switch : Decides (UnlockGranted dev m.mem msg) dev msg m
    (unlock_switch dev msg) := by
  unfold UnlockGranted
  by_cases htransfer : msg.unlock_mode ∈ transfer_modes
  · rw [unlock_switch_transfer htransfer]
    have hupdate : msg.unlock_mode ≠ kBootSvcUnlockUpdate := by
      intro h
      rw [h] at htransfer
      exact absurd htransfer (by decide)
    have habort : msg.unlock_mode ≠ kBootSvcUnlockAbort := by
      intro h
      rw [h] at htransfer
      exact absurd htransfer (by decide)
    exact (decides_unlock htransfer).congr (by tauto)
  by_cases hupdate : msg.unlock_mode = kBootSvcUnlockUpdate
  · rw [unlock_switch_update hupdate]
    have habort : msg.unlock_mode ≠ kBootSvcUnlockAbort := by
      rw [hupdate]
      decide
    exact (decides_unlock_update hupdate).congr (by tauto)
  by_cases habort : msg.unlock_mode = kBootSvcUnlockAbort
  · rw [unlock_switch_abort habort]
    exact (decides_unlock_abort habort).congr (by tauto)
  · -- no mode of the switch
    obtain ⟨hany, hendorsed⟩ : msg.unlock_mode ≠ kBootSvcUnlockAny ∧
        msg.unlock_mode ≠ kBootSvcUnlockEndorsed := by
      simpa [transfer_modes] using htransfer
    unfold unlock_switch
    rw [if_neg hany, if_neg hendorsed, if_neg hupdate, if_neg habort]
    exact (decides_throw _).congr (by tauto)

/-! ## The codes of a refusal -/

theorem key_validate_ne_reboot (page : OwnerBlock) (key command : u32) (nonce : Nonce)
    (signature : OwnerSignature) (message : List u8) :
    ownership_key_validate dev page key command nonce signature message ≠
      .kErrorWriteBootdataThenReboot := by
  unfold ownership_key_validate
  split
  · -- the selection of a signature has its own errors
    rename_i e hselect
    unfold select_signature at hselect
    split_ifs at hselect
    · cases hselect
      decide
    · split at hselect
      · cases hselect
        decide
      · dsimp only at hselect
        split_ifs at hselect
        cases hselect
        decide
  · dsimp only
    split_ifs <;> decide

/-- An error of `p`, if it ends with one, is not the code for a reboot. -/
def NoReboot {α : Type} (p : Rom α) : Prop :=
  ∀ s, Spec (fun _ => True) p s (fun _ _ => True) (fun e _ => e ≠ .kErrorWriteBootdataThenReboot)
    fun _ => True

theorem NoReboot.bind {α β : Type} {p : Rom α} {f : α → Rom β} (hp : NoReboot p)
    (hf : ∀ a, NoReboot (f a)) : NoReboot (p >>= f) :=
  fun s => (hp s).bind fun a s' _ => hf a s'

theorem NoReboot.throw {α : Type} {e : RomError} (he : e ≠ .kErrorWriteBootdataThenReboot) :
    NoReboot (.throw e : Rom α) :=
  fun _ => Spec.throw he

theorem NoReboot.ite {α : Type} {c : Prop} [Decidable c] {p q : Rom α} (hp : NoReboot p)
    (hq : NoReboot q) : NoReboot (if c then p else q) := by
  split
  · exact hp
  · exact hq

theorem noReboot_key_validate (key : u32) : NoReboot (unlock_key_validate dev key msg) := by
  intro s
  exact Spec.get (return_if_error_spec (fun _ => trivial) (key_validate_ne_reboot _ _ _ _ _ _))

theorem noReboot_check_nonce_din (nonce : Nonce) (din : Vector u32 2) :
    NoReboot (check_nonce_din dev nonce din) := by
  intro s
  refine Spec.get ?_
  split_ifs
  · exact Spec.throw nofun
  · exact Spec.throw nofun
  · exact Spec.pure trivial

theorem noReboot_effect {change : Rom Unit} (hchange : NoReboot change) :
    NoReboot (unlock_effect dev change) :=
  hchange.bind fun _ => NoReboot.bind (fun _ => Spec.modify trivial) fun _ _ => Spec.pure trivial

theorem noReboot_set_unlock_state : NoReboot (set_unlock_state dev msg) := by
  intro s
  unfold set_unlock_state
  split_ifs
  · exact Spec.modify trivial
  · exact Spec.modify trivial
  · exact Spec.modify trivial
  · exact Spec.throw nofun

theorem noReboot_validated (key : u32) :
    NoReboot (do unlock_key_validate dev key msg; do_unlock dev msg : Rom RomError) :=
  (noReboot_key_validate key).bind fun _ =>
    (noReboot_check_nonce_din _ _).bind fun _ => noReboot_effect noReboot_set_unlock_state

theorem noReboot_unlock_switch (dev : Device) (msg : OwnershipUnlockReq) :
    NoReboot (unlock_switch dev msg) := by
  have hunlock : NoReboot (unlock dev msg) := by
    intro s
    refine Spec.get (NoReboot.ite ?_ ?_ s)
    · exact .ite (noReboot_validated _) (.ite (.throw nofun) (.throw nofun))
    · exact .ite (noReboot_validated _) (.throw nofun)
  have hupdate : NoReboot (unlock_update dev msg) := by
    intro s
    refine Spec.get (NoReboot.ite ?_ ?_ s)
    · exact .ite (.throw nofun) (noReboot_validated _)
    · exact .throw nofun
  have habort : NoReboot (unlock_abort dev msg) := by
    intro s
    refine Spec.get (NoReboot.ite ?_ ?_ s)
    · exact (noReboot_key_validate _).bind fun _ => (noReboot_check_nonce_din _ _).bind fun _ =>
        noReboot_effect fun _ => Spec.modify trivial
    · exact .throw nofun
  exact .ite hunlock (.ite hunlock (.ite hupdate (.ite habort (.throw nofun))))

/-! ## The handler -/

theorem unlock_handler_granted (h : UnlockGranted dev m.mem msg) :
    ownership_unlock_handler dev msg m =
      (.ret .kErrorWriteBootdataThenReboot, { m with mem := after_unlock dev msg m.mem }) := by
  unfold ownership_unlock_handler
  rw [handler_run, decides_unlock_switch.1 h]

theorem unlock_handler_refused (h : ¬ UnlockGranted dev m.mem msg) :
    ∃ e, e ≠ .kErrorWriteBootdataThenReboot ∧ ownership_unlock_handler dev msg m = (.ret e, m) := by
  obtain ⟨e, he⟩ := decides_unlock_switch.2 h
  have hcode := (noReboot_unlock_switch dev msg m.mem m rfl fun _ => trivial).1
  rw [he] at hcode
  refine ⟨e, hcode, ?_⟩
  unfold ownership_unlock_handler
  rw [handler_run, he]

end unlock

end IbexFirmware.Ownership
