/-
Who may change the ownership state.

`Permitted` lists the transitions with the keys that may sign for them, as the update
mode of page 0 and the state leave them. `Handled` is all a request can do to the state
and to the nonce: nothing, or a permitted transition for a request that is signed and
carries the current nonce, and then the nonce is a new one. `handle_spec` says that the
handlers do no more, whatever becomes of their flash operations.

Over a sequence of requests the nonce is what counts. One that was replaced is retired:
it is not the current one and will not be drawn again (`Retired`).
-/
import IbexFirmware.OwnershipRequests

set_option autoImplicit false

namespace IbexFirmware.Ownership

open Bytes OwnerBlock PowerFail OwnerPageStatus

variable (dev : Device)

/-! ## What may happen -/

/-- The unlock requests that change the owner, with the state they ask for. -/
inductive TransferMode : u32 → u32 → Prop
  | any : TransferMode kBootSvcUnlockAny kOwnershipStateUnlockedAny
  | endorsed : TransferMode kBootSvcUnlockEndorsed kOwnershipStateUnlockedEndorsed

/-- The transitions of the ownership state and the keys that may sign for them. The
owner key of a page may sign for whatever another key of that page may sign for. -/
inductive Permitted (s : RomExt) : Request → u32 → OwnerKeydata → Prop
  | unlock_open {msg : OwnershipUnlockReq} {target : u32} {k : OwnerKeydata}
      (hstate : s.bootdata.ownership_state = kOwnershipStateLockedOwner)
      (hmode : (s.owner_page 0).update_mode = kOwnershipUpdateModeOpen)
      (htarget : TransferMode msg.unlock_mode target)
      (hkey : k = (s.owner_page 0).unlock_key ∨ dev.kNoOwnerRecoveryKey = some k ∨
        k = (s.owner_page 0).owner_key) : Permitted s (.unlock msg) target k
  | unlock_no_owner {msg : OwnershipUnlockReq} {target : u32} {k : OwnerKeydata}
      (hstate : is_locked_none s.bootdata.ownership_state = true)
      (htarget : TransferMode msg.unlock_mode target)
      (hkey : dev.kNoOwnerRecoveryKey = some k ∨ k = (s.owner_page 0).owner_key) :
      Permitted s (.unlock msg) target k
  | unlock_self {msg : OwnershipUnlockReq} {k : OwnerKeydata}
      (hstate : s.bootdata.ownership_state = kOwnershipStateLockedOwner)
      (hmode : (s.owner_page 0).update_mode ≠ kOwnershipUpdateModeNewVersion)
      (hrequest : msg.unlock_mode = kBootSvcUnlockUpdate)
      (hkey : k = (s.owner_page 0).unlock_key ∨ k = (s.owner_page 0).owner_key) :
      Permitted s (.unlock msg) kOwnershipStateUnlockedSelf k
  | abort {msg : OwnershipUnlockReq} {k : OwnerKeydata}
      (hstate : s.bootdata.ownership_state ∈ kUnlockedStates)
      (hrequest : msg.unlock_mode = kBootSvcUnlockAbort)
      (hkey : k = (s.owner_page 0).unlock_key ∨ k = (s.owner_page 0).owner_key) :
      Permitted s (.unlock msg) kOwnershipStateLockedOwner k
  | activate {msg : OwnershipActivateReq} {k : OwnerKeydata}
      (hstate : s.bootdata.ownership_state ∈ kUnlockedStates)
      (hpage : owner_block_page1_valid_for_transfer dev s = true)
      (hkey : k = (s.owner_page 1).activate_key ∨ k = (s.owner_page 1).owner_key) :
      Permitted s (.activate msg) kOwnershipStateLockedOwner k

/-- The page whose algorithm and keys a request is checked with. -/
def Request.page : Request → Fin 2
  | .unlock _ => 0
  | .activate _ => 1

def Request.type : Request → u32
  | .unlock msg => msg.type
  | .activate msg => msg.type

def Request.signature : Request → OwnerSignature
  | .unlock msg => msg.signature
  | .activate msg => msg.signature

def Request.message : Request → List u8
  | .unlock msg => msg.message
  | .activate msg => msg.message

def Request.nonce : Request → Nonce
  | .unlock msg => msg.nonce
  | .activate msg => msg.nonce

def Request.din : Request → Vector u32 2
  | .unlock msg => msg.din
  | .activate msg => msg.din

/-- A request that may take the state to `target`. -/
structure Authorised (s : RomExt) (request : Request) (target : u32) : Prop where
  signed : ∃ k, Permitted dev s request target k ∧
    SignedBy dev (s.owner_page request.page) request.type s.bootdata.nonce request.signature
      request.message k
  nonce : request.nonce = s.bootdata.nonce
  din : request.din[0] = dev.device_id[1] ∧ request.din[1] = dev.device_id[2]

/-- The state and the nonce are what they were. -/
structure SameNonce (s s' : RomExt) : Prop where
  state : s'.bootdata.ownership_state = s.bootdata.ownership_state
  nonce : s'.bootdata.nonce = s.bootdata.nonce
  drawn : s'.drawn = s.drawn

/-- All a request can do to the state and to the nonce. -/
inductive Handled (s : RomExt) (request : Request) (s' : RomExt) : Prop
  | refused (hsame : SameNonce s s')
  | accepted (hauth : Authorised dev s request s'.bootdata.ownership_state)
      (hnonce : s'.bootdata.nonce = nonce_at dev s.drawn) (hdrawn : s'.drawn = s.drawn + 2)

variable {dev}

theorem SameNonce.refl (s : RomExt) : SameNonce s s := ⟨rfl, rfl, rfl⟩

/-! ## The checks -/

section specs

variable {F : Fate → Prop} {s : RomExt}

/-- A failed check ends the request, a passed one says what it checked. -/
theorem return_if_error_spec {error : RomError} {Q : Unit → RomExt → Prop}
    {E : RomError → RomExt → Prop} {L : RomExt → Prop} (hok : error = .kErrorOk → Q () s)
    (herror : E error s) : Spec F (return_if_error error) s Q E L := by
  unfold return_if_error
  split
  · exact Spec.pure (hok ‹_›)
  · exact Spec.throw herror

theorem check_nonce_din_spec (nonce : Nonce) (din : Vector u32 2) :
    Spec F (check_nonce_din dev nonce din) s
      (fun _ s' => s' = s ∧ nonce = s.bootdata.nonce ∧
        din[0] = dev.device_id[1] ∧ din[1] = dev.device_id[2])
      (fun _ s' => s' = s) (fun _ => False) := by
  refine Spec.get ?_
  by_cases hnonce : nonce_equal nonce s.bootdata.nonce = true
  · rw [if_neg (by simp [hnonce])]
    by_cases hdin : lifecycle_din_eq dev din = true
    · rw [if_neg (by simp [hdin])]
      simp only [lifecycle_din_eq, Bool.and_eq_true, decide_eq_true_eq] at hdin
      exact Spec.pure ⟨rfl, (nonce_equal_iff _ _).mp hnonce, hdin.1.symm, hdin.2.symm⟩
    · rw [if_pos (by simpa using hdin)]
      exact Spec.throw rfl
  · rw [if_pos (by simpa using hnonce)]
    exact Spec.throw rfl

theorem unlock_key_validate_spec (key : u32) (msg : OwnershipUnlockReq) :
    Spec F (unlock_key_validate dev key msg) s
      (fun _ s' => s' = s ∧ ∃ k ∈ allowed_keys dev (s.owner_page 0) key,
        SignedBy dev (s.owner_page 0) msg.type s.bootdata.nonce msg.signature msg.message k)
      (fun _ s' => s' = s) (fun _ => False) := by
  refine Spec.get (return_if_error_spec (fun hok => ⟨rfl, ?_⟩) rfl)
  exact (key_validate_iff dev _ _ _ _ _ _).mp hok

theorem activate_key_validate_spec (msg : OwnershipActivateReq) :
    Spec F (activate_key_validate dev msg) s
      (fun _ s' => s' = s ∧ ∃ k ∈ allowed_keys dev (s.owner_page 1) kOwnershipKeyActivate,
        SignedBy dev (s.owner_page 1) msg.type s.bootdata.nonce msg.signature msg.message k)
      (fun _ s' => s' = s) (fun _ => False) := by
  refine Spec.get (return_if_error_spec (fun hok => ⟨rfl, ?_⟩) rfl)
  exact (key_validate_iff dev _ _ _ _ _ _).mp hok

/-! ## The unlock handler -/

/-- The states `do_unlock` goes to. -/
inductive UnlockTarget : u32 → u32 → Prop
  | transfer {unlock_mode target : u32} (h : TransferMode unlock_mode target) :
      UnlockTarget unlock_mode target
  | update : UnlockTarget kBootSvcUnlockUpdate kOwnershipStateUnlockedSelf

theorem UnlockTarget.transferMode {unlock_mode target : u32} (h : UnlockTarget unlock_mode target)
    (hmode : unlock_mode ≠ kBootSvcUnlockUpdate) : TransferMode unlock_mode target := by
  cases h with
  | transfer h => exact h
  | update => exact absurd rfl hmode

theorem UnlockTarget.eq_of_update {unlock_mode target : u32} (h : UnlockTarget unlock_mode target)
    (hmode : unlock_mode = kBootSvcUnlockUpdate) : target = kOwnershipStateUnlockedSelf := by
  cases h with
  | transfer h =>
      cases h with
      | any => exact absurd hmode (by decide)
      | endorsed => exact absurd hmode (by decide)
  | update => rfl

theorem do_unlock_spec (msg : OwnershipUnlockReq) :
    Spec F (do_unlock dev msg) s
      (fun e s' => e = .kErrorWriteBootdataThenReboot ∧
        UnlockTarget msg.unlock_mode s'.bootdata.ownership_state ∧
        msg.nonce = s.bootdata.nonce ∧
        (msg.din[0] = dev.device_id[1] ∧ msg.din[1] = dev.device_id[2]) ∧
        s'.bootdata.nonce = nonce_at dev s.drawn ∧ s'.drawn = s.drawn + 2)
      (fun _ s' => s' = s) (fun _ => False) := by
  refine Spec.bind (check_nonce_din_spec msg.nonce msg.din) ?_
  rintro - t ⟨rfl, hnonce, hdin⟩
  refine Spec.bind (R := fun _ s' => UnlockTarget msg.unlock_mode s'.bootdata.ownership_state ∧
    s'.drawn = t.drawn) ?_ ?_
  · unfold set_unlock_state
    split_ifs with hendorsed hany hupdate
    · exact Spec.modify ⟨hendorsed ▸ .transfer .endorsed, rfl⟩
    · exact Spec.modify ⟨hany ▸ .transfer .any, rfl⟩
    · exact Spec.modify ⟨hupdate ▸ .update, rfl⟩
    · exact Spec.throw rfl
  · rintro - t1 ⟨htarget, hdrawn⟩
    refine Spec.bind (R := fun _ s' => UnlockTarget msg.unlock_mode s'.bootdata.ownership_state ∧
      s'.bootdata.nonce = nonce_at dev t.drawn ∧ s'.drawn = t.drawn + 2)
      (Spec.modify ⟨htarget, by rw [hdrawn], by rw [hdrawn]⟩) ?_
    rintro - t2 ⟨htarget2, hnonce2, hdrawn2⟩
    exact Spec.pure ⟨rfl, htarget2, hnonce, hdin, hnonce2, hdrawn2⟩

/-- An unlock whose allowed keys are permitted is handled as it should be. -/
theorem validated_unlock_spec {key : u32} {msg : OwnershipUnlockReq}
    (hkeys : ∀ k ∈ allowed_keys dev (s.owner_page 0) key, ∀ target,
      UnlockTarget msg.unlock_mode target → Permitted dev s (.unlock msg) target k) :
    Spec F (do unlock_key_validate dev key msg; do_unlock dev msg) s
      (fun e s' => e = .kErrorWriteBootdataThenReboot ∧ Handled dev s (.unlock msg) s')
      (fun _ s' => s' = s) (fun _ => False) := by
  refine Spec.bind (unlock_key_validate_spec key msg) ?_
  rintro - t ⟨rfl, k, hk, hsigned⟩
  refine (do_unlock_spec msg).conseq ?_ (fun _ _ h => h) fun _ h => h
  rintro e s' ⟨he, htarget, hnonce, hdin, hnew, hdrawn⟩
  exact ⟨he, .accepted ⟨⟨k, hkeys k hk _ htarget, hsigned⟩, hnonce, hdin⟩ hnew hdrawn⟩

theorem mem_allowed_unlock {page : OwnerBlock} {k : OwnerKeydata} :
    k ∈ allowed_keys dev page kOwnershipKeyUnlock ↔ k = page.unlock_key ∨ k = page.owner_key := by
  simp [mem_allowed_keys, kOwnershipKeyUnlock, kOwnershipKeyActivate, kOwnershipKeyRecovery]

theorem mem_allowed_recovery {page : OwnerBlock} {k : OwnerKeydata} :
    k ∈ allowed_keys dev page kOwnershipKeyRecovery ↔
      dev.kNoOwnerRecoveryKey = some k ∨ k = page.owner_key := by
  simp [mem_allowed_keys, kOwnershipKeyUnlock, kOwnershipKeyActivate, kOwnershipKeyRecovery]

theorem mem_allowed_unlock_recovery {page : OwnerBlock} {k : OwnerKeydata} :
    k ∈ allowed_keys dev page (kOwnershipKeyUnlock ||| kOwnershipKeyRecovery) ↔
      k = page.unlock_key ∨ dev.kNoOwnerRecoveryKey = some k ∨ k = page.owner_key := by
  simp [mem_allowed_keys, kOwnershipKeyUnlock, kOwnershipKeyActivate, kOwnershipKeyRecovery]

theorem mem_allowed_activate {page : OwnerBlock} {k : OwnerKeydata} :
    k ∈ allowed_keys dev page kOwnershipKeyActivate ↔
      k = page.activate_key ∨ k = page.owner_key := by
  simp [mem_allowed_keys, kOwnershipKeyUnlock, kOwnershipKeyActivate, kOwnershipKeyRecovery]

theorem unlock_spec {msg : OwnershipUnlockReq} (hmode : msg.unlock_mode ≠ kBootSvcUnlockUpdate) :
    Spec F (unlock dev msg) s
      (fun e s' => e = .kErrorWriteBootdataThenReboot ∧ Handled dev s (.unlock msg) s')
      (fun _ s' => s' = s) (fun _ => False) := by
  refine Spec.get ?_
  split_ifs with hlocked hopen hversion hnone
  · refine validated_unlock_spec fun k hk target htarget => ?_
    exact .unlock_open hlocked hopen (htarget.transferMode hmode) (mem_allowed_unlock_recovery.mp hk)
  · exact Spec.throw rfl
  · exact Spec.throw rfl
  · refine validated_unlock_spec fun k hk target htarget => ?_
    exact .unlock_no_owner hnone (htarget.transferMode hmode) (mem_allowed_recovery.mp hk)
  · exact Spec.throw rfl

theorem unlock_update_spec {msg : OwnershipUnlockReq}
    (hrequest : msg.unlock_mode = kBootSvcUnlockUpdate) :
    Spec F (unlock_update dev msg) s
      (fun e s' => e = .kErrorWriteBootdataThenReboot ∧ Handled dev s (.unlock msg) s')
      (fun _ s' => s' = s) (fun _ => False) := by
  refine Spec.get ?_
  split_ifs with hlocked hversion
  · exact Spec.throw rfl
  · refine validated_unlock_spec fun k hk target htarget => ?_
    rw [htarget.eq_of_update hrequest]
    exact .unlock_self hlocked hversion hrequest (mem_allowed_unlock.mp hk)
  · exact Spec.throw rfl

theorem unlock_abort_spec {msg : OwnershipUnlockReq}
    (hrequest : msg.unlock_mode = kBootSvcUnlockAbort) :
    Spec F (unlock_abort dev msg) s
      (fun e s' => e = .kErrorWriteBootdataThenReboot ∧ Handled dev s (.unlock msg) s')
      (fun _ s' => s' = s) (fun _ => False) := by
  refine Spec.get ?_
  split_ifs with hunlocked
  · refine Spec.bind (unlock_key_validate_spec kOwnershipKeyUnlock msg) ?_
    rintro - t ⟨rfl, k, hk, hsigned⟩
    refine Spec.bind (check_nonce_din_spec msg.nonce msg.din) ?_
    rintro - t1 ⟨rfl, hnonce, hdin⟩
    refine Spec.bind (R := fun _ s' => s' = lock_owner t1) (Spec.modify rfl) ?_
    rintro - - rfl
    refine Spec.bind (R := fun _ s' => Handled dev t1 (.unlock msg) s') (Spec.modify ?_) ?_
    · exact .accepted ⟨⟨k, .abort hunlocked hrequest (mem_allowed_unlock.mp hk), hsigned⟩,
        hnonce, hdin⟩ rfl rfl
    · intro _ t2 h
      exact Spec.pure ⟨rfl, h⟩
  · exact Spec.throw rfl

theorem unlock_switch_spec (msg : OwnershipUnlockReq) :
    Spec F (unlock_switch dev msg) s
      (fun e s' => e = .kErrorWriteBootdataThenReboot ∧ Handled dev s (.unlock msg) s')
      (fun _ s' => s' = s) (fun _ => False) := by
  unfold unlock_switch
  split_ifs with hany hendorsed hupdate habort
  · exact unlock_spec (hany ▸ by decide)
  · exact unlock_spec (hendorsed ▸ by decide)
  · exact unlock_update_spec hupdate
  · exact unlock_abort_spec habort
  · exact Spec.throw rfl

variable (dev) in
/-- A refused unlock request leaves everything as it was, and none loses power. -/
theorem ownership_unlock_handler_spec (msg : OwnershipUnlockReq) :
    Spec F (ownership_unlock_handler dev msg) s
      (fun e s' => Handled dev s (.unlock msg) s' ∧ (e ≠ .kErrorWriteBootdataThenReboot → s' = s))
      (fun _ _ => False) (fun _ => False) := by
  refine Spec.bind (R := fun r s' => Handled dev s (.unlock msg) s' ∧
    (error_of r ≠ .kErrorWriteBootdataThenReboot → s' = s)) (Spec.attempt ?_) ?_
  · refine (unlock_switch_spec msg).conseq ?_ ?_ fun _ h => h
    · rintro e s' ⟨rfl, h⟩
      exact ⟨h, fun hne => absurd rfl hne⟩
    · rintro e s' rfl
      exact ⟨.refused (.refl s'), fun _ => rfl⟩
  · intro r s' h
    exact Spec.pure h

/-! ## The activate handler -/

theorem SameNonce.trans {s t u : RomExt} (h : SameNonce s t) (h' : SameNonce t u) :
    SameNonce s u :=
  ⟨h'.state.trans h.state, h'.nonce.trans h.nonce, h'.drawn.trans h.drawn⟩

theorem sameNonce_seal_page1 (s : RomExt) : SameNonce s (seal_page1 dev s) where
  state := seal_page1_state s
  nonce := by
    simp only [seal_page1]
    split <;> rfl
  drawn := rfl

instance : IsPreorder RomExt SameNonce where
  refl := SameNonce.refl
  trans _ _ _ := SameNonce.trans

theorem within_program_page1 (page : Fin 2) : Within SameNonce (program_page1 page) :=
  Within.bind (Within.step fun _ => ⟨rfl, rfl, rfl⟩) fun _ => Within.step fun _ => ⟨rfl, rfl, rfl⟩

theorem within_ownership_activate (both : Bool) :
    Within SameNonce (ownership_activate dev both) := by
  refine Within.get fun s => Within.bind (Within.ofExcept _) fun _ =>
    Within.bind (Within.modify sameNonce_seal_page1) fun _ =>
      Within.bind (within_program_page1 1) fun _ => ?_
  split
  · exact within_program_page1 0
  · exact Within.pure ()

theorem within_secret_read : Within SameNonce (secret_read dev) := by
  refine Within.get fun s => ?_
  split
  · exact Within.pure _
  · split
    · exact Within.throw _
    · exact Within.bind (Within.step fun _ => ⟨rfl, rfl, rfl⟩) fun _ => Within.pure _

theorem within_transfer_owner (prior : OwnerBlock) :
    Within SameNonce (transfer_owner dev prior) := by
  refine Within.bind ?_ fun _ => Within.modify fun _ => ⟨rfl, rfl, rfl⟩
  exact Within.bind within_secret_read fun secret =>
    Within.bind (Within.step fun _ => ⟨rfl, rfl, rfl⟩) fun _ => Within.step fun _ => ⟨rfl, rfl, rfl⟩

theorem activate_checks_spec (msg : OwnershipActivateReq) :
    Spec F (activate_checks dev msg) s
      (fun _ s' => s' = s ∧ owner_block_page1_valid_for_transfer dev s = true ∧
        (∃ k ∈ allowed_keys dev (s.owner_page 1) kOwnershipKeyActivate,
          SignedBy dev (s.owner_page 1) msg.type s.bootdata.nonce msg.signature msg.message k) ∧
        msg.nonce = s.bootdata.nonce ∧ msg.din[0] = dev.device_id[1] ∧
          msg.din[1] = dev.device_id[2])
      (fun _ s' => s' = s) (fun _ => False) := by
  refine Spec.get ?_
  split_ifs with hpage
  · exact Spec.throw rfl
  · refine Spec.bind (activate_key_validate_spec msg) ?_
    rintro - t ⟨rfl, hsigned⟩
    refine (check_nonce_din_spec msg.nonce msg.din).conseq ?_ (fun _ _ h => h) fun _ h => h
    rintro - t1 ⟨rfl, hnonce, hdin⟩
    exact ⟨rfl, by simpa using hpage, hsigned, hnonce, hdin⟩

theorem activate_finish_spec {t : RomExt} (hsame : SameNonce s t) :
    Spec F (activate_finish dev) t
      (fun e s' => e = .kErrorWriteBootdataThenReboot ∧
        s'.bootdata.ownership_state = kOwnershipStateLockedOwner ∧
        s'.bootdata.nonce = nonce_at dev s.drawn ∧ s'.drawn = s.drawn + 2)
      (fun _ _ => False) (fun _ => False) := by
  refine Spec.bind (R := fun _ s' => s'.bootdata.nonce = nonce_at dev s.drawn ∧
    s'.drawn = s.drawn + 2) (Spec.modify ⟨by rw [← hsame.drawn], by rw [← hsame.drawn]⟩) ?_
  intro _ t1 h
  refine Spec.bind (R := fun _ s' => s'.bootdata.ownership_state = kOwnershipStateLockedOwner ∧
    s'.bootdata.nonce = nonce_at dev s.drawn ∧ s'.drawn = s.drawn + 2)
    (Spec.modify ⟨rfl, h.1, h.2⟩) ?_
  intro _ t2 h
  exact Spec.pure ⟨rfl, h⟩

variable (dev) in
/-- It returns only to have the boot data written, and else the nonce stays what it was. -/
theorem activate_handler_spec (msg : OwnershipActivateReq)
    (hunlocked : s.bootdata.ownership_state ∈ kUnlockedStates) :
    Spec F (activate_handler dev msg) s
      (fun e s' => e = .kErrorWriteBootdataThenReboot ∧ Handled dev s (.activate msg) s')
      (fun _ s' => SameNonce s s') (fun s' => SameNonce s s') := by
  refine Spec.bind ((activate_checks_spec msg).conseq (fun _ _ h => h)
    (fun _ s' h => h ▸ .refl s') fun _ h => h.elim) ?_
  rintro - t ⟨rfl, hpage, ⟨k, hk, hsigned⟩, hnonce, hdin⟩
  have hfinish : ∀ t1, SameNonce t t1 → Spec F (activate_finish dev) t1
      (fun e s' => e = .kErrorWriteBootdataThenReboot ∧ Handled dev t (.activate msg) s')
      (fun _ s' => SameNonce t s') (fun s' => SameNonce t s') := by
    intro t1 hsame
    refine (activate_finish_spec hsame).conseq ?_ (fun _ _ h => h.elim) fun _ h => h.elim
    rintro e s' ⟨he, hstate, hnew, hdrawn⟩
    refine ⟨he, .accepted ⟨⟨k, ?_, hsigned⟩, hnonce, hdin⟩ hnew hdrawn⟩
    rw [hstate]
    exact .activate hunlocked hpage (mem_allowed_activate.mp hk)
  refine Spec.get (Spec.bind (within_ownership_activate true F t) ?_)
  intro _ t1 hsame1
  refine Spec.bind (R := fun _ s' => SameNonce t s')
    (Spec.modify ⟨hsame1.state, hsame1.nonce, hsame1.drawn⟩) ?_
  intro _ t2 hsame2
  split_ifs
  · exact hfinish t2 hsame2
  · refine Spec.bind (R := fun _ s' => SameNonce t s') ?_ fun _ t3 hsame3 => hfinish t3 hsame3
    exact (within_transfer_owner (t.owner_page 0) F t2).conseq (fun _ _ => hsame2.trans)
      (fun _ _ => hsame2.trans) fun _ => hsame2.trans

theorem ownership_activate_handler_spec (msg : OwnershipActivateReq) :
    Spec F (ownership_activate_handler dev msg) s
      (fun _ s' => Handled dev s (.activate msg) s')
      (fun _ _ => False) (fun s' => SameNonce s s') := by
  refine Spec.bind (R := fun _ s' => Handled dev s (.activate msg) s') (Spec.attempt ?_)
    fun _ s' h => Spec.pure h
  refine Spec.get ?_
  split_ifs with hunlocked
  · exact (activate_handler_spec dev msg hunlocked).conseq (fun _ _ h => h.2) (fun _ _ h => .refused h)
      fun _ h => h
  · exact Spec.throw (.refused (.refl s))

/-- Whatever becomes of the flash operations, a request does what it may. -/
theorem handle_spec (request : Request) :
    Spec F (handle dev request) s (fun _ s' => Handled dev s request s')
      (fun _ s' => Handled dev s request s') (fun s' => Handled dev s request s') := by
  cases request with
  | unlock msg =>
      exact (ownership_unlock_handler_spec dev msg).conseq (fun _ _ h => h.1) (fun _ _ h => h.elim)
        fun _ h => h.elim
  | activate msg =>
      exact (ownership_activate_handler_spec msg).conseq (fun _ _ h => h) (fun _ _ h => h.elim)
        fun _ h => .refused h

end specs

/-! ## Sequences of requests -/

/-- One request, the machine it finds, the fates of its flash operations, and whether
the boot data it leaves is what the next request finds. It is not if the power goes
before it has been written. -/
structure Handling where
  before : RomExt
  request : Request
  fate : ℕ → Fate
  kept : Bool

variable (dev)

def Handling.after (h : Handling) : RomExt :=
  (handle dev h.request (Machine.on h.before h.fate)).2.mem

def Handling.left (h : Handling) : BootData :=
  if h.kept then (h.after dev).bootdata else h.before.bootdata

/-- The request changes the ownership state. -/
def Handling.Changes (h : Handling) : Prop :=
  (h.after dev).bootdata.ownership_state ≠ h.before.bootdata.ownership_state

/-- The request changes the ownership state for good. -/
def Handling.Accepted (h : Handling) : Prop := h.kept = true ∧ h.Changes dev

/-- Request `b` finds the state and the nonce that `a` leaves. Nothing is said about the
rest of the machine. -/
structure Next (a b : Handling) : Prop where
  state : b.before.bootdata.ownership_state = (a.left dev).ownership_state
  nonce : b.before.bootdata.nonce = (a.left dev).nonce
  drawn : (a.after dev).drawn ≤ b.before.drawn

/-- Among the first `n` random values no nonce is drawn twice. -/
def NeverRepeats (n : ℕ) : Prop :=
  ∀ p q, p + 2 ≤ q → q + 2 ≤ n → nonce_at dev p ≠ nonce_at dev q

/-- Nonce `x` is not drawn from here on, up to the `n`th random value. -/
def Unused (n : ℕ) (x : Nonce) (s : RomExt) : Prop :=
  ∀ p, s.drawn ≤ p → p + 2 ≤ n → nonce_at dev p ≠ x

/-- Nonce `x` is not the current one and will not be. -/
def Retired (n : ℕ) (x : Nonce) (s : RomExt) : Prop :=
  s.bootdata.nonce ≠ x ∧ Unused dev n x s

variable {dev} {n : ℕ}

theorem Handling.handled (h : Handling) : Handled dev h.before h.request (h.after dev) :=
  (handle_spec (F := fun _ => True) h.request).mem (fun _ _ => id) (fun _ _ => id) (fun _ => id) rfl
    fun _ => trivial

/-- A change is authorised, and draws the next nonce. -/
theorem Handling.authorised {h : Handling} (hchange : h.Changes dev) :
    Authorised dev h.before h.request (h.after dev).bootdata.ownership_state ∧
      (h.after dev).bootdata.nonce = nonce_at dev h.before.drawn ∧
      (h.after dev).drawn = h.before.drawn + 2 := by
  cases h.handled with
  | refused hsame => exact absurd hsame.state hchange
  | accepted hauth hnonce hdrawn => exact ⟨hauth, hnonce, hdrawn⟩

/-- The nonce a request leaves is the one it found, or the next one drawn. -/
theorem Handling.left_nonce (h : Handling) :
    h.before.drawn ≤ (h.after dev).drawn ∧
      ((h.left dev).nonce = h.before.bootdata.nonce ∨
        (h.left dev).nonce = nonce_at dev h.before.drawn ∧
          (h.after dev).drawn = h.before.drawn + 2) := by
  unfold Handling.left
  cases h.handled with
  | refused hsame =>
      refine ⟨hsame.drawn.ge, .inl ?_⟩
      split
      · exact hsame.nonce
      · rfl
  | accepted _ hnonce hdrawn =>
      refine ⟨by omega, ?_⟩
      split
      · exact .inr ⟨hnonce, hdrawn⟩
      · exact .inl rfl

theorem Unused.next {x : Nonce} {a b : Handling} (h : Unused dev n x a.before)
    (hnext : Next dev a b) : Unused dev n x b.before := by
  intro p hp hn
  exact h p (a.left_nonce.1.trans (hnext.drawn.trans hp)) hn

/-- A retired nonce stays retired. -/
theorem Retired.next {x : Nonce} {a b : Handling} (hbound : (a.after dev).drawn ≤ n)
    (h : Retired dev n x a.before) (hnext : Next dev a b) : Retired dev n x b.before := by
  refine ⟨?_, h.2.next hnext⟩
  rw [hnext.nonce]
  rcases a.left_nonce.2 with hsame | ⟨hnew, hdrawn⟩
  · exact hsame ▸ h.1
  · rw [hnew]
    exact h.2 _ le_rfl (by omega)

/-- The current nonce is not drawn again, neither after a request. -/
theorem unused_nonce_next {a b : Handling} (hnonces : NeverRepeats dev n)
    (h : Unused dev n a.before.bootdata.nonce a.before) (hnext : Next dev a b) :
    Unused dev n b.before.bootdata.nonce b.before := by
  rw [hnext.nonce]
  rcases a.left_nonce.2 with hsame | ⟨hnew, hdrawn⟩
  · rw [hsame]
    exact h.next hnext
  · intro p hp hn
    rw [hnew]
    have hlater := hnext.drawn
    exact (hnonces _ p (by omega) hn).symm

/-- An accepted request retires the nonce it carries. -/
theorem Handling.Accepted.retires {a b : Handling} (haccepted : a.Accepted dev)
    (hbound : (a.after dev).drawn ≤ n) (h : Unused dev n a.before.bootdata.nonce a.before)
    (hnext : Next dev a b) : Retired dev n a.before.bootdata.nonce b.before := by
  obtain ⟨hkept, hchange⟩ := haccepted
  obtain ⟨-, hnew, hdrawn⟩ := Handling.authorised hchange
  refine ⟨?_, h.next hnext⟩
  rw [hnext.nonce, Handling.left, if_pos hkept, hnew]
  exact h _ le_rfl (by omega)

theorem retired_later {x : Nonce} {a : Handling} {hs : List Handling}
    (hbound : ∀ h ∈ a :: hs, (h.after dev).drawn ≤ n) (hnext : (a :: hs).IsChain (Next dev))
    (hretired : Retired dev n x a.before) : ∀ b ∈ a :: hs, b.before.bootdata.nonce ≠ x := by
  induction hs generalizing a with
  | nil =>
      intro b hb
      rw [List.mem_singleton.mp hb]
      exact hretired.1
  | cons c hs ih =>
      obtain ⟨hac, hrest⟩ := List.isChain_cons_cons.mp hnext
      have hlater := ih (fun h hh => hbound h (List.mem_cons_of_mem a hh)) hrest
        (hretired.next (hbound a List.mem_cons_self) hac)
      intro b hb
      rcases List.mem_cons.mp hb with rfl | hb
      · exact hretired.1
      · exact hlater b hb

/-- No two accepted requests carry the same nonce. -/
theorem accepted_nonces {hs : List Handling} (hbound : ∀ h ∈ hs, (h.after dev).drawn ≤ n)
    (hnonces : NeverRepeats dev n) (hnext : hs.IsChain (Next dev))
    (hfirst : ∀ h ∈ hs.head?, Unused dev n h.before.bootdata.nonce h.before) :
    hs.Pairwise fun a b => a.Accepted dev → b.before.bootdata.nonce ≠ a.before.bootdata.nonce := by
  induction hs with
  | nil => exact List.Pairwise.nil
  | cons a hs ih =>
      have hunused := hfirst a rfl
      have htail : ∀ h ∈ hs, (h.after dev).drawn ≤ n := fun h hh =>
        hbound h (List.mem_cons_of_mem a hh)
      refine List.pairwise_cons.mpr ⟨fun b hb haccepted => ?_, ih htail hnext.tail ?_⟩
      · cases hs with
        | nil => cases hb
        | cons c hs =>
            obtain ⟨hac, hrest⟩ := List.isChain_cons_cons.mp hnext
            exact retired_later htail hrest
              (haccepted.retires (hbound a List.mem_cons_self) hunused hac) b hb
      · intro c hc
        cases hs with
        | nil => cases hc
        | cons d hs =>
            obtain rfl : d = c := Option.some.inj hc
            exact unused_nonce_next hnonces hunused (List.isChain_cons_cons.mp hnext).1

/-- From the locked state page 0's update mode decides which states can be reached. -/
theorem Permitted.of_locked {s : RomExt} {request : Request} {target : u32} {k : OwnerKeydata}
    (h : Permitted dev s request target k)
    (hlocked : s.bootdata.ownership_state = kOwnershipStateLockedOwner) :
    (s.owner_page 0).update_mode = kOwnershipUpdateModeOpen ∨
      (s.owner_page 0).update_mode ≠ kOwnershipUpdateModeNewVersion ∧
        target = kOwnershipStateUnlockedSelf := by
  cases h with
  | unlock_open _ hmode => exact .inl hmode
  | unlock_no_owner hstate =>
      rw [hlocked] at hstate
      exact absurd hstate (by decide)
  | unlock_self _ hmode => exact .inr ⟨hmode, rfl⟩
  | abort hstate =>
      rw [hlocked] at hstate
      exact absurd hstate (by decide)
  | activate hstate =>
      rw [hlocked] at hstate
      exact absurd hstate (by decide)

/-- Over any sequence of requests: each change of the ownership state is authorised and
replaces the nonce; as long as no nonce is drawn twice, no request is accepted twice; and
from the locked state the update mode of page 0 excludes what it should. -/
theorem ownership_changes_authorised (dev : Device) (hs : List Handling)
    (hnext : hs.IsChain (Next dev)) :
    (∀ h ∈ hs, h.Changes dev →
      Authorised dev h.before h.request (h.after dev).bootdata.ownership_state ∧
        (h.after dev).bootdata.nonce = nonce_at dev h.before.drawn) ∧
    (∀ n, (∀ h ∈ hs, (h.after dev).drawn ≤ n) → NeverRepeats dev n →
      (∀ h ∈ hs.head?, Unused dev n h.before.bootdata.nonce h.before) →
      hs.Pairwise fun a b => a.Accepted dev → b.Accepted dev → a.request ≠ b.request) ∧
    (∀ h ∈ hs, h.before.bootdata.ownership_state = kOwnershipStateLockedOwner →
      ((h.before.owner_page 0).update_mode = kOwnershipUpdateModeNewVersion → ¬ h.Changes dev) ∧
      ((h.before.owner_page 0).update_mode ∈
          [kOwnershipUpdateModeSelf, kOwnershipUpdateModeSelfVersion] → h.Changes dev →
        (h.after dev).bootdata.ownership_state = kOwnershipStateUnlockedSelf)) := by
  refine ⟨fun h _ hchange => ?_, fun n hbound hnonces hfirst => ?_, fun h _ hlocked => ?_⟩
  · obtain ⟨hauth, hnonce, -⟩ := Handling.authorised hchange
    exact ⟨hauth, hnonce⟩
  · refine (accepted_nonces hbound hnonces hnext hfirst).imp fun {a b} hne ha hb heq => ?_
    have hcarried : ∀ {h : Handling}, h.Accepted dev → h.request.nonce = h.before.bootdata.nonce :=
      fun haccepted => (Handling.authorised haccepted.2).1.nonce
    exact hne ha (by rw [← hcarried hb, ← hcarried ha, heq])
  · refine ⟨fun hversion hchange => ?_, fun hself hchange => ?_⟩
    · obtain ⟨⟨⟨k, hpermitted, -⟩, -, -⟩, -⟩ := Handling.authorised hchange
      rcases hpermitted.of_locked hlocked with hopen | ⟨hmode, -⟩
      · rw [hopen] at hversion
        exact absurd hversion (by decide)
      · exact hmode hversion
    · obtain ⟨⟨⟨k, hpermitted, -⟩, -, -⟩, -⟩ := Handling.authorised hchange
      rcases hpermitted.of_locked hlocked with hopen | ⟨-, htarget⟩
      · rw [hopen] at hself
        exact absurd hself (by decide)
      · exact htarget

/-- The device identification words in a request to the bench device. -/
def bench_din : Vector u32 2 := #v[2, 3]

/-- An unlock request to the bench device, signed with `key`. -/
def bench_unlock (unlock_mode : u32) (nonce : Nonce) (key : OwnerKeydata) : OwnershipUnlockReq :=
  let msg : OwnershipUnlockReq :=
    { type := 0x4b4c4e55
      unlock_mode := unlock_mode
      din := bench_din
      reserved := Vector.replicate 8 0
      nonce := nonce
      next_owner_key := key
      signature := ⟨Vector.replicate 16 0⟩ }
  { msg with signature := bench_sign key msg.message }

/-- An update request in the locked state. -/
def update_request : Handling where
  before := { bench_boot kOwnershipStateLockedOwner .erased .erased with
    owner_page := fun _ => bench_block 1 kOwnershipUpdateModeSelf 17 }
  request := .unlock (bench_unlock kBootSvcUnlockUpdate ⟨#v[0, 0]⟩ ⟨Vector.replicate 24 19⟩)
  fate _ := .done
  kept := true

/-- A request to abort it, with the nonce that the update drew. -/
def abort_request : Handling where
  before := update_request.after bench_device
  request := .unlock (bench_unlock kBootSvcUnlockAbort (nonce_at bench_device 0)
    ⟨Vector.replicate 24 19⟩)
  fate _ := .done
  kept := true

theorem update_then_abort :
    (update_request.Accepted bench_device ∧ abort_request.Accepted bench_device) ∧
      [update_request, abort_request].Pairwise fun a b =>
        a.Accepted bench_device → b.Accepted bench_device → a.request ≠ b.request := by
  have hnext : [update_request, abort_request].IsChain (Next bench_device) :=
    List.isChain_cons_cons.mpr ⟨⟨rfl, rfl, le_rfl⟩, List.IsChain.singleton _⟩
  refine ⟨⟨⟨rfl, ?_⟩, ⟨rfl, ?_⟩⟩,
    (ownership_changes_authorised bench_device _ hnext).2.1 4 ?_ ?_ ?_⟩
  · unfold Handling.Changes
    decide +kernel
  · unfold Handling.Changes
    decide +kernel
  · decide +kernel
  · intro p q hpq hq
    obtain rfl : p = 0 := by omega
    obtain rfl : q = 2 := by omega
    decide
  · intro h hh p _ hp
    obtain rfl : update_request = h := Option.some.inj hh
    have hp2 : p ≤ 2 := by omega
    interval_cases p <;> decide

end IbexFirmware.Ownership
