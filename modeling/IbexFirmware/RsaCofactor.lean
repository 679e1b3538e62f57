/-
An RSA key pair from a modulus and a cofactor.

`otcrypto_rsa_keypair_from_cofactor` lets OTBN recompute the key from the modulus and one
of its factors. The recomputed modulus should be the one the caller supplied, and the
shares of the cofactor are the caller's. `checked_iff` says when a call keeps to both.
The comparison is computed and dropped, so nothing depends on it but what OTBN computes;
and the second share is added to the first in the buffer of the caller, so the first is
kept exactly when the second is zero.
-/
import IbexFirmware.RsaKeygen

set_option autoImplicit false

namespace IbexFirmware.Rsa

open Bytes PowerFail Crypto HardenedMemory Splice

/-! ## The buffers of the caller -/

/-- What no function of a key pair touches but the combination of the shares. -/
structure SameInputs (s t : State) : Prop where
  modulus : t.modulus = s.modulus
  share0 : t.cofactor_share0 = s.cofactor_share0
  share1 : t.cofactor_share1 = s.cofactor_share1

instance : IsPreorder State SameInputs where
  refl _ := ⟨rfl, rfl, rfl⟩
  trans _ _ _ h h' :=
    ⟨h'.modulus.trans h.modulus, h'.share0.trans h.share0, h'.share1.trans h.share1⟩

theorem driver_same {e : CryptoError} {f : State → State} (hf : ∀ s, SameInputs s (f s)) :
    Within SameInputs (driver e f) :=
  Within.step hf

theorem on_public_same (s : State) (f : UnblindedKey → UnblindedKey) :
    SameInputs s (s.on_public f) := ⟨rfl, rfl, rfl⟩

theorem on_private_same (s : State) (f : BlindedKey → BlindedKey) :
    SameInputs s (s.on_private f) := ⟨rfl, rfl, rfl⟩

theorem entropy_complex_check_same : Within SameInputs entropy_complex_check :=
  driver_same fun _ => ⟨rfl, rfl, rfl⟩

theorem otbn_dmem_sec_wipe_same : Within SameInputs otbn_dmem_sec_wipe :=
  driver_same fun _ => ⟨rfl, rfl, rfl⟩

theorem try_wipe_dmem_same {α : Type} {p : Proc State CryptoError α} (hp : Within SameInputs p) :
    Within SameInputs (try_wipe_dmem p) :=
  try_wipe_dmem_eq p ▸ Within.cleanup hp otbn_dmem_sec_wipe_same

theorem keygen_wait_same (exp_mode : OtbnMode) : Within SameInputs (keygen_wait exp_mode) := by
  refine Within.bind (try_wipe_dmem_same (driver_same fun _ => ⟨rfl, rfl, rfl⟩)) fun _ => ?_
  refine Within.bind (try_wipe_dmem_same (Within.step fun _ => ⟨rfl, rfl, rfl⟩)) fun act_mode => ?_
  split
  · exact Within.bind otbn_dmem_sec_wipe_same fun _ => Within.throw _
  · exact Within.pure _

theorem keygen_read_same (num_words : u32) : Within SameInputs (keygen_read num_words) := by
  have hread : ∀ var off, Within SameInputs (otbn_dmem_read_key num_words var off) :=
    fun _ _ => driver_same fun s => on_private_same s _
  exact Within.bind (try_wipe_dmem_same (hread _ _)) fun _ =>
    Within.bind (hread _ _) fun _ => hread _ _

theorem set_checksums_same :
    Within SameInputs (set_public_checksum >>= fun _ => set_private_checksum) :=
  Within.bind (Within.modify fun s => on_public_same s _) fun _ =>
    Within.modify fun s => on_private_same s _

theorem cofactor_finalize_case_same (size : u32) :
    Within SameInputs (cofactor_finalize_case size) := by
  unfold cofactor_finalize_case
  split_ifs
  · refine Within.bind (keygen_wait_same _) fun _ => ?_
    refine Within.bind (keygen_read_same _) fun _ => ?_
    exact Within.bind (Within.modify fun s => on_public_same s _) fun _ => otbn_dmem_sec_wipe_same
  · exact Within.throw _
  · exact Within.throw _
  · exact Within.throw _

theorem cofactor_async_finalize_same :
    Within SameInputs otcrypto_rsa_keypair_from_cofactor_async_finalize := by
  refine Within.get fun s => ?_
  split
  · exact Within.throw _
  · refine Within.bind entropy_complex_check_same fun _ => ?_
    refine Within.bind (Within.ofExcept _) fun size => ?_
    refine Within.bind (Within.modify fun _ => ⟨rfl, rfl, rfl⟩) fun _ => ?_
    exact Within.bind (cofactor_finalize_case_same size) fun _ => set_checksums_same

theorem compare_moduli_same (size : u32) : Within SameInputs (compare_moduli size) := by
  refine Within.get fun s => ?_
  refine Within.bind (Within.ofExcept _) fun r => ?_
  rcases r with modulus_eq | _
  · dsimp only
    split_ifs
    · exact Within.throw _
    · exact Within.pure _
  · exact Within.pure _

/-- The comparison leaves the machine alone. -/
theorem compare_moduli_keeps (size : u32) : Proc.Keeps (compare_moduli size) := by
  refine Proc.Keeps.bind Proc.Keeps.get fun s => ?_
  refine Proc.Keeps.bind (Proc.Keeps.ofExcept _) fun r => ?_
  rcases r with modulus_eq | _
  · dsimp only
    split_ifs
    · exact Proc.Keeps.throw _
    · exact Proc.Keeps.pure _
  · exact Proc.Keeps.pure _

/-! ## What a call is started with -/

/-- The arguments with which a call reaches OTBN. -/
structure StartAccepts (size : u32) (s : State) : Prop where
  modulus : s.modulus.data ≠ none
  share0 : s.cofactor_share0.data ≠ none
  share1 : s.cofactor_share1.data ≠ none
  size : size = kOtcryptoRsaSize2048
  modulus_len : s.modulus.len = kRsa2048NumWords
  share0_len : s.cofactor_share0.len = kRsa2048NumWords / 2
  share1_len : s.cofactor_share1.len = kRsa2048NumWords / 2

/-- The key buffers that the second half of the call accepts. -/
def FinalizeAccepts (s : State) : Prop :=
  ∃ public_key private_key, key_pair s = some (public_key, private_key) ∧
    key_pair_check public_key private_key = .ok kOtcryptoRsaSize2048

/-- The cofactor that the call starts OTBN with. -/
def combined_cofactor (s : State) : List u32 :=
  hardened_xor_in_place s.cofactor_share0.words s.cofactor_share1.words

/-- The data memory that the call starts OTBN with. -/
def started_dmem (s : State) : Dmem :=
  { Dmem.wiped with
    mode := some .kOtbnRsaModeCofactor2048
    rsa_n := write_variable kRsa2048NumWords s.modulus.words Dmem.wiped.rsa_n
    rsa_cofactor :=
      write_variable (kRsa2048NumWords / 2) (combined_cofactor s) Dmem.wiped.rsa_cofactor }

/-- The modulus that OTBN recomputes. -/
def recomputed_modulus (program : OtbnApp → Dmem → Numbers) (s : State) : List u32 :=
  variable_words kRsa2048NumWords (program .run_rsa_key_from_cofactor (started_dmem s)).n

/-- The state with the shares combined. -/
def combined (s : State) : State :=
  { s with cofactor_share0 := combined_share s.cofactor_share0 s.cofactor_share1 }

/-- The state in which a call starts OTBN. -/
def loaded (s : State) : State :=
  { combined s with app := some .run_rsa_key_from_cofactor, dmem := started_dmem s }

/-- The state that it leaves after the start. -/
def started (program : OtbnApp → Dmem → Numbers) (s : State) : State :=
  let numbers := program .run_rsa_key_from_cofactor (started_dmem s)
  { loaded s with dmem := { started_dmem s with
      rsa_n := numbers.n, rsa_d0 := numbers.d0, rsa_d1 := numbers.d1 } }

theorem combined_words {s : State} (h : s.cofactor_share0.data ≠ none) :
    (combined s).cofactor_share0.words = combined_cofactor s := by
  obtain ⟨ws, hws⟩ := Option.ne_none_iff_exists'.mp h
  simp [combined, combined_share, combined_cofactor, Word32Buf.words, Word32Buf.set, hws]

theorem Word32Buf_ext {a b : Word32Buf} (hdata : a.data = b.data) (hlen : a.len = b.len) :
    a = b := by
  obtain ⟨data, len, fits⟩ := a
  obtain ⟨data', len', fits'⟩ := b
  dsimp only at hdata hlen
  subst hdata hlen
  rfl

/-- Combining changes the first share unless there is nothing to add. -/
theorem combined_share0_eq_iff {size : u32} {s : State} (h : StartAccepts size s) :
    (combined s).cofactor_share0 = s.cofactor_share0 ↔ ∀ w ∈ s.cofactor_share1.words, w = 0 := by
  have hlen : s.cofactor_share0.words.length = s.cofactor_share1.words.length := by
    rw [Word32Buf.length_words h.share0, Word32Buf.length_words h.share1, h.share0_len,
      h.share1_len]
  rw [← hardened_xor_in_place_eq_self_iff hlen]
  constructor
  · intro heq
    calc hardened_xor_in_place s.cofactor_share0.words s.cofactor_share1.words
        = (combined s).cofactor_share0.words := (combined_words h.share0).symm
      _ = s.cofactor_share0.words := by rw [heq]
  · intro heq
    obtain ⟨ws, hws⟩ := Option.ne_none_iff_exists'.mp h.share0
    refine Word32Buf_ext ?_ rfl
    simp only [Word32Buf.words, hws, Option.getD_some] at heq
    simp [combined, combined_share, Word32Buf.set, Word32Buf.words, hws, heq]

/-! ## The two halves of a call -/

section

variable (program : OtbnApp → Dmem → Numbers)

/-- A call that is not accepted ends before it has changed anything. -/
theorem async_start_rejects {size : u32} {s : State} (h : ¬ StartAccepts size s) (F : Fate → Prop) :
    Spec F (otcrypto_rsa_keypair_from_cofactor_async_start program size) s
      (fun _ _ => False) (fun _ t => t = s) (fun t => t = s) := by
  refine Spec.get ?_
  by_cases hnull : s.modulus.data = none ∨ s.cofactor_share0.data = none
      ∨ s.cofactor_share1.data = none
  · rw [if_pos hnull]
    exact Spec.throw rfl
  rw [if_neg hnull]
  refine Spec.bind (R := fun _ t => t = s) (Spec.step rfl (fun _ => rfl) fun _ => rfl) ?_
  rintro _ t rfl
  by_cases hlens : t.cofactor_share0.len ≠ t.modulus.len / 2
      ∨ t.cofactor_share1.len ≠ t.modulus.len / 2
  · rw [if_pos hlens]
    exact Spec.throw rfl
  rw [if_neg hlens, cofactor_start_case]
  split_ifs with hsize hwords
  · exact Spec.throw rfl
  · -- All the guards are passed, which makes the call an accepted one.
    simp only [not_or, ne_eq, not_not] at hnull hlens hwords
    refine absurd ⟨hnull.1, hnull.2.1, hnull.2.2, hsize, hwords.2, hwords.1, ?_⟩ h
    rw [hlens.2, hwords.2]
  · exact Spec.throw rfl
  · exact Spec.throw rfl
  · exact Spec.throw rfl

/-- An accepted call starts OTBN, and what it has changed by then it has changed whatever
becomes of the start. -/
theorem async_start_spec {size : u32} {s : State} (h : StartAccepts size s) (F : Fate → Prop) :
    Spec F (otcrypto_rsa_keypair_from_cofactor_async_start program size) s
      (fun _ t => t = started program s)
      (fun _ t => F .failed ∧ (SameInputs s t ∨ SameInputs (combined s) t))
      (fun t => F .lost ∧ (SameInputs s t ∨ SameInputs (combined s) t)) := by
  refine Spec.get ?_
  rw [if_neg (by simp [h.modulus, h.share0, h.share1])]
  refine Spec.bind (R := fun _ t => t = s) (Spec.step rfl ?_ ?_) ?_
  · exact fun hF => ⟨hF, .inl (refl s)⟩
  · exact fun hF => ⟨hF, .inl (refl s)⟩
  intro _ t ht
  subst t
  rw [if_neg (by simp [h.share0_len, h.share1_len, h.modulus_len]), cofactor_start_case,
    if_pos h.size, if_neg (by simp [h.share0_len, h.modulus_len])]
  refine Spec.bind (R := fun _ t => t = combined s) (Spec.modify rfl) ?_
  rintro _ _ rfl
  -- From here on every step leaves the buffers as they are after the combination.
  have hexcuse : ∀ {P : Prop} {t : State}, SameInputs (combined s) t → P →
      P ∧ (SameInputs s t ∨ SameInputs (combined s) t) := fun ht hP => ⟨hP, .inr ht⟩
  have hstep : ∀ (e : CryptoError) (f : State → State) (t : State), SameInputs (combined s) t →
      Spec F (driver e f) t (fun _ t' => t' = f t)
        (fun _ t' => F .failed ∧ (SameInputs s t' ∨ SameInputs (combined s) t'))
        (fun t' => F .lost ∧ (SameInputs s t' ∨ SameInputs (combined s) t')) :=
    fun e f t ht => Spec.step rfl (hexcuse ht) (hexcuse ht)
  refine Spec.bind (hstep _ _ _ ⟨rfl, rfl, rfl⟩) ?_
  rintro _ _ rfl
  refine Spec.bind (hstep _ _ _ ⟨rfl, rfl, rfl⟩) ?_
  rintro _ _ rfl
  refine Spec.bind (hstep _ _ _ ⟨rfl, rfl, rfl⟩) ?_
  rintro _ _ rfl
  refine Spec.bind (R := fun _ t => t = loaded s) ?_ ?_
  · refine Spec.conseq (hstep _ _ _ ?_) ?_ (fun _ _ => id) fun _ => id
    · exact ⟨rfl, rfl, rfl⟩
    · rintro _ _ rfl
      simp only [loaded, started_dmem, ← combined_words h.share0]
  · rintro _ _ rfl
    exact hstep _ _ _ ⟨rfl, rfl, rfl⟩

/-- With key buffers that are accepted, the modulus that OTBN computed is stored. -/
theorem async_finalize_does {s : State} (h : FinalizeAccepts s) :
    Does otcrypto_rsa_keypair_from_cofactor_async_finalize (started program s) fun _ t =>
      stored_modulus t = recomputed_modulus program s ∧
        t.public_key.map UnblindedKey.key_length = some kOtcryptoRsa2048PublicKeyBytes ∧
        t.modulus = s.modulus := by
  obtain ⟨public_key, private_key, hpair, hcheck⟩ := h
  have hpair' : key_pair (started program s) = some (public_key, private_key) := hpair
  obtain ⟨hlen, -, hstructured⟩ := (key_pair_check_iff .rsa2048 _ _).mp hcheck
  refine Does.get ?_
  rw [hpair']
  refine Does.step_bind ?_
  refine Does.ofExcept_bind hcheck ?_
  rw [hstructured.keyblob_length]
  refine Does.modify_bind ?_
  refine Does.bind (R := fun _ t => t = finished kRsa2048NumWords
    (shredded (ceil_div (12 * RsaSize.num_words .rsa2048) 4) (started program s))) ?_ ?_
  · rw [cofactor_finalize_case, if_pos rfl]
    exact cofactor_2048_finalize_does rfl
  rintro _ _ rfl
  obtain ⟨public_key', private_key', hpublic, -, hstored⟩ :=
    @finished_keys (started program s) .rsa2048 _ _ hpair'
  refine (set_checksums_does _).mono ?_
  rintro _ _ rfl
  have hkeys : (checksummed (finished kRsa2048NumWords (shredded
      (ceil_div (12 * RsaSize.num_words .rsa2048) 4) (started program s)))).public_key =
        some { public_key' with checksum := integrity_unblinded_checksum public_key' } := by
    unfold checksummed State.on_private State.on_public
    exact congrArg (Option.map _) hpublic
  refine ⟨?_, ?_, rfl⟩
  · rw [stored_modulus, hkeys]
    exact hstored.public_modulus
  · rw [hkeys, Option.map_some, hstored.public_length, hlen]
    rfl

/-- Other key buffers make the second half fail. -/
theorem async_finalize_rejects {s : State} (h : ¬ FinalizeAccepts s) (F : Fate → Prop) :
    Spec F otcrypto_rsa_keypair_from_cofactor_async_finalize s (fun _ _ => False)
      (fun _ _ => True) fun _ => True := by
  refine Spec.get ?_
  split
  · exact Spec.throw trivial
  · rename_i public_key private_key hpair
    refine Spec.bind (R := fun _ _ => True) (Spec.step trivial (fun _ => trivial) fun _ => trivial) ?_
    rintro _ t -
    refine Spec.bind (R := fun size _ => key_pair_check public_key private_key = .ok size)
      (Spec.ofExcept (fun _ hsize => hsize) fun _ _ => trivial) ?_
    rintro size t hsize
    refine Spec.bind (R := fun _ _ => True) (Spec.modify trivial) ?_
    rintro _ t -
    refine Spec.bind (R := fun _ _ => False) ?_ fun _ _ => False.elim
    unfold cofactor_finalize_case
    split_ifs with h2048
    · exact absurd ⟨public_key, private_key, hpair, h2048 ▸ hsize⟩ h
    · exact Spec.throw trivial
    · exact Spec.throw trivial
    · exact Spec.throw trivial

theorem recompute_does {size : u32} {s : State} (h : StartAccepts size s)
    (hkeys : FinalizeAccepts s) :
    Does (recompute_keypair program size) s fun _ t =>
      stored_modulus t = recomputed_modulus program s ∧
        t.public_key.map UnblindedKey.key_length = some kOtcryptoRsa2048PublicKeyBytes ∧
        t.modulus = s.modulus := by
  have hstart : Does (otcrypto_rsa_keypair_from_cofactor_async_start program size) s
      fun _ t => t = started program s :=
    fun F => (async_start_spec program h F).conseq (fun _ _ => id) (fun _ _ => And.left)
      fun _ => And.left
  refine Does.bind hstart ?_
  rintro _ _ rfl
  refine Does.bind (async_finalize_does program hkeys) ?_
  intro _ t ht
  exact Does.step ht

/-- Without acceptable arguments the recomputation does not return. -/
theorem recompute_rejects {size : u32} {s : State} (h : ¬ (StartAccepts size s ∧ FinalizeAccepts s))
    (F : Fate → Prop) :
    Spec F (recompute_keypair program size) s (fun _ _ => False) (fun _ _ => True)
      fun _ => True := by
  by_cases hstart : StartAccepts size s
  · have hkeys : ¬ FinalizeAccepts (started program s) := fun hkeys => h ⟨hstart, hkeys⟩
    refine Spec.bind ((async_start_spec program hstart F).conseq (fun _ _ => id)
      (fun _ _ _ => trivial) fun _ _ => trivial) ?_
    rintro _ _ rfl
    exact Spec.bind (async_finalize_rejects hkeys F) fun _ _ => False.elim
  · exact Spec.bind ((async_start_rejects program hstart F).conseq (fun _ _ => id)
      (fun _ _ _ => trivial) fun _ _ => trivial) fun _ _ => False.elim

/-- Whatever becomes of an accepted call, its buffers are those at the start or those
with the shares combined. -/
theorem keypair_buffers {size : u32} {s : State} (h : StartAccepts size s) (F : Fate → Prop) :
    Spec F (otcrypto_rsa_keypair_from_cofactor program size) s
      (fun _ t => SameInputs (combined s) t)
      (fun _ t => F .failed ∧ SameInputs s t ∨ SameInputs (combined s) t)
      (fun t => F .lost ∧ SameInputs s t ∨ SameInputs (combined s) t) := by
  have hsplit : ∀ {P : Prop} {t : State}, (P ∧ (SameInputs s t ∨ SameInputs (combined s) t)) →
      P ∧ SameInputs s t ∨ SameInputs (combined s) t := by
    rintro P t ⟨hP, ht | ht⟩
    · exact .inl ⟨hP, ht⟩
    · exact .inr ht
  have hrest : ∀ {α : Type} {p : Proc State CryptoError α} {t : State}, Within SameInputs p →
      SameInputs (combined s) t → Spec F p t (fun _ t' => SameInputs (combined s) t')
        (fun _ t' => F .failed ∧ SameInputs s t' ∨ SameInputs (combined s) t')
        (fun t' => F .lost ∧ SameInputs s t' ∨ SameInputs (combined s) t') :=
    fun hp ht => (hp F _).conseq (fun _ _ h' => trans_of SameInputs ht h')
      (fun _ _ h' => .inr (trans_of SameInputs ht h')) fun _ h' => .inr (trans_of SameInputs ht h')
  refine Spec.bind (R := fun _ t => SameInputs (combined s) t) ?_ fun _ t ht =>
    hrest (compare_moduli_same size) ht
  refine Spec.bind ((async_start_spec program h F).conseq (fun _ _ => id) (fun _ _ => hsplit)
    fun _ => hsplit) ?_
  rintro _ _ rfl
  refine Spec.bind (hrest cofactor_async_finalize_same ⟨rfl, rfl, rfl⟩) fun _ t ht => ?_
  exact hrest entropy_complex_check_same ht

/-- After an accepted recomputation the comparison changes nothing and does not show. -/
theorem compare_moduli_returns {size : u32} {t : State} (hsize : size = kOtcryptoRsaSize2048)
    (hkey : t.public_key.map UnblindedKey.key_length = some kOtcryptoRsa2048PublicKeyBytes)
    (hmodulus : t.modulus.len = kRsa2048NumWords) (m : Machine State) (hm : m.mem = t) :
    compare_moduli size m = (.ret (), m) := by
  subst hm hsize
  have hcase : cofactor_compare_case kOtcryptoRsaSize2048 m.mem = .ok (.inr ()) := by
    rw [cofactor_compare_case, if_pos rfl, if_neg (by simp [hkey, hmodulus])]
  unfold compare_moduli
  rw [Proc.get_bind, hcase]
  rfl

end

/-! ## What a call owes its caller -/

/-- A call returns only with the modulus it was given, reports any other as bad
arguments, and leaves the shares of the cofactor alone. -/
structure Checked (program : OtbnApp → Dmem → Numbers) (size : u32) (s : State) : Prop where
  modulus : ∀ m m', m.mem = s → otcrypto_rsa_keypair_from_cofactor program size m = (.ret (), m') →
    stored_modulus m'.mem = s.modulus.words
  bad_args : ∀ m m', m.mem = s → recompute_keypair program size m = (.ret (), m') →
    stored_modulus m'.mem ≠ s.modulus.words →
      (otcrypto_rsa_keypair_from_cofactor program size m).1 = .error .OTCRYPTO_BAD_ARGS
  shares : ∀ m, m.mem = s →
    (otcrypto_rsa_keypair_from_cofactor program size m).2.mem.cofactor_share0 =
        s.cofactor_share0 ∧
      (otcrypto_rsa_keypair_from_cofactor program size m).2.mem.cofactor_share1 =
        s.cofactor_share1

section

variable (program : OtbnApp → Dmem → Numbers) {size : u32} {s : State}

/-- The run of an accepted call on which every operation is carried out. -/
theorem keypair_run (h : StartAccepts size s) (hkeys : FinalizeAccepts s) :
    ∃ m', otcrypto_rsa_keypair_from_cofactor program size (Machine.sound s) = (.ret (), m') ∧
      stored_modulus m'.mem = recomputed_modulus program s := by
  obtain ⟨_, m', hrun, ⟨hstored, hkey, hmodulus⟩, -⟩ :=
    (recompute_does program h hkeys).run rfl (Machine.sound_under s)
  refine ⟨m', ?_, hstored⟩
  rw [otcrypto_rsa_keypair_from_cofactor, Proc.bind_of_ret hrun]
  exact compare_moduli_returns h.size hkey (hmodulus ▸ h.modulus_len) m' rfl

/-- A call checks what it is given exactly if it is not accepted, or there is nothing in
the second share and OTBN computes the right modulus. -/
theorem checked_iff :
    Checked program size s ↔ (StartAccepts size s →
      (∀ w ∈ s.cofactor_share1.words, w = 0) ∧
        (FinalizeAccepts s → recomputed_modulus program s = s.modulus.words)) := by
  constructor
  · intro hchecked h
    constructor
    · rw [← combined_share0_eq_iff h]
      have hkept := (hchecked.shares (Machine.sound s) rfl).1
      -- With every operation carried out, all that is left is a combined share.
      have hcombined := (keypair_buffers program h (· = .done)).mem (fun _ _ => id)
        (fun _ _ ht => ht.resolve_left fun hF => nomatch hF.1)
        (fun _ ht => ht.resolve_left fun hF => nomatch hF.1) rfl (Machine.sound_under s)
      exact hcombined.share0.symm.trans hkept
    · intro hkeys
      obtain ⟨m', hrun, hstored⟩ := keypair_run program h hkeys
      rw [← hstored]
      exact hchecked.modulus _ m' rfl hrun
  · intro hcond
    -- A recomputation that returns has been accepted, and so has stored the right modulus.
    have hright : ∀ m m', m.mem = s → recompute_keypair program size m = (.ret (), m') →
        stored_modulus m'.mem = s.modulus.words := by
      intro m m' hm hrun
      by_cases h : StartAccepts size s ∧ FinalizeAccepts s
      · obtain ⟨hstored, -, -⟩ := (recompute_does program h.1 h.2).of_ret hm hrun
        rw [hstored]
        exact (hcond h.1).2 h.2
      · obtain ⟨hmeets, -⟩ := recompute_rejects program h (fun _ => True) m hm fun _ => trivial
        rw [hrun] at hmeets
        exact hmeets.elim
    refine ⟨?_, ?_, ?_⟩
    · intro m m' hm hrun
      obtain ⟨_, m₁, hrecompute, hcompare⟩ := Proc.bind_eq_ret hrun
      have hsame : m' = m₁ := by
        have hkeeps := (compare_moduli_keeps size m₁).1
        rwa [hcompare] at hkeeps
      exact hsame ▸ hright m m₁ hm hrecompute
    · intro m m' hm hrun hne
      exact absurd (hright m m' hm hrun) hne
    · intro m hm
      by_cases h : StartAccepts size s
      · have hkept : (combined s).cofactor_share0 = s.cofactor_share0 :=
          (combined_share0_eq_iff h).mpr (hcond h).1
        have hsame := (keypair_buffers program h fun _ => True).mem
          (P := fun t => SameInputs s t ∨ SameInputs (combined s) t) (fun _ _ => .inr)
          (fun _ _ ht => ht.imp_left And.right) (fun _ ht => ht.imp_left And.right) hm
          fun _ => trivial
        rcases hsame with hsame | hsame
        · exact ⟨hsame.share0, hsame.share1⟩
        · exact ⟨hsame.share0.trans hkept, hsame.share1⟩
      · have hrejects : Spec (fun _ => True) (otcrypto_rsa_keypair_from_cofactor program size) s
            (fun _ _ => False) (fun _ t => t = s) fun t => t = s :=
          Spec.bind (Spec.bind (async_start_rejects program h _) fun _ _ => False.elim)
            fun _ _ => False.elim
        have hsame := hrejects.mem (P := (· = s)) (fun _ _ => False.elim) (fun _ _ => id)
          (fun _ => id) hm fun _ => trivial
        exact hsame ▸ ⟨rfl, rfl⟩

/-- A modulus of ones, with key buffers of the right lengths. -/
def modulus_of_ones : State where
  app := none
  dmem := Dmem.wiped
  entropy := ⟨fun _ => 0, 0⟩
  modulus := ⟨some (List.replicate 64 1), 64, by decide⟩
  cofactor_share0 := ⟨some (List.replicate 32 0), 32, by decide⟩
  cofactor_share1 := ⟨some (List.replicate 32 1), 32, by decide⟩
  public_key := some ⟨kOtcryptoKeyModeRsaSignPkcs, 256, some (List.replicate 64 0), 0⟩
  private_key := some
    { config := ⟨kOtcryptoLibVersion1, kOtcryptoKeyModeRsaSignPkcs, 256, kHardenedBoolFalse,
        kHardenedBoolFalse, kOtcryptoKeySecurityLevelLow⟩
      keyblob_length := 768
      keyblob := some (List.replicate 192 0)
      checksum := 0 }
  started := none

/-- OTBN recomputes a modulus of zeros, and the call returns all the same. -/
theorem modulus_of_ones_unchecked :
    ¬ Checked (fun _ _ => ⟨fun _ => 0, fun _ => 0, fun _ => 0⟩) kOtcryptoRsaSize2048
      modulus_of_ones := by
  intro hchecked
  have hstart : StartAccepts kOtcryptoRsaSize2048 modulus_of_ones :=
    ⟨nofun, nofun, nofun, rfl, rfl, rfl, rfl⟩
  have hkeys : FinalizeAccepts modulus_of_ones :=
    ⟨_, _, rfl, (key_pair_check_iff .rsa2048 _ _).mpr
      ⟨by decide, by decide, by decide, by decide, by decide, by decide⟩⟩
  obtain ⟨m', hrun, hstored⟩ := keypair_run _ hstart hkeys
  have hmodulus := hchecked.modulus _ m' rfl hrun
  rw [hstored] at hmodulus
  exact absurd (congrArg List.head? hmodulus) (by decide)

end

end IbexFirmware.Rsa
