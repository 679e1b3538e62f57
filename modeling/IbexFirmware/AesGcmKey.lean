/-
Opening and closing a key for AES-GCM.

A key that a call accepts is masked afresh or loaded into its slot, and is then ready for the
driver (`open_key_guarded`). Whatever the drivers report on the way, the key structure stays
one that the next call accepts. `with_key_guarded` and `with_key_refuses` carry an operation
from the driver to the caller.
-/
import IbexFirmware.AesGcm

set_option autoImplicit false

namespace IbexFirmware.Aes

open Bytes PowerFail Crypto HardenedMemory Splice Session

variable {s : Device} {hw : Hardware} {config : KeyConfig} {K : List u32} {addr : ℕ}

/-! ## Rules -/

section rules

variable {α : Type} {Q : α → Device → Prop} {I : Device → Prop}

/-- What an operation of the core does, and what it keeps however it ends. -/
theorem Frame.guarded {p : Proc Device CryptoError α} (hp : Frame p) (h : Does p s Q) :
    Guarded p s (fun a t => Q a t ∧ Kept s t) (Kept s) :=
  h.guarded (hp s) Kept.rfl

theorem hardened_check_guarded {c : Prop} [Decidable c] {f : Unit → Proc Device CryptoError α}
    (hc : c) (h : Guarded (f ()) s Q I) : Guarded (hardened_check c >>= f) s Q I := by
  rw [hardened_check, if_pos hc]
  exact h

theorem memshred_entropy (n : ℕ) :
    Guarded (memshred n) s (fun _ t => ∃ entropy, t = { s with entropy := entropy }) I :=
  Guarded.get (Guarded.modify_bind (Guarded.pure ⟨_, rfl⟩))

theorem memshred_guarded {n : ℕ} {f : List u32 → Proc Device CryptoError α}
    (h : ∀ (ws : List u32) (entropy : EntropySource),
      Guarded (f ws) { s with entropy := entropy } Q I) : Guarded (memshred n >>= f) s Q I := by
  refine Guarded.bind (memshred_entropy n) ?_
  rintro ws _ ⟨entropy, rfl⟩
  exact h ws entropy

end rules

/-- A key structure at an address with the property `P`. -/
def KeyAt (P : BlindedKey → Prop) (addr : ℕ) (s : Device) : Prop := P (s.keys addr)

theorem KeyAt.congr {P : BlindedKey → Prop} {t : Device} (h : KeyAt P addr s)
    (hkeys : t.keys = s.keys) : KeyAt P addr t := by
  rw [KeyAt, hkeys]
  exact h

theorem KeyAt.kept {P : BlindedKey → Prop} {t : Device} (h : KeyAt P addr s) (hkept : Kept s t) :
    KeyAt P addr t := h.congr hkept.keys

/-! ## Opening -/

/-- A key in shares gets a fresh mask and stands for the same words. -/
theorem keyblob_remask_guarded (h : KeyAt (Stands hw config K) addr s)
    (hsoft : config.hw_backed = kHardenedBoolFalse) :
    Guarded (keyblob_remask addr) s (fun _ => KeyAt (Stands hw config K) addr)
      (KeyAt (Stands hw config K) addr) := by
  have hconfig := h.config_eq
  have hsoft' : (s.keys addr).config.hw_backed = kHardenedBoolFalse := by rw [hconfig, hsoft]
  refine Guarded.get (Guarded.ofExcept_bind (h.accepted.ensure_xor_masked hsoft') ?_)
  refine Guarded.step_bind (Guarded.ofExcept_bind (h.accepted.stored.to_shares hsoft') ?_) h
  refine memshred_guarded fun mask entropy => Guarded.modify ?_
  rw [KeyAt, Device.set_key_self, hconfig]
  exact h.remask hsoft mask rfl rfl

/-- What is done about the shares of an accepted key. -/
theorem aes_gcm_key_shares_guarded (h : KeyAt (Stands hw config K) addr s) :
    Guarded (aes_gcm_key_shares addr (s.keys addr)) s
      (fun _ => KeyAt (Stands hw config K) addr) (KeyAt (Stands hw config K) addr) := by
  have hne : ¬ kHardenedBoolFalse = kHardenedBoolTrue := by decide
  unfold aes_gcm_key_shares
  rcases h.accepted.stored with ⟨hhw, hlen⟩ | ⟨hsoft, -⟩
  · rw [if_pos hhw, if_neg (not_not.mpr hlen)]
    exact Guarded.pure h
  · rw [if_neg (by rw [hsoft]; exact hne), if_pos hsoft]
    rw [h.config_eq] at hsoft
    refine Guarded.bind (keyblob_remask_guarded h hsoft) fun _ t ht => Guarded.get ?_
    refine Guarded.ofExcept_bind (ht.accepted.stored.to_shares ?_) (Guarded.pure ht)
    rw [ht.config_eq, hsoft]

theorem aes_gcm_key_construct_guarded (h : KeyAt (Stands hw config K) addr s) :
    Guarded (aes_gcm_key_construct addr) s
      (fun key t => KeyAt (Stands hw config K) addr t ∧ key = aes_key_of addr config t)
      (KeyAt (Stands hw config K) addr) := by
  unfold aes_gcm_key_construct
  refine Guarded.get ?_
  rw [if_neg (not_not.mpr h.accepted.integrity), if_neg (not_not.mpr h.accepted.key_mode),
    if_neg h.accepted.keyblob]
  refine Guarded.bind (aes_gcm_key_shares_guarded h) fun _ t ht => ?_
  refine Guarded.get (hardened_check_guarded ht.accepted.integrity (Guarded.pure ⟨ht, ?_⟩))
  rw [h.config_eq]

/-- The key for the driver is ready when it has been loaded, if it has to be. -/
theorem load_key_guarded (h : KeyAt (Stands hw config K) addr s) :
    Guarded (load_key_if_sideloaded hw (aes_key_of addr config s)) s
      (fun _ t => t.keys = s.keys ∧ KeyReady t (aes_key_of addr config s) K)
      (KeyAt (Stands hw config K) addr) := by
  have hside : (aes_key_of addr config s).sideload = config.hw_backed := rfl
  have hne : ¬ kHardenedBoolTrue = kHardenedBoolFalse := by decide
  unfold load_key_if_sideloaded
  rw [hside]
  rcases h.accepted.sideload with hhw | hsoft
  · rw [h.config_eq] at hhw
    rw [if_neg (by rw [hhw]; exact hne), if_neg (not_not.mpr hhw)]
    refine Guarded.get (Guarded.bind (R := fun d t => t = s ∧
      d = diversification_of (s.keys addr).words kOtcryptoKeyModeAesGcm)
        (Guarded.step_bind (Guarded.pure ⟨rfl, rfl⟩) h) ?_)
    rintro _ _ ⟨rfl, rfl⟩
    refine Guarded.step_bind (Guarded.step_bind (Guarded.step ⟨rfl, ?_⟩ h) h) h
    -- The slot holds what the key manager derives from the keyblob.
    refine ⟨rfl, Or.inl hhw, ?_, fun hsoft => absurd (hhw.symm.trans hsoft) hne, rfl, ?_⟩
    · have hlen := h.accepted.key_len
      rw [h.config_eq] at hlen
      exact hlen
    · rw [AesKey.words, hside, if_pos hhw, ← h.words, gcm_words, h.config_eq, if_pos hhw]
      rfl
  · rw [h.config_eq] at hsoft
    rw [if_pos hsoft]
    exact Guarded.pure ⟨rfl, Held.ready (Stands.held h) hsoft⟩

/-- The key that a call works with. -/
structure Opened (hw : Hardware) (config : KeyConfig) (K : List u32) (addr : ℕ) (key : AesKey)
    (s : Device) : Prop where
  stands : KeyAt (Stands hw config K) addr s
  ready : KeyReady s key K
  key_eq : key = aes_key_of addr config s

theorem open_key_guarded (h : KeyAt (Stands hw config K) addr s) :
    Guarded (open_key hw addr) s (fun r => Opened hw config K addr r.2)
      (KeyAt (Stands hw config K) addr) := by
  unfold open_key ibex_disable_icache
  refine Guarded.bind (R := fun _ => KeyAt (Stands hw config K) addr)
    (Guarded.get (Guarded.modify_bind (Guarded.pure h))) fun _ t ht => ?_
  refine Guarded.bind (aes_gcm_key_construct_guarded ht) ?_
  rintro key u ⟨hu, rfl⟩
  refine Guarded.bind (load_key_guarded hu) ?_
  rintro _ v ⟨hkeys, hready⟩
  refine Guarded.pure ⟨hu.congr hkeys, hready, ?_⟩
  simp only [aes_key_of, aes_key_integrity_checksum, hkeys]

/-- A key whose checksum does not fit is not opened. -/
theorem open_key_refuses (h : integrity_blinded_key_check (s.keys addr) ≠ kHardenedBoolTrue) :
    Refuses (open_key hw addr) s fun t => t.keys = s.keys := by
  unfold open_key ibex_disable_icache
  refine Refuses.bind (R := fun _ t => t.keys = s.keys)
    (Guarded.get (Guarded.modify_bind (Guarded.pure rfl))) fun _ t ht => ?_
  refine Refuses.bind_left (Refuses.get ?_)
  rw [if_pos (by rw [ht]; exact h)]
  exact Refuses.throw ht

/-! ## Closing -/

theorem close_key_guarded {key : AesKey} (h : KeyReady s key K) (icache_saved_state : Bool) :
    Guarded (close_key icache_saved_state key) s (fun _ t => t.keys = s.keys)
      fun t => t.keys = s.keys := by
  unfold close_key clear_key_if_sideloaded
  refine Guarded.bind (R := fun _ t => t.keys = s.keys) ?_ fun _ t ht => Guarded.modify ht
  have hne : ¬ kHardenedBoolTrue = kHardenedBoolFalse := by decide
  rcases h.sideload with hhw | hsoft
  · rw [if_neg (by rw [hhw]; exact hne), if_neg (not_not.mpr hhw)]
    exact Guarded.step_bind (Guarded.step_bind (Guarded.step rfl rfl) rfl) rfl
  · rw [if_pos hsoft]
    exact Guarded.pure rfl

/-! ## Operations -/

section operations

variable {α : Type} {operation : AesKey → Proc Device CryptoError α} {Q : α → Prop}

/-- An operation that keeps the keys, with the key opened for it. -/
theorem with_key_guarded (h : KeyAt (Stands hw config K) addr s)
    (hop : ∀ t key, KeyReady t key K →
      Guarded (operation key) t (fun r u => Q r ∧ Kept t u) (Kept t)) :
    Guarded (with_key hw addr operation) s (fun r t => Q r ∧ KeyAt (Stands hw config K) addr t)
      (KeyAt (Stands hw config K) addr) := by
  unfold with_key
  refine Guarded.bind (open_key_guarded h) ?_
  rintro ⟨icache_saved_state, key⟩ t hopened
  refine Guarded.bind ((hop t key hopened.ready).mono (fun _ _ => id) fun u hu =>
    hopened.stands.kept hu) ?_
  rintro r u ⟨hr, hkept⟩
  have hstands := hopened.stands.kept hkept
  exact Guarded.bind ((close_key_guarded (hopened.ready.kept hkept) _).mono
    (fun _ _ => hstands.congr) fun _ => hstands.congr) fun _ v hv => Guarded.pure ⟨hr, hv⟩

theorem with_key_refuses (h : KeyAt (Stands hw config K) addr s)
    (hop : ∀ t key, KeyReady t key K → Refuses (operation key) t (Kept t)) :
    Refuses (with_key hw addr operation) s (KeyAt (Stands hw config K) addr) := by
  unfold with_key
  refine Refuses.bind (open_key_guarded h) ?_
  rintro ⟨icache_saved_state, key⟩ t hopened
  exact Refuses.bind_left ((hop t key hopened.ready).mono fun u hu => hopened.stands.kept hu)

theorem with_key_refuses_key
    (h : integrity_blinded_key_check (s.keys addr) ≠ kHardenedBoolTrue) :
    Refuses (with_key hw addr operation) s fun t => t.keys = s.keys :=
  Refuses.bind_left (open_key_refuses h)

end operations

end IbexFirmware.Aes
