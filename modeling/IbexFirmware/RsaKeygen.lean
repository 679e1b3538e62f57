/-
The RSA keys that the library produces, and what takes them.

A private key is stored as its two shares and its modulus one behind the other
(`Holds`), whether the numbers come from the caller or from OTBN. Finishing a computation
of OTBN stores the numbers that it left (`finished_keys`).
-/
import IbexFirmware.Rsa
import IbexFirmware.Lib.Does

set_option autoImplicit false

namespace IbexFirmware.Rsa

open Bytes PowerFail Crypto HardenedMemory Splice

/-! ## Sizes -/

inductive RsaSize where
  | rsa2048
  | rsa3072
  | rsa4096
  deriving DecidableEq

namespace RsaSize

/-- The constant the library passes for the size. -/
def code : RsaSize → u32
  | rsa2048 => kOtcryptoRsaSize2048
  | rsa3072 => kOtcryptoRsaSize3072
  | rsa4096 => kOtcryptoRsaSize4096

def num_words : RsaSize → u32
  | rsa2048 => kRsa2048NumWords
  | rsa3072 => kRsa3072NumWords
  | rsa4096 => kRsa4096NumWords

def keygen_mode : RsaSize → OtbnMode
  | rsa2048 => .kMode2048Keygen
  | rsa3072 => .kMode3072Keygen
  | rsa4096 => .kMode4096Keygen

variable (size : RsaSize)

theorem code_injective : Function.Injective code := by
  intro a b h
  cases a <;> cases b <;> first | rfl | exact absurd h (by decide)

theorem known_code : known_size size.code := by
  cases size <;> decide

theorem size_words_code : size_words size.code = size.num_words := by
  cases size <;> decide

theorem private_key_lengths_code :
    private_key_lengths size.code = some (4 * size.num_words, 12 * size.num_words) := by
  cases size <;> decide

theorem ceil_div_keyblob : (ceil_div (12 * size.num_words) 4).toNat = 3 * size.num_words.toNat := by
  cases size <;> decide

end RsaSize

theorem rsa_size_from_public_key_eq {k : UnblindedKey} {size : RsaSize}
    (h : k.key_length = 4 * size.num_words) : rsa_size_from_public_key k = .ok size.code := by
  unfold rsa_size_from_public_key
  rw [h]
  cases size <;> rfl

theorem rsa_size_from_private_key_eq {k : BlindedKey} {size : RsaSize}
    (h : k.config.key_length = 4 * size.num_words) :
    rsa_size_from_private_key k = .ok size.code := by
  unfold rsa_size_from_private_key
  rw [h]
  cases size <;> rfl

/-- A size that is inferred is the size of the key. -/
theorem rsa_size_from_public_key_ok {k : UnblindedKey} {size : RsaSize}
    (h : rsa_size_from_public_key k = .ok size.code) : k.key_length = 4 * size.num_words := by
  unfold rsa_size_from_public_key at h
  split_ifs at h with h2048 h3072 h4096
  · obtain rfl : RsaSize.rsa2048 = size := RsaSize.code_injective (Except.ok.inj h)
    exact h2048
  · obtain rfl : RsaSize.rsa3072 = size := RsaSize.code_injective (Except.ok.inj h)
    exact h3072
  · obtain rfl : RsaSize.rsa4096 = size := RsaSize.code_injective (Except.ok.inj h)
    exact h4096

/-- What the structural check asks of a private key. -/
structure Structured (size : RsaSize) (k : BlindedKey) : Prop where
  mode : rsa_mode_check k.config.key_mode = .ok ()
  software : k.config.hw_backed = kHardenedBoolFalse
  key_length : k.config.key_length = 4 * size.num_words
  keyblob_length : k.keyblob_length = 12 * size.num_words

theorem private_key_structural_check_iff (size : RsaSize) (k : BlindedKey) :
    private_key_structural_check size.code k = .ok () ↔ Structured size k := by
  unfold private_key_structural_check
  rw [RsaSize.private_key_lengths_code]
  cases hmode : rsa_mode_check k.config.key_mode with
  | error e => exact iff_of_false nofun fun h => by rw [h.mode] at hmode; cases hmode
  | ok _ =>
      show (if k.config.hw_backed ≠ kHardenedBoolFalse then _ else _) = _ ↔ _
      split_ifs with hhw hlen
      · exact iff_of_false nofun fun h => hhw h.software
      · refine iff_of_false nofun fun h => ?_
        rcases hlen with hlen | hlen
        · exact hlen h.key_length
        · exact hlen h.keyblob_length
      · simp only [not_or, ne_eq, not_not] at hhw hlen
        exact iff_of_true rfl ⟨hmode, hhw, hlen.1, hlen.2⟩

/-- What a pair of key buffers must be for a computed key. -/
theorem key_pair_check_iff (size : RsaSize) (public_key : UnblindedKey) (private_key : BlindedKey) :
    key_pair_check public_key private_key = .ok size.code ↔
      public_key.key_length = 4 * size.num_words ∧
        rsa_mode_check public_key.key_mode = .ok () ∧ Structured size private_key := by
  unfold key_pair_check public_key_structural_check
  rw [← private_key_structural_check_iff]
  constructor
  · intro h
    cases hsize : rsa_size_from_public_key public_key with
    | error e => rw [hsize] at h; cases h
    | ok code =>
        rw [hsize] at h
        cases hmode : rsa_mode_check public_key.key_mode with
        | error e => rw [hmode] at h; cases h
        | ok _ =>
            rw [hmode] at h
            cases hcheck : private_key_structural_check code private_key with
            | error e =>
                change (do private_key_structural_check code private_key; pure code) = _ at h
                rw [hcheck] at h
                cases h
            | ok _ =>
                change (do private_key_structural_check code private_key; pure code) = _ at h
                rw [hcheck] at h
                obtain rfl : code = size.code := Except.ok.inj h
                exact ⟨rsa_size_from_public_key_ok hsize, rfl, hcheck⟩
  · rintro ⟨hlen, hmode, hcheck⟩
    rw [rsa_size_from_public_key_eq hlen, hmode]
    change (do private_key_structural_check size.code private_key; pure size.code) = _
    rw [hcheck]
    rfl

/-! ## Numbers in a keyblob -/

/-- The keyblob holds the shares `d0` and `d1` and the modulus `n`, `k` words each. -/
structure Holds (k : ℕ) (n d0 d1 : List u32) (ws : List u32) : Prop where
  share0 : slice ws 0 k = d0
  share1 : slice ws k k = d1
  modulus : slice ws (2 * k) k = n

/-- The three writes leave the three numbers, in whichever order they are made. -/
theorem holds_write {key : BlindedKey} {k : ℕ} {n d0 d1 : List u32} (hkey : key.keyblob ≠ none)
    (hlen : 3 * k ≤ key.words.length) (hn : n.length = k) (hd0 : d0.length = k)
    (hd1 : d1.length = k) :
    Holds k n d0 d1 (((key.write (2 * k) n).write 0 d0).write k d1).words := by
  have hkey₁ := BlindedKey.keyblob_write hkey (2 * k) n
  have hkey₂ := BlindedKey.keyblob_write hkey₁ 0 d0
  rw [BlindedKey.words_write hkey₂, BlindedKey.words_write hkey₁, BlindedKey.words_write hkey]
  have hlen₁ : (splice key.words (2 * k) n).length = key.words.length := length_splice (by omega)
  have hlen₂ : (splice (splice key.words (2 * k) n) 0 d0).length = key.words.length := by
    rw [length_splice (by omega), hlen₁]
  constructor
  · rw [slice_splice_before (by omega) (by omega)]
    exact slice_splice hd0 (by omega)
  · exact slice_splice hd1 (by omega)
  · rw [slice_splice_after (by omega) (by omega), slice_splice_after (by omega) (by omega)]
    exact slice_splice hn (by omega)

/-! ## Reading back from OTBN -/

theorem try_wipe_dmem_eq {α : Type} (p : Proc State CryptoError α) :
    try_wipe_dmem p = p.cleanup otbn_dmem_sec_wipe := by
  unfold try_wipe_dmem Proc.cleanup
  congr 1
  funext r
  cases r <;> rfl

theorem try_wipe_dmem_does {α : Type} {p : Proc State CryptoError α} {s : State}
    {Q : α → State → Prop} (hp : Does p s Q) : Does (try_wipe_dmem p) s Q :=
  try_wipe_dmem_eq p ▸ Does.cleanup hp fun _ => Does.step trivial

theorem keygen_wait_does {s : State} {exp_mode : OtbnMode} (h : s.dmem.mode = some exp_mode) :
    Does (keygen_wait exp_mode) s fun _ t => t = s := by
  refine Does.bind (try_wipe_dmem_does (Does.step (Q := fun _ t => t = s) rfl)) ?_
  intro _ t ht
  subst t
  refine Does.bind (R := fun act_mode t => act_mode = some exp_mode ∧ t = s)
    (try_wipe_dmem_does (Does.step ⟨h, rfl⟩)) ?_
  rintro act_mode t ⟨hmode, ht⟩
  subst t
  rw [if_neg (not_not.mpr hmode)]
  exact Does.pure rfl

/-- The key with the numbers of OTBN in its keyblob. -/
def store_numbers (num_words : u32) (dmem : Dmem) (k : BlindedKey) : BlindedKey :=
  ((k.write (2 * num_words.toNat) (variable_words num_words dmem.rsa_n)).write 0
    (variable_words num_words dmem.rsa_d0)).write num_words.toNat
      (variable_words num_words dmem.rsa_d1)

def read_back (num_words : u32) (s : State) : State :=
  s.on_private (store_numbers num_words s.dmem)

theorem on_private_on_private (s : State) (f g : BlindedKey → BlindedKey) :
    (s.on_private f).on_private g = s.on_private fun k => g (f k) := by
  simp [State.on_private, Function.comp_def]

theorem keygen_read_does (num_words : u32) (s : State) :
    Does (keygen_read num_words) s fun _ t => t = read_back num_words s := by
  refine Does.bind (try_wipe_dmem_does (Does.step (Q := fun _ t => t = s.on_private fun k =>
    k.write (2 * num_words.toNat) (variable_words num_words s.dmem.rsa_n)) rfl)) ?_
  rintro _ _ rfl
  unfold otbn_dmem_read_key driver
  refine Does.step_bind ?_
  refine Does.step ?_
  simp only [on_private_on_private, read_back]
  rfl

/-- The state with the modulus in the public key as well. -/
def copied (num_words : u32) (s : State) : State :=
  s.on_public fun k =>
    k.write (slice ((s.private_key.map BlindedKey.words).getD []) (2 * num_words.toNat)
      num_words.toNat)

/-- What both ways to finish a computation of OTBN leave. -/
def finished (num_words : u32) (s : State) : State :=
  { copied num_words (read_back num_words s) with dmem := Dmem.wiped }

theorem keygen_finalize_copy_does {s : State} {exp_mode : OtbnMode} (num_words : u32)
    (h : s.dmem.mode = some exp_mode) :
    Does (keygen_finalize_copy exp_mode num_words) s fun _ t => t = finished num_words s := by
  have hfinalize : Does (keygen_finalize exp_mode num_words) s fun _ t =>
      t = { read_back num_words s with dmem := Dmem.wiped } := by
    refine Does.bind (keygen_wait_does h) ?_
    intro _ t ht
    subst t
    refine Does.bind (keygen_read_does num_words s) ?_
    rintro _ _ rfl
    exact Does.step rfl
  refine Does.bind hfinalize ?_
  rintro _ _ rfl
  exact Does.modify rfl

theorem cofactor_2048_finalize_does {s : State}
    (h : s.dmem.mode = some .kOtbnRsaModeCofactor2048) :
    Does rsa_keygen_from_cofactor_2048_finalize s fun _ t => t = finished kRsa2048NumWords s := by
  refine Does.bind (keygen_wait_does h) ?_
  intro _ t ht
  subst t
  refine Does.bind (keygen_read_does kRsa2048NumWords s) ?_
  rintro _ _ rfl
  refine Does.modify_bind (Does.step ?_)
  rfl

/-- The state with both checksums set. -/
def checksummed (s : State) : State :=
  (s.on_public fun k => { k with checksum := integrity_unblinded_checksum k }).on_private
    fun k => { k with checksum := integrity_blinded_checksum k }

theorem set_checksums_does (s : State) :
    Does (set_public_checksum >>= fun _ => set_private_checksum) s
      fun _ t => t = checksummed s :=
  Does.modify_bind (Does.modify rfl)

/-! ## The keys that are left -/

/-- The keyblob filled with random words. -/
def shredded (word_len : u32) (s : State) : State :=
  { s.on_private fun k => k.write 0 (s.entropy.words word_len.toNat) with
    entropy := s.entropy.after word_len.toNat }

theorem length_le_splice {α : Type} (xs ys : List α) : ys.length ≤ (splice xs 0 ys).length := by
  simp [splice]

/-- What is stored in the two key buffers in the end. -/
structure StoredPair (size : RsaSize) (dmem : Dmem) (public_key public_key' : UnblindedKey)
    (private_key private_key' : BlindedKey) : Prop where
  public_mode : public_key'.key_mode = public_key.key_mode
  public_length : public_key'.key_length = public_key.key_length
  public_key : public_key'.key ≠ none
  public_modulus : slice public_key'.words 0 size.num_words.toNat =
    variable_words size.num_words dmem.rsa_n
  config : private_key'.config = private_key.config
  keyblob_length : private_key'.keyblob_length = private_key.keyblob_length
  keyblob : private_key'.keyblob ≠ none
  numbers : Holds size.num_words.toNat (variable_words size.num_words dmem.rsa_n)
    (variable_words size.num_words dmem.rsa_d0) (variable_words size.num_words dmem.rsa_d1)
    private_key'.words

theorem key_pair_eq_some {s : State} {public_key : UnblindedKey} {private_key : BlindedKey}
    (h : key_pair s = some (public_key, private_key)) :
    s.public_key = some public_key ∧ s.private_key = some private_key ∧
      public_key.key ≠ none ∧ private_key.keyblob ≠ none := by
  unfold key_pair at h
  split at h
  · split_ifs at h with hnull
    simp only [not_or] at hnull
    obtain ⟨rfl, rfl⟩ := Prod.mk.inj (Option.some.inj h)
    exact ⟨‹_›, ‹_›, hnull.1, hnull.2⟩
  · cases h

/-- The buffers at the end of a computation. -/
theorem finished_keys {s : State} {size : RsaSize} {public_key : UnblindedKey}
    {private_key : BlindedKey} (hpair : key_pair s = some (public_key, private_key)) :
    ∃ public_key' private_key',
      (finished size.num_words (shredded (ceil_div (12 * size.num_words) 4) s)).public_key =
          some public_key' ∧
        (finished size.num_words (shredded (ceil_div (12 * size.num_words) 4) s)).private_key =
          some private_key' ∧
        StoredPair size s.dmem public_key public_key' private_key private_key' := by
  obtain ⟨hpublic, hprivate, hkey, hkeyblob⟩ := key_pair_eq_some hpair
  set random := s.entropy.words (ceil_div (12 * size.num_words) 4).toNat with hrandom
  have hshred := BlindedKey.keyblob_write hkeyblob 0 random
  -- Shredding leaves room for the three numbers, whatever the buffer was.
  have hroom : 3 * size.num_words.toNat ≤ (private_key.write 0 random).words.length := by
    rw [BlindedKey.words_write hkeyblob, ← size.ceil_div_keyblob]
    refine le_trans (le_of_eq ?_) (length_le_splice private_key.words random)
    rw [hrandom, EntropySource.length_words]
  set stored := store_numbers size.num_words s.dmem (private_key.write 0 random)
  have hholds : Holds size.num_words.toNat (variable_words size.num_words s.dmem.rsa_n)
      (variable_words size.num_words s.dmem.rsa_d0) (variable_words size.num_words s.dmem.rsa_d1)
      stored.words :=
    holds_write hshred hroom (length_variable_words _ _) (length_variable_words _ _)
      (length_variable_words _ _)
  refine ⟨public_key.write (slice stored.words (2 * size.num_words.toNat) size.num_words.toNat),
    stored, ?_, ?_, ?_⟩
  · simp only [finished, copied, read_back, shredded, State.on_public, State.on_private, hpublic,
      hprivate, Option.map_some, Option.getD_some]
    rfl
  · simp only [finished, copied, read_back, shredded, State.on_public, State.on_private, hprivate,
      Option.map_some]
    rfl
  · refine ⟨rfl, rfl, ?_, ?_, rfl, rfl, ?_, hholds⟩
    · exact UnblindedKey.key_write hkey _
    · rw [UnblindedKey.words_write hkey, hholds.modulus]
      exact slice_splice (length_variable_words _ _) (Nat.zero_le _)
    · exact BlindedKey.keyblob_write (BlindedKey.keyblob_write
        (BlindedKey.keyblob_write hshred _ _) _ _) _ _

end IbexFirmware.Rsa
