/-
Keyblobs made from the shares of a derived key (`keyblob.c`).

The arrays of a function have a length that their declaration gives and contents that do not
end there: what is read behind the end is what the stack holds. `Device` notes every index at
which an array is read or written, with the length of the array, so that a statement about the
bounds is one about the notes. `keyblob_from_shares_exact` and `keyblob_from_key_and_mask_exact`
say what lands in the keyblob and which places of the arrays have been touched for it: as many
words of each as a share of the key has.
-/
import IbexFirmware.Keyblob
import IbexFirmware.Lib.Zoom

set_option autoImplicit false

namespace IbexFirmware.Kdf

open Bytes PowerFail Crypto HardenedMemory Splice
open Aes (keyblob_share_num_words keyblob_num_words keyblob_to_shares keyblob_ensure_xor_masked
  check_keyblob_length unmasked)

/-! ## Arrays -/

/-- The arrays whose places are noted. -/
inductive Local where
  | okm_data
  | output_key_material_data
  | mask
  | share0
  | share1
  | keyblob
  | salt_aligned_data
  | salt_mask
  | tag_data
  | prk_mask
  | tag_redundant
  deriving DecidableEq

/-- A place of an array, and how long the array is. -/
structure Touch where
  array : Local
  len : ℕ
  index : ℕ
  deriving DecidableEq

/-- The place lies in the array. -/
def Touch.Inside (t : Touch) : Prop := t.index < t.len

instance (t : Touch) : Decidable t.Inside := inferInstanceAs (Decidable (_ < _))

structure Device where
  entropy : EntropySource
  touched : List Touch

/-- An array of words: its declared length, and its words with those behind them. -/
structure Words where
  array : Local
  len : ℕ
  word : ℕ → u32

/-- The places from `start` on. -/
def Words.places (a : Words) (start n : ℕ) : List Touch :=
  (List.range' start n).map fun i => ⟨a.array, a.len, i⟩

/-- The words from `start` on. -/
def Words.at (a : Words) (start n : ℕ) : List u32 := (List.range' start n).map a.word

/-- The array with `ws` from `start` on. -/
def Words.set (a : Words) (start : ℕ) (ws : List u32) : Words :=
  { a with
    word := fun i => if start ≤ i ∧ i < start + ws.length then ws.getD (i - start) 0 else a.word i }

def touch (ts : List Touch) : Proc Device CryptoError Unit :=
  Proc.modify fun s => { s with touched := s.touched ++ ts }

def Words.read (a : Words) (start n : ℕ) : Proc Device CryptoError (List u32) := do
  touch (a.places start n)
  pure (a.at start n)

def Words.write (a : Words) (start : ℕ) (ws : List u32) : Proc Device CryptoError Words := do
  touch (a.places start ws.length)
  pure (a.set start ws)

def memshred (n : ℕ) : Proc Device CryptoError (List u32) := do
  let s ← Proc.get
  Proc.modify fun s => { s with entropy := s.entropy.after n }
  pure (s.entropy.words n)

def hardened_check (c : Prop) [Decidable c] : Proc Device CryptoError Unit :=
  if c then pure () else Proc.trap

def entropy_complex_check : Proc Device CryptoError Unit :=
  Proc.step .OTCRYPTO_RECOV_ERR fun s => ((), s)

/-! ## The functions -/

def keyblob_from_shares (share0 share1 : Words) (config : KeyConfig) (keyblob : Words) :
    Proc Device CryptoError Words := do
  entropy_complex_check
  let random ← memshred (keyblob_num_words config).toNat
  let keyblob ← keyblob.write 0 random
  let share_words := (keyblob_share_num_words config).toNat
  let ws ← share0.read 0 share_words
  let keyblob ← keyblob.write 0 ws
  let ws ← share1.read 0 share_words
  let keyblob ← keyblob.write share_words ws
  let lhs ← share0.read 0 share_words
  let rhs ← keyblob.read 0 share_words
  hardened_check (hardened_memeq lhs rhs = kHardenedBoolTrue)
  let lhs ← share1.read 0 share_words
  let rhs ← keyblob.read share_words share_words
  hardened_check (hardened_memeq lhs rhs = kHardenedBoolTrue)
  pure keyblob

def keyblob_from_key_and_mask (key mask : Words) (config : KeyConfig) (keyblob : Words) :
    Proc Device CryptoError Words := do
  Proc.ofExcept (keyblob_ensure_xor_masked config)
  let key_words := (keyblob_share_num_words config).toNat
  let key_data ← key.read 0 key_words
  let mask_data ← mask.read 0 key_words
  let sum := hardened_xor key_data mask_data
  let share0 : Words := ⟨.share0, key_words, fun i => sum.getD i 0⟩
  keyblob_from_shares share0 mask config keyblob

def keyblob_key_unmask (key : BlindedKey) (unmasked_key_len : u32) :
    Except CryptoError (List u32) :=
  if keyblob_share_num_words key.config ≠ unmasked_key_len then .error .OTCRYPTO_BAD_ARGS
  else do
    let share1 ← keyblob_to_shares key
    pure (hardened_xor (slice key.words 0 unmasked_key_len.toNat)
      (slice key.words share1.toNat unmasked_key_len.toNat))

/-- The keyblob of a key as an array of as many words as the key says. -/
def keyblob_words (key : BlindedKey) : Words :=
  ⟨.keyblob, key.keyblob_length.toNat / 4, fun i => key.words.getD i 0⟩

/-- The key with the contents of an array as its keyblob, and its checksum brought up to date. -/
def with_keyblob (key : BlindedKey) (w : Words) : BlindedKey :=
  Aes.BlindedKey.update_checksum
    { key with keyblob := key.keyblob.map fun old => (List.range old.length).map w.word }

/-! ## Reading and writing arrays -/

section arrays

variable {a : Words} {start n i : ℕ} {ws : List u32}

@[simp] theorem Words.length_at : (a.at start n).length = n := by simp [Words.at]

theorem Words.getD_at (h : i < n) : (a.at start n).getD i 0 = a.word (start + i) := by
  rw [Words.at, List.getD_eq_getElem _ _ (by simpa using h)]
  simp

theorem Words.set_of_lt (h : i < ws.length) : (a.set start ws).word (start + i) = ws.getD i 0 := by
  have hword : (a.set start ws).word (start + i) = ws.getD (start + i - start) 0 :=
    if_pos ⟨Nat.le_add_right start i, by omega⟩
  rw [hword, Nat.add_sub_cancel_left]

theorem Words.set_of_not (h : ¬(start ≤ i ∧ i < start + ws.length)) :
    (a.set start ws).word i = a.word i := if_neg h

theorem Words.at_congr {b : Words} (h : ∀ i < n, a.word (start + i) = b.word (start + i)) :
    a.at start n = b.at start n := by
  rw [Words.at, Words.at, List.range'_eq_map_range, List.map_map, List.map_map]
  exact List.map_congr_left fun i hi => h i (List.mem_range.mp hi)

/-- What has been written is there. -/
theorem Words.at_set (h : ws.length = n) : (a.set start ws).at start n = ws := by
  subst h
  apply List.ext_getElem
  · simp
  · intro i hi hlt
    rw [← List.getD_eq_getElem _ 0 hi, Words.getD_at (by simpa using hi), Words.set_of_lt hlt,
      List.getD_eq_getElem _ _ hlt]

theorem Words.at_set_of_apart {start' : ℕ} (h : start + n ≤ start' ∨ start' + ws.length ≤ start) :
    (a.set start' ws).at start n = a.at start n :=
  Words.at_congr fun i hi => Words.set_of_not (by omega)

end arrays

section rules

variable {α : Type} {s : Device} {Q : α → Device → Prop} {I : Device → Prop}

theorem Words.read_bind {a : Words} {start n : ℕ} {f : List u32 → Proc Device CryptoError α}
    (h : Guarded (f (a.at start n)) { s with touched := s.touched ++ a.places start n } Q I) :
    Guarded (a.read start n >>= f) s Q I := by
  refine Guarded.bind (R := fun ws t => ws = a.at start n ∧
    t = { s with touched := s.touched ++ a.places start n })
    (Guarded.modify_bind (Guarded.pure ⟨rfl, rfl⟩)) ?_
  rintro _ _ ⟨rfl, rfl⟩
  exact h

theorem Words.write_bind {a : Words} {start : ℕ} {ws : List u32}
    {f : Words → Proc Device CryptoError α}
    (h : Guarded (f (a.set start ws))
      { s with touched := s.touched ++ a.places start ws.length } Q I) :
    Guarded (a.write start ws >>= f) s Q I := by
  refine Guarded.bind (R := fun b t => b = a.set start ws ∧
    t = { s with touched := s.touched ++ a.places start ws.length })
    (Guarded.modify_bind (Guarded.pure ⟨rfl, rfl⟩)) ?_
  rintro _ _ ⟨rfl, rfl⟩
  exact h

theorem memshred_bind {n : ℕ} {f : List u32 → Proc Device CryptoError α}
    (h : ∀ (ws : List u32) entropy, ws.length = n →
      Guarded (f ws) { s with entropy := entropy } Q I) : Guarded (memshred n >>= f) s Q I := by
  refine Guarded.bind (R := fun ws t => ws.length = n ∧ ∃ entropy, t = { s with entropy := entropy })
    (Guarded.get (Guarded.modify_bind (Guarded.pure ⟨EntropySource.length_words _ _, _, rfl⟩))) ?_
  rintro ws _ ⟨hlen, entropy, rfl⟩
  exact h ws entropy hlen

theorem hardened_check_bind {c : Prop} [Decidable c] {f : Unit → Proc Device CryptoError α}
    (hc : c) (h : Guarded (f ()) s Q I) : Guarded (hardened_check c >>= f) s Q I := by
  rw [hardened_check, if_pos hc]
  exact h

end rules

/-! ## What a keyblob is made of -/

theorem memeq_self (ws : List u32) : hardened_memeq ws ws = kHardenedBoolTrue := by
  rw [hardened_memeq_eq ws ws rfl, if_pos rfl]

/-- The places that `keyblob_from_shares` touches for shares of `n` words. -/
def shares_places (share0 share1 keyblob : Words) (n total : ℕ) : List Touch :=
  keyblob.places 0 total ++ share0.places 0 n ++ keyblob.places 0 n ++ share1.places 0 n ++
    keyblob.places n n ++ share0.places 0 n ++ keyblob.places 0 n ++ share1.places 0 n ++
    keyblob.places n n

section shares

variable {s : Device} {I : Device → Prop} {share0 share1 key mask keyblob : Words}
  {config : KeyConfig}

theorem keyblob_from_shares_exact (hI : I s) {n : ℕ}
    (hn : (keyblob_share_num_words config).toNat = n) :
    Guarded (keyblob_from_shares share0 share1 config keyblob) s (fun r t =>
      r.at 0 n = share0.at 0 n ∧ r.at n n = share1.at 0 n ∧
      t.touched = s.touched ++
        shares_places share0 share1 keyblob n (keyblob_num_words config).toNat) I := by
  subst hn
  refine Guarded.step_bind (memshred_bind fun random entropy hrandom => ?_) hI
  set n := (keyblob_share_num_words config).toNat
  set keyblob0 := keyblob.set 0 random
  set keyblob1 := keyblob0.set 0 (share0.at 0 n)
  set keyblob2 := keyblob1.set n (share1.at 0 n)
  have hfirst : keyblob2.at 0 n = share0.at 0 n := by
    rw [Words.at_set_of_apart (.inl (by omega)), Words.at_set Words.length_at]
  have hsecond : keyblob2.at n n = share1.at 0 n := Words.at_set Words.length_at
  refine Words.write_bind (Words.read_bind (Words.write_bind (Words.read_bind (Words.write_bind
    (Words.read_bind (Words.read_bind ?_))))))
  refine hardened_check_bind (by rw [hfirst]; exact memeq_self _) ?_
  refine Words.read_bind (Words.read_bind ?_)
  refine hardened_check_bind (by rw [hsecond]; exact memeq_self _) ?_
  refine Guarded.pure ⟨hfirst, hsecond, ?_⟩
  simp only [Words.length_at, hrandom, shares_places, List.append_assoc]
  rfl

/-- The places that `keyblob_from_key_and_mask` touches. -/
def masked_places (key mask keyblob : Words) (n total : ℕ) : List Touch :=
  key.places 0 n ++ mask.places 0 n ++
    shares_places ⟨.share0, n, fun _ => 0⟩ mask keyblob n total

theorem hardened_xor_xor {xs ys : List u32} (h : xs.length = ys.length) :
    hardened_xor (hardened_xor xs ys) ys = xs := by
  apply List.ext_getElem
  · simp [h]
  · intro i hi hlt
    simp only [hardened_xor, List.getElem_zipWith, BitVec.xor_assoc, BitVec.xor_self,
      BitVec.xor_zero]

/-- The sum of the shares is the key again. -/
theorem keyblob_from_key_and_mask_exact {n : ℕ}
    (hI : I { s with touched := s.touched ++ (key.places 0 n ++ mask.places 0 n) })
    (hmasked : keyblob_ensure_xor_masked config = .ok ())
    (hn : (keyblob_share_num_words config).toNat = n) :
    Guarded (keyblob_from_key_and_mask key mask config keyblob) s (fun r t =>
      hardened_xor (r.at 0 n) (r.at n n) = key.at 0 n ∧
      t.touched = s.touched ++
        masked_places key mask keyblob n (keyblob_num_words config).toNat) I := by
  rw [← List.append_assoc] at hI
  refine Guarded.ofExcept_bind hmasked (Words.read_bind (Words.read_bind ?_))
  rw [hn]
  refine Guarded.mono (keyblob_from_shares_exact hI hn) ?_ fun _ => id
  rintro r t ⟨hfirst, hsecond, htouched⟩
  have hlen : (key.at 0 n).length = (mask.at 0 n).length := by simp
  have hshare0 : Words.at ⟨.share0, n, fun i => (hardened_xor (key.at 0 n) (mask.at 0 n)).getD i 0⟩
      0 n = hardened_xor (key.at 0 n) (mask.at 0 n) := by
    apply List.ext_getElem
    · simp
    · intro i hi hlt
      have hin : i < n := by simpa using hi
      rw [← List.getD_eq_getElem _ 0 hi, Words.getD_at hin, ← List.getD_eq_getElem _ 0 hlt,
        Nat.zero_add]
  refine ⟨?_, ?_⟩
  · rw [hfirst, hsecond, hshare0, hardened_xor_xor hlen]
  · rw [htouched, masked_places, List.append_assoc s.touched, List.append_assoc s.touched]
    rfl

end shares

/-! ## The unmasked key -/

/-- The key holds both of its shares. -/
def HoldsShares (key : BlindedKey) : Prop :=
  2 * (keyblob_share_num_words key.config).toNat ≤ key.words.length

/-- The bytes that the shares of a key add up to. -/
def key_bytes (key : BlindedKey) : List u8 :=
  (word_bytes (unmasked key.words (keyblob_share_num_words key.config).toNat)).take
    key.config.key_length.toNat

/-- A key has as many bytes as its configuration says, unless it is an ECC key. -/
theorem share_num_words_eq {config : KeyConfig}
    (h : Aes.key_type config.key_mode ≠ kOtcryptoKeyTypeEcc) :
    keyblob_share_num_words config = ceil_div config.key_length 4 := by
  rw [keyblob_share_num_words, Aes.keyblob_share_num_bytes, if_neg h]

theorem length_unmasked {ws : List u32} {n : ℕ} (h : 2 * n ≤ ws.length) :
    (unmasked ws n).length = n := by
  rw [unmasked, length_hardened_xor, length_slice_of_le (by omega), length_slice_of_le (by omega),
    Nat.min_self]

/-- Unmasking gives the sum of the shares, of a keyblob that is as long as it should be. -/
theorem keyblob_key_unmask_eq {key : BlindedKey} :
    keyblob_key_unmask key (keyblob_share_num_words key.config) =
      (check_keyblob_length key).map fun _ =>
        unmasked key.words (keyblob_share_num_words key.config).toNat := by
  rw [keyblob_key_unmask, if_neg (not_not.mpr rfl), keyblob_to_shares]
  cases check_keyblob_length key with
  | error e => rfl
  | ok _ => rfl

end IbexFirmware.Kdf
