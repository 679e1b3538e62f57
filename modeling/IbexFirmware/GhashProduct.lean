/-
The table loop of GHASH is the product of the field.

Every operation on a block is carried over to the string of 128 bits: a shift is a shift
(`val_block_shiftr`), the reduction table holds what the shifted-out bits are worth
(`val_galois_shift`), the table of a subkey holds its products with the sixteen windows
(`Table`), and the loop over the windows is Horner's rule.
-/
import IbexFirmware.Ghash

set_option autoImplicit false

namespace IbexFirmware.Aes

open Bytes Crypto Gf

/-! ## Shifts -/

/-- A bit of word `i` of a block, the first word being word 0. -/
theorem getLsbD_join (a b c d : u32) (i r : ℕ) (hi : i < 4) (hr : r < 32) :
    (Gcm.join a b c d).getLsbD (32 * (3 - i) + r) = ([a, b, c, d].getD i 0).getLsbD r := by
  change (a ++ b ++ c ++ d : BitVec (32 + 32 + 32 + 32)).getLsbD _ = _
  simp only [BitVec.getLsbD_append]
  interval_cases i
  · rw [if_neg (by omega), if_neg (by omega), if_neg (by omega)]
    congr 1
    omega
  · rw [if_neg (by omega), if_neg (by omega), if_pos (by omega)]
    congr 1
    omega
  · rw [if_neg (by omega), if_pos (by omega)]
    congr 1
    omega
  · rw [if_pos (by omega)]
    congr 1
    omega

/-- A word that takes in the bits shifted out of the word before it. -/
theorem getLsbD_shift_in (carry word : u32) (n j : ℕ) (hn : 0 < n) (hn32 : n < 32) (hj : j < 32) :
    (word >>> n ||| (carry &&& ((1 : u32) <<< n - 1)) <<< (32 - n)).getLsbD j =
      if n + j < 32 then word.getLsbD (n + j) else carry.getLsbD (n + j - 32) := by
  have hmask : ∀ t, t < n → ((1 : u32) <<< n - 1).getLsbD t = true := by
    intro t ht
    have hlt : (2 : ℕ) ^ n < 2 ^ 32 := Nat.pow_lt_pow_right (by decide) hn32
    have hpos : 0 < (2 : ℕ) ^ n := Nat.two_pow_pos n
    have hone : (1 : u32).toNat = 1 := rfl
    have hnat : ((1 : u32) <<< n - 1).toNat = 2 ^ n - 1 := by
      rw [BitVec.toNat_sub, BitVec.toNat_shiftLeft, hone, Nat.shiftLeft_eq, one_mul]
      omega
    rw [BitVec.getLsbD, hnat, Nat.testBit_two_pow_sub_one]
    exact decide_eq_true ht
  simp only [BitVec.getLsbD_or, BitVec.getLsbD_ushiftRight, BitVec.getLsbD_shiftLeft,
    BitVec.getLsbD_and]
  by_cases hlt : n + j < 32
  · have hsmall : j < 32 - n := by omega
    simp [hlt, hsmall]
  · have hge : ¬ j < 32 - n := by omega
    have hsub : j - (32 - n) = n + j - 32 := by omega
    have hout : word.getLsbD (n + j) = false := BitVec.getLsbD_of_ge _ _ (by omega)
    rw [hsub, hmask (n + j - 32) (by omega), hout]
    simp [hlt, hge, hj]

theorem bswap32_shiftr_word (n : ℕ) (carry word : u32) :
    bswap32 (shiftr_word n carry word).1 = bswap32 word >>> n ||| carry <<< (32 - n) :=
  bswap32_bswap32 _

/-- The four words shift as one number of 128 bits. -/
theorem val_block_shiftr (b : Block) (n : ℕ) (hn : 0 < n) (hn32 : n < 32) :
    (block_shiftr b n).val = b.val >>> n := by
  apply BitVec.eq_of_getLsbD_eq
  intro k hk
  obtain ⟨i, r, hi, hr, rfl⟩ : ∃ i r, i < 4 ∧ r < 32 ∧ k = 32 * (3 - i) + r :=
    ⟨3 - k / 32, k % 32, by omega, by omega, by omega⟩
  have hfirst : (0 : u32) <<< (32 - n) = ((0 : u32) &&& ((1 : u32) <<< n - 1)) <<< (32 - n) := by simp
  simp only [Block.val, block_shiftr, bswap32_shiftr_word, BitVec.getLsbD_ushiftRight]
  rw [hfirst, getLsbD_join _ _ _ _ i r hi hr]
  by_cases hin : n + r < 32
  · -- The bit stays in its word.
    have hpos : n + (32 * (3 - i) + r) = 32 * (3 - i) + (n + r) := by omega
    rw [hpos, getLsbD_join _ _ _ _ i (n + r) hi hin]
    interval_cases i <;>
      exact (getLsbD_shift_in _ _ n r hn hn32 hr).trans (if_pos hin)
  · -- The bit comes from the word before, and into the first word none comes.
    by_cases hzero : i = 0
    · subst hzero
      rw [BitVec.getLsbD_of_ge _ (n + (32 * (3 - 0) + r)) (by omega)]
      refine (getLsbD_shift_in _ _ n r hn hn32 hr).trans ?_
      rw [if_neg hin]
      simp
    · have hpos : n + (32 * (3 - i) + r) = 32 * (3 - (i - 1)) + (n + r - 32) := by omega
      rw [hpos, getLsbD_join _ _ _ _ (i - 1) (n + r - 32) (by omega) (by omega)]
      interval_cases i
      · exact absurd rfl hzero
      all_goals exact (getLsbD_shift_in _ _ n r hn hn32 hr).trans (if_neg hin)

/-! ## Multiplication by `x` -/

theorem add_word0_eq (b : Block) (x : u32) : add_word0 b x = block_xor b ⟨x, 0, 0, 0⟩ := by
  simp [add_word0, block_xor]

theorem val_add_word0 (b : Block) (x : u32) :
    (add_word0 b x).val = b.val ^^^ (Block.mk x 0 0 0).val := by
  rw [add_word0_eq, val_block_xor]

theorem block_byte_get_eq (b : Block) (i : ℕ) (hi : i < 16) :
    block_byte_get b i = Gcm.byte b.val i := by
  rw [block_byte_get, ← Block.bytes_val, Gcm.getD_bytes _ i hi]

/-- The last byte holds the last eight bits. -/
theorem getLsbD_last_byte (b : Block) (t : ℕ) (ht : t < 8) :
    (block_byte_get b (kGhashBlockNumBytes - 1)).getLsbD t = b.val.getLsbD t := by
  rw [block_byte_get_eq b _ (by decide)]
  simp [Gcm.byte, kGhashBlockNumBytes, ht]

theorem and_one_eq (x : u8) : x &&& 1 = if x.getLsbD 0 then 1 else 0 := by
  apply BitVec.eq_of_getLsbD_eq
  intro i hi
  rw [BitVec.getLsbD_and]
  interval_cases i <;> cases x.getLsbD 0 <;> simp

theorem val_galois_mulx (p : Block) : (galois_mulx p).val = mulx Gcm.reduction p.val := by
  have hbit := getLsbD_last_byte p 0 (by decide)
  rw [galois_mulx, val_add_word0, val_block_shiftr p 1 (by decide) (by decide), and_one_eq, hbit, mulx]
  cases p.val.getLsbD 0
  · congr 1
  · congr 1

/-- What the reduction table adds for a window that has been shifted out. -/
theorem reduce_table_fallout : ∀ b0 b1 b2 b3 : Bool,
    (Block.mk ((kGFReduceTable.getD (b3.toNat * 8 + b2.toNat * 4 + b1.toNat * 2 + b0.toNat) 0).setWidth
      32) 0 0 0).val =
      (((0#128 >>> 1 ^^^ bit_mul b0 Gcm.reduction) >>> 1 ^^^ bit_mul b1 Gcm.reduction) >>> 1 ^^^
        bit_mul b2 Gcm.reduction) >>> 1 ^^^ bit_mul b3 Gcm.reduction := by
  decide

theorem low_window_toNat (x : u8) :
    (x &&& 0x0f).toNat = (x.getLsbD 3).toNat * 8 + (x.getLsbD 2).toNat * 4 +
      (x.getLsbD 1).toNat * 2 + (x.getLsbD 0).toNat := by
  revert x
  decide

/-- A shift by a window with its reduction is four multiplications by `x`. -/
theorem val_galois_shift (result : Block) :
    (galois_shift result).val = (mulx Gcm.reduction)^[4] result.val := by
  have hlow : ∀ t < 120, Gcm.reduction.getLsbD t = false := by decide
  rw [mulx_iterate Gcm.reduction hlow _ 4 (by decide), galois_shift, val_add_word0,
    val_block_shiftr result 4 (by decide) (by decide), low_window_toNat,
    getLsbD_last_byte _ 0 (by decide), getLsbD_last_byte _ 1 (by decide),
    getLsbD_last_byte _ 2 (by decide), getLsbD_last_byte _ 3 (by decide), reduce_table_fallout]
  rfl

/-! ## Tables -/

/-- The product of a window, its first bit the highest one. -/
def window_product (H : BitVec 128) (n : u8) : BitVec 128 :=
  window_mul Gcm.reduction H (n.getLsbD 3) (n.getLsbD 2) (n.getLsbD 1) (n.getLsbD 0)

/-- A table of the products of a subkey with all windows. -/
def Table (tbl : ℕ → Block) (H : BitVec 128) : Prop :=
  ∀ n : u8, n.toNat < 16 → (tbl n.toNat).val = window_product H n

/-- The entries for the numbers below `n`, which count from the first bit of a window. -/
def FilledTo (tbl : ℕ → Block) (H : BitVec 128) (n : ℕ) : Prop :=
  ∀ j : u8, j.toNat < n → (tbl (reverse_bits j).toNat).val = window_product H (reverse_bits j)

theorem reverse_bits_reverse_bits : ∀ i : u8, i.toNat < 16 →
    reverse_bits (reverse_bits i) = i ∧ (reverse_bits i).toNat < 16 := by
  decide

theorem reverse_bits_injective (i j : u8) (hi : i.toNat < 16) (hj : j.toNat < 16)
    (h : (reverse_bits i).toNat = (reverse_bits j).toNat) : i = j := by
  calc i = reverse_bits (reverse_bits i) := (reverse_bits_reverse_bits i hi).1.symm
    _ = reverse_bits (reverse_bits j) := by rw [BitVec.eq_of_toNat_eq h]
    _ = j := (reverse_bits_reverse_bits j hj).1

/-- Twice a number is its window moved on by one. -/
theorem window_product_double (H : BitVec 128) (j : u8) (hj : j.toNat < 8) :
    window_product H (reverse_bits (j <<< 1)) =
      mulx Gcm.reduction (window_product H (reverse_bits j)) := by
  have hbits : ∀ j : u8, j.toNat < 8 →
      (reverse_bits (j <<< 1)).getLsbD 3 = false ∧
        (reverse_bits (j <<< 1)).getLsbD 2 = (reverse_bits j).getLsbD 3 ∧
        (reverse_bits (j <<< 1)).getLsbD 1 = (reverse_bits j).getLsbD 2 ∧
        (reverse_bits (j <<< 1)).getLsbD 0 = (reverse_bits j).getLsbD 1 ∧
        (reverse_bits j).getLsbD 0 = false := by decide
  obtain ⟨h3, h2, h1, h0, hlast⟩ := hbits j hj
  rw [window_product, window_product, h3, h2, h1, h0, hlast]
  simp [window_mul]

/-- One more is the subkey added. -/
theorem window_product_succ (H : BitVec 128) (j : u8) (hj : j.toNat < 8) :
    window_product H (reverse_bits (j <<< 1 + 1)) =
      window_product H (reverse_bits (j <<< 1)) ^^^ H := by
  have hbits : ∀ j : u8, j.toNat < 8 →
      (reverse_bits (j <<< 1)).getLsbD 3 = false ∧ (reverse_bits (j <<< 1 + 1)).getLsbD 3 = true ∧
        (reverse_bits (j <<< 1 + 1)).getLsbD 2 = (reverse_bits (j <<< 1)).getLsbD 2 ∧
        (reverse_bits (j <<< 1 + 1)).getLsbD 1 = (reverse_bits (j <<< 1)).getLsbD 1 ∧
        (reverse_bits (j <<< 1 + 1)).getLsbD 0 = (reverse_bits (j <<< 1)).getLsbD 0 := by
    decide
  obtain ⟨h3, h3', h2, h1, h0⟩ := hbits j hj
  rw [window_product, window_product, h3, h3', h2, h1, h0]
  simp only [window_mul, horner_cons, bit_mul_true, bit_mul_false, BitVec.zero_xor]
  exact BitVec.xor_comm _ _

/-- One step makes two more entries: the double of one that is there, and that plus H. -/
theorem filled_succ {tbl : ℕ → Block} {H : BitVec 128} {k : ℕ} (hk : k < 7)
    (hH : (tbl 8).val = H) (h : FilledTo tbl H (2 * k + 2)) :
    FilledTo (subkey_step tbl k) H (2 * (k + 1) + 2) ∧ ((subkey_step tbl k) 8).val = H := by
  set i : u8 := BitVec.ofNat 8 (2 * k + 2) with hi
  have hinat : i.toNat = 2 * k + 2 := by
    rw [hi, BitVec.toNat_ofNat]
    omega
  -- `i` is twice `j`, whose entry is there.
  set j : u8 := i >>> 1 with hj
  have hjnat : j.toNat = k + 1 := by
    rw [hj, BitVec.toNat_ushiftRight, hinat, Nat.shiftRight_eq_div_pow]
    omega
  have hdouble : j <<< 1 = i := by
    apply BitVec.eq_of_toNat_eq
    rw [BitVec.toNat_shiftLeft, hjnat, hinat, Nat.shiftLeft_eq]
    omega
  have hsucc : (i + 1).toNat = 2 * k + 3 := by
    rw [BitVec.toNat_add, hinat]
    have hone : (1 : u8).toNat = 1 := rfl
    rw [hone]
    omega
  have height : (reverse_bits 1).toNat = 8 := by decide
  have hne : ∀ a b : u8, a.toNat < 16 → b.toNat < 16 → a ≠ b →
      (reverse_bits a).toNat ≠ (reverse_bits b).toNat :=
    fun a b ha hb hab heq => hab (reverse_bits_injective a b ha hb heq)
  have hii : (reverse_bits i).toNat ≠ (reverse_bits (i + 1)).toNat :=
    hne _ _ (by omega) (by omega) fun heq => by
      have := congrArg BitVec.toNat heq
      omega
  have hone : ∀ a : u8, a.toNat < 16 → 2 ≤ a.toNat → 8 ≠ (reverse_bits a).toNat := by
    intro a ha hage h8
    refine hne 1 a (by decide) ha (fun heq => ?_) (height.trans h8)
    rw [← heq] at hage
    exact absurd hage (by decide)
  have heven : (galois_mulx (tbl (reverse_bits j).toNat)).val =
      window_product H (reverse_bits i) := by
    rw [val_galois_mulx, h j (by omega), ← hdouble, window_product_double H j (by omega)]
  constructor
  · intro a ha
    rcases Nat.lt_or_ge a.toNat (2 * k + 2) with hlt | hge
    · have ha1 : (reverse_bits a).toNat ≠ (reverse_bits (i + 1)).toNat :=
        hne _ _ (by omega) (by omega) fun heq => by rw [heq] at hlt; omega
      have ha2 : (reverse_bits a).toNat ≠ (reverse_bits i).toNat :=
        hne _ _ (by omega) (by omega) fun heq => by rw [heq] at hlt; omega
      rw [subkey_step, Function.update_of_ne ha1, Function.update_of_ne ha2]
      exact h a hlt
    · rcases Nat.eq_or_lt_of_le hge with heq | hgt
      · obtain rfl : a = i := BitVec.eq_of_toNat_eq (by omega)
        rw [subkey_step, Function.update_of_ne hii, Function.update_self]
        exact heven
      · obtain rfl : a = i + 1 := BitVec.eq_of_toNat_eq (by omega)
        rw [subkey_step, Function.update_self, Function.update_self,
          Function.update_of_ne (hone i (by omega) (by omega)), val_block_xor, hH, ← hj, heven,
          ← hdouble, window_product_succ H j (by omega)]
  · rw [subkey_step, Function.update_of_ne (hone (i + 1) (by omega) (by omega)),
      Function.update_of_ne (hone i (by omega) (by omega)), hH]

theorem window_product_zero (H : BitVec 128) : window_product H 0 = 0#128 := by
  simp [window_product, window_mul]

theorem window_product_first (H : BitVec 128) : window_product H 8 = H := by
  simp [window_product, window_mul]

/-- The table of a subkey, whatever the memory held before. -/
theorem table_init_subkey (hash_subkey : Block) (tbl : ℕ → Block) :
    Table (ghash_init_subkey hash_subkey tbl) hash_subkey.val := by
  set tbl₀ := Function.update (Function.update tbl 0 Block.zero) 8 hash_subkey with htbl₀
  have hfold : ∀ k ≤ 7, FilledTo ((List.range k).foldl subkey_step tbl₀) hash_subkey.val (2 * k + 2) ∧
      (((List.range k).foldl subkey_step tbl₀) 8).val = hash_subkey.val := by
    intro k
    induction k with
    | zero =>
        refine fun _ => ⟨?_, by simp [htbl₀]⟩
        intro j hj
        have hcases : j = 0 ∨ j = 1 := by
          rcases Nat.lt_or_ge j.toNat 1 with h0 | h1
          · exact .inl (BitVec.eq_of_toNat_eq (by simp; omega))
          · exact .inr (BitVec.eq_of_toNat_eq (by simp; omega))
        rcases hcases with rfl | rfl
        · have hzero : reverse_bits 0 = 0 := by decide
          rw [hzero, window_product_zero]
          exact Block.val_zero
        · have height : reverse_bits 1 = 8 := by decide
          rw [height, window_product_first]
          have hentry : tbl₀ 8 = hash_subkey := by rw [htbl₀, Function.update_self]
          exact congrArg Block.val hentry
    | succ k ih =>
        intro hk
        obtain ⟨hfilled, hH⟩ := ih (by omega)
        rw [List.range_succ, List.foldl_append]
        exact filled_succ (by omega) hH hfilled
  intro n hn
  obtain ⟨hrev, hlt⟩ := reverse_bits_reverse_bits n hn
  have h := (hfold 7 le_rfl).1 (reverse_bits n) hlt
  rwa [hrev] at h

/-! ## The loop -/

theorem getMsbD_byte (v : BitVec 128) (i t : ℕ) (hi : i < 16) (ht : t < 8) :
    v.getMsbD (8 * i + t) = (Gcm.byte v i).getLsbD (7 - t) := by
  have hlt : 8 * i + t < 128 := by omega
  have hpos : 128 - 1 - (8 * i + t) = 8 * (15 - i) + (7 - t) := by omega
  rw [BitVec.getMsbD, hpos]
  simp [Gcm.byte, hlt, show 7 - t < 8 by omega]

/-- The window that is looked up in round `i`. -/
theorem window_product_index (H : BitVec 128) (state : Block) (i : ℕ) (hi : i < 32) :
    window_product H (window_index state i) =
      window_mul Gcm.reduction H (state.val.getMsbD (4 * (31 - i)))
        (state.val.getMsbD (4 * (31 - i) + 1)) (state.val.getMsbD (4 * (31 - i) + 2))
        (state.val.getMsbD (4 * (31 - i) + 3)) := by
  have hbyte : (kNumWindows - 1 - i) >>> 1 = 15 - i / 2 := by
    unfold kNumWindows kGhashBlockNumBytes
    omega
  have hbit : ∀ t < 4, (window_index state i).getLsbD (3 - t) =
      state.val.getMsbD (4 * (31 - i) + t) := by
    intro t ht
    rw [window_index, hbyte, block_byte_get_eq _ _ (by omega)]
    by_cases hodd : i &&& 1 = 1
    · -- An odd round takes the first half of its byte.
      have hmod : i % 2 = 1 := by rwa [Nat.and_one_is_mod] at hodd
      have hpos : 4 * (31 - i) + t = 8 * (15 - i / 2) + t := by omega
      have hsub : 4 + (3 - t) = 7 - t := by omega
      rw [if_pos hodd, hpos, getMsbD_byte _ _ t (by omega) (by omega), BitVec.getLsbD_ushiftRight,
        hsub]
    · have hmod : i % 2 = 0 := by
        rw [Nat.and_one_is_mod] at hodd
        omega
      have hpos : 4 * (31 - i) + t = 8 * (15 - i / 2) + (4 + t) := by omega
      have hsub : 7 - (4 + t) = 3 - t := by omega
      rw [if_neg hodd, hpos, getMsbD_byte _ _ (4 + t) (by omega) (by omega), BitVec.getLsbD_and,
        hsub]
      interval_cases t <;> simp
  have h3 : (window_index state i).getLsbD 3 = state.val.getMsbD (4 * (31 - i)) :=
    hbit 0 (by omega)
  have h2 : (window_index state i).getLsbD 2 = state.val.getMsbD (4 * (31 - i) + 1) :=
    hbit 1 (by omega)
  have h1 : (window_index state i).getLsbD 1 = state.val.getMsbD (4 * (31 - i) + 2) :=
    hbit 2 (by omega)
  have h0 : (window_index state i).getLsbD 0 = state.val.getMsbD (4 * (31 - i) + 3) :=
    hbit 3 (by omega)
  rw [window_product, h3, h2, h1, h0]

theorem window_index_lt (state : Block) (i : ℕ) : (window_index state i).toNat < 16 := by
  have hhigh : ∀ x : u8, (x >>> 4).toNat < 16 ∧ (x &&& 0x0f).toNat < 16 := by decide
  unfold window_index
  split_ifs
  · exact (hhigh _).1
  · exact (hhigh _).2

/-- The table loop multiplies. -/
theorem val_galois_mul_state_key {tbl : ℕ → Block} {H : BitVec 128} (htbl : Table tbl H)
    (state : Block) : (galois_mul_state_key state tbl).val = Gcm.mul state.val H := by
  have hfold : ∀ n ≤ 32, ((List.range n).foldl (galois_mul_step state tbl) Block.zero).val =
      (List.range n).foldl (fun acc i =>
        window_mul Gcm.reduction H (state.val.getMsbD (4 * (31 - i)))
          (state.val.getMsbD (4 * (31 - i) + 1)) (state.val.getMsbD (4 * (31 - i) + 2))
          (state.val.getMsbD (4 * (31 - i) + 3)) ^^^ (mulx Gcm.reduction)^[4] acc) 0#128 := by
    intro n
    induction n with
    | zero => exact fun _ => Block.val_zero
    | succ n ih =>
        intro hn
        rw [List.range_succ, List.foldl_append, List.foldl_append, ← ih (by omega)]
        simp only [List.foldl_cons, List.foldl_nil]
        rw [galois_mul_step, val_block_xor, htbl _ (window_index_lt state n),
          window_product_index H state n (by omega), BitVec.xor_comm]
        congr 1
        by_cases h0 : n = 0
        · -- In the first round there is nothing to shift.
          subst h0
          rw [if_neg (by simp)]
          simp [mulx_iterate_zero]
        · rw [if_pos h0, val_galois_shift]
  have hreverse : (List.range 32).map (fun i => 31 - i) = (List.range 32).reverse := by decide
  have hbits : bits state.val = window_bits state.val.getMsbD 32 := rfl
  rw [Gcm.mul, gf_mul_eq_horner, hbits, horner_windows, galois_mul_state_key]
  refine (hfold 32 le_rfl).trans ?_
  rw [← List.foldl_reverse, ← hreverse, List.foldl_map]

end IbexFirmware.Aes
