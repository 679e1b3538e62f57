/-
Bytes, little-endian words and byte-addressed memories.

A memory here is a total function from addresses to bytes. A 32-bit load reads
four consecutive bytes, the least significant first, and a store writes them;
everything else in this file says which bytes a load sees and which a store
touches. The two facts a copy loop needs are `byteOf_readWord` (the bytes of a
loaded word are the bytes it was loaded from) and `writeWord_of_not_mem` (a store
changes no byte outside its own four).
-/
import Mathlib.Data.List.GetD
import Mathlib.Tactic

set_option autoImplicit false

namespace IbexFirmware.Bytes

abbrev u8 := BitVec 8
abbrev u16 := BitVec 16
abbrev u32 := BitVec 32
abbrev u64 := BitVec 64

/-! Facts that indices and comparisons rest on, as constants: an index or a test is then the same
term wherever it is written. -/

instance instNeZeroTwo : NeZero 2 := ⟨two_ne_zero⟩
instance instNeZeroFour : NeZero 4 := ⟨four_ne_zero⟩
instance instNeZeroEight : NeZero 8 := ⟨Nat.succ_ne_zero 7⟩
instance instNeZeroThirtyTwo : NeZero 32 := ⟨Nat.succ_ne_zero 31⟩
instance instLawfulBEqU32 : LawfulBEq u32 := inferInstance

/-! ## Words and their bytes -/

/-- Byte `i` of a 32-bit word, counted from the least significant. -/
def byteOf (w : u32) (i : ℕ) : u8 := w.extractLsb' (8 * i) 8

/-- The word whose bytes, least significant first, are `b0 b1 b2 b3`. -/
def word (b0 b1 b2 b3 : u8) : u32 :=
  b0.setWidth 32 ||| b1.setWidth 32 <<< 8 ||| b2.setWidth 32 <<< 16 ||| b3.setWidth 32 <<< 24

/-- Which byte of `word` each bit comes from. Every fact about a word's bytes
below is read off this one. -/
theorem getLsbD_word (b0 b1 b2 b3 : u8) (k : ℕ) :
    (word b0 b1 b2 b3).getLsbD k =
      if k < 8 then b0.getLsbD k
      else if k < 16 then b1.getLsbD (k - 8)
      else if k < 24 then b2.getLsbD (k - 16)
      else b3.getLsbD (k - 24) := by
  have hz : ∀ (b : u8) (m : ℕ), 8 ≤ m → b.getLsbD m = false :=
    fun b m hm => BitVec.getLsbD_of_ge b m hm
  simp only [word, BitVec.getLsbD_or, BitVec.getLsbD_shiftLeft, BitVec.getLsbD_setWidth]
  split_ifs with h8 h16 h24
  · simp [h8, show k < 16 by omega, show k < 24 by omega, show k < 32 by omega]
  · simp [h8, h16, hz b0 k (by omega), show k < 24 by omega, show k < 32 by omega,
      show k - 8 < 32 by omega]
  · simp [h8, h16, h24, hz b0 k (by omega), hz b1 (k - 8) (by omega), show k < 32 by omega,
      show k - 16 < 32 by omega]
  · by_cases h32 : k < 32
    · simp [h8, h16, h24, h32, hz b0 k (by omega), hz b1 (k - 8) (by omega),
        hz b2 (k - 16) (by omega), show k - 24 < 32 by omega]
    · simp [h32, hz b3 (k - 24) (by omega)]

theorem byteOf_word (b0 b1 b2 b3 : u8) (i : ℕ) (hi : i < 4) :
    byteOf (word b0 b1 b2 b3) i = if i = 0 then b0 else if i = 1 then b1
      else if i = 2 then b2 else b3 := by
  apply BitVec.eq_of_getLsbD_eq
  intro j hj
  simp only [byteOf, BitVec.getLsbD_extractLsb', getLsbD_word, hj, decide_true, Bool.true_and]
  interval_cases i
  · simp [hj]
  · simp [show ¬ 8 * 1 + j < 8 by omega, show 8 * 1 + j < 16 by omega]
  · simp [show ¬ 8 * 2 + j < 8 by omega, show ¬ 8 * 2 + j < 16 by omega,
      show 8 * 2 + j < 24 by omega]
  · simp [show ¬ 8 * 3 + j < 8 by omega, show ¬ 8 * 3 + j < 16 by omega,
      show ¬ 8 * 3 + j < 24 by omega]

/-- A word is the word of its four bytes. -/
theorem word_byteOf (w : u32) :
    word (byteOf w 0) (byteOf w 1) (byteOf w 2) (byteOf w 3) = w := by
  apply BitVec.eq_of_getLsbD_eq
  intro k hk
  rw [getLsbD_word]
  split_ifs with h8 h16 h24
  · simp [byteOf, h8]
  · simp [byteOf, show k - 8 < 8 by omega, show 8 + (k - 8) = k by omega]
  · simp [byteOf, show k - 16 < 8 by omega, show 16 + (k - 16) = k by omega]
  · simp [byteOf, show k - 24 < 8 by omega, show 24 + (k - 24) = k by omega]

/-! ## Little-endian byte strings -/

/-- The four bytes of a word as they lie in memory. -/
def le32 (w : u32) : List u8 := [byteOf w 0, byteOf w 1, byteOf w 2, byteOf w 3]

@[simp] theorem length_le32 (w : u32) : (le32 w).length = 4 := rfl

theorem le32_injective : Function.Injective le32 := by
  intro a b h
  rw [le32, le32, List.cons.injEq, List.cons.injEq, List.cons.injEq, List.cons.injEq] at h
  obtain ⟨h0, h1, h2, h3, -⟩ := h
  rw [← word_byteOf a, ← word_byteOf b, h0, h1, h2, h3]

theorem length_flatMap_le32 (ws : List u32) : (ws.flatMap le32).length = 4 * ws.length := by
  induction ws with
  | nil => rfl
  | cons w ws ih =>
      rw [List.flatMap_cons, List.length_append, ih, length_le32, List.length_cons]
      omega

/-- A row of words is known by its bytes. -/
theorem flatMap_le32_injective {as bs : List u32} (h : as.flatMap le32 = bs.flatMap le32) :
    as = bs := by
  induction as generalizing bs with
  | nil =>
      cases bs with
      | nil => rfl
      | cons b bs => exact absurd (congrArg List.length h) (by simp [le32])
  | cons a as ih =>
      cases bs with
      | nil => exact absurd (congrArg List.length h) (by simp [le32])
      | cons b bs =>
          rw [List.flatMap_cons, List.flatMap_cons] at h
          obtain ⟨hword, hrest⟩ := List.append_inj h rfl
          rw [le32_injective hword, ih hrest]

/-! ## Double words -/

/-- The two 32-bit words of a 64-bit value, as they lie in memory. -/
def lo32 (x : u64) : u32 := x.setWidth 32
def hi32 (x : u64) : u32 := (x >>> 32).setWidth 32

def dword (lo hi : u32) : u64 := hi.setWidth 64 <<< 32 ||| lo.setWidth 64

theorem dword_lo32_hi32 (x : u64) : dword (lo32 x) (hi32 x) = x := by
  apply BitVec.eq_of_getLsbD_eq
  intro k hk
  simp only [dword, lo32, hi32, BitVec.getLsbD_or, BitVec.getLsbD_shiftLeft,
    BitVec.getLsbD_setWidth, BitVec.getLsbD_ushiftRight]
  by_cases h32 : k < 32
  · simp [h32, hk]
  · have hsub : 32 + (k - 32) = k := by omega
    simp [h32, hk, show k - 32 < 32 by omega, show k - 32 < 64 by omega, hsub]

/-! ## Memories -/

/-- A byte-addressed memory. -/
abbrev Mem := ℕ → u8

/-- The 32-bit little-endian load at `a`. -/
def readWord (m : Mem) (a : ℕ) : u32 := word (m a) (m (a + 1)) (m (a + 2)) (m (a + 3))

/-- The 32-bit little-endian store of `w` at `a`. -/
def writeWord (m : Mem) (a : ℕ) (w : u32) : Mem :=
  fun x => if a ≤ x ∧ x < a + 4 then byteOf w (x - a) else m x

/-- The `n` bytes from address `a` on. -/
def readBytes (m : Mem) (a n : ℕ) : List u8 := (List.range n).map (fun i => m (a + i))

@[simp] theorem length_readBytes (m : Mem) (a n : ℕ) : (readBytes m a n).length = n := by
  simp [readBytes]

theorem getElem_readBytes (m : Mem) (a n i : ℕ) (hi : i < (readBytes m a n).length) :
    (readBytes m a n)[i] = m (a + i) := by
  simp [readBytes]

/-- Two ranges hold the same bytes exactly when they agree address by address. -/
theorem readBytes_eq_iff (m m' : Mem) (a a' n : ℕ) :
    readBytes m a n = readBytes m' a' n ↔ ∀ i < n, m (a + i) = m' (a' + i) := by
  simp [readBytes]

theorem readBytes_add (m : Mem) (a n k : ℕ) :
    readBytes m a (n + k) = readBytes m a n ++ readBytes m (a + n) k := by
  simp [readBytes, List.range_add, Function.comp_def, Nat.add_assoc]

theorem byteOf_readWord (m : Mem) (a i : ℕ) (hi : i < 4) :
    byteOf (readWord m a) i = m (a + i) := by
  rw [readWord, byteOf_word _ _ _ _ i hi]
  interval_cases i <;> rfl

theorem writeWord_of_mem (m : Mem) (a x : ℕ) (w : u32) (h : a ≤ x ∧ x < a + 4) :
    writeWord m a w x = byteOf w (x - a) := if_pos h

theorem writeWord_of_not_mem (m : Mem) (a x : ℕ) (w : u32) (h : ¬ (a ≤ x ∧ x < a + 4)) :
    writeWord m a w x = m x := if_neg h

/-- A memory that holds the four bytes of `w` at `a` loads `w` from `a`. -/
theorem readWord_of_readBytes (m : Mem) (a : ℕ) (w : u32) (h : readBytes m a 4 = le32 w) :
    readWord m a = w := by
  have hbytes : [m a, m (a + 1), m (a + 2), m (a + 3)] = le32 w := h
  rw [le32, List.cons.injEq, List.cons.injEq, List.cons.injEq, List.cons.injEq] at hbytes
  obtain ⟨h0, h1, h2, h3, -⟩ := hbytes
  rw [readWord, h0, h1, h2, h3, word_byteOf]

/-- The memory `m` with `bytes` stored from address `a` on. -/
def writeBytes (m : Mem) (a : ℕ) (bytes : List u8) : Mem :=
  fun x => if a ≤ x ∧ x < a + bytes.length then bytes.getD (x - a) 0 else m x

theorem writeBytes_of_not_mem (m : Mem) (a x : ℕ) (bytes : List u8)
    (h : ¬ (a ≤ x ∧ x < a + bytes.length)) : writeBytes m a bytes x = m x := if_neg h

theorem readBytes_writeBytes (m : Mem) (a : ℕ) (bytes : List u8) :
    readBytes (writeBytes m a bytes) a bytes.length = bytes := by
  apply List.ext_getElem (length_readBytes _ _ _)
  intro i hi hlt
  rw [getElem_readBytes, writeBytes, if_pos ⟨Nat.le_add_right a i, by omega⟩,
    Nat.add_sub_cancel_left, List.getD_eq_getElem?_getD, List.getElem?_eq_getElem hlt,
    Option.getD_some]

theorem update_eq_writeBytes (m : Mem) (a : ℕ) (b : u8) :
    Function.update m a b = writeBytes m a [b] := by
  funext x
  by_cases hx : x = a
  · subst hx
    simp [writeBytes]
  · rw [Function.update_of_ne hx, writeBytes_of_not_mem]
    rw [List.length_singleton]
    omega

/-- Stores one behind the other are one store. -/
theorem writeBytes_append (m : Mem) (a : ℕ) (xs ys : List u8) :
    writeBytes (writeBytes m a xs) (a + xs.length) ys = writeBytes m a (xs ++ ys) := by
  funext x
  by_cases hin : a ≤ x ∧ x < a + (xs ++ ys).length
  · rw [List.length_append] at hin
    have hwhole : writeBytes m a (xs ++ ys) x = (xs ++ ys).getD (x - a) 0 :=
      if_pos (by rw [List.length_append]; exact hin)
    rw [hwhole]
    by_cases hx : x < a + xs.length
    · rw [writeBytes_of_not_mem _ _ _ _ (by omega), writeBytes, if_pos ⟨hin.1, hx⟩,
        List.getD_append _ _ _ _ (by omega)]
    · rw [writeBytes, if_pos (by omega), List.getD_append_right _ _ _ _ (by omega)]
      congr 1
      omega
  · rw [List.length_append] at hin
    rw [writeBytes_of_not_mem _ _ _ _ (by omega), writeBytes_of_not_mem _ _ _ _ (by omega),
      writeBytes_of_not_mem _ _ _ _ (by rw [List.length_append]; omega)]

/-- A store does not show in a range outside its own. -/
theorem readBytes_writeBytes_disjoint (m : Mem) (a b n : ℕ) (bytes : List u8)
    (h : b + n ≤ a ∨ a + bytes.length ≤ b) :
    readBytes (writeBytes m a bytes) b n = readBytes m b n := by
  rw [readBytes_eq_iff]
  intro i hi
  exact writeBytes_of_not_mem _ _ _ _ (by omega)

end IbexFirmware.Bytes
