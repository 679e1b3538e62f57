/-
Tables of cells, and loops that write every cell of a table once.

A table is `n` cells of `w` bytes from `dst` on. A loop that writes each cell once may take
them in any order, as long as what it writes to a cell does not come from another cell of
the table (`Local`): `foldl_cells` says that the table then ends up as one long store of the
cells' new contents, each computed in the memory that the loop started from. The two lemmas
behind it say the same of the straight order and that two turns of the loop commute.
-/
import IbexFirmware.Lib.Bytes

set_option autoImplicit false

namespace IbexFirmware.Cells

open Bytes

/-! ## One cell -/

/-- Two stores next to each other may be swapped. -/
theorem writeBytes_comm (m : Mem) {a b : ℕ} (xs ys : List u8)
    (h : a + xs.length ≤ b ∨ b + ys.length ≤ a) :
    writeBytes (writeBytes m a xs) b ys = writeBytes (writeBytes m b ys) a xs := by
  funext x
  by_cases ha : a ≤ x ∧ x < a + xs.length
  · rw [writeBytes_of_not_mem _ b _ _ (by omega)]
    exact (if_pos ha).trans (if_pos ha).symm
  · rw [writeBytes_of_not_mem _ a _ _ ha]
    by_cases hb : b ≤ x ∧ x < b + ys.length
    · exact (if_pos hb).trans (if_pos hb).symm
    · rw [writeBytes_of_not_mem _ b _ _ hb, writeBytes_of_not_mem _ b _ _ hb,
        writeBytes_of_not_mem _ a _ _ ha]

/-- A store covers what was there before. -/
theorem writeBytes_congr {m m' : Mem} {a : ℕ} {bytes : List u8}
    (h : ∀ x, ¬(a ≤ x ∧ x < a + bytes.length) → m x = m' x) :
    writeBytes m a bytes = writeBytes m' a bytes := by
  funext x
  by_cases hx : a ≤ x ∧ x < a + bytes.length
  · exact (if_pos hx).trans (if_pos hx).symm
  · rw [writeBytes_of_not_mem _ _ _ _ hx, writeBytes_of_not_mem _ _ _ _ hx, h x hx]

variable {dst w n : ℕ}

/-- `x` is an address of cell `i`. -/
def InCell (dst w i x : ℕ) : Prop := dst + w * i ≤ x ∧ x < dst + w * i + w

/-- Cells do not overlap. -/
theorem InCell.eq {i j x : ℕ} (hi : InCell dst w i x) (hj : InCell dst w j x) : i = j := by
  obtain ⟨hi1, hi2⟩ := hi
  obtain ⟨hj1, hj2⟩ := hj
  by_contra hne
  obtain hlt | hlt := Nat.lt_or_gt_of_ne hne
  · have hstep : w * (i + 1) ≤ w * j := Nat.mul_le_mul_left w hlt
    rw [Nat.mul_succ] at hstep
    omega
  · have hstep : w * (j + 1) ≤ w * i := Nat.mul_le_mul_left w hlt
    rw [Nat.mul_succ] at hstep
    omega

theorem cells_apart (dst w : ℕ) {i j : ℕ} (h : i ≠ j) :
    dst + w * i + w ≤ dst + w * j ∨ dst + w * j + w ≤ dst + w * i := by
  obtain hlt | hlt := Nat.lt_or_gt_of_ne h
  · have hstep : w * (i + 1) ≤ w * j := Nat.mul_le_mul_left w hlt
    rw [Nat.mul_succ] at hstep
    omega
  · have hstep : w * (j + 1) ≤ w * i := Nat.mul_le_mul_left w hlt
    rw [Nat.mul_succ] at hstep
    omega

/-- An address in front of cell `k` and not in front of the table is in a cell before `k`. -/
theorem exists_inCell {k x : ℕ} (hle : dst ≤ x) (hlt : x < dst + w * k) :
    ∃ j < k, InCell dst w j x := by
  have hw : 0 < w := by
    by_contra hw
    obtain rfl : w = 0 := by omega
    omega
  have hmod := Nat.mod_lt (x - dst) hw
  have hdiv := Nat.div_add_mod (x - dst) w
  refine ⟨(x - dst) / w, ?_, by omega, by omega⟩
  exact Nat.div_lt_of_lt_mul (by omega)

/-! ## Every cell once -/

/-- What is written to a cell, `g i m` for cell `i`, fills it and comes from no other cell of
the table. -/
structure Local (dst w n : ℕ) (g : ℕ → Mem → List u8) : Prop where
  length : ∀ i m, (g i m).length = w
  reads : ∀ i < n, ∀ m m' : Mem,
    (∀ x, (∀ j < n, j ≠ i → ¬InCell dst w j x) → m x = m' x) → g i m = g i m'

/-- A turn of the loop. -/
def write_cell (dst w : ℕ) (g : ℕ → Mem → List u8) (m : Mem) (i : ℕ) : Mem :=
  writeBytes m (dst + w * i) (g i m)

variable {g : ℕ → Mem → List u8}

theorem Local.write_cell_of_ne (hg : Local dst w n g) {i j : ℕ} (hi : i < n) (hj : j < n)
    (hne : i ≠ j) (m : Mem) : g j (write_cell dst w g m i) = g j m := by
  apply hg.reads j hj
  intro x hx
  have hout := hx i hi hne
  apply writeBytes_of_not_mem
  rw [hg.length]
  exact hout

theorem Local.write_cell_comm (hg : Local dst w n g) {i j : ℕ} (hi : i < n) (hj : j < n) (m : Mem) :
    write_cell dst w g (write_cell dst w g m i) j =
      write_cell dst w g (write_cell dst w g m j) i := by
  by_cases hne : i = j
  · rw [hne]
  · have hij := hg.write_cell_of_ne hi hj hne m
    have hji := hg.write_cell_of_ne hj hi (Ne.symm hne) m
    have happart := cells_apart dst w hne
    rw [write_cell, hij, write_cell, write_cell, hji, write_cell]
    apply writeBytes_comm
    rw [hg.length, hg.length]
    exact happart

theorem Local.length_flatMap (hg : Local dst w n g) (k : ℕ) (m : Mem) :
    ((List.range k).flatMap fun i => g i m).length = w * k := by
  induction k with
  | zero => rfl
  | succ k ih =>
      rw [List.range_succ, List.flatMap_append, List.length_append, ih, List.flatMap_singleton,
        hg.length, Nat.mul_succ]

/-- The first `k` cells in the straight order. -/
theorem Local.foldl_range (hg : Local dst w n g) {k : ℕ} (hk : k ≤ n) (m : Mem) :
    (List.range k).foldl (write_cell dst w g) m =
      writeBytes m dst ((List.range k).flatMap fun i => g i m) := by
  induction k with
  | zero =>
      funext x
      rw [List.range_zero, List.foldl_nil, List.flatMap_nil, writeBytes_of_not_mem]
      rw [List.length_nil]
      omega
  | succ k ih =>
      -- the cells written so far are all before this one
      have hsame : g k (writeBytes m dst ((List.range k).flatMap fun i => g i m)) = g k m := by
        apply hg.reads k hk
        intro x hx
        apply writeBytes_of_not_mem
        rw [hg.length_flatMap]
        rintro ⟨hle, hlt⟩
        obtain ⟨j, hjk, hj⟩ := exists_inCell hle hlt
        exact hx j (by omega) (by omega) hj
      rw [List.range_succ, List.foldl_append, ih (by omega), List.foldl_cons, List.foldl_nil,
        write_cell, hsame, List.flatMap_append, List.flatMap_singleton, ← writeBytes_append,
        hg.length_flatMap]

/-- In whatever order the cells are written, it is one store of their new contents. -/
theorem foldl_cells (hg : Local dst w n g) {is : List ℕ} (h : is.Perm (List.range n)) (m : Mem) :
    is.foldl (write_cell dst w g) m =
      writeBytes m dst ((List.range n).flatMap fun i => g i m) := by
  have hcomm : ∀ i ∈ is, ∀ j ∈ is, ∀ m,
      write_cell dst w g (write_cell dst w g m i) j =
        write_cell dst w g (write_cell dst w g m j) i := by
    intro i hi j hj m
    rw [h.mem_iff, List.mem_range] at hi hj
    exact hg.write_cell_comm hi hj m
  rw [h.foldl_eq' hcomm, hg.foldl_range le_rfl]

/-! ## Cells read -/

theorem flatMap_readBytes (m : Mem) (a w n : ℕ) :
    ((List.range n).flatMap fun i => readBytes m (a + w * i) w) = readBytes m a (w * n) := by
  induction n with
  | zero => rfl
  | succ n ih =>
      rw [List.range_succ, List.flatMap_append, ih, List.flatMap_singleton, Nat.mul_succ,
        readBytes_add]

/-- Two tables combined cell by cell are combined byte by byte. -/
theorem flatMap_zipWith (f : u8 → u8 → u8) (m : Mem) (a b w n : ℕ) :
    ((List.range n).flatMap fun i =>
        List.zipWith f (readBytes m (a + w * i) w) (readBytes m (b + w * i) w)) =
      List.zipWith f (readBytes m a (w * n)) (readBytes m b (w * n)) := by
  induction n with
  | zero => rfl
  | succ n ih =>
      rw [List.range_succ, List.flatMap_append, ih, List.flatMap_singleton, Nat.mul_succ,
        readBytes_add, readBytes_add, List.zipWith_append (by simp)]

end IbexFirmware.Cells
