/-
Going once round.

A loop over a table of `n` entries may start at any of them and go on at the first one
after the last. `cycle n k off` is the list of indices that `k` steps from `off` on
visit, and `cycle_perm` says what makes such a loop as good as a straight one: `n` steps
visit each index once, wherever they start.
-/
import Mathlib.Data.List.Basic

set_option autoImplicit false

namespace IbexFirmware.Cyclic

/-- The index after `off`. -/
def next (n off : ℕ) : ℕ := if off + 1 < n then off + 1 else 0

/-- The indices that `k` steps visit. -/
def cycle (n : ℕ) : ℕ → ℕ → List ℕ
  | 0, _ => []
  | k + 1, off => off :: cycle n k (next n off)

theorem next_lt {n off : ℕ} (h : 0 < n) : next n off < n := by
  unfold next
  split_ifs with hlt
  · exact hlt
  · exact h

/-- In front of the last index the steps go straight on. -/
theorem cycle_straight {n k off : ℕ} (j : ℕ) (h : off + k < n) :
    cycle n (k + j) off = List.range' off k ++ cycle n j (off + k) := by
  induction k generalizing off with
  | zero => simp
  | succ k ih =>
      have hnext : next n off = off + 1 := if_pos (by omega)
      rw [Nat.add_right_comm, cycle, hnext, ih (by omega), List.range'_succ, List.cons_append,
        Nat.add_right_comm, Nat.add_assoc]

/-- Once round visits every index once. -/
theorem cycle_perm {n off : ℕ} (h : off < n) : (cycle n n off).Perm (List.range n) := by
  obtain ⟨k, rfl⟩ : ∃ k, n = off + 1 + k := ⟨n - (off + 1), by omega⟩
  have hlast : next (off + 1 + k) (off + k) = 0 := if_neg (by omega)
  -- up to the last index, over to the first, and up to the start
  have hsplit : cycle (off + 1 + k) (off + 1 + k) off =
      List.range' off k ++ (off + k) :: List.range' 0 off := by
    have hfirst := cycle_straight (off + 1) (show off + k < off + 1 + k by omega)
    have hsecond : cycle (off + 1 + k) off 0 = List.range' 0 off := by
      simpa [cycle] using cycle_straight 0 (show 0 + off < off + 1 + k by omega)
    rw [Nat.add_comm k (off + 1)] at hfirst
    rw [hfirst, cycle, hlast, hsecond]
  have hrange : List.range (off + 1 + k) = List.range' 0 off ++ List.range' off (k + 1) := by
    have happend : List.range' 0 off ++ List.range' (0 + off) (k + 1) = List.range' 0 (off + (k + 1)) :=
      List.range'_append_1
    rw [Nat.zero_add] at happend
    rw [happend, List.range_eq_range', Nat.add_assoc, Nat.add_comm 1 k]
  rw [hsplit, hrange, List.range'_concat, Nat.one_mul, List.append_cons]
  exact List.perm_append_comm

end IbexFirmware.Cyclic
