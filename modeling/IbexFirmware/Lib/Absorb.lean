/-
Working off the full blocks of a text.

A hash function goes over the blocks of a text with a function of the state and a block, and
keeps what is left for later. `absorb_append` is why the text may come in pieces: the rest of
the first piece goes in front of the second one.
-/
import IbexFirmware.Lib.Chunks

set_option autoImplicit false

namespace IbexFirmware.Absorb

open Chunks

variable {σ α : Type} (n : ℕ) (f : σ → List α → σ)

/-- The first `k` blocks. -/
def absorb_blocks : ℕ → σ → List α → σ
  | 0, s, _ => s
  | k + 1, s, xs => absorb_blocks k (f s (xs.take n)) (xs.drop n)

/-- All full blocks. -/
def absorb (s : σ) (xs : List α) : σ := absorb_blocks n f (xs.length / n) s xs

variable {n f} {s : σ} {xs : List α}

theorem absorb_of_lt (h : xs.length < n) : absorb n f s xs = s := by
  rw [absorb, Nat.div_eq_of_lt h, absorb_blocks]

@[simp] theorem absorb_nil : absorb n f s [] = s := by
  rw [absorb, List.length_nil, Nat.zero_div, absorb_blocks]

theorem absorb_block (hn : 0 < n) (h : n ≤ xs.length) :
    absorb n f s xs = absorb n f (f s (xs.take n)) (xs.drop n) := by
  have hlen : xs.length / n = (xs.drop n).length / n + 1 := by
    rw [List.length_drop, ← Nat.add_div_right _ hn, Nat.sub_add_cancel h]
  rw [absorb, hlen, absorb_blocks, absorb]

/-- Nothing but one block. -/
theorem absorb_one (hn : 0 < n) (h : xs.length = n) : absorb n f s xs = f s xs := by
  rw [absorb_block hn h.ge, List.take_of_length_le h.le, List.drop_of_length_le h.le, absorb_nil]

/-- The blocks by their numbers. -/
theorem absorb_blocks_eq_foldl (k : ℕ) (s : σ) (xs : List α) :
    absorb_blocks n f k s xs =
      (List.range k).foldl (fun s i => f s ((xs.drop (n * i)).take n)) s := by
  induction k generalizing s xs with
  | zero => rfl
  | succ k ih =>
      rw [absorb_blocks, ih, List.range_succ_eq_map, List.foldl_cons, List.foldl_map]
      simp only [List.drop_drop, Nat.mul_zero, List.drop_zero, Nat.mul_succ, Nat.add_comm n]

theorem absorb_append_of_mod (hn : 0 < n) (h : xs.length % n = 0) (ys : List α) :
    absorb n f s (xs ++ ys) = absorb n f (absorb n f s xs) ys := by
  obtain ⟨k, hk⟩ := Nat.dvd_of_mod_eq_zero h
  clear h
  induction k generalizing s xs with
  | zero =>
      obtain rfl := List.eq_nil_of_length_eq_zero (hk.trans (Nat.mul_zero n))
      rw [List.nil_append, absorb_nil]
  | succ k ih =>
      rw [Nat.mul_succ] at hk
      have hle : n ≤ xs.length := by omega
      have hlong : n ≤ (xs ++ ys).length := by
        rw [List.length_append]
        omega
      have hrest : (xs.drop n).length = n * k := by
        rw [List.length_drop]
        omega
      rw [absorb_block hn hlong, List.take_append_of_le_length hle, List.drop_append_of_le_length hle,
        ih hrest, absorb_block hn hle]

/-- What is left does not count. -/
theorem absorb_full (hn : 0 < n) : absorb n f s (full n xs) = absorb n f s xs := by
  have hsplit := absorb_append_of_mod (f := f) (s := s) hn (length_full_mod n xs) (rest n xs)
  rw [full_append_rest, absorb_of_lt (length_rest_lt hn xs)] at hsplit
  exact hsplit.symm

theorem absorb_append (hn : 0 < n) (ys : List α) :
    absorb n f s (xs ++ ys) = absorb n f (absorb n f s xs) (rest n xs ++ ys) := by
  calc absorb n f s (xs ++ ys) = absorb n f s (full n xs ++ (rest n xs ++ ys)) := by
        rw [← List.append_assoc, full_append_rest]
    _ = absorb n f (absorb n f s (full n xs)) (rest n xs ++ ys) :=
        absorb_append_of_mod hn (length_full_mod n xs) _
    _ = absorb n f (absorb n f s xs) (rest n xs ++ ys) := by rw [absorb_full hn]

end IbexFirmware.Absorb
