/-
Branch-free comparison against shared secrets.

A word is compared with its expected value by spreading the bits of their difference:
`spread` turns every nonzero word into all ones, with two negations and no branch. A
row of words is compared by one pass that accumulates their exclusive or and the
spread difference (`check_share`). `fold_check_share` says what comes out: the
exclusive or of the expected values if every word is right, and otherwise all ones,
whatever the words are and in whichever order they were taken.
-/
import Mathlib.Data.FinEnum
import Mathlib.Tactic

set_option autoImplicit false

namespace IbexFirmware.ConstTime

variable {w : ℕ}

/-! ## One word -/

/-- All ones if any bit is set: the bits above the lowest one are set first, then, if
that reached the sign bit, all of them. -/
def spread (d : BitVec w) : BitVec w :=
  let d := d ||| (~~~d + 1)
  d ||| (~~~(d >>> (w - 1)) + 1)

/-- A word or its negation is negative, unless it is zero. -/
theorem msb_or_neg {d : BitVec w} (h : d ≠ 0) : (d ||| -d).msb = true := by
  rw [BitVec.msb_or]
  cases hd : d.msb with
  | true => rfl
  | false =>
      have hmin : d ≠ BitVec.intMin w := by
        rintro rfl
        have hw : 0 < w := by
          by_contra hw
          obtain rfl : w = 0 := by omega
          exact h (Subsingleton.elim _ _)
        rw [BitVec.msb_intMin] at hd
        simp [hw] at hd
      rw [BitVec.msb_neg_of_ne_intMin_of_ne_zero hmin h, hd]
      rfl

/-- The sign bit on its own. -/
theorem ushiftRight_msb {d : BitVec w} (h : d.msb = true) : d >>> (w - 1) = 1 := by
  have hpos : 0 < w := by
    by_contra hw
    obtain rfl : w = 0 := by omega
    rw [BitVec.of_length_zero (x := d)] at h
    exact absurd h (by decide)
  apply BitVec.eq_of_toNat_eq
  have hge : 2 ^ (w - 1) ≤ d.toNat := BitVec.toNat_ge_of_msb_true h
  have hpow : 2 ^ w = 2 * 2 ^ (w - 1) := by
    rw [← Nat.pow_succ']
    congr 1
    omega
  rw [BitVec.toNat_ushiftRight, Nat.shiftRight_eq_div_pow]
  have hdiv : d.toNat / 2 ^ (w - 1) = 1 := by
    apply Nat.div_eq_of_lt_le
    · omega
    · omega
  rw [hdiv]
  show 1 = (BitVec.ofNat w 1).toNat
  rw [BitVec.toNat_ofNat, Nat.mod_eq_of_lt (Nat.one_lt_two_pow (by omega))]

theorem spread_eq (d : BitVec w) : spread d = if d = 0#w then 0#w else BitVec.allOnes w := by
  have hneg : ∀ x : BitVec w, ~~~x + 1 = -x := fun x => (BitVec.neg_eq_not_add x).symm
  unfold spread
  simp only [hneg]
  split_ifs with h
  · subst h
    show ((0#w ||| -0#w) ||| -((0#w ||| -0#w) >>> (w - 1))) = 0#w
    simp only [BitVec.neg_zero, BitVec.or_zero, BitVec.zero_ushiftRight]
  · rw [ushiftRight_msb (msb_or_neg h)]
    have hone : -(1 : BitVec w) = BitVec.allOnes w := BitVec.neg_one_eq_allOnes
    rw [hone, BitVec.or_allOnes]

/-! ## A row of words -/

/-- One step of the pass, on a word and the share it should be. -/
def check_share (acc : BitVec w × BitVec w) (p : BitVec w × BitVec w) : BitVec w × BitVec w :=
  let diff := spread (acc.2 ||| (p.1 ^^^ p.2))
  ((acc.1 ^^^ p.1) ||| diff, diff)

/-- Once the difference is all ones, so is the sum, and both stay that way. -/
theorem fold_check_share_bad (ps : List (BitVec w × BitVec w)) :
    (ps.foldl check_share (BitVec.allOnes w, BitVec.allOnes w)).1 = BitVec.allOnes w := by
  induction ps with
  | nil => rfl
  | cons p ps ih =>
      have hstep : check_share (BitVec.allOnes w, BitVec.allOnes w) p
          = (BitVec.allOnes w, BitVec.allOnes w) := by
        have hspread : spread (BitVec.allOnes w ||| (p.1 ^^^ p.2)) = BitVec.allOnes w := by
          rw [BitVec.allOnes_or, spread_eq]
          split_ifs with hzero
          · exact hzero.symm
          · rfl
        simp only [check_share, hspread, BitVec.or_allOnes]
      rw [List.foldl_cons, hstep, ih]

/-- What the pass leaves of a row: the shares' exclusive or, or all ones. -/
theorem fold_check_share (ps : List (BitVec w × BitVec w)) (x : BitVec w) :
    (ps.foldl check_share (x, 0#w)).1 =
      if ∀ p ∈ ps, p.1 = p.2 then (ps.map Prod.snd).foldl (· ^^^ ·) x else BitVec.allOnes w := by
  induction ps generalizing x with
  | nil => simp
  | cons p ps ih =>
      rw [List.foldl_cons]
      by_cases hp : p.1 = p.2
      · have hstep : check_share (x, 0#w) p = (x ^^^ p.2, 0#w) := by
          simp [check_share, hp, spread_eq]
        rw [hstep, ih]
        simp only [List.forall_mem_cons, hp, true_and, List.map_cons, List.foldl_cons]
      · have hne : 0#w ||| (p.1 ^^^ p.2) ≠ 0#w := by
          rw [BitVec.zero_or]
          exact fun h => hp (BitVec.xor_eq_zero_iff.mp h)
        have hstep : check_share (x, 0#w) p = (BitVec.allOnes w, BitVec.allOnes w) := by
          simp only [check_share, spread_eq, if_neg hne, BitVec.or_allOnes]
        rw [hstep, fold_check_share_bad, if_neg fun hall => hp (hall p List.mem_cons_self)]

end IbexFirmware.ConstTime
