/-
Words folded into one by exclusive or.

A check that folds the differences of several words into one accumulator and looks only
at the result accepts more than equal words: it accepts every list of differences whose
exclusive or is zero. `Cancels` says that this happens without the words being equal, and
`xor_all_eq_zero_iff` that nothing else stands between the two.
-/
import IbexFirmware.Lib.Bytes

set_option autoImplicit false

namespace IbexFirmware.XorFold

variable {w : ℕ} {ι : Type}

/-- The exclusive or of all words. -/
def xor_all (ws : List (BitVec w)) : BitVec w := ws.foldr (· ^^^ ·) 0

@[simp] theorem xor_all_nil : xor_all ([] : List (BitVec w)) = 0 := rfl

@[simp] theorem xor_all_cons (x : BitVec w) (ws : List (BitVec w)) :
    xor_all (x :: ws) = x ^^^ xor_all ws := rfl

@[simp] theorem xor_all_singleton (x : BitVec w) : xor_all [x] = x := BitVec.xor_zero

@[simp] theorem xor_all_append (xs ys : List (BitVec w)) :
    xor_all (xs ++ ys) = xor_all xs ^^^ xor_all ys := by
  induction xs with
  | nil => simp
  | cons x xs ih => rw [List.cons_append, xor_all_cons, ih, xor_all_cons, BitVec.xor_assoc]

/-- An accumulator that takes up one word for each element. -/
theorem foldl_xor (xs : List ι) (f : ι → BitVec w) (a : BitVec w) :
    xs.foldl (fun acc i => acc ^^^ f i) a = a ^^^ xor_all (xs.map f) := by
  induction xs generalizing a with
  | nil => simp
  | cons x xs ih => rw [List.foldl_cons, ih, List.map_cons, xor_all_cons, BitVec.xor_assoc]

/-- Words that come with a share each: the shares can be folded apart. -/
theorem xor_all_map_xor (xs : List ι) (f g : ι → BitVec w) :
    xor_all (xs.map fun i => f i ^^^ g i) = xor_all (xs.map f) ^^^ xor_all (xs.map g) := by
  induction xs with
  | nil => simp
  | cons x xs ih =>
      simp only [List.map_cons, xor_all_cons, ih]
      rw [BitVec.xor_assoc, BitVec.xor_assoc, ← BitVec.xor_assoc (g x),
        BitVec.xor_comm (g x) (xor_all _), BitVec.xor_assoc]

/-- Differences and shares, folded into one accumulator in any order, are apart again where
the shares alone lead from the start to the end. -/
theorem xor_eq_iff {start shares goal : BitVec w} (h : start ^^^ shares = goal) (x : BitVec w) :
    start ^^^ (x ^^^ shares) = goal ↔ x = 0 := by
  subst h
  rw [← BitVec.xor_assoc, BitVec.xor_left_inj]
  constructor
  · intro heq
    apply (BitVec.xor_right_inj start).mp
    rw [heq]
    exact BitVec.xor_zero.symm
  · rintro rfl
    exact BitVec.xor_zero

/-- A last word `v` that should be `k` and has the share `s`. -/
theorem xor_last (a x shares v s k : BitVec w) :
    a ^^^ (x ^^^ shares) ^^^ (v ^^^ s) = a ^^^ ((x ^^^ (v ^^^ k)) ^^^ (shares ^^^ (k ^^^ s))) := by
  have hbits : ∀ a x h v s k : Bool,
      ((a ^^ (x ^^ h)) ^^ (v ^^ s)) = (a ^^ ((x ^^ (v ^^ k)) ^^ (h ^^ (k ^^ s)))) := by decide
  apply BitVec.eq_of_getLsbD_eq
  intro i hi
  simp only [BitVec.getLsbD_xor]
  exact hbits _ _ _ _ _ _

/-- The words are not all zero, and their exclusive or hides it. -/
def Cancels (ws : List (BitVec w)) : Prop := xor_all ws = 0 ∧ ∃ x ∈ ws, x ≠ 0

instance (ws : List (BitVec w)) : Decidable (Cancels ws) :=
  inferInstanceAs (Decidable (_ ∧ _))

theorem xor_all_of_zero {ws : List (BitVec w)} (h : ∀ x ∈ ws, x = 0) : xor_all ws = 0 := by
  induction ws with
  | nil => rfl
  | cons x ws ih =>
      rw [xor_all_cons, h x List.mem_cons_self, ih fun y hy => h y (List.mem_cons_of_mem x hy)]
      exact BitVec.xor_self

/-- The fold is zero as it should be exactly where nothing cancels. -/
theorem xor_all_eq_zero_iff (ws : List (BitVec w)) :
    (xor_all ws = 0 ↔ ∀ x ∈ ws, x = 0) ↔ ¬ Cancels ws := by
  constructor
  · rintro h ⟨hzero, x, hx, hne⟩
    exact hne (h.mp hzero x hx)
  · intro h
    refine ⟨fun hzero x hx => ?_, xor_all_of_zero⟩
    by_contra hne
    exact h ⟨hzero, x, hx, hne⟩

end IbexFirmware.XorFold
