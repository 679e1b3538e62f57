/-
Modes of operation of a block cipher.

A mode is an automaton: it makes a block of output of every block of input, and what it remembers
from one block to the next is its chaining value. Both directions of a mode take the same chaining
values (`Automaton`), so that one undoes the other over a whole text (`run_run`), and the chaining
value after the text is the same for both.
-/
import Mathlib.Data.BitVec
import Mathlib.Logic.Equiv.Basic

set_option autoImplicit false

namespace IbexFirmware.BlockMode

variable {σ α : Type}

/-! ## Runs -/

/-- The chaining value and the output after a row of blocks. -/
def run (f : σ → α → σ × α) : σ → List α → σ × List α
  | s, [] => (s, [])
  | s, x :: xs => ((run f (f s x).1 xs).1, (f s x).2 :: (run f (f s x).1 xs).2)

variable {f : σ → α → σ × α}

@[simp] theorem length_run (s : σ) (xs : List α) : (run f s xs).2.length = xs.length := by
  induction xs generalizing s with
  | nil => rfl
  | cons x xs ih => rw [run, List.length_cons, List.length_cons, ih]

theorem run_append (s : σ) (xs ys : List α) :
    run f s (xs ++ ys) = ((run f (run f s xs).1 ys).1,
      (run f s xs).2 ++ (run f (run f s xs).1 ys).2) := by
  induction xs generalizing s with
  | nil => rfl
  | cons x xs ih => rw [List.cons_append, run, ih, run, List.cons_append]

theorem run_snoc (s : σ) (xs : List α) (x : α) :
    run f s (xs ++ [x]) = ((f (run f s xs).1 x).1,
      (run f s xs).2 ++ [(f (run f s xs).1 x).2]) := run_append s xs [x]

/-! ## Automata -/

/-- The two directions of a mode. -/
structure Automaton (σ α : Type) where
  encrypt : σ → α → σ × α
  decrypt : σ → α → σ × α
  decrypt_encrypt : ∀ s x, decrypt s (encrypt s x).2 = ((encrypt s x).1, x)
  encrypt_decrypt : ∀ s y, encrypt s (decrypt s y).2 = ((decrypt s y).1, y)

def Automaton.step (a : Automaton σ α) (encrypt : Bool) : σ → α → σ × α :=
  if encrypt then a.encrypt else a.decrypt

theorem Automaton.step_step (a : Automaton σ α) (encrypt : Bool) (s : σ) (x : α) :
    a.step (!encrypt) s (a.step encrypt s x).2 = ((a.step encrypt s x).1, x) := by
  cases encrypt with
  | true => exact a.decrypt_encrypt s x
  | false => exact a.encrypt_decrypt s x

/-- One direction undoes the other, and ends with the same chaining value. -/
theorem Automaton.run_run (a : Automaton σ α) (encrypt : Bool) (s : σ) (xs : List α) :
    run (a.step (!encrypt)) s (run (a.step encrypt) s xs).2 =
      ((run (a.step encrypt) s xs).1, xs) := by
  induction xs generalizing s with
  | nil => rfl
  | cons x xs ih =>
      rw [run, run, a.step_step]
      rw [ih]

/-! ## The modes -/

section modes

variable {n : ℕ} (E : Equiv.Perm (BitVec n))

theorem xor_xor_cancel (u v : BitVec n) : u ^^^ (u ^^^ v) = v := by
  rw [← BitVec.xor_assoc, BitVec.xor_self, BitVec.zero_xor]

theorem xor_cancel (u v : BitVec n) : u ^^^ v ^^^ v = u := by
  rw [BitVec.xor_assoc, BitVec.xor_self, BitVec.xor_zero]

/-- Each block by itself. -/
def ecb : Automaton (BitVec n) (BitVec n) where
  encrypt iv x := (iv, E x)
  decrypt iv y := (iv, E.symm y)
  decrypt_encrypt iv x := by rw [E.symm_apply_apply]
  encrypt_decrypt iv y := by rw [E.apply_symm_apply]

/-- Cipher block chaining. -/
def cbc : Automaton (BitVec n) (BitVec n) where
  encrypt iv x := (E (x ^^^ iv), E (x ^^^ iv))
  decrypt iv y := (y, E.symm y ^^^ iv)
  decrypt_encrypt iv x := by rw [E.symm_apply_apply, xor_cancel]
  encrypt_decrypt iv y := by rw [xor_cancel, E.apply_symm_apply]

/-- Cipher feedback. -/
def cfb : Automaton (BitVec n) (BitVec n) where
  encrypt iv x := (E iv ^^^ x, E iv ^^^ x)
  decrypt iv y := (y, E iv ^^^ y)
  decrypt_encrypt iv x := by rw [xor_xor_cancel]
  encrypt_decrypt iv y := by rw [xor_xor_cancel]

/-- Output feedback. -/
def ofb : Automaton (BitVec n) (BitVec n) where
  encrypt iv x := (E iv, E iv ^^^ x)
  decrypt iv y := (E iv, E iv ^^^ y)
  decrypt_encrypt iv x := by rw [xor_xor_cancel]
  encrypt_decrypt iv y := by rw [xor_xor_cancel]

/-- Counter mode. -/
def ctr : Automaton (BitVec n) (BitVec n) where
  encrypt iv x := (iv + 1, E iv ^^^ x)
  decrypt iv y := (iv + 1, E iv ^^^ y)
  decrypt_encrypt iv x := by rw [xor_xor_cancel]
  encrypt_decrypt iv y := by rw [xor_xor_cancel]

/-- Without chaining the output does not depend on the chaining value. -/
theorem run_ecb (encrypt : Bool) (s t : BitVec n) (xs : List (BitVec n)) :
    (run ((ecb E).step encrypt) s xs).2 = (run ((ecb E).step encrypt) t xs).2 := by
  have hstep : ∀ u x, (ecb E).step encrypt u x = (u, ((ecb E).step encrypt t x).2) := by
    intro u x
    cases encrypt with
    | true => rfl
    | false => rfl
  induction xs with
  | nil => rfl
  | cons x xs ih =>
      rw [run, run, hstep s x, hstep t x]
      rw [ih]

end modes

end IbexFirmware.BlockMode
