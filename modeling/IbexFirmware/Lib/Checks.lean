/-
Rows of checks, which end in the error of the first one that fails.

A program in `Except` that returns has passed all its checks: `ok_of_bind` takes the first
program of a row off, `ok_of_throw` and `ok_of_error` a condition that is tested there.
-/
import Mathlib.Tactic

set_option autoImplicit false

namespace IbexFirmware.Checks

variable {ε α β : Type}

theorem ok_of_bind {x : Except ε α} {f : α → Except ε β} {b : β} (h : x >>= f = .ok b) :
    ∃ a, x = .ok a ∧ f a = .ok b := by
  cases x with
  | error e => cases h
  | ok a => exact ⟨a, rfl, h⟩

theorem ok_of_map {x : Except ε α} {f : α → β} {b : β} (h : x.map f = .ok b) :
    ∃ a, x = .ok a ∧ f a = b := by
  cases x with
  | error e => cases h
  | ok a => exact ⟨a, rfl, Except.ok.inj h⟩

section condition

variable {c : Prop} [Decidable c] {e : ε} {rest : Except ε β} {b : β}

/-- The condition did not hold, and the rest has returned. -/
theorem ok_of_error (h : (if c then .error e else rest) = .ok b) : ¬c ∧ rest = .ok b := by
  split_ifs at h with hc
  exact ⟨hc, h⟩

theorem ok_of_throw {f : α → Except ε β} (h : (if c then throw e >>= f else rest) = .ok b) :
    ¬c ∧ rest = .ok b := ok_of_error h

end condition

end IbexFirmware.Checks
