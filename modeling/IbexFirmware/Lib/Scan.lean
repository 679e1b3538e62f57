/-
Walks over a table that may stop before its end.

A step looks at the state and changes it, and either has a result or leaves the rest of the
table to do. `scan` is the steps of a table one after the other. A program that takes several
entries at once does the same as `scan` if each of its rounds does (`scan_append`), and where no
step has a result, or none changes the state, the walk is a fold (`scan_silent`) or a search
(`scan_test`).
-/
import Mathlib.Tactic

set_option autoImplicit false

namespace IbexFirmware.Scan

variable {σ α ι : Type}

/-- A result, if there is one, and the state behind. -/
abbrev Step (σ α : Type) := σ → Option α × σ

def skip : Step σ α := fun s => (none, s)

/-- The second step is left out where the first has a result. -/
def andThen (f g : Step σ α) : Step σ α := fun s =>
  match f s with
  | (some a, s) => (some a, s)
  | (none, s) => g s

def scan : List (Step σ α) → Step σ α
  | [] => skip
  | f :: fs => andThen f (scan fs)

@[simp] theorem skip_andThen (f : Step σ α) : andThen skip f = f := rfl

@[simp] theorem andThen_skip (f : Step σ α) : andThen f skip = f := by
  funext s
  rw [andThen]
  split
  · next h => exact h.symm
  · next h => exact h.symm

theorem andThen_assoc (f g h : Step σ α) : andThen (andThen f g) h = andThen f (andThen g h) := by
  funext s
  simp only [andThen]
  generalize f s = r
  obtain ⟨_ | a, s⟩ := r
  · rfl
  · rfl

theorem scan_append (fs gs : List (Step σ α)) : scan (fs ++ gs) = andThen (scan fs) (scan gs) := by
  induction fs with
  | nil => rfl
  | cons f fs ih => rw [List.cons_append, scan, ih, scan, andThen_assoc]

/-- No step has a result. -/
theorem scan_silent (g : σ → ι → σ) (is : List ι) (s : σ) :
    scan (is.map fun i s => ((none : Option α), g s i)) s = (none, is.foldl g s) := by
  induction is generalizing s with
  | nil => rfl
  | cons i is ih =>
      rw [List.map_cons, scan, List.foldl_cons]
      exact ih (g s i)

/-- No step changes the state. -/
theorem scan_test (t : σ → ι → Option α) (is : List ι) (s : σ) :
    scan (is.map fun i s => (t s i, s)) s = (is.findSome? (t s), s) := by
  induction is with
  | nil => rfl
  | cons i is ih =>
      rw [List.map_cons, scan, List.findSome?_cons, andThen]
      cases t s i with
      | none => exact ih
      | some a => rfl

/-- The first entry that has a result has it. -/
theorem findSome?_eq_find? (p : ι → Bool) (f : ι → α) (is : List ι) :
    is.findSome? (fun i => if p i then some (f i) else none) = (is.find? p).map f := by
  induction is with
  | nil => rfl
  | cons i is ih =>
      rw [List.findSome?_cons, List.find?_cons]
      cases p i with
      | false => exact ih
      | true => rfl

end IbexFirmware.Scan
