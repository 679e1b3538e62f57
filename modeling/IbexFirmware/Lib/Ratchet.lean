/-
Version ratchets: a stored minimum below which no image is accepted, and which requests
may only raise.

A raise is dangerous in one way. Above the version of every image nothing is accepted
any more. `ceiling` is the highest value that is safe, computed by going through the
images, and `exists_version_ge` is the reason for it: below the ceiling some image
accepted so far stays acceptable.

The second half is about a device that is used again and again. `Turn` is what one use
may do to the minimum. `run_le` and `run_turn` say what any number of uses then does:
the minimum never decreases, and each rise was one that its use allowed.
-/
import Mathlib.Data.List.Basic

set_option autoImplicit false

namespace IbexFirmware.Ratchet

open Std

variable {ι V : Type} [LT V]

/-! ## The safe values -/

section ceiling

variable [DecidableLT V] (accepted : ι → Prop) [DecidablePred accepted] (version : ι → V)

/-- Take the version of an image into account. -/
def raise_to (max : V) (i : ι) : V := if accepted i ∧ max < version i then version i else max

def ceiling (images : List ι) (min : V) : V := images.foldl (raise_to accepted version) min

/-- The ceiling is the version of an accepted image, if it is not the minimum itself. -/
theorem ceiling_cases (images : List ι) (min : V) :
    ceiling accepted version images min = min ∨
      ∃ i ∈ images, accepted i ∧ ceiling accepted version images min = version i := by
  induction images generalizing min with
  | nil => exact .inl rfl
  | cons i images ih =>
      unfold ceiling
      rw [List.foldl_cons]
      rcases ih (raise_to accepted version min i) with hmin | ⟨j, hj, haccepted, hversion⟩
      · -- nothing behind `i` counted: the ceiling is what `i` made of the minimum
        unfold ceiling at hmin
        rw [hmin, raise_to]
        by_cases hi : accepted i ∧ min < version i
        · rw [if_pos hi]
          exact .inr ⟨i, List.mem_cons_self, hi.1, rfl⟩
        · rw [if_neg hi]
          exact .inl rfl
      · exact .inr ⟨j, List.mem_cons_of_mem i hj, haccepted, hversion⟩

variable [LE V] [LawfulOrderLT V] {accepted version}

/-- What is above the minimum and not above the ceiling leaves an image acceptable. -/
theorem exists_version_ge {images : List ι} {min w : V} (hlt : min < w)
    (hle : w ≤ ceiling accepted version images min) : ∃ i ∈ images, accepted i ∧ w ≤ version i := by
  rcases ceiling_cases accepted version images min with hmin | hsome
  · rw [hmin] at hle
    exact absurd hle (not_le_of_gt hlt)
  · obtain ⟨i, hi, haccepted, hversion⟩ := hsome
    exact ⟨i, hi, haccepted, hversion ▸ hle⟩

end ceiling

/-! ## Uses of the device -/

variable {S M : Type}

/-- One use leaves the minimum, or raises it to a value that it allows. -/
def Turn (Allows : V → Prop) (v w : V) : Prop := w = v ∨ v < w ∧ Allows w

theorem Turn.allows {Allows : V → Prop} {v w : V} (h : Turn Allows v w) (hne : w ≠ v) :
    Allows w := by
  rcases h with heq | ⟨-, hallows⟩
  · exact absurd heq hne
  · exact hallows

/-- The memory after the uses `ss`. -/
def run (next : M → S → M) (m : M) (ss : List S) : M := ss.foldl next m

theorem run_append (next : M → S → M) (m : M) (ss ts : List S) :
    run next m (ss ++ ts) = run next (run next m ss) ts :=
  List.foldl_append

variable {next : M → S → M} {min : M → V} {Allows : M → S → V → Prop}

/-- If every use is a turn, then so is each one in the middle of a run. -/
theorem run_turn {ss ts : List S} {s : S} (m : M)
    (hturn : ∀ s' ∈ ss ++ s :: ts, ∀ m, Turn (Allows m s') (min m) (min (next m s'))) :
    Turn (Allows (run next m ss) s) (min (run next m ss)) (min (run next m (ss ++ [s]))) := by
  rw [run_append]
  exact hturn s (List.mem_append_right ss List.mem_cons_self) (run next m ss)

section order

variable [LE V] [IsLinearOrder V] [LawfulOrderLT V]

theorem Turn.le {Allows : V → Prop} {v w : V} (h : Turn Allows v w) : v ≤ w := by
  rcases h with rfl | ⟨hlt, -⟩
  · exact le_refl w
  · exact le_of_lt hlt

/-- And no number of uses lowers the minimum. -/
theorem run_le {ts : List S} (m : M)
    (hturn : ∀ s ∈ ts, ∀ m, Turn (Allows m s) (min m) (min (next m s))) :
    min m ≤ min (run next m ts) := by
  induction ts generalizing m with
  | nil => exact le_refl (min m)
  | cons s ts ih =>
      have hfirst : min m ≤ min (next m s) := (hturn s List.mem_cons_self m).le
      exact le_trans hfirst (ih (next m s) fun t ht => hturn t (List.mem_cons_of_mem s ht))

end order

end IbexFirmware.Ratchet
