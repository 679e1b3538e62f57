/-
First in, first out.

A queue is known by what is seen of it: what was put, and what each attempt to get something
returned. `Step cap` says what a queue with room for `cap` may do, `Run.conserves` that nothing is
lost, doubled or overtaken: what was put is what was returned, followed by what is held. A system
whose steps are steps of a queue is one (`Run.simulates`).

The second half is about the usual implementation, a ring of `n` cells with a pointer to the first
cell in use and one behind the last. Where the cells lie is arithmetic modulo `n`. Since the
pointers are equal when nothing is held, one cell has to stay free (`full_iff`, `empty_iff`).
-/
import Mathlib.Data.List.Basic
import Mathlib.Logic.Function.Basic
import Mathlib.Tactic

set_option autoImplicit false

namespace IbexFirmware.Fifo

variable {α σ : Type}

/-! ## Queues -/

/-- Something is put, or an attempt to get something returns. -/
inductive Event (α : Type) where
  | put (a : α)
  | get (a : Option α)

def Event.given : Event α → Option α
  | .put a => some a
  | .get _ => none

def Event.returned : Event α → Option α
  | .put _ => none
  | .get a => a

def puts (es : List (Event α)) : List α := es.filterMap Event.given

def gets (es : List (Event α)) : List α := es.filterMap Event.returned

theorem puts_snoc (es : List (Event α)) (e : Event α) :
    puts (es ++ [e]) = puts es ++ e.given.toList := by
  rw [puts, List.filterMap_append]
  cases h : e.given <;> simp [puts, h]

theorem gets_snoc (es : List (Event α)) (e : Event α) :
    gets (es ++ [e]) = gets es ++ e.returned.toList := by
  rw [gets, List.filterMap_append]
  cases h : e.returned <;> simp [gets, h]

inductive Step (cap : ℕ) : List α → Event α → List α → Prop
  | put (held : List α) (a : α) (hroom : held.length < cap) :
      Step cap held (.put a) (held ++ [a])
  | get (a : α) (held : List α) : Step cap (a :: held) (.get (some a)) held
  | empty : Step cap [] (.get none) []

/-- The runs of a system from `s` on, with what is seen of them. -/
inductive Run (step : σ → Event α → σ → Prop) (s : σ) : List (Event α) → σ → Prop
  | start : Run step s [] s
  | next {es : List (Event α)} {t u : σ} {e : Event α} (hrun : Run step s es t)
      (hstep : step t e u) : Run step s (es ++ [e]) u

section runs

variable {cap : ℕ} {es : List (Event α)} {held : List α}

/-- What was put is what was returned and what is held, in this order. -/
theorem Run.conserves (h : Run (Step cap) [] es held) : puts es = gets es ++ held := by
  induction h with
  | start => rfl
  | next _ hstep ih =>
      rw [puts_snoc, gets_snoc, ih]
      cases hstep with
      | put held a hroom => simp [Event.given, Event.returned]
      | get a held => simp [Event.given, Event.returned]
      | empty => simp [Event.given, Event.returned]

theorem Run.length_le (h : Run (Step cap) [] es held) : held.length ≤ cap := by
  induction h with
  | start => exact Nat.zero_le cap
  | next _ hstep ih =>
      cases hstep with
      | put held a hroom =>
          rw [List.length_append, List.length_singleton]
          omega
      | get a held =>
          rw [List.length_cons] at ih
          omega
      | empty => exact ih

/-- A system whose steps are those of a queue has the runs of a queue. -/
theorem Run.simulates {step : σ → Event α → σ → Prop} {R : σ → List α → Prop} {s t : σ}
    (hsteps : ∀ s held e t, R s held → step s e t → ∃ held', Step cap held e held' ∧ R t held')
    (h : Run step s es t) (hs : R s held) : ∃ held', Run (Step cap) held es held' ∧ R t held' := by
  induction h with
  | start => exact ⟨held, .start, hs⟩
  | next _ hstep ih =>
      obtain ⟨mid, hrun, hmid⟩ := ih
      obtain ⟨held', hqueue, hheld⟩ := hsteps _ _ _ _ hmid hstep
      exact ⟨held', .next hrun hqueue, hheld⟩

end runs

/-! ## Rings -/

section ring

variable {n first k : ℕ}

/-- The cell `k` places on, less than once round. -/
theorem place_eq (hfirst : first < n) (hk : k < n) :
    (first + k) % n = if n ≤ first + k then first + k - n else first + k := by
  rw [Nat.add_mod_eq_ite, Nat.mod_eq_of_lt hfirst, Nat.mod_eq_of_lt hk]

/-- Two pointers into a ring in which `k` cells are in use: they are equal if none is. -/
theorem empty_iff (hfirst : first < n) (hk : k < n) : (first + k) % n = first ↔ k = 0 := by
  rw [place_eq hfirst hk]
  split_ifs <;> omega

/-- If all but one are, the difference between them says so, whichever is ahead. -/
theorem full_iff (hfirst : first < n) (hk : k < n) :
    (if first ≤ (first + k) % n then (first + k) % n - first = n - 1
      else first - (first + k) % n = 1) ↔ k = n - 1 := by
  rw [place_eq hfirst hk]
  split_ifs <;> omega

/-- `held` lies in the cells from `first` on. -/
def Lies (cells : ℕ → Option α) (n first : ℕ) (held : List α) : Prop :=
  ∀ i < held.length, cells ((first + i) % n) = held[i]?

variable {cells : ℕ → Option α} {held : List α} {a : α}

theorem Lies.nil : Lies cells n first [] := nofun

/-- What is written behind the last cell in use is held last. -/
theorem Lies.snoc (h : Lies cells n first held) (hfirst : first < n) (hroom : held.length < n)
    (a : α) :
    Lies (Function.update cells ((first + held.length) % n) (some a)) n first (held ++ [a]) := by
  intro i hi
  rw [List.length_append, List.length_singleton] at hi
  by_cases hlast : i = held.length
  · rw [hlast, Function.update_self, List.getElem?_concat_length]
  · have hne : (first + i) % n ≠ (first + held.length) % n := by
      rw [place_eq hfirst (by omega), place_eq hfirst (by omega)]
      split_ifs <;> omega
    rw [Function.update_of_ne hne, h i (by omega), List.getElem?_append_left (by omega)]

theorem Lies.head (h : Lies cells n first (a :: held)) (hfirst : first < n) :
    cells first = some a := by
  have hcell := h 0 (Nat.succ_pos _)
  rwa [Nat.add_zero, Nat.mod_eq_of_lt hfirst] at hcell

theorem Lies.tail (h : Lies cells n first (a :: held)) : Lies cells n ((first + 1) % n) held := by
  intro i hi
  rw [Nat.mod_add_mod, Nat.add_right_comm, Nat.add_assoc]
  exact h (i + 1) (Nat.succ_lt_succ hi)

end ring

end IbexFirmware.Fifo
