/-
Computations that read a memory, with the places they read.

Which places are read may depend on the values that were read before, so the places are
recorded along with the value. `Within P` says that all of them are in `P`. The rules for
`pure`, `>>=` and a branch are equivalences: what a computation reads is known exactly, and
a bound that does not hold can be refuted as well as proved.
-/
import Mathlib.Data.List.Basic

set_option autoImplicit false

namespace IbexFirmware

/-- A value and the places that were read for it, in order. -/
structure Reading (ℓ α : Type) where
  value : α
  places : List ℓ

namespace Reading

variable {ℓ α β : Type}

instance : Monad (Reading ℓ) where
  pure a := ⟨a, []⟩
  bind x f := ⟨(f x.value).value, x.places ++ (f x.value).places⟩

@[simp] theorem value_pure (a : α) : (pure a : Reading ℓ α).value = a := rfl

@[simp] theorem value_bind (x : Reading ℓ α) (f : α → Reading ℓ β) :
    (x >>= f).value = (f x.value).value := rfl

@[simp] theorem value_ite {c : Prop} [Decidable c] (x y : Reading ℓ α) :
    (if c then x else y).value = if c then x.value else y.value :=
  apply_ite Reading.value c x y

/-- Two branches compute what they should. -/
theorem value_ite_eq {c : Prop} [Decidable c] {x y : Reading ℓ α} {a b : α}
    (hx : c → x.value = a) (hy : ¬ c → y.value = b) :
    (if c then x else y).value = if c then a else b := by
  by_cases hc : c
  · rw [if_pos hc, if_pos hc]
    exact hx hc
  · rw [if_neg hc, if_neg hc]
    exact hy hc

/-- All places that are read are in `P`. -/
def Within (P : ℓ → Prop) (x : Reading ℓ α) : Prop := ∀ place ∈ x.places, P place

instance (P : ℓ → Prop) [DecidablePred P] (x : Reading ℓ α) : Decidable (Within P x) :=
  List.decidableBAll P x.places

variable {P : ℓ → Prop}

theorem within_pure (a : α) : Within P (pure a : Reading ℓ α) := by
  intro place hmem
  cases hmem

theorem within_bind_iff (x : Reading ℓ α) (f : α → Reading ℓ β) :
    Within P (x >>= f) ↔ Within P x ∧ Within P (f x.value) :=
  List.forall_mem_append

theorem Within.bind {x : Reading ℓ α} {f : α → Reading ℓ β} (hx : Within P x)
    (hf : Within P (f x.value)) : Within P (x >>= f) :=
  (within_bind_iff x f).mpr ⟨hx, hf⟩

theorem Within.ite {c : Prop} [Decidable c] {x y : Reading ℓ α} (hx : c → Within P x)
    (hy : ¬ c → Within P y) : Within P (if c then x else y) := by
  by_cases hc : c
  · rw [if_pos hc]
    exact hx hc
  · rw [if_neg hc]
    exact hy hc

/-- A loop reads within `P` if each iteration does, from any state. -/
theorem Within.foldlM {f : β → α → Reading ℓ β} {as : List α} (b : β)
    (hf : ∀ a ∈ as, ∀ b, Within P (f b a)) : Within P (as.foldlM f b) := by
  induction as generalizing b with
  | nil => exact within_pure b
  | cons a as ih =>
      rw [List.foldlM_cons]
      apply Within.bind
      · exact hf a List.mem_cons_self b
      · exact ih _ fun a' hmem => hf a' (List.mem_cons_of_mem a hmem)

/-- The value of a loop is the loop over the values. -/
theorem value_foldlM (f : β → α → Reading ℓ β) (as : List α) (b : β) :
    (as.foldlM f b).value = as.foldl (fun b a => (f b a).value) b := by
  induction as generalizing b with
  | nil => rfl
  | cons a as ih =>
      rw [List.foldlM_cons, value_bind, ih]
      rfl

/-- One reading after the other. -/
def readAll (f : α → Reading ℓ β) : List α → Reading ℓ (List β)
  | [] => pure []
  | a :: as => do
      let b ← f a
      let bs ← readAll f as
      pure (b :: bs)

/-- They are within `P` exactly if each of them is. -/
theorem within_readAll_iff (f : α → Reading ℓ β) (as : List α) :
    Within P (readAll f as) ↔ ∀ a ∈ as, Within P (f a) := by
  induction as with
  | nil => exact iff_of_true (within_pure []) fun a hmem => absurd hmem List.not_mem_nil
  | cons a as ih =>
      rw [readAll, within_bind_iff, within_bind_iff, ih, List.forall_mem_cons]
      exact and_congr_right fun _ => and_iff_left (within_pure _)

end Reading

end IbexFirmware
