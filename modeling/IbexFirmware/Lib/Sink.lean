/-
Sinks, and the programs that write to them.

A sink takes a buffer, does with it what it likes, and says how much of it it took. A program
that looks at no answer but to add them up hands every sink the same buffers: it `Hands` them
over. What it does to a sink is then `deliver`, the buffers one after the other, and the sink
alone is left to reason about: one that takes everything has the whole text in the end
(`deliver_accept`), and one with room for so many bytes has as much of that text as there is
room for (`deliver_bounded`), wherever a buffer was cut.
-/
import Mathlib.Data.Nat.Cast.Basic
import Mathlib.Tactic

set_option autoImplicit false

namespace IbexFirmware.Sinks

variable {σ β M ε : Type}

/-- The answer to a buffer, and the sink's own state behind it. -/
abbrev Sink (σ β M : Type) := σ → List β → M × σ

/-- Where bytes are put, one buffer behind the other. -/
structure Store (σ β : Type) where
  put : σ → List β → σ
  put_nil : ∀ s, put s [] = s
  put_append : ∀ s xs ys, put s (xs ++ ys) = put (put s xs) ys

/-- A list that grows at its end. -/
def Store.list : Store (List β) β where
  put := (· ++ ·)
  put_nil := List.append_nil
  put_append s xs ys := (List.append_assoc s xs ys).symm

section answers

variable [AddMonoidWithOne M]

/-- The sum of the answers to `cs`. -/
def deliver (out : Sink σ β M) : List (List β) → σ → M × σ
  | [], s => (0, s)
  | c :: cs, s => ((out s c).1 + (deliver out cs (out s c).2).1, (deliver out cs (out s c).2).2)

@[simp] theorem deliver_nil (out : Sink σ β M) (s : σ) : deliver out [] s = (0, s) := rfl

@[simp] theorem deliver_singleton (out : Sink σ β M) (c : List β) (s : σ) :
    deliver out [c] s = out s c := by
  simp [deliver]

theorem deliver_append (out : Sink σ β M) (cs ds : List (List β)) (s : σ) :
    deliver out (cs ++ ds) s =
      ((deliver out cs s).1 + (deliver out ds (deliver out cs s).2).1,
        (deliver out ds (deliver out cs s).2).2) := by
  induction cs generalizing s with
  | nil => simp
  | cons c cs ih => rw [List.cons_append, deliver, ih, deliver, add_assoc]

/-- Two sinks that do the same to states that belong together. -/
theorem deliver_map {τ : Type} {out : Sink σ β M} {out' : Sink τ β M} (f : σ → τ)
    (h : ∀ s c, out' (f s) c = ((out s c).1, f (out s c).2)) (cs : List (List β)) (s : σ) :
    deliver out' cs (f s) = ((deliver out cs s).1, f (deliver out cs s).2) := by
  induction cs generalizing s with
  | nil => rfl
  | cons c cs ih => rw [deliver, h, ih, deliver]

/-- Takes everything. -/
def accept (store : Store σ β) : Sink σ β M := fun s b => (b.length, store.put s b)

theorem deliver_accept (store : Store σ β) (cs : List (List β)) (s : σ) :
    deliver (accept store : Sink σ β M) cs s = ((cs.flatten.length : M), store.put s cs.flatten) := by
  induction cs generalizing s with
  | nil => simp [store.put_nil]
  | cons c cs ih =>
      rw [deliver, accept, ih, List.flatten_cons, List.length_append, Nat.cast_add,
        store.put_append]

/-- Takes what it has room for. -/
def bounded (store : Store σ β) : Sink (σ × ℕ) β M := fun (s, room) b =>
  (((min room b.length : ℕ) : M), (store.put s (b.take room), room - b.length))

theorem deliver_bounded (store : Store σ β) (cs : List (List β)) (s : σ) (room : ℕ) :
    deliver (bounded store : Sink (σ × ℕ) β M) cs (s, room) =
      (((min room cs.flatten.length : ℕ) : M),
        (store.put s (cs.flatten.take room), room - cs.flatten.length)) := by
  induction cs generalizing s room with
  | nil => simp [store.put_nil]
  | cons c cs ih =>
      have hcount : min room c.length + min (room - c.length) cs.flatten.length =
          min room (c.length + cs.flatten.length) := by omega
      rw [deliver, bounded, ih, List.flatten_cons, List.length_append, List.take_append,
        store.put_append, ← Nat.cast_add, hcount, Nat.sub_sub]

/-! ## Programs -/

/-- A program that runs against a sink of any kind. -/
abbrev Client (ε β M : Type) := ∀ σ : Type, Sink σ β M → σ → Except ε (M × σ)

def Hands (p : Client ε β M) (cs : List (List β)) : Prop :=
  ∀ (σ : Type) (out : Sink σ β M) (s : σ), p σ out s = .ok (deliver out cs s)

end answers

end IbexFirmware.Sinks
