/-
What a reader makes of the text in front of it.

A reader is a program over a state, and `view` is what its callers reason about: the text
that is still to be read. `Answers view obs p s A` says that `p`, from `s`, does exactly
what `A` says of results and texts: where it returns, `A` holds of what it returned and of
the text it left, and of nothing else, and where it fails or never comes back `A` holds of
nothing. So `A` is a grammar when `p` is its parser, sound, complete and without a second
reading, and all three come out of one induction over the program.

`obs` is the part of a result that is looked at. A reader that moves a pointer along
returns the pointer, and what it accepts does not depend on it.

What a loop answers is given as an equation, with the first round on the right.
-/
import IbexFirmware.Lib.Session

set_option autoImplicit false

namespace IbexFirmware.Recognizer

open PowerFail Session

variable {σ ε τ α β κ ι : Type}

def Answers (view : σ → τ) (obs : α → κ) (p : Proc σ ε α) (s : σ) (A : κ → τ → Prop) : Prop :=
  Leaves p s (fun a s' => ∀ k t, A k t ↔ k = obs a ∧ t = view s') (fun _ _ => ∀ k t, ¬ A k t)
    fun _ => ∀ k t, ¬ A k t

section rules

variable {view : σ → τ} {obs : α → κ} {s : σ} {A A' : κ → τ → Prop}

theorem Answers.congr {p : Proc σ ε α} (h : Answers view obs p s A')
    (hA : ∀ k t, A k t ↔ A' k t) : Answers view obs p s A := by
  refine Leaves.conseq h (fun a s' hret k t => ?_) (fun _ _ hno k t => ?_) fun _ hno k t => ?_
  · rw [hA]
    exact hret k t
  · rw [hA]
    exact hno k t
  · rw [hA]
    exact hno k t

theorem Answers.pure {a : α} (h : ∀ k t, A k t ↔ k = obs a ∧ t = view s) :
    Answers view obs (pure a : Proc σ ε α) s A :=
  Leaves.pure h

theorem Answers.throw {e : ε} (h : ∀ k t, ¬ A k t) :
    Answers view obs (Proc.throw e : Proc σ ε α) s A :=
  Leaves.throw h

/-- What is left to answer after the first part, for each way it returns. -/
theorem Answers.bind {p : Proc σ ε β} {f : β → Proc σ ε α} {R : β → σ → Prop}
    (hp : Leaves p s R (fun _ _ => ∀ k t, ¬ A k t) fun _ => ∀ k t, ¬ A k t)
    (hf : ∀ b s', R b s' → Answers view obs (f b) s' A) : Answers view obs (p >>= f) s A :=
  Leaves.bind hp hf

/-- One reader after another. -/
theorem Answers.seq {p : Proc σ ε β} {f : β → Proc σ ε α} {first : β → ι} {B : ι → τ → Prop}
    {C : ι → τ → κ → τ → Prop} (hp : Answers view first p s B)
    (hf : ∀ b s', Answers view obs (f b) s' (C (first b) (view s'))) :
    Answers view obs (p >>= f) s fun k t => ∃ i u, B i u ∧ C i u k t := by
  refine Answers.bind (Leaves.conseq hp (fun _ _ => id) ?_ ?_) fun b s' hret => ?_
  · rintro _ _ hno k t ⟨i, u, hB, -⟩
    exact hno i u hB
  · rintro _ hno k t ⟨i, u, hB, -⟩
    exact hno i u hB
  · refine (hf b s').congr fun k t => ⟨?_, fun hC => ⟨_, _, (hret _ _).mpr ⟨rfl, rfl⟩, hC⟩⟩
    rintro ⟨i, u, hB, hC⟩
    obtain ⟨rfl, rfl⟩ := (hret i u).mp hB
    exact hC

/-- A result that nobody looks at. -/
theorem Answers.forget {p : Proc σ ε α} {f : κ → ι} (h : Answers view obs p s A) :
    Answers view (f ∘ obs) p s fun i t => ∃ k, i = f k ∧ A k t := by
  refine Leaves.conseq h (fun a s' hret i t => ?_) ?_ ?_
  · constructor
    · rintro ⟨k, rfl, hA⟩
      obtain ⟨rfl, rfl⟩ := (hret k t).mp hA
      exact ⟨rfl, rfl⟩
    · rintro ⟨rfl, rfl⟩
      exact ⟨obs a, rfl, (hret _ _).mpr ⟨rfl, rfl⟩⟩
  · rintro _ _ hno i t ⟨k, -, hA⟩
    exact hno k t hA
  · rintro _ hno i t ⟨k, -, hA⟩
    exact hno k t hA

/-- There is no second answer. -/
theorem Answers.unique {p : Proc σ ε α} (h : Answers view obs p s A) {k k' : κ} {t t' : τ}
    (hA : A k t) (hA' : A k' t') : k = k' ∧ t = t' := by
  have hends := h (Machine.on s fun _ => .done) rfl
  generalize p (Machine.on s fun _ => .done) = run at hends
  obtain ⟨outcome, m⟩ := run
  cases outcome with
  | ret a =>
      obtain ⟨rfl, rfl⟩ := (hends k t).mp hA
      obtain ⟨rfl, rfl⟩ := (hends k' t').mp hA'
      exact ⟨rfl, rfl⟩
  | error e => exact absurd hA (hends k t)
  | trap => exact absurd hA (hends k t)
  | lost => exact absurd hA (hends k t)

/-- On every machine, the returns are the answers. -/
theorem Answers.returns_iff {p : Proc σ ε α} (h : Answers view obs p s A) {m : Machine σ}
    (hm : m.mem = s) (k : κ) (t : τ) :
    (∃ a, (p m).1 = .ret a ∧ obs a = k ∧ view (p m).2.mem = t) ↔ A k t := by
  have hends := h m hm
  generalize p m = run at hends ⊢
  obtain ⟨outcome, m'⟩ := run
  cases outcome with
  | ret a =>
      constructor
      · rintro ⟨_, ⟨⟩, rfl, rfl⟩
        exact (hends _ _).mpr ⟨rfl, rfl⟩
      · intro hA
        obtain ⟨rfl, rfl⟩ := (hends k t).mp hA
        exact ⟨a, rfl, rfl, rfl⟩
  | error e => exact ⟨nofun, fun hA => absurd hA (hends k t)⟩
  | trap => exact ⟨nofun, fun hA => absurd hA (hends k t)⟩
  | lost => exact ⟨nofun, fun hA => absurd hA (hends k t)⟩

end rules

section loops

variable {view : σ → τ} {obs : α → κ} {out : β → ι} {B : κ → τ → κ ⊕ ι → τ → Prop}
  {A : κ → τ → ι → τ → Prop}

/-- A loop whose rounds shorten the text answers the solution of its equation. -/
theorem Answers.loop (size : τ → ℕ) {body : α → Proc σ ε (α ⊕ β)}
    (hbody : ∀ a s, Answers view (Sum.map obs out) (body a) s (B (obs a) (view s)))
    (hshrinks : ∀ {k t k₁ t₁}, B k t (.inl k₁) t₁ → size t₁ < size t)
    (hA : ∀ k t i t', A k t i t' ↔
      B k t (.inr i) t' ∨ ∃ k₁ t₁, B k t (.inl k₁) t₁ ∧ A k₁ t₁ i t')
    (n : ℕ) (a : α) (s : σ) (hn : size (view s) < n) :
    Answers view out (loop body n a) s (A (obs a) (view s)) := by
  induction n generalizing a s with
  | zero => omega
  | succ n ih =>
      refine Answers.bind (Leaves.conseq (hbody a s) (fun _ _ => id) ?_ ?_) fun r s' hret => ?_
      · rintro _ _ hno i t hAt
        rcases (hA _ _ _ _).mp hAt with hB | ⟨_, _, hB, -⟩
        · exact hno _ _ hB
        · exact hno _ _ hB
      · rintro _ hno i t hAt
        rcases (hA _ _ _ _).mp hAt with hB | ⟨_, _, hB, -⟩
        · exact hno _ _ hB
        · exact hno _ _ hB
      · cases r with
        | inl a' =>
            have hround : B (obs a) (view s) (.inl (obs a')) (view s') := (hret _ _).mpr ⟨rfl, rfl⟩
            have hsize := hshrinks hround
            refine (ih a' s' (by omega)).congr fun i t => ?_
            rw [hA]
            refine ⟨?_, fun h => .inr ⟨_, _, hround, h⟩⟩
            rintro (hB | ⟨k₁, t₁, hB, hrest⟩)
            · cases ((hret _ _).mp hB).1
            · obtain ⟨hk, rfl⟩ := (hret _ _).mp hB
              cases hk
              exact hrest
        | inr b =>
            refine Answers.pure fun i t => ?_
            rw [hA]
            constructor
            · rintro (hB | ⟨k₁, t₁, hB, -⟩)
              · obtain ⟨hi, rfl⟩ := (hret _ _).mp hB
                cases hi
                exact ⟨rfl, rfl⟩
              · cases ((hret _ _).mp hB).1
            · rintro ⟨rfl, rfl⟩
              exact .inl ((hret _ _).mpr ⟨rfl, rfl⟩)

end loops

end IbexFirmware.Recognizer
