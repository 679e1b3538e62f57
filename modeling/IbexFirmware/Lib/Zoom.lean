/-
Programs on a part of a memory.

A program over a small memory runs on a part of a larger one (`zoom`), and what it does
there is what it does on the part (`Does.zoom`). `Does.guarded` joins the two
ways to speak about a program: what it does unless an operation fails, and what it keeps
however it ends.
-/
import IbexFirmware.Lib.Does
import IbexFirmware.Lib.Session

set_option autoImplicit false

namespace IbexFirmware.PowerFail

open Session

variable {σ τ ε α β : Type}

/-- A part of a memory that can be read and replaced. -/
structure Part (τ σ : Type) where
  get : τ → σ
  put : σ → τ → τ

variable (part : Part τ σ)

def zoom (p : Proc σ ε α) : Proc τ ε α := fun m =>
  let run := p ⟨part.get m.mem, m.fate, m.steps⟩
  (run.1, ⟨part.put run.2.mem m.mem, run.2.fate, run.2.steps⟩)

section rules

variable {part} {t : τ} {F : Fate → Prop} {Q : α → τ → Prop} {E : ε → τ → Prop} {L : τ → Prop}

theorem Spec.zoom {p : Proc σ ε α} (h : Spec F p (part.get t) (fun a s => Q a (part.put s t))
    (fun e s => E e (part.put s t)) fun s => L (part.put s t)) :
    Spec F (zoom part p) t Q E L := by
  rintro m rfl hF
  obtain ⟨hmeets, hF'⟩ := h ⟨part.get m.mem, m.fate, m.steps⟩ rfl hF
  refine ⟨?_, hF'⟩
  unfold PowerFail.zoom
  generalize p ⟨part.get m.mem, m.fate, m.steps⟩ = run at hmeets
  obtain ⟨outcome, m'⟩ := run
  cases outcome with
  | ret a => exact hmeets
  | error e => exact hmeets
  | trap => exact hmeets
  | lost => exact hmeets

theorem Does.zoom {p : Proc σ ε α} (h : Does p (part.get t) fun a s => Q a (part.put s t)) :
    Does (zoom part p) t Q :=
  fun F => Spec.zoom (h F)

end rules

/-! ## Guarded programs -/

/-- A program that does what it is for, unless an operation fails, and leaves `I` if one
does. -/
def Guarded (p : Proc σ ε α) (s : σ) (Q : α → σ → Prop) (I : σ → Prop) : Prop :=
  ∀ F : Fate → Prop, Spec F p s Q (fun _ t => F .failed ∧ I t) fun _ => F .lost

section guarded

variable {s : σ} {Q : α → σ → Prop} {I : σ → Prop}

theorem Guarded.pure {a : α} (h : Q a s) : Guarded (pure a : Proc σ ε α) s Q I :=
  fun _ => Spec.pure h

theorem Guarded.get {f : σ → Proc σ ε α} (h : Guarded (f s) s Q I) :
    Guarded (Proc.get >>= f) s Q I :=
  fun F => Spec.get (h F)

theorem Guarded.bind {p : Proc σ ε β} {f : β → Proc σ ε α} {R : β → σ → Prop}
    (hp : Guarded p s R I) (hf : ∀ b t, R b t → Guarded (f b) t Q I) : Guarded (p >>= f) s Q I :=
  fun F => Spec.bind (hp F) fun b t ht => hf b t ht F

theorem Guarded.mono {p : Proc σ ε α} {Q' : α → σ → Prop} {I' : σ → Prop}
    (hp : Guarded p s Q' I') (hQ : ∀ a t, Q' a t → Q a t) (hI : ∀ t, I' t → I t) :
    Guarded p s Q I :=
  fun F => (hp F).conseq hQ (fun _ t h => ⟨h.1, hI t h.2⟩) fun _ => id

theorem Guarded.modify {g : σ → σ} {Q : Unit → σ → Prop} (h : Q () (g s)) :
    Guarded (Proc.modify g : Proc σ ε Unit) s Q I :=
  fun _ => Spec.modify h

theorem Guarded.modify_bind {g : σ → σ} {f : Unit → Proc σ ε α} (h : Guarded (f ()) (g s) Q I) :
    Guarded (Proc.modify g >>= f) s Q I := by
  refine Guarded.bind (R := fun _ t => t = g s) (fun _ => Spec.modify rfl) ?_
  rintro _ _ rfl
  exact h

theorem Guarded.step {e : ε} {g : σ → α × σ} (h : Q (g s).1 (g s).2) (hI : I s) :
    Guarded (Proc.step e g) s Q I :=
  fun _ => Spec.step h (fun hfailed => ⟨hfailed, hI⟩) id

theorem Guarded.step_bind {e : ε} {g : σ → β × σ} {f : β → Proc σ ε α}
    (h : Guarded (f (g s).1) (g s).2 Q I) (hI : I s) : Guarded (Proc.step e g >>= f) s Q I := by
  refine Guarded.bind (R := fun b t => b = (g s).1 ∧ t = (g s).2) (Guarded.step ⟨rfl, rfl⟩ hI) ?_
  rintro b t ⟨rfl, rfl⟩
  exact h

theorem Guarded.ofExcept_bind {r : Except ε β} {b : β} {f : β → Proc σ ε α} (hr : r = .ok b)
    (h : Guarded (f b) s Q I) : Guarded (Proc.ofExcept r >>= f) s Q I := by
  subst hr
  exact h

theorem Guarded.zoom {part : Part τ σ} {t : τ} {Q : α → τ → Prop} {I : τ → Prop}
    {p : Proc σ ε α} (h : Guarded p (part.get t) (fun a s => Q a (part.put s t))
      fun s => I (part.put s t)) : Guarded (zoom part p) t Q I :=
  fun F => Spec.zoom (h F)

theorem Guarded.does {p : Proc σ ε α} (h : Guarded p s Q I) : Does p s Q :=
  fun F => (h F).conseq (fun _ _ => id) (fun _ _ he => he.1) fun _ => id

/-- What a program does and what it keeps however it ends. -/
theorem Does.guarded {p : Proc σ ε α} (h : Does p s Q) (hI : Maintains I p) (hs : I s) :
    Guarded p s (fun a t => Q a t ∧ I t) I := by
  intro F m hm hF
  obtain ⟨hmeets, hF'⟩ := h F m hm hF
  have hends := hI s hs m hm
  refine ⟨?_, hF'⟩
  generalize p m = run at hmeets hends
  obtain ⟨outcome, m'⟩ := run
  cases outcome with
  | ret a => exact ⟨hmeets, hends⟩
  | error e => exact ⟨hmeets, hends⟩
  | trap => exact hmeets
  | lost => exact hmeets

/-- A program that reports an error, unless an operation is reported as failed before that,
and leaves `I` in either case. -/
def Refuses (p : Proc σ ε α) (s : σ) (I : σ → Prop) : Prop :=
  ∀ F : Fate → Prop, Spec F p s (fun _ _ => False) (fun _ => I) fun _ => F .lost

theorem Refuses.throw {e : ε} (h : I s) : Refuses (Proc.throw e : Proc σ ε α) s I :=
  fun _ => Spec.throw h

theorem Refuses.ite {c : Prop} [Decidable c] {p q : Proc σ ε α} (hp : c → Refuses p s I)
    (hq : ¬ c → Refuses q s I) : Refuses (if c then p else q) s I := by
  by_cases hc : c
  · rw [if_pos hc]
    exact hp hc
  · rw [if_neg hc]
    exact hq hc

theorem Refuses.get {f : σ → Proc σ ε α} (h : Refuses (f s) s I) :
    Refuses (Proc.get >>= f) s I :=
  fun F => Spec.get (h F)

theorem Refuses.ofExcept_bind {r : Except ε β} {e : ε} {f : β → Proc σ ε α} (hr : r = .error e)
    (h : I s) : Refuses (Proc.ofExcept r >>= f) s I := by
  subst hr
  exact fun _ => Spec.bind (R := fun _ _ => False) (Spec.ofExcept nofun fun _ _ => h) nofun

/-- A result that is an error refuses, and one that is not goes on. -/
theorem Refuses.ofExcept {r : Except ε β} {f : β → Proc σ ε α} (h : I s)
    (hf : ∀ b, r = .ok b → Refuses (f b) s I) : Refuses (Proc.ofExcept r >>= f) s I := by
  cases hr : r with
  | error e => exact Refuses.ofExcept_bind rfl h
  | ok b => exact hf b hr

/-- What is refused after something that has been done. -/
theorem Refuses.bind {p : Proc σ ε β} {f : β → Proc σ ε α} {R : β → σ → Prop}
    (hp : Guarded p s R I) (hf : ∀ b t, R b t → Refuses (f b) t I) : Refuses (p >>= f) s I :=
  fun F => Spec.bind ((hp F).conseq (fun _ _ => id) (fun _ _ h => h.2) fun _ => id)
    fun b t ht => hf b t ht F

theorem Refuses.step_bind {e : ε} {g : σ → β × σ} {f : β → Proc σ ε α} (hI : I s)
    (hf : Refuses (f (g s).1) (g s).2 I) : Refuses (Proc.step e g >>= f) s I := by
  refine Refuses.bind (R := fun b t => b = (g s).1 ∧ t = (g s).2) (Guarded.step ⟨rfl, rfl⟩ hI) ?_
  rintro b t ⟨rfl, rfl⟩
  exact hf

/-- What is refused first is refused as a whole. -/
theorem Refuses.bind_left {p : Proc σ ε β} {f : β → Proc σ ε α} (hp : Refuses p s I) :
    Refuses (p >>= f) s I :=
  fun F => Spec.bind (hp F) nofun

theorem Refuses.mono {p : Proc σ ε α} {I' : σ → Prop} (hp : Refuses p s I')
    (hI : ∀ t, I' t → I t) : Refuses p s I :=
  fun F => (hp F).conseq (fun _ _ => id) (fun _ => hI) fun _ => id

theorem Refuses.zoom {part : Part τ σ} {t : τ} {I : τ → Prop} {p : Proc σ ε α}
    (h : Refuses p (part.get t) fun s => I (part.put s t)) : Refuses (zoom part p) t I :=
  fun F => Spec.zoom (h F)

/-- A guarded program that keeps its power returns, or reports that something has failed. -/
theorem Guarded.run {p : Proc σ ε α} (hp : Guarded p s Q I) {m : Machine σ} (hm : m.mem = s)
    (hpower : m.Under (· ≠ .lost)) :
    (∃ a, (p m).1 = .ret a ∧ Q a (p m).2.mem) ∨ ∃ e, (p m).1 = .error e ∧ I (p m).2.mem := by
  obtain ⟨hmeets, -⟩ := hp _ m hm hpower
  generalize p m = run at hmeets
  obtain ⟨outcome, m'⟩ := run
  cases outcome with
  | ret a => exact Or.inl ⟨a, rfl, hmeets⟩
  | error e => exact Or.inr ⟨e, rfl, hmeets.2⟩
  | trap => exact hmeets.elim
  | lost => exact absurd rfl hmeets

theorem Refuses.run {p : Proc σ ε α} (hp : Refuses p s I) {m : Machine σ} (hm : m.mem = s)
    (hpower : m.Under (· ≠ .lost)) : ∃ e, (p m).1 = .error e ∧ I (p m).2.mem := by
  obtain ⟨hmeets, -⟩ := hp _ m hm hpower
  generalize p m = run at hmeets
  obtain ⟨outcome, m'⟩ := run
  cases outcome with
  | ret a => exact hmeets.elim
  | error e => exact ⟨e, rfl, hmeets⟩
  | trap => exact hmeets.elim
  | lost => exact absurd rfl hmeets

end guarded

end IbexFirmware.PowerFail
