/-
Programs that do what they are for unless an operation fails.

A driver that fails or loses power excuses a program, and nothing else does.
`Does p s Q` says three things of `p` started from memory `s`: if every operation is
carried out `p` returns (`Does.run`), whenever it returns `Q` holds (`Does.of_ret`), and it
never traps (`Does.ne_trap`). It is one `Spec` for every set of fates, so the rules are
those of `Spec`, and every proof serves the three at once.
-/
import IbexFirmware.Lib.PowerFail

set_option autoImplicit false

namespace IbexFirmware.PowerFail

variable {σ ε α β : Type}

/-- An error and a power loss are excused where the fates allow one. -/
def Does (p : Proc σ ε α) (s : σ) (Q : α → σ → Prop) : Prop :=
  ∀ F : Fate → Prop, Spec F p s Q (fun _ _ => F .failed) fun _ => F .lost

/-- What an attempt hands on: `Q` of its result, or that it failed because of `P`. -/
def Attempted (Q : α → σ → Prop) (P : Prop) : Except ε α → σ → Prop
  | .ok a, t => Q a t
  | .error _, _ => P

section rules

variable {s : σ} {Q : α → σ → Prop}

theorem Does.pure {a : α} (h : Q a s) : Does (pure a : Proc σ ε α) s Q := fun _ => Spec.pure h

theorem Does.get {f : σ → Proc σ ε α} (h : Does (f s) s Q) : Does (Proc.get >>= f) s Q :=
  fun F => Spec.get (h F)

theorem Does.modify {g : σ → σ} {Q : Unit → σ → Prop} (h : Q () (g s)) :
    Does (Proc.modify g : Proc σ ε Unit) s Q := fun _ => Spec.modify h

theorem Does.step {e : ε} {f : σ → α × σ} (h : Q (f s).1 (f s).2) : Does (Proc.step e f) s Q :=
  fun _ => Spec.step h id id

theorem Does.ofExcept {r : Except ε α} {a : α} (hr : r = .ok a) (h : Q a s) :
    Does (Proc.ofExcept r : Proc σ ε α) s Q := by
  subst hr
  exact Does.pure h

theorem Does.bind {p : Proc σ ε β} {f : β → Proc σ ε α} {R : β → σ → Prop} (hp : Does p s R)
    (hf : ∀ b t, R b t → Does (f b) t Q) : Does (p >>= f) s Q :=
  fun F => Spec.bind (hp F) fun b t ht => hf b t ht F

/-- A change in front of what is done after it. -/
theorem Does.modify_bind {g : σ → σ} {f : Unit → Proc σ ε α} (h : Does (f ()) (g s) Q) :
    Does (Proc.modify g >>= f) s Q := by
  refine Does.bind (R := fun _ t => t = g s) (Does.modify rfl) ?_
  rintro b t rfl
  exact h

/-- An operation in front of what is done after it. -/
theorem Does.step_bind {e : ε} {g : σ → β × σ} {f : β → Proc σ ε α}
    (h : Does (f (g s).1) (g s).2 Q) : Does (Proc.step e g >>= f) s Q := by
  refine Does.bind (R := fun b t => b = (g s).1 ∧ t = (g s).2) (Does.step ⟨rfl, rfl⟩) ?_
  rintro b t ⟨rfl, rfl⟩
  exact h

theorem Does.ofExcept_bind {r : Except ε β} {b : β} {f : β → Proc σ ε α} (hr : r = .ok b)
    (h : Does (f b) s Q) : Does (Proc.ofExcept r >>= f) s Q := by
  subst hr
  exact h

theorem Does.mono {p : Proc σ ε α} {Q' : α → σ → Prop} (hp : Does p s Q')
    (hQ : ∀ a t, Q' a t → Q a t) : Does p s Q :=
  fun F => (hp F).conseq hQ (fun _ _ => id) fun _ => id

/-- Two things that a program does. -/
theorem Does.and {p : Proc σ ε α} {Q' : α → σ → Prop} (hp : Does p s Q) (hp' : Does p s Q') :
    Does p s fun a t => Q a t ∧ Q' a t := by
  intro F m hm hF
  obtain ⟨hmeets, hF'⟩ := hp F m hm hF
  obtain ⟨hmeets', -⟩ := hp' F m hm hF
  refine ⟨?_, hF'⟩
  generalize p m = run at hmeets hmeets'
  obtain ⟨outcome, m'⟩ := run
  cases outcome with
  | ret a => exact ⟨hmeets, hmeets'⟩
  | error e => exact hmeets
  | trap => exact hmeets
  | lost => exact hmeets

end rules

section runs

variable {p : Proc σ ε α} {s : σ} {Q : α → σ → Prop} {m : Machine σ}

/-- If every operation is carried out the program returns. -/
theorem Does.run (hp : Does p s Q) (hm : m.mem = s) (hdone : m.Under (· = .done)) :
    ∃ a m', p m = (.ret a, m') ∧ Q a m'.mem ∧ m'.Under (· = .done) := by
  obtain ⟨hmeets, hF⟩ := hp _ m hm hdone
  rcases hrun : p m with ⟨outcome, m'⟩
  rw [hrun] at hmeets hF
  cases outcome with
  | ret a => exact ⟨a, m', rfl, hmeets, hF⟩
  | error e => cases hmeets
  | trap => exact hmeets.elim
  | lost => cases hmeets

/-- What holds when it returns, whatever became of the operations. -/
theorem Does.of_ret (hp : Does p s Q) (hm : m.mem = s) {a : α} {m' : Machine σ}
    (hrun : p m = (.ret a, m')) : Q a m'.mem := by
  obtain ⟨hmeets, -⟩ := hp (fun _ => True) m hm fun _ => trivial
  rw [hrun] at hmeets
  exact hmeets

theorem Does.ne_trap (hp : Does p s Q) (hm : m.mem = s) : (p m).1 ≠ .trap := by
  obtain ⟨hmeets, -⟩ := hp (fun _ => True) m hm fun _ => trivial
  intro htrap
  rw [htrap] at hmeets
  exact hmeets

/-- A machine on which every operation is carried out. -/
def Machine.sound (s : σ) : Machine σ := Machine.on s fun _ => .done

theorem Machine.sound_mem (s : σ) : (Machine.sound s).mem = s := rfl

theorem Machine.sound_under (s : σ) : (Machine.sound s).Under (· = .done) := fun _ => rfl

/-- Two things that a program does are seen in one run of it. -/
theorem Does.exists_and {Q' : α → σ → Prop} (hp : Does p s Q) (hp' : Does p s Q') :
    ∃ a t, Q a t ∧ Q' a t := by
  obtain ⟨a, m', -, hboth, -⟩ := (hp.and hp').run rfl (Machine.sound_under s)
  exact ⟨a, m'.mem, hboth⟩

end runs

/-! ## Cleaning up -/

/-- Run `p`, and where it fails run `w` as well. The error is that of `p`, whatever becomes of `w`. -/
def Proc.cleanup (p : Proc σ ε α) (w : Proc σ ε Unit) : Proc σ ε α := do
  match ← Proc.attempt p with
  | .ok a => pure a
  | .error e => do
      let _ ← Proc.attempt w
      Proc.throw e

theorem Does.cleanup {p : Proc σ ε α} {w : Proc σ ε Unit} {s : σ} {Q : α → σ → Prop}
    (hp : Does p s Q) (hw : ∀ t, Does w t fun _ _ => True) : Does (p.cleanup w) s Q := by
  intro F
  refine Spec.bind (R := Attempted Q (F .failed)) (Spec.attempt (hp F)) fun r t hr => ?_
  cases r with
  | ok a => exact Spec.pure hr
  | error e =>
      refine Spec.bind (R := fun _ _ => F .failed) (Spec.attempt ?_) fun _ _ hF => Spec.throw hF
      exact (hw t F).conseq (fun _ _ _ => hr) (fun _ _ hF => hF) fun _ hF => hF

/-! ## Programs that leave things alone -/

section leaving

variable {R : σ → σ → Prop} {s : σ} {Q : α → σ → Prop}

theorem Within.attempt {p : Proc σ ε α} (hp : Within R p) : Within R (Proc.attempt p) :=
  fun F s => Spec.attempt (hp F s)

theorem Within.cleanup [IsPreorder σ R] {p : Proc σ ε α} {w : Proc σ ε Unit} (hp : Within R p)
    (hw : Within R w) : Within R (p.cleanup w) := by
  refine Within.bind hp.attempt fun r => ?_
  cases r with
  | ok a => exact Within.pure a
  | error e => exact Within.bind hw.attempt fun _ => Within.throw e

/-- What a program does, and what it leaves alone however it ends. -/
theorem Does.within {p : Proc σ ε α} (hp : Does p s Q) (hR : Within R p) (F : Fate → Prop) :
    Spec F p s (fun a t => Q a t ∧ R s t) (fun _ t => F .failed ∧ R s t)
      fun t => F .lost ∧ R s t := by
  intro m hm hF
  obtain ⟨hmeets, hF'⟩ := hp F m hm hF
  obtain ⟨hmeets', -⟩ := hR F s m hm hF
  refine ⟨?_, hF'⟩
  generalize p m = run at hmeets hmeets'
  obtain ⟨outcome, m'⟩ := run
  cases outcome with
  | ret a => exact ⟨hmeets, hmeets'⟩
  | error e => exact ⟨hmeets, hmeets'⟩
  | trap => exact hmeets
  | lost => exact ⟨hmeets, hmeets'⟩

end leaving

/-! ## Programs that trap -/

/-- A check of the program itself fails, although every operation is carried out. -/
def Traps (p : Proc σ ε α) (s : σ) : Prop :=
  ∀ m : Machine σ, m.mem = s → m.Under (· = .done) → (p m).1 = .trap

section traps

variable {s : σ}

theorem Traps.trap : Traps (Proc.trap : Proc σ ε α) s := fun _ _ _ => rfl

theorem Traps.get {f : σ → Proc σ ε α} (h : Traps (f s) s) : Traps (Proc.get >>= f) s := by
  intro m hm hdone
  subst hm
  rw [Proc.get_bind]
  exact h m rfl hdone

/-- A check that fails after what has been done before it. -/
theorem Traps.bind {p : Proc σ ε β} {f : β → Proc σ ε α} {R : β → σ → Prop} (hp : Does p s R)
    (hf : ∀ b t, R b t → Traps (f b) t) : Traps (p >>= f) s := by
  intro m hm hdone
  obtain ⟨b, m', hrun, hR, hdone'⟩ := hp.run hm hdone
  rw [Proc.bind_of_ret hrun]
  exact hf b m'.mem hR m' rfl hdone'

/-- A program that traps does nothing it could be for. -/
theorem Traps.not_does {p : Proc σ ε α} {Q : α → σ → Prop} (h : Traps p s) : ¬ Does p s Q :=
  fun hp => hp.ne_trap rfl (h (Machine.sound s) rfl (Machine.sound_under s))

end traps

/-! ## Programs that are computations -/

/-- The program neither looks at the machine nor changes it. -/
def Steady (p : Proc σ ε α) : Prop := ∃ o : Outcome ε α, ∀ m : Machine σ, p m = (o, m)

theorem Steady.pure (a : α) : Steady (pure a : Proc σ ε α) := ⟨.ret a, fun _ => rfl⟩

theorem Steady.trap : Steady (Proc.trap : Proc σ ε α) := ⟨.trap, fun _ => rfl⟩

theorem Steady.bind {p : Proc σ ε β} {f : β → Proc σ ε α} (hp : Steady p)
    (hf : ∀ b, Steady (f b)) : Steady (p >>= f) := by
  obtain ⟨o, ho⟩ := hp
  cases o with
  | ret b =>
      obtain ⟨o', ho'⟩ := hf b
      exact ⟨o', fun m => (Proc.bind_of_ret (ho m)).trans (ho' m)⟩
  | error e => exact ⟨.error e, fun m => Proc.bind_of_error (ho m)⟩
  | trap => exact ⟨.trap, fun m => Proc.bind_of_trap (ho m)⟩
  | lost => exact ⟨.lost, fun m => Proc.bind_of_lost (ho m)⟩

/-- A computation that does what it is for has a result. -/
theorem Steady.eq_pure {p : Proc σ ε α} {s : σ} {Q : α → σ → Prop} (hp : Steady p)
    (h : Does p s Q) : ∃ a, p = Pure.pure a ∧ Q a s := by
  obtain ⟨o, ho⟩ := hp
  obtain ⟨a, m', hrun, hQ, -⟩ := h.run rfl (Machine.sound_under s)
  obtain ⟨rfl, rfl⟩ := Prod.mk.inj ((ho _).symm.trans hrun)
  exact ⟨a, funext ho, hQ⟩

end IbexFirmware.PowerFail
