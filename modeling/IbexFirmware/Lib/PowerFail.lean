/-
Programs over a memory that outlives a power loss.

A `Proc` runs on a machine: the persistent memory, and for each of its memory
operations a fate. An operation is carried out, or is reported as failed without
having had an effect, or the power goes before it. A program therefore ends in one
of four ways: it returns, it returns an error code early, it traps, or the power is
lost and what remains is the memory.

`Spec F p s Q E L` says what is left in each case when `p` starts from memory `s` on
a machine whose fates all satisfy `F`: `Q` after a return, `E` after an error, `L`
after a power loss, and that `p` never traps. `F` is what makes one specification
serve twice. With every fate allowed it is a crash specification; with `F` only
`done` the rules leave nothing to prove for the last two, and the same proof says
that the program succeeds.

The last part is a register built on such a memory. `Register.Run` is its
specification, in which an interrupted write either has happened or has not, and
`Register.sessions_refine` reduces it to what one write preserves.
-/
import Mathlib.Tactic

set_option autoImplicit false

namespace IbexFirmware.PowerFail

variable {σ ε α β V : Type}

/-! ## Machines and programs -/

/-- What becomes of one memory operation. -/
inductive Fate where
  | done
  | failed
  | lost
  deriving DecidableEq

/-- A memory, the fate of each operation since power-on, and how many there were. -/
structure Machine (σ : Type) where
  mem : σ
  fate : ℕ → Fate
  steps : ℕ

/-- A machine that has just been switched on over the memory `s`. -/
def Machine.on (s : σ) (fate : ℕ → Fate) : Machine σ := ⟨s, fate, 0⟩

/-- All fates still to come satisfy `F`. -/
def Machine.Under (F : Fate → Prop) (m : Machine σ) : Prop := ∀ n, F (m.fate n)

inductive Outcome (ε α : Type) where
  | ret (a : α)
  | error (e : ε)
  | trap
  | lost
  deriving DecidableEq

def Outcome.ofExcept : Except ε α → Outcome ε α
  | .ok a => .ret a
  | .error e => .error e

def Outcome.map (f : α → β) : Outcome ε α → Outcome ε β
  | .ret a => .ret (f a)
  | .error e => .error e
  | .trap => .trap
  | .lost => .lost

def Proc (σ ε α : Type) : Type := Machine σ → Outcome ε α × Machine σ

namespace Proc

protected def pure (a : α) : Proc σ ε α := fun m => (.ret a, m)

protected def bind (p : Proc σ ε α) (f : α → Proc σ ε β) : Proc σ ε β := fun m =>
  match p m with
  | (.ret a, m') => f a m'
  | (.error e, m') => (.error e, m')
  | (.trap, m') => (.trap, m')
  | (.lost, m') => (.lost, m')

instance : Monad (Proc σ ε) where
  pure := Proc.pure
  bind := Proc.bind

/-- Return early with an error code. -/
def throw (e : ε) : Proc σ ε α := fun m => (.error e, m)

/-- The result of a computation that touches no memory. -/
def ofExcept (r : Except ε α) : Proc σ ε α := fun m => (.ofExcept r, m)

/-- Stop the processor. -/
def trap : Proc σ ε α := fun m => (.trap, m)

/-- The memory, without an operation on it. -/
def get : Proc σ ε σ := fun m => (.ret m.mem, m)

/-- A change that cannot fail and is not interrupted. -/
def modify (f : σ → σ) : Proc σ ε Unit := fun m => (.ret (), { m with mem := f m.mem })

/-- One operation on the memory, `e` being the code of its failure. -/
def step (e : ε) (f : σ → α × σ) : Proc σ ε α := fun m =>
  match m.fate m.steps with
  | .done => (.ret (f m.mem).1, { m with mem := (f m.mem).2, steps := m.steps + 1 })
  | .failed => (.error e, { m with steps := m.steps + 1 })
  | .lost => (.lost, m)

/-- Run `p` and hand its error code to the caller as a value. -/
def attempt (p : Proc σ ε α) : Proc σ ε (Except ε α) := fun m =>
  match p m with
  | (.ret a, m') => (.ret (.ok a), m')
  | (.error e, m') => (.ret (.error e), m')
  | (.trap, m') => (.trap, m')
  | (.lost, m') => (.lost, m')

theorem bind_run (p : Proc σ ε α) (f : α → Proc σ ε β) (m : Machine σ) :
    (p >>= f) m = match p m with
      | (.ret a, m') => f a m'
      | (.error e, m') => (.error e, m')
      | (.trap, m') => (.trap, m')
      | (.lost, m') => (.lost, m') :=
  rfl

theorem modify_bind (g : σ → σ) (f : Unit → Proc σ ε β) (m : Machine σ) :
    (modify g >>= f) m = f () { m with mem := g m.mem } :=
  rfl

theorem get_bind (f : σ → Proc σ ε β) (m : Machine σ) : (get >>= f) m = f m.mem m := rfl

/-- A sequence returns when both parts do. -/
theorem bind_eq_ret {p : Proc σ ε α} {f : α → Proc σ ε β} {m m' : Machine σ} {b : β}
    (h : (p >>= f) m = (.ret b, m')) : ∃ a m1, p m = (.ret a, m1) ∧ f a m1 = (.ret b, m') := by
  rw [bind_run] at h
  rcases hrun : p m with ⟨outcome, m1⟩
  rw [hrun] at h
  cases outcome with
  | ret a => exact ⟨a, m1, rfl, h⟩
  | error e => cases h
  | trap => cases h
  | lost => cases h

/-! The run of a sequence, of an operation and of an attempt, by how its first part ends. -/

section ends

variable {p : Proc σ ε α} {f : α → Proc σ ε β} {m m' : Machine σ}

theorem bind_of_ret {a : α} (h : p m = (.ret a, m')) : (p >>= f) m = f a m' := by
  rw [bind_run, h]

theorem bind_of_error {e : ε} (h : p m = (.error e, m')) : (p >>= f) m = (.error e, m') := by
  rw [bind_run, h]

theorem bind_of_trap (h : p m = (.trap, m')) : (p >>= f) m = (.trap, m') := by
  rw [bind_run, h]

theorem bind_of_lost (h : p m = (.lost, m')) : (p >>= f) m = (.lost, m') := by
  rw [bind_run, h]

theorem step_of_done {e : ε} {g : σ → α × σ} (h : m.fate m.steps = .done) :
    step e g m = (.ret (g m.mem).1, { m with mem := (g m.mem).2, steps := m.steps + 1 }) := by
  unfold step
  rw [h]

theorem step_of_failed {e : ε} {g : σ → α × σ} (h : m.fate m.steps = .failed) :
    step e g m = (.error e, { m with steps := m.steps + 1 }) := by
  unfold step
  rw [h]

theorem step_of_lost {e : ε} {g : σ → α × σ} (h : m.fate m.steps = .lost) :
    step e g m = (.lost, m) := by
  unfold step
  rw [h]

theorem attempt_congr {q : Proc σ ε α} (h : p m = q m') : attempt p m = attempt q m' := by
  unfold attempt
  rw [h]

theorem attempt_of_ret {a : α} (h : p m = (.ret a, m')) : attempt p m = (.ret (.ok a), m') := by
  unfold attempt
  rw [h]

theorem attempt_of_error {e : ε} (h : p m = (.error e, m')) :
    attempt p m = (.ret (.error e), m') := by
  unfold attempt
  rw [h]

theorem attempt_of_trap (h : p m = (.trap, m')) : attempt p m = (.trap, m') := by
  unfold attempt
  rw [h]

theorem attempt_of_lost (h : p m = (.lost, m')) : attempt p m = (.lost, m') := by
  unfold attempt
  rw [h]

end ends

/-! ### Programs that only look -/

/-- The machine is afterwards what it was, and still running. -/
def Keeps (p : Proc σ ε α) : Prop := ∀ m, (p m).2 = m ∧ (p m).1 ≠ .lost

theorem Keeps.pure (a : α) : Keeps (pure a : Proc σ ε α) := fun _ => ⟨rfl, nofun⟩

theorem Keeps.throw (e : ε) : Keeps (throw e : Proc σ ε α) := fun _ => ⟨rfl, nofun⟩

theorem Keeps.trap : Keeps (trap : Proc σ ε α) := fun _ => ⟨rfl, nofun⟩

theorem Keeps.ofExcept (r : Except ε α) : Keeps (ofExcept r : Proc σ ε α) := by
  intro m
  cases r with
  | ok a => exact ⟨rfl, nofun⟩
  | error e => exact ⟨rfl, nofun⟩

theorem Keeps.get : Keeps (get : Proc σ ε σ) := fun _ => ⟨rfl, nofun⟩

/-- What only looks adds nothing to the machine in front of it. -/
theorem bind_snd (p : Proc σ ε α) {f : α → Proc σ ε β} (hf : ∀ a, Keeps (f a)) (m : Machine σ) :
    ((p >>= f) m).2 = (p m).2 := by
  rw [bind_run]
  rcases p m with ⟨outcome, m'⟩
  cases outcome with
  | ret a => exact (hf a m').1
  | error e => rfl
  | trap => rfl
  | lost => rfl

/-- Nor does it lose the power. -/
theorem bind_lost_iff (p : Proc σ ε α) {f : α → Proc σ ε β} (hf : ∀ a, Keeps (f a))
    (m : Machine σ) : ((p >>= f) m).1 = .lost ↔ (p m).1 = .lost := by
  rw [bind_run]
  rcases p m with ⟨outcome, m'⟩
  cases outcome with
  | ret a => exact iff_of_false (hf a m').2 nofun
  | error e => exact iff_of_false nofun nofun
  | trap => exact iff_of_false nofun nofun
  | lost => exact iff_of_true rfl rfl

theorem Keeps.bind {p : Proc σ ε α} {f : α → Proc σ ε β} (hp : Keeps p) (hf : ∀ a, Keeps (f a)) :
    Keeps (p >>= f) :=
  fun m => ⟨(bind_snd p hf m).trans (hp m).1, fun h => (hp m).2 ((bind_lost_iff p hf m).mp h)⟩

/-! ### Checks -/

/-- On `m` the program decides `P`: it returns if `P` holds and reports an error if not,
and changes nothing. -/
def Checks (P : Prop) (p : Proc σ ε Unit) (m : Machine σ) : Prop :=
  (P → p m = (.ret (), m)) ∧ (¬ P → ∃ e, p m = (.error e, m))

theorem Checks.pure (m : Machine σ) : Checks True (pure () : Proc σ ε Unit) m :=
  ⟨fun _ => rfl, fun h => absurd trivial h⟩

theorem Checks.congr {P Q : Prop} {p : Proc σ ε Unit} {m : Machine σ} (h : Checks P p m)
    (hiff : P ↔ Q) : Checks Q p m :=
  propext hiff ▸ h

/-- A guard in front of a check. -/
theorem Checks.guard {c P : Prop} [Decidable c] {e : ε} {p : Proc σ ε Unit} {m : Machine σ}
    (h : Checks P p m) : Checks (¬ c ∧ P) (if c then throw e else p) m := by
  by_cases hc : c
  · rw [if_pos hc]
    exact ⟨fun hp => absurd hc hp.1, fun _ => ⟨e, rfl⟩⟩
  · rw [if_neg hc]
    exact ⟨fun hp => h.1 hp.2, fun hp => h.2 fun hP => hp ⟨hc, hP⟩⟩

theorem Checks.bind {P Q : Prop} {p q : Proc σ ε Unit} {m : Machine σ} (hp : Checks P p m)
    (hq : Checks Q q m) : Checks (P ∧ Q) (p >>= fun _ => q) m := by
  by_cases hP : P
  · have hrun : (p >>= fun _ => q) m = q m := by rw [bind_run, hp.1 hP]
    rw [and_iff_right hP]
    unfold Checks
    rw [hrun]
    exact hq
  · refine ⟨fun h => absurd h.1 hP, fun _ => ?_⟩
    obtain ⟨e, he⟩ := hp.2 hP
    exact ⟨e, by rw [bind_run, he]⟩

/-! ### Counting operations -/

/-- The program returns exactly if its next `n` operations are carried out. -/
def Takes (n : ℕ) (p : Proc σ ε α) : Prop :=
  ∀ m, ((∃ a, (p m).1 = .ret a) ↔ ∀ i < n, m.fate (m.steps + i) = .done) ∧
    ∀ a m', p m = (.ret a, m') → m'.fate = m.fate ∧ m'.steps = m.steps + n

theorem Takes.pure (a : α) : Takes 0 (pure a : Proc σ ε α) := by
  refine fun m => ⟨iff_of_true ⟨a, rfl⟩ fun i hi => absurd hi (Nat.not_lt_zero i), ?_⟩
  rintro _ _ ⟨⟩
  exact ⟨rfl, rfl⟩

theorem Takes.modify (g : σ → σ) : Takes 0 (modify g : Proc σ ε Unit) := by
  refine fun m => ⟨iff_of_true ⟨(), rfl⟩ fun i hi => absurd hi (Nat.not_lt_zero i), ?_⟩
  rintro _ _ ⟨⟩
  exact ⟨rfl, rfl⟩

theorem Takes.step (e : ε) (f : σ → α × σ) : Takes 1 (step e f) := by
  intro m
  have hone : (∀ i < 1, m.fate (m.steps + i) = .done) ↔ m.fate m.steps = .done :=
    ⟨fun h => h 0 Nat.one_pos, fun h i hi => by rwa [Nat.lt_one_iff.mp hi]⟩
  rw [hone]
  unfold Proc.step
  cases m.fate m.steps with
  | done =>
      refine ⟨iff_of_true ⟨_, rfl⟩ rfl, ?_⟩
      rintro _ _ ⟨⟩
      exact ⟨rfl, rfl⟩
  | failed => exact ⟨iff_of_false nofun nofun, nofun⟩
  | lost => exact ⟨iff_of_false nofun nofun, nofun⟩

/-- Operations add up, and a machine that stops in the first part never gets to the second. -/
theorem Takes.bind {j k : ℕ} {p : Proc σ ε α} {f : α → Proc σ ε β} (hp : Takes j p)
    (hf : ∀ a, Takes k (f a)) : Takes (j + k) (p >>= f) := by
  intro m
  rw [bind_run]
  obtain ⟨hreturns, hafter⟩ := hp m
  rcases hrun : p m with ⟨outcome, m1⟩
  rw [hrun] at hreturns
  have hstop : (∀ a, outcome ≠ .ret a) → ¬ ∀ i < j + k, m.fate (m.steps + i) = .done := by
    intro hno hall
    obtain ⟨a, ha⟩ := hreturns.mpr fun i hi => hall i (by omega)
    exact hno a ha
  cases outcome with
  | error e => exact ⟨iff_of_false nofun (hstop nofun), nofun⟩
  | trap => exact ⟨iff_of_false nofun (hstop nofun), nofun⟩
  | lost => exact ⟨iff_of_false nofun (hstop nofun), nofun⟩
  | ret a =>
      obtain ⟨hfate, hsteps⟩ := hafter a m1 hrun
      have hfirst := hreturns.mp ⟨a, rfl⟩
      obtain ⟨hreturns', hafter'⟩ := hf a m1
      refine ⟨hreturns'.trans ⟨fun h i hi => ?_, fun h i hi => ?_⟩, fun b m2 hb => ?_⟩
      · by_cases hij : i < j
        · exact hfirst i hij
        · have hlate := h (i - j) (by omega)
          rwa [hfate, hsteps, show m.steps + j + (i - j) = m.steps + i by omega] at hlate
      · rw [hfate, hsteps, Nat.add_assoc]
        exact h (j + i) (by omega)
      · obtain ⟨hfate', hsteps'⟩ := hafter' b m2 hb
        exact ⟨hfate'.trans hfate, by omega⟩

end Proc

/-- Every operation before the `n`th is carried out, and there the power goes. -/
def lostAt (n k : ℕ) : Fate := if k < n then .done else .lost

/-! ## Specifications -/

/-- What holds of an outcome and the memory it leaves. -/
def Outcome.Meets (Q : α → σ → Prop) (E : ε → σ → Prop) (L : σ → Prop) :
    Outcome ε α → σ → Prop
  | .ret a, s => Q a s
  | .error e, s => E e s
  | .trap, _ => False
  | .lost, s => L s

def Spec (F : Fate → Prop) (p : Proc σ ε α) (s : σ)
    (Q : α → σ → Prop) (E : ε → σ → Prop) (L : σ → Prop) : Prop :=
  ∀ m : Machine σ, m.mem = s → m.Under F →
    (p m).1.Meets Q E L (p m).2.mem ∧ (p m).2.Under F

section rules

variable {F : Fate → Prop} {s : σ} {Q : α → σ → Prop} {E : ε → σ → Prop} {L : σ → Prop}

theorem Spec.pure {a : α} (h : Q a s) : Spec F (pure a : Proc σ ε α) s Q E L := by
  rintro m rfl hF
  exact ⟨h, hF⟩

theorem Spec.throw {e : ε} (h : E e s) : Spec F (Proc.throw e : Proc σ ε α) s Q E L := by
  rintro m rfl hF
  exact ⟨h, hF⟩

theorem Spec.ofExcept {r : Except ε α} (hok : ∀ a, r = .ok a → Q a s)
    (herror : ∀ e, r = .error e → E e s) : Spec F (Proc.ofExcept r : Proc σ ε α) s Q E L := by
  rintro m rfl hF
  cases r with
  | ok a => exact ⟨hok a rfl, hF⟩
  | error e => exact ⟨herror e rfl, hF⟩

/-- A test on the memory is decided where the program starts. -/
theorem Spec.get {f : σ → Proc σ ε α} (h : Spec F (f s) s Q E L) :
    Spec F (Proc.get >>= f) s Q E L := by
  rintro m rfl hF
  exact h m rfl hF

theorem Spec.modify {g : σ → σ} {Q : Unit → σ → Prop} (h : Q () (g s)) :
    Spec F (Proc.modify g : Proc σ ε Unit) s Q E L := by
  rintro m rfl hF
  exact ⟨h, hF⟩

theorem Spec.attempt {p : Proc σ ε β} {Q : Except ε β → σ → Prop}
    (hp : Spec F p s (fun b => Q (.ok b)) (fun e => Q (.error e)) L) :
    Spec F (Proc.attempt p) s Q E L := by
  intro m hm hF
  obtain ⟨hmeets, hF'⟩ := hp m hm hF
  unfold Proc.attempt
  rcases hrun : p m with ⟨outcome, m'⟩
  rw [hrun] at hmeets hF'
  cases outcome with
  | ret b => exact ⟨hmeets, hF'⟩
  | error e => exact ⟨hmeets, hF'⟩
  | trap => exact ⟨hmeets, hF'⟩
  | lost => exact ⟨hmeets, hF'⟩

theorem Spec.bind {p : Proc σ ε β} {f : β → Proc σ ε α} {R : β → σ → Prop}
    (hp : Spec F p s R E L) (hf : ∀ b s', R b s' → Spec F (f b) s' Q E L) :
    Spec F (p >>= f) s Q E L := by
  intro m hm hF
  obtain ⟨hmeets, hF'⟩ := hp m hm hF
  show (Proc.bind p f m).1.Meets Q E L (Proc.bind p f m).2.mem ∧ (Proc.bind p f m).2.Under F
  unfold Proc.bind
  rcases hrun : p m with ⟨outcome, m'⟩
  rw [hrun] at hmeets hF'
  cases outcome with
  | ret b => exact hf b m'.mem hmeets m' rfl hF'
  | error e => exact ⟨hmeets, hF'⟩
  | trap => exact ⟨hmeets, hF'⟩
  | lost => exact ⟨hmeets, hF'⟩

/-- The rule of the memory operations: the effect if it is carried out, the memory as
it was if it is not. -/
theorem Spec.step {e : ε} {f : σ → α × σ} (hdone : Q (f s).1 (f s).2)
    (hfailed : F .failed → E e s) (hlost : F .lost → L s) :
    Spec F (Proc.step e f) s Q E L := by
  rintro m rfl hF
  unfold Proc.step
  have hfate := hF m.steps
  cases hcase : m.fate m.steps with
  | done => exact ⟨hdone, hF⟩
  | failed => exact ⟨hfailed (hcase ▸ hfate), hF⟩
  | lost => exact ⟨hlost (hcase ▸ hfate), hF⟩

theorem Spec.conseq {p : Proc σ ε α} {Q' : α → σ → Prop} {E' : ε → σ → Prop} {L' : σ → Prop}
    (hp : Spec F p s Q' E' L') (hQ : ∀ a s', Q' a s' → Q a s') (hE : ∀ e s', E' e s' → E e s')
    (hL : ∀ s', L' s' → L s') : Spec F p s Q E L := by
  intro m hm hF
  obtain ⟨hmeets, hF'⟩ := hp m hm hF
  refine ⟨?_, hF'⟩
  generalize p m = run at hmeets
  obtain ⟨outcome, m'⟩ := run
  cases outcome with
  | ret a => exact hQ a _ hmeets
  | error e => exact hE e _ hmeets
  | trap => exact hmeets.elim
  | lost => exact hL _ hmeets

/-- What all endings have in common. -/
theorem Spec.mem {p : Proc σ ε α} {P : σ → Prop} (hp : Spec F p s Q E L)
    (hQ : ∀ a s', Q a s' → P s') (hE : ∀ e s', E e s' → P s') (hL : ∀ s', L s' → P s')
    {m : Machine σ} (hm : m.mem = s) (hF : m.Under F) : P (p m).2.mem := by
  obtain ⟨hmeets, -⟩ := hp m hm hF
  cases hrun : (p m).1 with
  | ret a => exact hQ a _ (by rwa [hrun] at hmeets)
  | error e => exact hE e _ (by rwa [hrun] at hmeets)
  | trap => exact False.elim (by rwa [hrun] at hmeets)
  | lost => exact hL _ (by rwa [hrun] at hmeets)

end rules

/-! ## Programs that stay within a relation -/

/-- Whatever becomes of its operations, `p` takes the memory along `R` and does not trap. -/
def Within (R : σ → σ → Prop) (p : Proc σ ε α) : Prop :=
  ∀ F s, Spec F p s (fun _ => R s) (fun _ => R s) (R s)

section within

variable {R : σ → σ → Prop} [IsPreorder σ R]

theorem Within.pure (a : α) : Within R (pure a : Proc σ ε α) :=
  fun _ s => Spec.pure (refl_of R s)

theorem Within.throw (e : ε) : Within R (Proc.throw e : Proc σ ε α) :=
  fun _ s => Spec.throw (refl_of R s)

theorem Within.ofExcept (r : Except ε α) : Within R (Proc.ofExcept r : Proc σ ε α) :=
  fun _ s => Spec.ofExcept (fun _ _ => refl_of R s) fun _ _ => refl_of R s

omit [IsPreorder σ R] in
theorem Within.get {f : σ → Proc σ ε α} (hf : ∀ s, Within R (f s)) :
    Within R (Proc.get >>= f) :=
  fun F s => Spec.get (hf s F s)

omit [IsPreorder σ R] in
theorem Within.modify {g : σ → σ} (hg : ∀ s, R s (g s)) :
    Within R (Proc.modify g : Proc σ ε Unit) :=
  fun _ s => Spec.modify (hg s)

theorem Within.step {e : ε} {f : σ → α × σ} (hf : ∀ s, R s (f s).2) :
    Within R (Proc.step e f) :=
  fun _ s => Spec.step (hf s) (fun _ => refl_of R s) fun _ => refl_of R s

theorem Within.bind {p : Proc σ ε α} {f : α → Proc σ ε β} (hp : Within R p)
    (hf : ∀ a, Within R (f a)) : Within R (p >>= f) :=
  fun F s => (hp F s).bind fun a t hst =>
    (hf a F t).conseq (fun _ _ => trans_of R hst) (fun _ _ => trans_of R hst)
      fun _ => trans_of R hst

end within

/-! ## A crash-atomic register -/

namespace Register

/-- What the writer sees of one write: it returned, or it did not. -/
inductive Event (V : Type) where
  | wrote (v : V)
  | interrupted (v : V)
  | trapped (v : V)
  deriving DecidableEq

/-- One write to the register. A write that does not return has taken effect or has
not, and nothing else; there is no step for a trap. -/
inductive Step : Option V → Event V → Option V → Prop
  | wrote (old : Option V) (v : V) : Step old (.wrote v) (some v)
  | kept (old : Option V) (v : V) : Step old (.interrupted v) old
  | replaced (old : Option V) (v : V) : Step old (.interrupted v) (some v)

inductive Run : Option V → List (Event V) → Option V → Prop
  | nil (v : Option V) : Run v [] v
  | snoc {u v w : Option V} {events : List (Event V)} {e : Event V}
      (hrun : Run u events v) (hstep : Step v e w) : Run u (events ++ [e]) w

/-- After a write that returned, the register holds what it wrote. -/
theorem Run.last_wrote {u w : Option V} {events : List (Event V)} {v : V}
    (h : Run u (events ++ [.wrote v]) w) : w = some v := by
  generalize hall : events ++ [Event.wrote v] = all at h
  cases h with
  | nil => simp at hall
  | snoc hrun hstep =>
      obtain ⟨-, hlast⟩ := List.append_inj' hall rfl
      rw [← List.singleton_inj.mp hlast] at hstep
      cases hstep
      rfl

/-- A write request and the fates of the operations it makes. -/
structure Session (V : Type) where
  value : V
  fate : ℕ → Fate

def Event.of (v : V) : Outcome ε Unit → Event V
  | .ret _ => .wrote v
  | .error _ => .interrupted v
  | .trap => .trapped v
  | .lost => .interrupted v

/-- Perform the writes one after the other, whatever becomes of each. -/
def sessions (write : V → Proc σ ε Unit) (s : σ) (ss : List (Session V)) :
    List (Event V) × σ :=
  ss.foldl (fun acc session =>
    let run := write session.value (Machine.on acc.2 session.fate)
    (acc.1 ++ [Event.of session.value run.1], run.2.mem)) ([], s)

theorem sessions_snoc (write : V → Proc σ ε Unit) (s : σ) (ss : List (Session V))
    (session : Session V) :
    sessions write s (ss ++ [session]) =
      (let acc := sessions write s ss
       let run := write session.value (Machine.on acc.2 session.fate)
       (acc.1 ++ [Event.of session.value run.1], run.2.mem)) := by
  simp only [sessions, List.foldl_append, List.foldl_cons, List.foldl_nil]

/-- If one write, from a memory that represents `old` after `n` writes, leaves a
memory that represents the written value when it returns and one of the two when it
does not, then any run of writes is a run of the register. -/
theorem sessions_refine (write : V → Proc σ ε Unit) (Inv : ℕ → Option V → σ → Prop)
    (ss : List (Session V)) (s : σ) (hinit : Inv 0 none s)
    (hwrite : ∀ n < ss.length, ∀ session ∈ ss, ∀ old s', Inv n old s' →
      Spec (fun _ => True) (write session.value) s'
        (fun _ => Inv (n + 1) (some session.value))
        (fun _ t => Inv (n + 1) old t ∨ Inv (n + 1) (some session.value) t)
        (fun t => Inv (n + 1) old t ∨ Inv (n + 1) (some session.value) t)) :
    ∃ v, Run none (sessions write s ss).1 v ∧ Inv ss.length v (sessions write s ss).2 := by
  induction ss using List.reverseRecOn with
  | nil => exact ⟨none, Run.nil none, hinit⟩
  | append_singleton ss session ih =>
      have hlen : (ss ++ [session]).length = ss.length + 1 := by simp
      obtain ⟨old, hrun, hinv⟩ := ih fun n hn session' hmem =>
        hwrite n (by omega) session' (List.mem_append_left _ hmem)
      have hspec := hwrite ss.length (by omega) session (by simp) old _ hinv
      obtain ⟨hmeets, -⟩ := hspec (Machine.on (sessions write s ss).2 session.fate) rfl
        (fun _ => trivial)
      rw [sessions_snoc, hlen]
      dsimp only
      generalize write session.value (Machine.on (sessions write s ss).2 session.fate) = run
        at hmeets
      obtain ⟨outcome, m'⟩ := run
      cases outcome with
      | ret a => exact ⟨some session.value, hrun.snoc (.wrote old _), hmeets⟩
      | trap => exact hmeets.elim
      | error e =>
          rcases hmeets with hold | hnew
          · exact ⟨old, hrun.snoc (.kept old _), hold⟩
          · exact ⟨some session.value, hrun.snoc (.replaced old _), hnew⟩
      | lost =>
          rcases hmeets with hold | hnew
          · exact ⟨old, hrun.snoc (.kept old _), hold⟩
          · exact ⟨some session.value, hrun.snoc (.replaced old _), hnew⟩

end Register

end IbexFirmware.PowerFail
