/-
Programs that serve a session: a loop around a handler, which takes what arrives from
the outside, and which ends when nothing more arrives, when the handler returns an
error, when it traps or when the power goes.

`Spec` in `PowerFail` is made for programs that must return. Of a session nobody asks
that. What is asked is what it leaves behind, and `Leaves p s Q E H` says it for every
ending: `Q` after a return, `E` after an error, `H` wherever the processor stops, with
every fate of the memory operations allowed. `Leaves.rounds` is the loop rule: what
each round keeps holds after any number of rounds. `Leaves.loop` is the rule for a loop
that a round may leave. `Returns` is the other extreme, a program that neither fails nor
stops from where it starts.

The second half is about what a session has done, as a log of events to which the
program only ever appends. `Safe Allowed log` says that each event was allowed by the
events in front of it, and `safe_snoc` is the way to establish it, event by event.
-/
import IbexFirmware.Lib.PowerFail

set_option autoImplicit false

namespace IbexFirmware.Session

open PowerFail

variable {σ ε α β : Type}

/-! ## Programs of a session -/

/-- Wait for what never comes. -/
def stop : Proc σ ε α := fun m => (.lost, m)

/-- `n` rounds of a loop, each starting with the result of the one before. -/
def rounds (body : α → Proc σ ε α) : ℕ → α → Proc σ ε α
  | 0, a => pure a
  | n + 1, a => body a >>= rounds body n

/-- A loop that a round may leave: it hands on what the next round starts with, or the
result. -/
def loop (body : α → Proc σ ε (α ⊕ β)) : ℕ → α → Proc σ ε β
  | 0, _ => stop
  | n + 1, a => body a >>= Sum.elim (loop body n) pure

/-! ## What they leave -/

/-- What holds of an outcome and the memory it leaves, if the processor may stop. -/
def Ends (Q : α → σ → Prop) (E : ε → σ → Prop) (H : σ → Prop) : Outcome ε α → σ → Prop
  | .ret a, s => Q a s
  | .error e, s => E e s
  | .trap, s => H s
  | .lost, s => H s

def Leaves (p : Proc σ ε α) (s : σ) (Q : α → σ → Prop) (E : ε → σ → Prop) (H : σ → Prop) : Prop :=
  ∀ m : Machine σ, m.mem = s → Ends Q E H (p m).1 (p m).2.mem

section rules

variable {s : σ} {Q : α → σ → Prop} {E : ε → σ → Prop} {H : σ → Prop}

theorem Leaves.pure {a : α} (h : Q a s) : Leaves (pure a : Proc σ ε α) s Q E H := by
  rintro m rfl
  exact h

theorem Leaves.throw {e : ε} (h : E e s) : Leaves (Proc.throw e : Proc σ ε α) s Q E H := by
  rintro m rfl
  exact h

theorem Leaves.trap (h : H s) : Leaves (Proc.trap : Proc σ ε α) s Q E H := by
  rintro m rfl
  exact h

theorem Leaves.stop (h : H s) : Leaves (stop : Proc σ ε α) s Q E H := by
  rintro m rfl
  exact h

theorem Leaves.ofExcept {r : Except ε α} (hok : ∀ a, r = .ok a → Q a s)
    (herror : ∀ e, r = .error e → E e s) : Leaves (Proc.ofExcept r : Proc σ ε α) s Q E H := by
  rintro m rfl
  cases r with
  | ok a => exact hok a rfl
  | error e => exact herror e rfl

/-- A test on the memory is decided where the program starts. -/
theorem Leaves.get {f : σ → Proc σ ε α} (h : Leaves (f s) s Q E H) :
    Leaves (Proc.get >>= f) s Q E H := by
  rintro m rfl
  exact h m rfl

theorem Leaves.modify {g : σ → σ} {Q : Unit → σ → Prop} (h : Q () (g s)) :
    Leaves (Proc.modify g : Proc σ ε Unit) s Q E H := by
  rintro m rfl
  exact h

theorem Leaves.modify_bind {g : σ → σ} {f : Unit → Proc σ ε α} (h : Leaves (f ()) (g s) Q E H) :
    Leaves (Proc.modify g >>= f) s Q E H := by
  rintro m rfl
  exact h _ rfl

/-- An operation is carried out, or fails, or meets the end of the power. -/
theorem Leaves.step {e : ε} {f : σ → α × σ} (hdone : Q (f s).1 (f s).2) (hfailed : E e s)
    (hlost : H s) : Leaves (Proc.step e f) s Q E H := by
  rintro m rfl
  unfold Proc.step
  cases m.fate m.steps with
  | done => exact hdone
  | failed => exact hfailed
  | lost => exact hlost

theorem Leaves.attempt {p : Proc σ ε β} {Q : Except ε β → σ → Prop}
    (hp : Leaves p s (fun b => Q (.ok b)) (fun e => Q (.error e)) H) :
    Leaves (Proc.attempt p) s Q E H := by
  intro m hm
  have hends := hp m hm
  unfold Proc.attempt
  rcases hrun : p m with ⟨outcome, m'⟩
  rw [hrun] at hends
  cases outcome with
  | ret b => exact hends
  | error e => exact hends
  | trap => exact hends
  | lost => exact hends

/-- A sequence on one machine: what is known of the first part there, and of the second
part wherever the first may leave off. -/
theorem Ends.bind {p : Proc σ ε β} {f : β → Proc σ ε α} {R : β → σ → Prop} {m : Machine σ}
    (hp : Ends R E H (p m).1 (p m).2.mem) (hf : ∀ b s', R b s' → Leaves (f b) s' Q E H) :
    Ends Q E H ((p >>= f) m).1 ((p >>= f) m).2.mem := by
  rw [Proc.bind_run]
  rcases hrun : p m with ⟨outcome, m'⟩
  rw [hrun] at hp
  cases outcome with
  | ret b => exact hf b m'.mem hp m' rfl
  | error e => exact hp
  | trap => exact hp
  | lost => exact hp

theorem Leaves.bind {p : Proc σ ε β} {f : β → Proc σ ε α} {R : β → σ → Prop}
    (hp : Leaves p s R E H) (hf : ∀ b s', R b s' → Leaves (f b) s' Q E H) :
    Leaves (p >>= f) s Q E H :=
  fun m hm => Ends.bind (hp m hm) hf

theorem Leaves.conseq {p : Proc σ ε α} {Q' : α → σ → Prop} {E' : ε → σ → Prop} {H' : σ → Prop}
    (hp : Leaves p s Q' E' H') (hQ : ∀ a s', Q' a s' → Q a s') (hE : ∀ e s', E' e s' → E e s')
    (hH : ∀ s', H' s' → H s') : Leaves p s Q E H := by
  intro m hm
  have hends := hp m hm
  generalize p m = run at hends ⊢
  obtain ⟨outcome, m'⟩ := run
  cases outcome with
  | ret a => exact hQ a _ hends
  | error e => exact hE e _ hends
  | trap => exact hH _ hends
  | lost => exact hH _ hends

/-- What all endings have in common. -/
theorem Leaves.mem {p : Proc σ ε α} {P : σ → Prop} (hp : Leaves p s Q E H)
    (hQ : ∀ a s', Q a s' → P s') (hE : ∀ e s', E e s' → P s') (hH : ∀ s', H s' → P s')
    {m : Machine σ} (hm : m.mem = s) : P (p m).2.mem := by
  have hends := hp m hm
  cases hrun : (p m).1 with
  | ret a => exact hQ a _ (by rwa [hrun] at hends)
  | error e => exact hE e _ (by rwa [hrun] at hends)
  | trap => exact hH _ (by rwa [hrun] at hends)
  | lost => exact hH _ (by rwa [hrun] at hends)

/-- What a return and an error have in common. -/
theorem Leaves.mem_of_running {p : Proc σ ε α} {P : σ → Prop} (hp : Leaves p s Q E H)
    (hQ : ∀ a s', Q a s' → P s') (hE : ∀ e s', E e s' → P s') {m : Machine σ} (hm : m.mem = s)
    (htrap : (p m).1 ≠ .trap) (hlost : (p m).1 ≠ .lost) : P (p m).2.mem := by
  have hends := hp m hm
  cases hrun : (p m).1 with
  | ret a => exact hQ a _ (by rwa [hrun] at hends)
  | error e => exact hE e _ (by rwa [hrun] at hends)
  | trap => exact absurd hrun htrap
  | lost => exact absurd hrun hlost

/-- What every round keeps holds after any number of them. -/
theorem Leaves.rounds {body : α → Proc σ ε α} {I : α → σ → Prop}
    (hround : ∀ a s, I a s → Leaves (body a) s I E H) (n : ℕ) {a : α} (h : I a s) :
    Leaves (rounds body n a) s I E H := by
  induction n generalizing a s with
  | zero => exact Leaves.pure h
  | succ n ih => exact Leaves.bind (hround a s h) fun _ _ hb => ih hb

/-- The same where the rounds are counted: what holds before round `k` is carried to what
holds before the next. -/
theorem Leaves.rounds_counted {body : α → Proc σ ε α} {I : ℕ → α → σ → Prop} {n : ℕ} {a : α}
    (hround : ∀ k < n, ∀ a s, I k a s → Leaves (body a) s (I (k + 1)) E H) (h : I 0 a s) :
    Leaves (Session.rounds body n a) s (I n) E H := by
  induction n generalizing a s I with
  | zero => exact Leaves.pure h
  | succ n ih =>
      refine Leaves.bind (hround 0 (Nat.succ_pos n) a s h) fun b t hb => ?_
      exact ih (I := fun k => I (k + 1)) (fun k hk => hround (k + 1) (by omega)) hb

end rules

section loops

variable {s : σ} {Q : β → σ → Prop} {E : ε → σ → Prop} {H : σ → Prop}
  {body : α → Proc σ ε (α ⊕ β)}

/-- One round of a loop, and what is left of it. -/
theorem Leaves.loop_succ {n : ℕ} {a : α}
    (h : Leaves (body a) s
      (fun r s' => Sum.elim (fun a' => Leaves (loop body n a') s' Q E H) (fun b => Q b s') r)
      E H) : Leaves (loop body (n + 1) a) s Q E H := by
  refine Leaves.bind h fun r s' hr => ?_
  cases r with
  | inl a' => exact hr
  | inr b => exact Leaves.pure hr

/-- What each round hands on holds at the start of the next, whenever the loop is left. -/
theorem Leaves.loop {I : α → σ → Prop} (hstop : ∀ a s, I a s → H s)
    (hround : ∀ a s, I a s →
      Leaves (body a) s (fun r s' => Sum.elim (fun a' => I a' s') (fun b => Q b s') r) E H)
    (n : ℕ) {a : α} (h : I a s) : Leaves (loop body n a) s Q E H := by
  induction n generalizing a s with
  | zero => exact Leaves.stop (hstop a s h)
  | succ n ih =>
      refine Leaves.loop_succ ((hround a s h).conseq (fun r s' hr => ?_) (fun _ _ => id) fun _ => id)
      cases r with
      | inl a' => exact ih hr
      | inr b => exact hr

end loops

/-- From `s` the program returns, and `Q` holds of what it returns and what it leaves. -/
abbrev Returns (p : Proc σ ε α) (s : σ) (Q : α → σ → Prop) : Prop :=
  Leaves p s Q (fun _ _ => False) fun _ => False

/-- The run of a program that returns. -/
theorem Returns.run {p : Proc σ ε α} {s : σ} {Q : α → σ → Prop} (h : Returns p s Q)
    {m : Machine σ} (hm : m.mem = s) : ∃ a, (p m).1 = .ret a ∧ Q a (p m).2.mem := by
  have hends := h m hm
  generalize p m = run at hends ⊢
  obtain ⟨outcome, m'⟩ := run
  cases outcome with
  | ret a => exact ⟨a, rfl, hends⟩
  | error e => exact hends.elim
  | trap => exact hends.elim
  | lost => exact hends.elim

/-- A program that returns does so whatever is asked of the endings it does not have. -/
theorem Returns.leaves {p : Proc σ ε α} {s : σ} {Q : α → σ → Prop} {E : ε → σ → Prop}
    {H : σ → Prop} (h : Returns p s Q) : Leaves p s Q E H :=
  h.conseq (fun _ _ => id) (fun _ _ => False.elim) fun _ => False.elim

theorem Returns.attempt {p : Proc σ ε α} {s : σ} {Q : α → σ → Prop} (h : Returns p s Q) :
    Returns (Proc.attempt p) s fun r s' => ∃ a, r = .ok a ∧ Q a s' :=
  Leaves.attempt (h.conseq (fun a _ hQ => ⟨a, rfl, hQ⟩) (fun _ _ => False.elim) fun _ => id)

theorem Returns.mono {p : Proc σ ε α} {s : σ} {Q Q' : α → σ → Prop} (h : Returns p s Q')
    (hQ : ∀ a s', Q' a s' → Q a s') : Returns p s Q :=
  h.conseq hQ (fun _ _ => id) fun _ => id

/-! ## Invariants -/

/-- However it ends, `p` keeps `I`. -/
def Maintains (I : σ → Prop) (p : Proc σ ε α) : Prop :=
  ∀ s, I s → Leaves p s (fun _ => I) (fun _ => I) I

section invariants

variable {I : σ → Prop}

theorem Maintains.pure (a : α) : Maintains I (pure a : Proc σ ε α) := fun _ h => Leaves.pure h

theorem Maintains.throw (e : ε) : Maintains I (Proc.throw e : Proc σ ε α) :=
  fun _ h => Leaves.throw h

theorem Maintains.trap : Maintains I (Proc.trap : Proc σ ε α) := fun _ h => Leaves.trap h

theorem Maintains.ofExcept (r : Except ε α) : Maintains I (Proc.ofExcept r : Proc σ ε α) :=
  fun _ h => Leaves.ofExcept (fun _ _ => h) fun _ _ => h

theorem Maintains.get {f : σ → Proc σ ε α} (h : ∀ s, Maintains I (f s)) :
    Maintains I (Proc.get >>= f) :=
  fun s hs => Leaves.get (h s s hs)

theorem Maintains.modify {g : σ → σ} (h : ∀ s, I s → I (g s)) :
    Maintains I (Proc.modify g : Proc σ ε Unit) :=
  fun s hs => Leaves.modify (h s hs)

theorem Maintains.step {e : ε} {f : σ → α × σ} (h : ∀ s, I s → I (f s).2) :
    Maintains I (Proc.step e f) :=
  fun s hs => Leaves.step (h s hs) hs hs

theorem Maintains.bind {p : Proc σ ε β} {f : β → Proc σ ε α} (hp : Maintains I p)
    (hf : ∀ b, Maintains I (f b)) : Maintains I (p >>= f) :=
  fun s hs => Leaves.bind (hp s hs) fun b s' hs' => hf b s' hs'

theorem Maintains.attempt {p : Proc σ ε α} (hp : Maintains I p) : Maintains I (Proc.attempt p) :=
  fun s hs => Leaves.attempt (hp s hs)

theorem Maintains.ite {c : Prop} [Decidable c] {p q : Proc σ ε α} (hp : c → Maintains I p)
    (hq : ¬ c → Maintains I q) : Maintains I (if c then p else q) := by
  by_cases hc : c
  · rw [if_pos hc]
    exact hp hc
  · rw [if_neg hc]
    exact hq hc

theorem Maintains.rounds {body : α → Proc σ ε α} (h : ∀ a, Maintains I (body a)) (n : ℕ) (a : α) :
    Maintains I (rounds body n a) :=
  fun _ hs => Leaves.rounds (I := fun _ => I) (fun b s hb => h b s hb) n hs

theorem Maintains.loop {body : α → Proc σ ε (α ⊕ β)} (h : ∀ a, Maintains I (body a)) (n : ℕ)
    (a : α) : Maintains I (loop body n a) := by
  intro s hs
  refine Leaves.loop (I := fun _ => I) (fun _ _ => id) (fun b s hb => ?_) n hs
  refine (h b s hb).conseq (fun r s' hr => ?_) (fun _ _ => id) fun _ => id
  cases r with
  | inl _ => exact hr
  | inr _ => exact hr

/-- A stronger invariant serves in a state that has it. -/
theorem Maintains.leaves {J : σ → Prop} {p : Proc σ ε α} (hp : Maintains J p)
    (himp : ∀ s, J s → I s) {s : σ} (hs : J s) : Leaves p s (fun _ => I) (fun _ => I) I :=
  (hp s hs).conseq (fun _ s' => himp s') (fun _ s' => himp s') himp

end invariants

/-- However it ends, `p` keeps `I`, and its error satisfies `E`. -/
def Confined (I : σ → Prop) (E : ε → Prop) (p : Proc σ ε α) : Prop :=
  ∀ s, I s → Leaves p s (fun _ => I) (fun e s' => E e ∧ I s') I

section confined

variable {I : σ → Prop} {E : ε → Prop}

theorem Confined.pure (a : α) : Confined I E (pure a : Proc σ ε α) := fun _ h => Leaves.pure h

theorem Confined.throw {e : ε} (he : E e) : Confined I E (Proc.throw e : Proc σ ε α) :=
  fun _ h => Leaves.throw ⟨he, h⟩

theorem Confined.trap : Confined I E (Proc.trap : Proc σ ε α) := fun _ h => Leaves.trap h

theorem Confined.ofExcept {r : Except ε α} (hr : ∀ e, r = .error e → E e) :
    Confined I E (Proc.ofExcept r : Proc σ ε α) :=
  fun _ h => Leaves.ofExcept (fun _ _ => h) fun e he => ⟨hr e he, h⟩

theorem Confined.get {f : σ → Proc σ ε α} (h : ∀ s, Confined I E (f s)) :
    Confined I E (Proc.get >>= f) :=
  fun s hs => Leaves.get (h s s hs)

theorem Confined.modify {g : σ → σ} (h : ∀ s, I s → I (g s)) :
    Confined I E (Proc.modify g : Proc σ ε Unit) :=
  fun s hs => Leaves.modify (h s hs)

theorem Confined.step {e : ε} {f : σ → α × σ} (he : E e) (h : ∀ s, I s → I (f s).2) :
    Confined I E (Proc.step e f) :=
  fun s hs => Leaves.step (h s hs) ⟨he, hs⟩ hs

theorem Confined.bind {p : Proc σ ε β} {f : β → Proc σ ε α} (hp : Confined I E p)
    (hf : ∀ b, Confined I E (f b)) : Confined I E (p >>= f) :=
  fun s hs => Leaves.bind (hp s hs) fun b s' hs' => hf b s' hs'

theorem Confined.ite {c : Prop} [Decidable c] {p q : Proc σ ε α} (hp : Confined I E p)
    (hq : Confined I E q) : Confined I E (if c then p else q) := by
  split
  · exact hp
  · exact hq

end confined

/-! ## What a session has done -/

variable {Event : Type} {Allowed : List Event → Event → Prop}

/-- Each event of the log was allowed after the events in front of it. -/
def Safe (Allowed : List Event → Event → Prop) (log : List Event) : Prop :=
  ∀ pre e post, log = pre ++ e :: post → Allowed pre e

theorem safe_nil : Safe Allowed [] := by
  intro pre e post h
  cases pre with
  | nil => cases h
  | cons _ _ => cases h

theorem safe_snoc {log : List Event} {e : Event} (h : Safe Allowed log) (he : Allowed log e) :
    Safe Allowed (log ++ [e]) := by
  intro pre e' post hlog
  induction post using List.reverseRecOn with
  | nil =>
      obtain ⟨rfl, heq⟩ := List.append_inj' hlog rfl
      obtain rfl := List.singleton_inj.mp heq
      exact he
  | append_singleton post last _ =>
      rw [← List.cons_append, ← List.append_assoc] at hlog
      exact h pre e' post (List.append_inj' hlog rfl).1

end IbexFirmware.Session
