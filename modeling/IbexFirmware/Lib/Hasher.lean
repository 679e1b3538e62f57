/-
A hash driver that takes its messages in pieces.

Between the calls a message lives in a context, of which the caller has as many as it likes.
Nothing of a context shows but the message it stands for, and that can be read off the calls
that were made on it and what they replied: `messages` does so. `Allowed` is what a driver
may reply to a call after the calls in front of it. A digest is the digest of the message,
and a call is refused only where an operation of the machine failed or the message is longer
than the driver can count.

A driver is one procedure for each call. `serve_all_allowed` reduces it to that step: if every
call, from a memory that stands for some messages, replies as allowed and leaves a memory that
stands for the messages after it, then every row of calls does.
-/
import IbexFirmware.Lib.Session

set_option autoImplicit false

namespace IbexFirmware.Hasher

open PowerFail Session

/-- A family of hash functions as one driver has it. -/
structure Family (κ α D : Type) where
  /-- The digest of a message that was started for one member and finished for another. -/
  digest : κ → κ → List α → D
  /-- The lengths that the driver counts. -/
  fits : ℕ → Prop
  /-- What a context is the empty message of when it has been finished. -/
  left : Option κ
  /-- A context is what it was when its last call is refused. -/
  keeps : Bool

/-- A call, on the context at an address. The message of `whole` has its own for as long as it
takes. -/
inductive Call (κ α : Type) where
  | start (k : κ) (a : ℕ)
  | feed (a : ℕ) (piece : List α)
  | finish (k : κ) (a : ℕ)
  | whole (k : κ) (a : ℕ) (msg : List α)

inductive Reply (D : Type) where
  | done
  | digest (d : D)
  | refused

/-- A call, the fates of the operations of the machine, and the reply. -/
structure Event (κ α D : Type) where
  call : Call κ α
  fate : ℕ → Fate
  reply : Reply D

variable {κ α D σ ε : Type}

/-- The messages in the contexts, each with the member it was started for. -/
abbrev Messages (κ α : Type) : Type := ℕ → Option (κ × List α)

/-- The messages after a call. -/
def advance (h : Family κ α D) (messages : Messages κ α) (e : Event κ α D) : Messages κ α :=
  match e.call, e.reply with
  | .start k a, .done => Function.update messages a (some (k, []))
  | .feed a piece, .done =>
      Function.update messages a ((messages a).map fun m => (m.1, m.2 ++ piece))
  | .finish _ a, .digest _ => Function.update messages a (h.left.map fun k => (k, []))
  | .finish _ a, .refused => Function.update messages a (if h.keeps then messages a else none)
  | .whole _ a _, .digest _ => Function.update messages a (h.left.map fun k => (k, []))
  | .whole _ a _, .refused => Function.update messages a none
  | _, _ => messages

/-- The messages after a row of calls. -/
def messages (h : Family κ α D) (log : List (Event κ α D)) : Messages κ α :=
  log.foldl (advance h) fun _ => none

theorem messages_snoc (h : Family κ α D) (log : List (Event κ α D)) (e : Event κ α D) :
    messages h (log ++ [e]) = advance h (messages h log) e := by
  simp only [messages, List.foldl_append, List.foldl_cons, List.foldl_nil]

/-- Some operation of the machine failed. -/
def Event.Disturbed (e : Event κ α D) : Prop := ∃ n, e.fate n = .failed

/-- A reply that the call may have, where the contexts hold `messages`. -/
def Answers (h : Family κ α D) (messages : Messages κ α) (e : Event κ α D) : Prop :=
  match e.call with
  | .start _ _ => e.reply = .done
  | .feed a piece => ∀ m, messages a = some m →
      (e.reply = .done ∧ h.fits (m.2 ++ piece).length) ∨
        e.reply = .refused ∧ (e.Disturbed ∨ ¬h.fits (m.2 ++ piece).length)
  | .finish k a => ∀ m, messages a = some m →
      e.reply = .digest (h.digest m.1 k m.2) ∨ e.reply = .refused ∧ e.Disturbed
  | .whole k _ msg =>
      e.reply = .digest (h.digest k k msg) ∨
        e.reply = .refused ∧ (e.Disturbed ∨ ¬h.fits msg.length)

/-- A reply that a call may have after the calls in front of it. -/
def Allowed (h : Family κ α D) (log : List (Event κ α D)) (e : Event κ α D) : Prop :=
  Answers h (messages h log) e

/-! ## Drivers -/

/-- A call that is made, and the fates of the operations it is made on. -/
structure Request (κ α : Type) where
  call : Call κ α
  fate : ℕ → Fate

/-- An error is a refusal. -/
def reply_of : Outcome ε (Reply D) → Reply D
  | .ret r => r
  | _ => .refused

section drivers

variable (serve : Call κ α → Proc σ ε (Reply D))

def Request.event (r : Request κ α) (s : σ) : Event κ α D :=
  ⟨r.call, r.fate, reply_of (serve r.call (Machine.on s r.fate)).1⟩

/-- The calls one after the other, and the memory after them. -/
def serve_all (s : σ) (rs : List (Request κ α)) : List (Event κ α D) × σ :=
  rs.foldl (fun acc r =>
    (acc.1 ++ [r.event serve acc.2], (serve r.call (Machine.on acc.2 r.fate)).2.mem)) ([], s)

theorem serve_all_snoc (s : σ) (rs : List (Request κ α)) (r : Request κ α) :
    serve_all serve s (rs ++ [r]) =
      ((serve_all serve s rs).1 ++ [r.event serve (serve_all serve s rs).2],
        (serve r.call (Machine.on (serve_all serve s rs).2 r.fate)).2.mem) := by
  simp only [serve_all, List.foldl_append, List.foldl_cons, List.foldl_nil]

/-- From a memory that stands for `messages` the call replies as it may, and leaves a memory that
stands for the messages after it. -/
def Serves (h : Family κ α D) (Stands : Messages κ α → σ → Prop) (c : Call κ α) : Prop :=
  ∀ messages s fate, Stands messages s →
    Spec (fun f => ∃ n, fate n = f) (serve c) s
      (fun r t => Answers h messages ⟨c, fate, r⟩ ∧ Stands (advance h messages ⟨c, fate, r⟩) t)
      (fun _ t => Answers h messages ⟨c, fate, .refused⟩ ∧
        Stands (advance h messages ⟨c, fate, .refused⟩) t)
      fun _ => ∃ n, fate n = .lost

/-- A call on a machine that does not lose its power. -/
theorem Serves.run {h : Family κ α D} {Stands : Messages κ α → σ → Prop} {r : Request κ α}
    (hserves : Serves serve h Stands r.call) (hpower : ∀ n, r.fate n ≠ .lost)
    {messages : Messages κ α} {s : σ} (hs : Stands messages s) :
    Answers h messages (r.event serve s) ∧
      Stands (advance h messages (r.event serve s)) (serve r.call (Machine.on s r.fate)).2.mem := by
  obtain ⟨hmeets, -⟩ := hserves messages s r.fate hs (Machine.on s r.fate) rfl fun n => ⟨n, rfl⟩
  unfold Request.event
  generalize serve r.call (Machine.on s r.fate) = run at hmeets ⊢
  obtain ⟨outcome, m⟩ := run
  cases outcome with
  | ret reply => exact hmeets
  | error e => exact hmeets
  | trap => exact hmeets.elim
  | lost =>
      obtain ⟨n, hn⟩ := hmeets
      exact absurd hn (hpower n)

/-- If every call is served, every row of calls is answered as it may be. -/
theorem serve_all_allowed {h : Family κ α D} {Stands : Messages κ α → σ → Prop} {s : σ}
    (hstart : Stands (fun _ => none) s) (rs : List (Request κ α))
    (hserves : ∀ r ∈ rs, Serves serve h Stands r.call) (hpower : ∀ r ∈ rs, ∀ n, r.fate n ≠ .lost) :
    Safe (Allowed h) (serve_all serve s rs).1 ∧
      Stands (messages h (serve_all serve s rs).1) (serve_all serve s rs).2 := by
  induction rs using List.reverseRecOn with
  | nil => exact ⟨safe_nil, hstart⟩
  | append_singleton rs r ih =>
      obtain ⟨hsafe, hstands⟩ := ih (fun r' hr' => hserves r' (List.mem_append_left _ hr'))
        fun r' hr' => hpower r' (List.mem_append_left _ hr')
      have hmem : r ∈ rs ++ [r] := List.mem_append_right _ (List.mem_singleton_self r)
      obtain ⟨hanswers, hafter⟩ := (hserves r hmem).run serve (hpower r hmem) hstands
      rw [serve_all_snoc]
      refine ⟨safe_snoc hsafe hanswers, ?_⟩
      rw [messages_snoc]
      exact hafter

end drivers

end IbexFirmware.Hasher
