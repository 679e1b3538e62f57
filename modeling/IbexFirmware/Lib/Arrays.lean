/-
Byte arrays of which every access is noted.

A `Buffer` is an array with the length that its declaration gives it and contents that do not
end there: what lies behind the end is what the memory has there. Each access notes the places
it touches, with the length of the array, so that what is said about bounds is said about the
notes: a place is `Inside` or it is not.

`Yields P p s v` is the specification of a program that computes `v` in this way: it returns
`v`, unless an operation fails, and every place it has touched until then satisfies `P`.
Programs that yield something are put together with `Yields.seq`.
-/
import IbexFirmware.Lib.Bytes
import IbexFirmware.Lib.Zoom

set_option autoImplicit false

namespace IbexFirmware.Arrays

open Bytes PowerFail

variable {ι σ ε α β : Type}

/-! ## Places and arrays -/

/-- A place of an array, how long the array is, and whether it was written or read. -/
structure Touch (ι : Type) where
  array : ι
  len : ℕ
  index : ℕ
  write : Bool
  deriving DecidableEq

def Touch.Inside (t : Touch ι) : Prop := t.index < t.len

instance (t : Touch ι) : Decidable t.Inside := inferInstanceAs (Decidable (_ < _))

structure Buffer (ι : Type) where
  array : ι
  len : ℕ
  mem : Mem

namespace Buffer

/-- The bytes from `start` on. -/
def part (a : Buffer ι) (start n : ℕ) : List u8 := readBytes a.mem start n

/-- The array with `bytes` from `start` on. -/
def put (a : Buffer ι) (start : ℕ) (bytes : List u8) : Buffer ι :=
  { a with mem := writeBytes a.mem start bytes }

/-- The places from `start` on. -/
def places (a : Buffer ι) (write : Bool) (start n : ℕ) : List (Touch ι) :=
  (List.range' start n).map fun i => ⟨a.array, a.len, i, write⟩

variable {a : Buffer ι} {start n k : ℕ} {bytes : List u8}

@[simp] theorem length_part : (a.part start n).length = n := length_readBytes ..

@[simp] theorem len_put : (a.put start bytes).len = a.len := rfl

@[simp] theorem array_put : (a.put start bytes).array = a.array := rfl

@[simp] theorem places_put (write : Bool) (s m : ℕ) :
    (a.put start bytes).places write s m = a.places write s m := rfl

theorem part_add : a.part start (n + k) = a.part start n ++ a.part (start + n) k := readBytes_add ..

/-- An array is read in two parts. -/
theorem part_split (h : k ≤ n) : a.part start n = a.part start k ++ a.part (start + k) (n - k) := by
  rw [← part_add, Nat.add_sub_cancel' h]

theorem take_part (h : k ≤ n) : (a.part start n).take k = a.part start k := by
  rw [part_split h, List.take_left' length_part]

/-- What has been written is there. -/
theorem part_put (h : bytes.length = n) : (a.put start bytes).part start n = bytes := by
  subst h
  exact readBytes_writeBytes _ _ _

theorem part_put_of_apart {s : ℕ} (h : s + n ≤ start ∨ start + bytes.length ≤ s) :
    (a.put start bytes).part s n = a.part s n := readBytes_writeBytes_disjoint _ _ _ _ _ h

/-- The front of what has been written. -/
theorem part_put_take (h : n ≤ bytes.length) : (a.put start bytes).part start n = bytes.take n := by
  rw [← take_part h, part_put rfl]

theorem part_put_one {b : u8} : (a.put start [b]).part start 1 = [b] := part_put rfl

theorem part_put_one_of_apart {s : ℕ} {b : u8} (h : s + n ≤ start ∨ start + 1 ≤ s) :
    (a.put start [b]).part s n = a.part s n := part_put_of_apart h

/-- Every stretch of what has been filled is full. -/
theorem part_put_replicate {s m : ℕ} {b : u8} (h : start ≤ s ∧ s + n ≤ start + m) :
    (a.put start (List.replicate m b)).part s n = List.replicate n b := by
  refine List.eq_replicate_iff.mpr ⟨length_part, fun x hx => ?_⟩
  obtain ⟨i, hi, rfl⟩ := List.mem_map.mp hx
  rw [List.mem_range] at hi
  have hin : start ≤ s + i ∧ s + i < start + (List.replicate m b).length := by
    rw [List.length_replicate]
    omega
  change writeBytes a.mem start (List.replicate m b) (s + i) = b
  rw [writeBytes, if_pos hin, List.getD_eq_getElem _ _ (by omega), List.getElem_replicate]

@[simp] theorem put_nil : a.put start [] = a := by
  have hmem : writeBytes a.mem start [] = a.mem := by
    funext x
    exact writeBytes_of_not_mem _ _ _ _ (by rw [List.length_nil]; omega)
  rw [put, hmem]

/-- Two stretches one behind the other are one stretch. -/
theorem put_append {next : ℕ} (more : List u8) (h : next = start + bytes.length) :
    (a.put start bytes).put next more = a.put start (bytes ++ more) := by
  subst h
  simp only [put, writeBytes_append]

theorem mem_places {write : Bool} {x : Touch ι} :
    x ∈ a.places write start n ↔
      ∃ i, start ≤ i ∧ i < start + n ∧ x = ⟨a.array, a.len, i, write⟩ := by
  simp only [places, List.mem_map, List.mem_range'_1]
  constructor
  · rintro ⟨i, ⟨hle, hlt⟩, rfl⟩
    exact ⟨i, hle, hlt, rfl⟩
  · rintro ⟨i, hle, hlt, rfl⟩
    exact ⟨i, ⟨hle, hlt⟩, rfl⟩

/-- What is read or written in the array is inside. -/
theorem places_inside (write : Bool) (h : start + n ≤ a.len) :
    ∀ x ∈ a.places write start n, x.Inside := by
  intro x hx
  obtain ⟨i, -, hlt, rfl⟩ := mem_places.mp hx
  exact Nat.lt_of_lt_of_le hlt h

end Buffer

/-! ## Programs -/

/-- A state, and the places that have been touched. -/
structure Noted (ι σ : Type) where
  rest : σ
  touched : List (Touch ι)

def note (ts : List (Touch ι)) : Proc (Noted ι σ) ε Unit :=
  Proc.modify fun s => { s with touched := s.touched ++ ts }

def Buffer.read (a : Buffer ι) (start n : ℕ) : Proc (Noted ι σ) ε (List u8) := do
  note (a.places false start n)
  pure (a.part start n)

def Buffer.write (a : Buffer ι) (start : ℕ) (bytes : List u8) : Proc (Noted ι σ) ε (Buffer ι) := do
  note (a.places true start bytes.length)
  pure (a.put start bytes)

/-- From `s` to `t` only places with `P` have been touched. -/
def Goes (P : Touch ι → Prop) (s t : Noted ι σ) : Prop :=
  ∃ new, t.touched = s.touched ++ new ∧ ∀ x ∈ new, P x

section goes

variable {P : Touch ι → Prop} {s t u : Noted ι σ}

theorem Goes.refl : Goes P s s := ⟨[], (List.append_nil _).symm, nofun⟩

theorem Goes.trans (hst : Goes P s t) (htu : Goes P t u) : Goes P s u := by
  obtain ⟨new, hnew, hP⟩ := hst
  obtain ⟨more, hmore, hQ⟩ := htu
  refine ⟨new ++ more, by rw [hmore, hnew, List.append_assoc], fun x hx => ?_⟩
  exact (List.mem_append.mp hx).elim (hP x) (hQ x)

/-- Notes stay. -/
theorem Goes.mem (h : Goes P s t) {x : Touch ι} (hx : x ∈ s.touched) : x ∈ t.touched := by
  obtain ⟨new, hnew, -⟩ := h
  rw [hnew]
  exact List.mem_append_left new hx

/-- What has been touched, from a state without notes. -/
theorem Goes.all (h : Goes P s t) (hs : s.touched = []) : ∀ x ∈ t.touched, P x := by
  obtain ⟨new, hnew, hP⟩ := h
  rwa [hnew, hs]

end goes

/-! ## What programs yield -/

/-- The program returns `v` and keeps the rest of the state, touching places with `P` only. -/
def Yields (P : Touch ι → Prop) (p : Proc (Noted ι σ) ε α) (s : Noted ι σ) (v : α) : Prop :=
  Guarded p s (fun a t => a = v ∧ Goes P s t ∧ t.rest = s.rest) (Goes P s)

section yields

variable {P : Touch ι → Prop} {s : Noted ι σ} {v : α} {w : β}

theorem Yields.pure : Yields P (pure v : Proc (Noted ι σ) ε α) s v :=
  Guarded.pure ⟨rfl, Goes.refl, rfl⟩

theorem Yields.seq {p : Proc (Noted ι σ) ε α} {f : α → Proc (Noted ι σ) ε β}
    (hp : Yields P p s v) (hf : ∀ t, t.rest = s.rest → Yields P (f v) t w) :
    Yields P (p >>= f) s w := by
  refine Guarded.bind hp ?_
  rintro _ t ⟨rfl, hgoes, hrest⟩
  refine Guarded.mono (hf t hrest) ?_ fun u hu => hgoes.trans hu
  rintro _ u ⟨rfl, hu, hurest⟩
  exact ⟨rfl, hgoes.trans hu, hurest.trans hrest⟩

theorem Yields.note {ts : List (Touch ι)} (h : ∀ x ∈ ts, P x) :
    Yields P (note ts : Proc (Noted ι σ) ε Unit) s () :=
  Guarded.modify ⟨rfl, ⟨ts, rfl, h⟩, rfl⟩

theorem Buffer.yields_read {a : Buffer ι} {start n : ℕ}
    (h : ∀ x ∈ a.places false start n, P x) :
    Yields P (a.read start n : Proc (Noted ι σ) ε (List u8)) s (a.part start n) :=
  Yields.seq (Yields.note h) fun _ _ => Yields.pure

theorem Buffer.yields_write {a : Buffer ι} {start : ℕ} {bytes : List u8}
    (h : ∀ x ∈ a.places true start bytes.length, P x) :
    Yields P (a.write start bytes : Proc (Noted ι σ) ε (Buffer ι)) s (a.put start bytes) :=
  Yields.seq (Yields.note h) fun _ _ => Yields.pure

/-- An operation that hands on a value and keeps the state. -/
theorem Yields.step {e : ε} : Yields P (Proc.step e fun s => (v, s) : Proc (Noted ι σ) ε α) s v :=
  Guarded.step ⟨rfl, Goes.refl, rfl⟩ Goes.refl

theorem Yields.ofExcept {r : Except ε α} (h : r = .ok v) :
    Yields P (Proc.ofExcept r : Proc (Noted ι σ) ε α) s v := by
  subst h
  exact Yields.pure

end yields

/-! ## Where programs lead -/

/-- What the program returns and the state it leaves satisfy `Q`, and only places with `P` are
touched. -/
def Leads (P : Touch ι → Prop) (p : Proc (Noted ι σ) ε α) (s : Noted ι σ)
    (Q : α → Noted ι σ → Prop) : Prop :=
  Guarded p s (fun a t => Q a t ∧ Goes P s t) (Goes P s)

section leads

variable {P : Touch ι → Prop} {s : Noted ι σ} {v : α} {Q : β → Noted ι σ → Prop}

theorem Leads.mono {p : Proc (Noted ι σ) ε β} {Q' : β → Noted ι σ → Prop} (hp : Leads P p s Q')
    (hQ : ∀ b t, Q' b t → Q b t) : Leads P p s Q :=
  Guarded.mono hp (fun b t h => ⟨hQ b t h.1, h.2⟩) fun _ => id

theorem Leads.bind {p : Proc (Noted ι σ) ε α} {f : α → Proc (Noted ι σ) ε β}
    {R : α → Noted ι σ → Prop} (hp : Leads P p s R) (hf : ∀ a t, R a t → Leads P (f a) t Q) :
    Leads P (p >>= f) s Q := by
  refine Guarded.bind hp ?_
  rintro a t ⟨hR, hgoes⟩
  exact Guarded.mono (hf a t hR) (fun b u h => ⟨h.1, hgoes.trans h.2⟩) fun u => hgoes.trans

theorem Yields.lead {p : Proc (Noted ι σ) ε α} (hp : Yields P p s v) :
    Leads P p s fun a t => a = v ∧ t.rest = s.rest :=
  Guarded.mono hp (fun _ _ h => ⟨⟨h.1, h.2.2⟩, h.2.1⟩) fun _ => id

theorem Leads.yields {p : Proc (Noted ι σ) ε α}
    (hp : Leads P p s fun a t => a = v ∧ t.rest = s.rest) : Yields P p s v :=
  Guarded.mono hp (fun _ _ h => ⟨h.1.1, h.2, h.1.2⟩) fun _ => id

/-- What follows on a value that is known. -/
theorem Yields.leads {p : Proc (Noted ι σ) ε α} {f : α → Proc (Noted ι σ) ε β}
    (hp : Yields P p s v) (hf : ∀ t, t.rest = s.rest → Leads P (f v) t Q) :
    Leads P (p >>= f) s Q := by
  refine Leads.bind hp.lead ?_
  rintro _ t ⟨rfl, hrest⟩
  exact hf t hrest

/-- What follows on a value of which only `R` is kept in mind. -/
theorem Yields.abstract {R : α → Prop} {p : Proc (Noted ι σ) ε α} {f : α → Proc (Noted ι σ) ε β}
    (hp : Yields P p s v) (hR : R v) (hf : ∀ a t, R a → t.rest = s.rest → Leads P (f a) t Q) :
    Leads P (p >>= f) s Q :=
  Yields.leads hp fun t hrest => hf v t hR hrest

theorem Leads.pure {b : β} (h : Q b s) : Leads P (pure b : Proc (Noted ι σ) ε β) s Q :=
  Guarded.pure ⟨h, Goes.refl⟩

/-- Notes that are there stay. -/
theorem Leads.keep {p : Proc (Noted ι σ) ε β} {xs : List (Touch ι)} (hp : Leads P p s Q)
    (hxs : ∀ x ∈ xs, x ∈ s.touched) : Leads P p s fun b t => Q b t ∧ ∀ x ∈ xs, x ∈ t.touched :=
  Guarded.mono hp (fun _ _ h => ⟨⟨h.1, fun x hx => h.2.mem (hxs x hx)⟩, h.2⟩) fun _ => id

/-- A write, with its notes. -/
theorem Buffer.leads_write {a : Buffer ι} {start : ℕ} {bytes : List u8}
    (h : ∀ x ∈ a.places true start bytes.length, P x) :
    Leads P (a.write start bytes : Proc (Noted ι σ) ε (Buffer ι)) s fun b t =>
      b = a.put start bytes ∧ t.rest = s.rest ∧
        ∀ x ∈ a.places true start bytes.length, x ∈ t.touched :=
  Guarded.modify_bind (Guarded.pure
    ⟨⟨rfl, rfl, fun _ hx => List.mem_append_right _ hx⟩, ⟨_, rfl, h⟩⟩)

/-- A machine that carries out every operation runs to the end. -/
theorem Leads.run {p : Proc (Noted ι σ) ε β} (hp : Leads P p s Q) {m : Machine (Noted ι σ)}
    (hm : m.mem = s) (hdone : m.Under (· = .done)) :
    ∃ b m', p m = (.ret b, m') ∧ Q b m'.mem ∧ Goes P s m'.mem := by
  obtain ⟨hmeets, -⟩ := hp _ m hm hdone
  generalize hrun : p m = run at hmeets
  obtain ⟨outcome, m'⟩ := run
  cases outcome with
  | ret b => exact ⟨b, m', rfl, hmeets.1, hmeets.2⟩
  | error e => cases hmeets.1
  | trap => exact hmeets.elim
  | lost => cases hmeets

theorem Yields.run {p : Proc (Noted ι σ) ε α} (hp : Yields P p s v) {m : Machine (Noted ι σ)}
    (hm : m.mem = s) (hdone : m.Under (· = .done)) :
    ∃ m', p m = (.ret v, m') ∧ Goes P s m'.mem := by
  obtain ⟨_, m', hrun, ⟨rfl, -⟩, hgoes⟩ := hp.lead.run hm hdone
  exact ⟨m', hrun, hgoes⟩

end leads

/-! ## Programs that accept or refuse -/

/-- The program returns what satisfies `Q`, or refuses with an error that satisfies `R`, unless
an operation fails. -/
def Answers (p : Proc (Noted ι σ) ε α) (s : Noted ι σ) (Q : α → Prop) (R : ε → Prop) : Prop :=
  ∀ F : Fate → Prop, Spec F p s (fun a _ => Q a) (fun e _ => F .failed ∨ R e) fun _ => F .lost

section answers

variable {P : Touch ι → Prop} {s : Noted ι σ} {v : α} {Q : β → Prop} {R : ε → Prop}

theorem Answers.pure {b : β} (h : Q b) : Answers (pure b : Proc (Noted ι σ) ε β) s Q R :=
  fun _ => Spec.pure h

theorem Answers.throw {e : ε} (h : R e) : Answers (Proc.throw e : Proc (Noted ι σ) ε β) s Q R :=
  fun _ => Spec.throw (.inr h)

/-- What follows on a program of which `S` is known. -/
theorem Leads.answers {S : α → Noted ι σ → Prop} {p : Proc (Noted ι σ) ε α}
    {f : α → Proc (Noted ι σ) ε β} (hp : Leads P p s S)
    (hf : ∀ a t, S a t → Answers (f a) t Q R) : Answers (p >>= f) s Q R := by
  intro F
  refine Spec.bind ((hp F).conseq (fun _ _ => id) (fun _ _ h => .inl h.1) fun _ => id) ?_
  exact fun a t h => hf a t h.1 F

theorem Yields.answers {p : Proc (Noted ι σ) ε α} {f : α → Proc (Noted ι σ) ε β}
    (hp : Yields P p s v) (hf : ∀ t, Answers (f v) t Q R) : Answers (p >>= f) s Q R := by
  refine Leads.answers hp.lead ?_
  rintro _ t ⟨rfl, -⟩
  exact hf t

/-- What follows on a value of which only `S` is kept in mind. -/
theorem Yields.answers_of {S : α → Prop} {p : Proc (Noted ι σ) ε α}
    {f : α → Proc (Noted ι σ) ε β} (hp : Yields P p s v) (hS : S v)
    (hf : ∀ a t, S a → Answers (f a) t Q R) : Answers (p >>= f) s Q R :=
  Yields.answers hp fun t => hf v t hS

theorem Answers.run {p : Proc (Noted ι σ) ε β} (hp : Answers p s Q R) {m : Machine (Noted ι σ)}
    (hm : m.mem = s) (hdone : m.Under (· = .done)) :
    (∃ b m', p m = (.ret b, m') ∧ Q b) ∨ ∃ e m', p m = (.error e, m') ∧ R e := by
  obtain ⟨hmeets, -⟩ := hp _ m hm hdone
  generalize hrun : p m = run at hmeets
  obtain ⟨outcome, m'⟩ := run
  cases outcome with
  | ret b => exact .inl ⟨b, m', rfl, hmeets⟩
  | error e => exact .inr ⟨e, m', rfl, hmeets.resolve_left (by decide)⟩
  | trap => exact hmeets.elim
  | lost => cases hmeets

end answers

end IbexFirmware.Arrays
