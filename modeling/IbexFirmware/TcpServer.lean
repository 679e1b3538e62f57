/-
The byte buffers between the simulator and the socket thread (`tcp_server.c`).

A buffer is a ring of 256 bytes that holds at most 255 of them. `Holds` says which bytes it holds,
`step_refines` that a call of `tcp_buffer_put_byte` or `tcp_buffer_get_byte` is a step of a queue
on them, and `tcp_buffer_fifo` has the rest for any order of calls from a new buffer. Calls are
taken one after the other, as if each were atomic.

`none` is an access behind the array. A call of `tcp_buffer_put_byte` is given a number of turns
of its loop, and the result says whether they were enough.
-/
import IbexFirmware.Jtagdpi
import IbexFirmware.Lib.Bytes
import IbexFirmware.Lib.Fifo

set_option autoImplicit false

namespace IbexFirmware.TcpServer

open Bytes Fifo

/-! ## The buffer -/

def BUFSIZE_BYTE : ℕ := 256

structure TcpBuf where
  rptr : u32
  wptr : u32
  buf : Vector u8 BUFSIZE_BYTE

def TcpBuf.read (b : TcpBuf) (i : u32) : Option u8 := b.buf[i.toNat]?

def TcpBuf.write (b : TcpBuf) (i : u32) (dat : u8) : Option TcpBuf :=
  if h : i.toNat < BUFSIZE_BYTE then some { b with buf := b.buf.set i.toNat dat h } else none

def tcp_buffer_is_full (b : TcpBuf) : Bool :=
  if b.wptr ≥ b.rptr then b.wptr - b.rptr = BitVec.ofNat 32 (BUFSIZE_BYTE - 1)
  else b.rptr - b.wptr = 1

def tcp_buffer_is_empty (b : TcpBuf) : Bool := b.wptr = b.rptr

/-- One turn of the loop of `tcp_buffer_put_byte`, with `done`. -/
def put_turn (dat : u8) (b : TcpBuf) : Option (Bool × TcpBuf) :=
  if tcp_buffer_is_full b then some (false, b)
  else do
    let b ← b.write b.wptr dat
    return (true, { b with wptr := (b.wptr + 1) % BitVec.ofNat 32 BUFSIZE_BYTE })

def tcp_buffer_put_byte (dat : u8) : ℕ → TcpBuf → Option (Bool × TcpBuf)
  | 0, b => some (false, b)
  | turns + 1, b => do
    let (done, b) ← put_turn dat b
    if done then return (true, b) else tcp_buffer_put_byte dat turns b

/-- The byte, if there is one. -/
def tcp_buffer_get_byte (b : TcpBuf) : Option (Option u8 × TcpBuf) :=
  if tcp_buffer_is_empty b then some (none, b)
  else do
    let dat ← b.read b.rptr
    return (some dat, { b with rptr := (b.rptr + 1) % BitVec.ofNat 32 BUFSIZE_BYTE })

/-- What the array holds after `malloc` is not known. -/
def tcp_buffer_new (garbage : Vector u8 BUFSIZE_BYTE) : TcpBuf := ⟨0, 0, garbage⟩

/-! ## What it holds -/

structure Holds (b : TcpBuf) (held : List u8) : Prop where
  rptr : b.rptr.toNat < BUFSIZE_BYTE
  wptr : b.wptr.toNat = (b.rptr.toNat + held.length) % BUFSIZE_BYTE
  room : held.length < BUFSIZE_BYTE
  lies : Lies (fun i => b.buf[i]?) BUFSIZE_BYTE b.rptr.toNat held

theorem holds_new (garbage : Vector u8 BUFSIZE_BYTE) : Holds (tcp_buffer_new garbage) [] where
  rptr := Nat.succ_pos _
  wptr := rfl
  room := by decide
  lies := Lies.nil

/-- The next cell, in the arithmetic of the pointers. -/
theorem toNat_next {p : u32} (h : p.toNat < BUFSIZE_BYTE) :
    ((p + 1) % BitVec.ofNat 32 BUFSIZE_BYTE).toNat = (p.toNat + 1) % BUFSIZE_BYTE := by
  have hsucc : (p + 1).toNat = p.toNat + 1 := by
    rw [BitVec.toNat_add]
    exact Nat.mod_eq_of_lt (by unfold BUFSIZE_BYTE at h; simp; omega)
  rw [BitVec.toNat_umod, hsucc]
  rfl

section holds

variable {b : TcpBuf} {held : List u8} (h : Holds b held)
include h

theorem Holds.wptr_lt : b.wptr.toNat < BUFSIZE_BYTE := by
  rw [h.wptr]
  exact Nat.mod_lt _ (by decide)

theorem Holds.is_empty_iff : tcp_buffer_is_empty b = true ↔ held.length = 0 := by
  rw [tcp_buffer_is_empty, decide_eq_true_eq, BitVec.toNat_eq, h.wptr]
  exact empty_iff h.rptr h.room

theorem Holds.is_full_iff : tcp_buffer_is_full b = true ↔ held.length = BUFSIZE_BYTE - 1 := by
  rw [← full_iff h.rptr h.room, ← h.wptr, tcp_buffer_is_full]
  by_cases hle : b.rptr.toNat ≤ b.wptr.toNat
  · have hge : b.wptr ≥ b.rptr := hle
    rw [if_pos hge, if_pos hle, decide_eq_true_eq, BitVec.toNat_eq, BitVec.toNat_sub_of_le hge]
    rfl
  · have hnot : ¬ b.wptr ≥ b.rptr := hle
    have hlt : b.wptr ≤ b.rptr := Nat.le_of_not_le hle
    rw [if_neg hnot, if_neg hle, decide_eq_true_eq, BitVec.toNat_eq, BitVec.toNat_sub_of_le hlt]
    rfl

end holds

/-! ## The calls -/

section calls

variable {b b' : TcpBuf} {held : List u8}

/-- On a full buffer a call goes on waiting. -/
theorem put_byte_full (hfull : tcp_buffer_is_full b = true) (dat : u8) (turns : ℕ) :
    tcp_buffer_put_byte dat turns b = some (false, b) := by
  induction turns with
  | zero => rfl
  | succ turns ih =>
      rw [tcp_buffer_put_byte, put_turn, if_pos hfull]
      exact ih

/-- On any other it returns after one turn. -/
theorem Holds.put_byte (h : Holds b held) (hroom : tcp_buffer_is_full b = false) (dat : u8)
    (turns : ℕ) :
    ∃ b', tcp_buffer_put_byte dat (turns + 1) b = some (true, b') ∧
      held.length < BUFSIZE_BYTE - 1 ∧ Holds b' (held ++ [dat]) := by
  have hlen : held.length < BUFSIZE_BYTE - 1 := by
    have hne : held.length ≠ BUFSIZE_BYTE - 1 := by
      rw [Ne, ← h.is_full_iff, hroom]
      exact Bool.false_ne_true
    have hlt := h.room
    omega
  have hturn : put_turn dat b = some (true,
      { b with
        wptr := (b.wptr + 1) % BitVec.ofNat 32 BUFSIZE_BYTE
        buf := b.buf.set b.wptr.toNat dat h.wptr_lt }) := by
    rw [put_turn, hroom, TcpBuf.write, dif_pos h.wptr_lt]
    rfl
  have hcells : (fun i => (b.buf.set b.wptr.toNat dat h.wptr_lt)[i]?) =
      Function.update (fun i => b.buf[i]?) ((b.rptr.toNat + held.length) % BUFSIZE_BYTE)
        (some dat) := by
    funext i
    rw [← h.wptr]
    by_cases hi : i = b.wptr.toNat
    · rw [hi, Function.update_self, Vector.getElem?_set_self]
    · rw [Function.update_of_ne hi, Vector.getElem?_set_ne _ (Ne.symm hi)]
  have hlies := h.lies.snoc h.rptr h.room dat
  rw [← hcells] at hlies
  refine ⟨_, congrArg (· >>= _) hturn, hlen, ⟨h.rptr, ?_, ?_, hlies⟩⟩
  · rw [List.length_append, List.length_singleton, ← Nat.add_assoc, ← Nat.mod_add_mod, ← h.wptr]
    exact toNat_next h.wptr_lt
  · rw [List.length_append, List.length_singleton]
    omega

/-- The oldest byte is taken, round at the end of the array. -/
theorem Holds.get_byte (h : Holds b held) :
    ∃ b', tcp_buffer_get_byte b = some (held.head?, b') ∧ Holds b' held.tail := by
  cases held with
  | nil =>
      refine ⟨b, ?_, h⟩
      rw [tcp_buffer_get_byte, if_pos (h.is_empty_iff.mpr rfl)]
      rfl
  | cons dat held =>
      have hsome : tcp_buffer_is_empty b = false := by
        rw [← Bool.not_eq_true, h.is_empty_iff]
        exact Nat.succ_ne_zero _
      have hread : b.read b.rptr = some dat := h.lies.head h.rptr
      have hnext := toNat_next h.rptr
      have hroom := h.room
      rw [List.length_cons] at hroom
      refine ⟨{ b with rptr := (b.rptr + 1) % BitVec.ofNat 32 BUFSIZE_BYTE }, ?_, ?_, ?_, ?_, ?_⟩
      · rw [tcp_buffer_get_byte, hsome, hread]
        rfl
      · dsimp only
        rw [hnext]
        exact Nat.mod_lt _ (by decide)
      · dsimp only
        rw [hnext, h.wptr, Nat.mod_add_mod, List.length_cons, List.tail_cons, Nat.add_right_comm,
          Nat.add_assoc]
      · exact Nat.lt_of_succ_lt hroom
      · dsimp only
        rw [hnext]
        exact h.lies.tail

end calls

/-! ## Any order of calls -/

/-- A call that returns, and what is seen of it. -/
inductive Step : TcpBuf → Event u8 → TcpBuf → Prop
  | put {b b' : TcpBuf} {dat : u8} (turns : ℕ)
      (hcall : tcp_buffer_put_byte dat turns b = some (true, b')) : Step b (.put dat) b'
  | get {b b' : TcpBuf} {dat : Option u8} (hcall : tcp_buffer_get_byte b = some (dat, b')) :
      Step b (.get dat) b'

/-- Each is a step of a queue with room for 255 bytes. -/
theorem step_refines (b : TcpBuf) (held : List u8) (e : Event u8) (b' : TcpBuf) (h : Holds b held)
    (hstep : Step b e b') :
    ∃ held', Fifo.Step (BUFSIZE_BYTE - 1) held e held' ∧ Holds b' held' := by
  cases hstep with
  | @put _ dat turns hcall =>
      cases hfull : tcp_buffer_is_full b with
      | true =>
          rw [put_byte_full hfull] at hcall
          cases hcall
      | false =>
          cases turns with
          | zero => cases hcall
          | succ turns =>
              obtain ⟨c, hput, hroom, hheld⟩ := h.put_byte hfull dat turns
              rw [hput] at hcall
              cases hcall
              exact ⟨_, .put held dat hroom, hheld⟩
  | get hcall =>
      obtain ⟨c, hget, hheld⟩ := h.get_byte
      rw [hget] at hcall
      cases hcall
      cases held with
      | nil => exact ⟨[], .empty, hheld⟩
      | cons dat held => exact ⟨held, .get dat held, hheld⟩

/-- What is asked of a buffer that holds `held` after the calls `es`. -/
structure IsFifo (es : List (Event u8)) (b : TcpBuf) (held : List u8) : Prop where
  rptr : b.rptr.toNat < BUFSIZE_BYTE
  wptr : b.wptr.toNat < BUFSIZE_BYTE
  conserves : puts es = gets es ++ held
  capacity : held.length ≤ 255
  full : tcp_buffer_is_full b = true ↔ held.length = 255
  empty : tcp_buffer_is_empty b = true ↔ held.length = 0
  put : tcp_buffer_is_full b = false → ∀ dat, ∃ b', tcp_buffer_put_byte dat 1 b = some (true, b')
  waits : tcp_buffer_is_full b = true →
    ∀ dat turns, tcp_buffer_put_byte dat turns b = some (false, b)
  get : ∃ b', tcp_buffer_get_byte b = some (held.head?, b')

/-- A buffer is a queue of 255 bytes. -/
theorem tcp_buffer_fifo (garbage : Vector u8 BUFSIZE_BYTE) {es : List (Event u8)} {b : TcpBuf}
    (h : Run Step (tcp_buffer_new garbage) es b) : ∃ held, IsFifo es b held := by
  obtain ⟨held, hrun, hheld⟩ := h.simulates step_refines (holds_new garbage)
  refine ⟨held, ?_⟩
  constructor
  case rptr => exact hheld.rptr
  case wptr => exact hheld.wptr_lt
  case conserves => exact hrun.conserves
  case capacity => exact hrun.length_le
  case full => exact hheld.is_full_iff
  case empty => exact hheld.is_empty_iff
  case put =>
    intro hroom dat
    obtain ⟨b', hput, -⟩ := hheld.put_byte hroom dat 0
    exact ⟨b', hput⟩
  case waits =>
    intro hfull dat turns
    exact put_byte_full hfull dat turns
  case get =>
    obtain ⟨b', hget, -⟩ := hheld.get_byte
    exact ⟨b', hget⟩

/-- A buffer of zeros that is empty. -/
def zeros_at (p : u32) : TcpBuf := ⟨p, p, Vector.replicate BUFSIZE_BYTE 0⟩

/-- A zero that is put and taken again, `n` times. -/
def zero_turns : ℕ → List (Event u8)
  | 0 => []
  | n + 1 => zero_turns n ++ [.put 0] ++ [.get (some 0)]

/-- Both pointers go on by one. -/
theorem zero_turn {p q : u32} (hp : p.toNat < BUFSIZE_BYTE)
    (hnext : (p + 1) % BitVec.ofNat 32 BUFSIZE_BYTE = q) (hne : q ≠ p) :
    tcp_buffer_put_byte 0 1 (zeros_at p) = some (true, { zeros_at p with wptr := q }) ∧
      tcp_buffer_get_byte { zeros_at p with wptr := q } = some (some 0, zeros_at q) := by
  subst hnext
  constructor
  · have hroom : ¬tcp_buffer_is_full (zeros_at p) = true := by
      simp [tcp_buffer_is_full, zeros_at, BUFSIZE_BYTE]
    have hset : (Vector.replicate BUFSIZE_BYTE (0 : u8)).set p.toNat 0 hp =
        Vector.replicate BUFSIZE_BYTE 0 := Vector.set_replicate_self
    rw [tcp_buffer_put_byte, put_turn, if_neg hroom]
    simp only [zeros_at, TcpBuf.write, dif_pos hp, hset]
    rfl
  · have hheld : ¬tcp_buffer_is_empty { zeros_at p with
        wptr := (p + 1) % BitVec.ofNat 32 BUFSIZE_BYTE } = true := by
      rw [tcp_buffer_is_empty, decide_eq_true_eq]
      exact hne
    have hread : (Vector.replicate BUFSIZE_BYTE (0 : u8))[p.toNat]? = some 0 := by
      rw [Vector.getElem?_replicate, if_pos hp]
    rw [tcp_buffer_get_byte, if_neg hheld]
    simp only [zeros_at, TcpBuf.read, hread]
    rfl

theorem run_zero_turns {n : ℕ} (hn : n < BUFSIZE_BYTE) :
    Run Step (tcp_buffer_new (Vector.replicate BUFSIZE_BYTE 0)) (zero_turns n)
      (zeros_at (BitVec.ofNat 32 n)) := by
  induction n with
  | zero => exact .start
  | succ n ih =>
      have hsize : BUFSIZE_BYTE = 256 := rfl
      have hnat : ∀ k < BUFSIZE_BYTE, (BitVec.ofNat 32 k).toNat = k := fun k hk =>
        Nat.mod_eq_of_lt (by omega)
      have hp := hnat n (by omega)
      obtain ⟨hput, hget⟩ := zero_turn (p := BitVec.ofNat 32 n) (q := BitVec.ofNat 32 (n + 1))
        (by omega) (BitVec.eq_of_toNat_eq (by
          rw [toNat_next (by omega), hp, hnat _ hn, Nat.mod_eq_of_lt hn])) fun heq => by
          have hsame := congrArg BitVec.toNat heq
          rw [hp, hnat _ hn] at hsame
          omega
      exact .next (.next (ih (by omega)) (.put 1 hput)) (.get hget)

/-- Two bytes on both sides of the end of the array, of which the first has been taken. -/
theorem tcp_buffer_fifo_wrapped :
    IsFifo (zero_turns 255 ++ [.put 0x52] ++ [.put 0x49] ++ [.get (some 0x52)])
      ⟨0, 1, ((Vector.replicate BUFSIZE_BYTE 0).set 255 0x52).set 0 0x49⟩ [0x49] := by
  have hrun : Run Step (tcp_buffer_new (Vector.replicate BUFSIZE_BYTE 0))
      (zero_turns 255 ++ [.put 0x52] ++ [.put 0x49] ++ [.get (some 0x52)])
      ⟨0, 1, ((Vector.replicate BUFSIZE_BYTE 0).set 255 0x52).set 0 0x49⟩ :=
    .next (.next (.next (run_zero_turns (by decide)) (.put 1 rfl)) (.put 1 rfl)) (.get rfl)
  obtain ⟨held, hfifo⟩ := tcp_buffer_fifo (Vector.replicate BUFSIZE_BYTE 0) hrun
  have hconserves := hfifo.conserves
  have hturns : puts (zero_turns 255) = gets (zero_turns 255) := by decide +kernel
  rw [puts_snoc, puts_snoc, puts_snoc, gets_snoc, gets_snoc, gets_snoc, hturns] at hconserves
  simp only [Event.given, Event.returned, Option.toList_some, Option.toList_none, List.append_nil,
    List.append_assoc] at hconserves
  obtain rfl := (List.cons.inj (List.append_cancel_left hconserves)).2
  exact hfifo

/-! ## The bridge behind it -/

/-- The JTAG bridge with `held` in its queue. -/
def reading (held : List u8) (ctx : Jtagdpi.Ctx) : Jtagdpi.Ctx :=
  { ctx with sock := { ctx.sock with buf_in := held.map fun dat => Char.ofNat dat.toNat } }

/-- `tcp_server_read` is `tcp_buffer_get_byte` on the buffer that holds the queue. -/
theorem bridge_reads_buffer {b : TcpBuf} {held : List u8} (h : Holds b held) (ctx : Jtagdpi.Ctx) :
    ∃ b', tcp_buffer_get_byte b = some (held.head?, b') ∧ Holds b' held.tail ∧
      Jtagdpi.tcp_server_read (reading held ctx) =
        held.head?.map fun dat => (Char.ofNat dat.toNat, reading held.tail ctx) := by
  obtain ⟨b', hget, hheld⟩ := h.get_byte
  refine ⟨b', hget, hheld, ?_⟩
  cases held with
  | nil => rfl
  | cons dat held => rfl

end IbexFirmware.TcpServer
