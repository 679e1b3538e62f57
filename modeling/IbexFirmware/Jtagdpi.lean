/-
The virtual JTAG bridge, `jtagdpi.c`, with its one-command lookahead.

The simulator calls `jtagdpi_tick` once per clock. A tick executes one command of the
remote bitbang protocol, and after a rising edge of TCK it also answers an `R` that is
already there, or parks whatever else it has read in `ctx->cmd`. The other party is the
device under debug: what it puts on TDO is a function of the pin states driven so far,
and the reason the early answer is right is that this function changes only when TCK
falls (`ChangesOnFall`).

`bridge_loses_nothing` compares the bridge with one that takes a command per tick and
looks at nothing ahead. `Bridged` carries it: what the bridge has done is what the
reference does on the commands consumed, and parked command and queue are the rest of
the stream, in order.
-/
import Mathlib.Tactic

set_option autoImplicit false

namespace IbexFirmware.Jtagdpi

/-! ## The bridge -/

/-- The signals `jtagdpi_tick` drives. -/
structure Pins where
  tck : Bool
  tms : Bool
  tdi : Bool
  trst_n : Bool
  srst_n : Bool
  deriving DecidableEq

/-- What is done to the socket besides reading it: a response byte is written, or the
client connection is closed. -/
inductive SockEvent where
  | write (dat : Char)
  | client_close
  deriving DecidableEq

/-- `tcp_server_ctx` as the bridge sees it: the bytes that have arrived, and what was
done in the other direction. -/
structure Sock where
  buf_in : List Char
  events : List SockEvent

/-- `jtagdpi_ctx`. -/
structure Ctx where
  sock : Sock
  pins : Pins
  tdo : Bool
  cmd : Char

/-- The value of `cmd` that stands for an empty lookahead buffer. -/
def no_cmd : Char := Char.ofNat 0

def tcp_server_read (ctx : Ctx) : Option (Char × Ctx) :=
  match ctx.sock.buf_in with
  | [] => none
  | dat :: rest => some (dat, { ctx with sock := { ctx.sock with buf_in := rest } })

def tcp_server_do (e : SockEvent) (ctx : Ctx) : Ctx :=
  { ctx with sock := { ctx.sock with events := ctx.sock.events ++ [e] } }

/-- Whether the next command is an `R`. Any other is kept for `get_cmd`. -/
def lookahead (ctx : Ctx) : Bool × Ctx :=
  match tcp_server_read ctx with
  | none => (false, ctx)
  | some (cmd, ctx) => if cmd = 'R' then (true, ctx) else (false, { ctx with cmd := cmd })

def get_cmd (ctx : Ctx) : Option (Char × Ctx) :=
  if ctx.cmd ≠ no_cmd then some (ctx.cmd, { ctx with cmd := no_cmd }) else tcp_server_read ctx

def reset_jtag_signals (assert_srst : Bool) : Pins :=
  { tck := false, tms := false, tdi := false, trst_n := false, srst_n := !assert_srst }

/-- The pins after a JTAG write command. -/
def jtag_write (cmd : Char) (pins : Pins) : Pins :=
  let cmd_bit := cmd.toNat - '0'.toNat
  { pins with tdi := cmd_bit.testBit 0, tms := cmd_bit.testBit 1, tck := cmd_bit.testBit 2 }

/-- The pins after a JTAG reset command. -/
def jtag_reset (cmd : Char) (pins : Pins) : Pins :=
  let cmd_bit := cmd.toNat - 'r'.toNat
  { pins with srst_n := !cmd_bit.testBit 0, trst_n := !cmd_bit.testBit 1 }

def is_write (cmd : Char) : Prop := '0' ≤ cmd ∧ cmd ≤ '7'
def is_reset (cmd : Char) : Prop := 'r' ≤ cmd ∧ cmd ≤ 'u'

instance (cmd : Char) : Decidable (is_write cmd) := inferInstanceAs (Decidable (_ ∧ _))
instance (cmd : Char) : Decidable (is_reset cmd) := inferInstanceAs (Decidable (_ ∧ _))

/-- Send TDO as the response. -/
def send_resp (ctx : Ctx) : Ctx :=
  tcp_server_do (.write (Char.ofNat ('0'.toNat + ctx.tdo.toNat))) ctx

/-- `none` stands for the exit after an unsupported command. -/
def update_jtag_signals (ctx : Ctx) : Option Ctx :=
  match get_cmd ctx with
  | none => some ctx
  | some (cmd, ctx) =>
      if is_write cmd then
        let tck := ctx.pins.tck
        let ctx := { ctx with pins := jtag_write cmd ctx.pins }
        -- On a rising edge TDO is already what a following `R` would read.
        if !tck && ctx.pins.tck then
          let (act_send_resp, ctx) := lookahead ctx
          if act_send_resp then some (send_resp ctx) else some ctx
        else some ctx
      else if is_reset cmd then some { ctx with pins := jtag_reset cmd ctx.pins }
      else if cmd = 'R' then some (send_resp ctx)
      else if cmd = 'B' then some ctx
      else if cmd = 'b' then some ctx
      else if cmd = 'Q' then some (tcp_server_do .client_close ctx)
      else none

def jtagdpi_create (assert_srst : Bool) : Ctx :=
  { sock := ⟨[], []⟩, pins := reset_jtag_signals assert_srst, tdo := false, cmd := no_cmd }

def jtagdpi_tick (tdo : Bool) (ctx : Ctx) : Option Ctx := update_jtag_signals { ctx with tdo := tdo }

/-! ## The simulation around it -/

/-- The pin states driven so far, the last one first, with `pins` driven now. A state
that is driven again is not a new one. -/
def drive (pins : Pins) : List Pins → List Pins
  | [] => [pins]
  | last :: before => if pins = last then last :: before else pins :: last :: before

/-- TCK falls from the last state to `pins`. -/
def Falls (pins : Pins) (driven : List Pins) : Prop :=
  ∃ last ∈ driven.head?, last.tck = true ∧ pins.tck = false

/-- A device whose TDO, as a function of the pin states driven, changes with a falling
edge of TCK only. -/
def ChangesOnFall (tdo : List Pins → Bool) : Prop :=
  ∀ pins driven, ¬ Falls pins driven → tdo (drive pins driven) = tdo driven

/-- The bridge, and the pin states it has driven. -/
structure Sim where
  ctx : Ctx
  driven : List Pins

/-- One clock: some bytes have arrived, and the bridge is called with the device's TDO. -/
def clock (tdo : List Pins → Bool) (arrived : List Char) (s : Sim) : Option Sim := do
  let sock := { s.ctx.sock with buf_in := s.ctx.sock.buf_in ++ arrived }
  let ctx ← jtagdpi_tick (tdo s.driven) { s.ctx with sock := sock }
  return ⟨ctx, drive ctx.pins s.driven⟩

def start (assert_srst : Bool) : Sim :=
  ⟨jtagdpi_create assert_srst, [reset_jtag_signals assert_srst]⟩

/-- The run over the arrivals of successive clocks. -/
def simulate (tdo : List Pins → Bool) (assert_srst : Bool) (arrivals : List (List Char)) :
    Option Sim :=
  arrivals.foldlM (fun s arrived => clock tdo arrived s) (start assert_srst)

/-! ## The reference -/

/-- A bridge without lookahead: its pins, the states it has driven and its socket events. -/
structure Reference where
  pins : Pins
  driven : List Pins
  events : List SockEvent

/-- It executes one command, with the device's TDO of that moment. -/
def Reference.execute (tdo : List Pins → Bool) (r : Reference) (cmd : Char) : Reference :=
  let pins := if is_write cmd then jtag_write cmd r.pins
    else if is_reset cmd then jtag_reset cmd r.pins else r.pins
  let events := if cmd = 'R' then [.write (Char.ofNat ('0'.toNat + (tdo r.driven).toNat))]
    else if cmd = 'Q' then [.client_close] else []
  ⟨pins, drive pins r.driven, r.events ++ events⟩

def Reference.run (tdo : List Pins → Bool) (assert_srst : Bool) (stream : List Char) : Reference :=
  stream.foldl (Reference.execute tdo)
    ⟨reset_jtag_signals assert_srst, [reset_jtag_signals assert_srst], []⟩

/-- The commands of the protocol. -/
def Supported (cmd : Char) : Prop :=
  is_write cmd ∨ is_reset cmd ∨ cmd ∈ ['R', 'B', 'b', 'Q']

/-! ## Reading commands -/

/-- The commands that are still to be executed, the parked one first. -/
def remaining (ctx : Ctx) : List Char :=
  if ctx.cmd = no_cmd then ctx.sock.buf_in else ctx.cmd :: ctx.sock.buf_in

/-- The bridge with nothing parked and `rest` in the queue. -/
def queued (rest : List Char) (ctx : Ctx) : Ctx :=
  { ctx with cmd := no_cmd, sock := { ctx.sock with buf_in := rest } }

@[simp] theorem remaining_queued (rest : List Char) (ctx : Ctx) :
    remaining (queued rest ctx) = rest := if_pos rfl

theorem get_cmd_nil {ctx : Ctx} (h : remaining ctx = []) : get_cmd ctx = none := by
  unfold remaining at h
  split_ifs at h with hcmd
  unfold get_cmd
  rw [if_neg (not_not.mpr hcmd), tcp_server_read, h]

/-- The next command is the first of the remaining ones, parked or not. -/
theorem get_cmd_cons {ctx : Ctx} {c : Char} {rest : List Char} (h : remaining ctx = c :: rest) :
    get_cmd ctx = some (c, queued rest ctx) := by
  unfold remaining at h
  unfold get_cmd
  by_cases hcmd : ctx.cmd = no_cmd
  · rw [if_pos hcmd] at h
    rw [if_neg (not_not.mpr hcmd), tcp_server_read, h]
    simp only [queued, hcmd]
  · rw [if_neg hcmd] at h
    obtain ⟨rfl, rfl⟩ := List.cons.inj h
    rw [if_pos hcmd]
    rfl

theorem supported_ne_no_cmd {c : Char} (h : Supported c) : c ≠ no_cmd := by
  rintro rfl
  exact absurd h (by unfold Supported; decide)

/-- The lookahead takes an `R` that is there, and otherwise takes nothing away. -/
theorem lookahead_spec (ctx : Ctx) {rest : List Char} (hsup : ∀ c ∈ rest, Supported c) :
    (∃ rest', rest = 'R' :: rest' ∧ lookahead (queued rest ctx) = (true, queued rest' ctx)) ∨
      ∃ ctx', lookahead (queued rest ctx) = (false, ctx') ∧ remaining ctx' = rest ∧
        ctx'.pins = ctx.pins ∧ ctx'.sock.events = ctx.sock.events := by
  cases rest with
  | nil => exact .inr ⟨queued [] ctx, rfl, remaining_queued _ _, rfl, rfl⟩
  | cons c rest =>
      have hread : tcp_server_read (queued (c :: rest) ctx) = some (c, queued rest ctx) := rfl
      unfold lookahead
      rw [hread]
      dsimp only
      by_cases hR : c = 'R'
      · rw [if_pos hR, hR]
        exact .inl ⟨rest, rfl, rfl⟩
      · rw [if_neg hR]
        refine .inr ⟨_, rfl, ?_, rfl, rfl⟩
        exact if_neg (supported_ne_no_cmd (hsup c List.mem_cons_self))

/-! ## One clock -/

/-- A write or reset command is not one of the others. -/
theorem ne_of_write_or_reset {c : Char} (h : is_write c ∨ is_reset c) : c ≠ 'R' ∧ c ≠ 'Q' := by
  refine ⟨?_, ?_⟩ <;> rintro rfl <;> exact absurd h (by decide)

theorem drive_of_head {pins : Pins} {driven : List Pins} (h : driven.head? = some pins) :
    drive pins driven = driven := by
  cases driven with
  | nil => cases h
  | cons last before =>
      obtain rfl := Option.some.inj h
      exact if_pos rfl

theorem head_drive (pins : Pins) (driven : List Pins) : (drive pins driven).head? = some pins := by
  cases driven with
  | nil => rfl
  | cons last before =>
      by_cases h : pins = last
      · rw [drive_of_head (h ▸ rfl), h]
        rfl
      · rw [show drive pins (last :: before) = pins :: last :: before from if_neg h]
        rfl

variable {tdo : List Pins → Bool} {srst : Bool}

theorem Reference.run_snoc (done : List Char) (c : Char) :
    Reference.run tdo srst (done ++ [c]) = (Reference.run tdo srst done).execute tdo c :=
  List.foldl_concat _ _ _ _

variable (tdo srst) in
/-- The state driven last is the present one. -/
theorem Reference.head_driven (done : List Char) :
    (Reference.run tdo srst done).driven.head? = some (Reference.run tdo srst done).pins := by
  induction done using List.reverseRecOn with
  | nil => rfl
  | append_singleton done c _ =>
      rw [Reference.run_snoc]
      exact head_drive _ _

/-- The bridge is where the reference is after the commands `done`. -/
structure Matches (tdo : List Pins → Bool) (srst : Bool) (done : List Char) (ctx : Ctx)
    (driven : List Pins) : Prop where
  pins : ctx.pins = (Reference.run tdo srst done).pins
  driven : driven = (Reference.run tdo srst done).driven
  events : ctx.sock.events = (Reference.run tdo srst done).events

/-- In `ctx'` some of the commands `cmds` have been executed, at least one, and the others remain. -/
def Executed (tdo : List Pins → Bool) (srst : Bool) (done cmds : List Char) (driven : List Pins)
    (ctx' : Ctx) : Prop :=
  ∃ taken, cmds = taken ++ remaining ctx' ∧ taken ≠ [] ∧
    Matches tdo srst (done ++ taken) ctx' (drive ctx'.pins driven)

section call

variable {done rest : List Char} {c : Char} {ctx : Ctx} {driven : List Pins}
  (h : Matches tdo srst done ctx driven)

include h

theorem Matches.executed_one {ctx' : Ctx} (hleft : remaining ctx' = rest)
    (hpins : ctx'.pins = ((Reference.run tdo srst done).execute tdo c).pins)
    (hevents : ctx'.sock.events = ((Reference.run tdo srst done).execute tdo c).events) :
    Executed tdo srst done (c :: rest) driven ctx' := by
  refine ⟨[c], by rw [hleft]; rfl, List.cons_ne_nil _ _, ?_, ?_, ?_⟩
  · rw [hpins, Reference.run_snoc]
  · rw [hpins, h.driven, Reference.run_snoc]
    rfl
  · rw [hevents, Reference.run_snoc]

theorem Matches.execute_write (hwrite : is_write c) :
    (Reference.run tdo srst done).execute tdo c =
      ⟨jtag_write c ctx.pins, drive (jtag_write c ctx.pins) driven, ctx.sock.events⟩ := by
  obtain ⟨hR, hQ⟩ := ne_of_write_or_reset (.inl hwrite)
  simp only [Reference.execute, if_pos hwrite, if_neg hR, if_neg hQ, List.append_nil, h.pins,
    h.driven, h.events]

/-- Behind a rising edge an `R` reads what it would have read before the edge. -/
theorem Matches.execute_answered (hstable : ChangesOnFall tdo) (hwrite : is_write c)
    (hlow : ctx.pins.tck = false) :
    Reference.run tdo srst (done ++ [c, 'R']) =
      ⟨jtag_write c ctx.pins, drive (jtag_write c ctx.pins) driven,
        ctx.sock.events ++ [SockEvent.write (Char.ofNat ('0'.toNat + (tdo driven).toNat))]⟩ := by
  have hhead := Reference.head_driven tdo srst done
  rw [← h.driven, ← h.pins] at hhead
  have hsame : tdo (drive (jtag_write c ctx.pins) driven) = tdo driven := by
    refine hstable _ _ ?_
    rintro ⟨last, hlast, hhigh, -⟩
    rw [Option.mem_def, hhead] at hlast
    rw [← Option.some.inj hlast, hlow] at hhigh
    cases hhigh
  have hR : ¬ is_write 'R' ∧ ¬ is_reset 'R' := by decide
  rw [show done ++ [c, 'R'] = (done ++ [c]) ++ ['R'] by simp, Reference.run_snoc,
    Reference.run_snoc, h.execute_write hwrite, ← hsame]
  simp only [Reference.execute, if_neg hR.1, if_neg hR.2, if_true, drive_of_head (head_drive _ _)]

/-- A write command is executed, and with a rising edge the `R` behind it, if there is one. -/
theorem Matches.executed_write (hstable : ChangesOnFall tdo) (htdo : ctx.tdo = tdo driven)
    (hrem : remaining ctx = c :: rest) (hsup : ∀ x ∈ rest, Supported x) (hwrite : is_write c) :
    ∃ ctx', update_jtag_signals ctx = some ctx' ∧ Executed tdo srst done (c :: rest) driven ctx' := by
  have hpins : (queued rest ctx).pins = ctx.pins := rfl
  have hexec := h.execute_write hwrite
  unfold update_jtag_signals
  rw [get_cmd_cons hrem]
  dsimp only
  rw [if_pos hwrite, hpins]
  by_cases hrise : (!ctx.pins.tck && (jtag_write c ctx.pins).tck) = true
  · rw [if_pos hrise]
    change ∃ ctx', (match lookahead (queued rest { ctx with pins := jtag_write c ctx.pins }) with
      | (act_send_resp, ctx) => if act_send_resp = true then some (send_resp ctx) else some ctx) =
        some ctx' ∧ _
    obtain ⟨rest', rfl, hlook⟩ | ⟨ctx', hlook, hleft, hp, he⟩ :=
      lookahead_spec { ctx with pins := jtag_write c ctx.pins } hsup
    · -- the `R` is answered now, with the TDO it would read in the next call
      have hlow : ctx.pins.tck = false := by
        simp only [Bool.and_eq_true, Bool.not_eq_true'] at hrise
        exact hrise.1
      have htwo := h.execute_answered hstable hwrite hlow
      rw [hlook]
      refine ⟨_, rfl, [c, 'R'], ?_, List.cons_ne_nil _ _, ?_, ?_, ?_⟩
      · show c :: 'R' :: rest' = [c, 'R'] ++ remaining (queued rest' ctx)
        rw [remaining_queued]
        rfl
      · rw [htwo]
        rfl
      · rw [htwo]
        rfl
      · rw [htwo, ← htdo]
        rfl
    · rw [hlook]
      refine ⟨ctx', rfl, h.executed_one hleft ?_ ?_⟩
      · rw [hp, hexec]
      · rw [he, hexec]
  · rw [if_neg hrise]
    refine ⟨_, rfl, h.executed_one (remaining_queued rest ctx) ?_ ?_⟩
    · rw [hexec]
    · rw [hexec]
      rfl

/-- A command that is no write is executed by itself. -/
theorem Matches.executed_other (htdo : ctx.tdo = tdo driven) (hrem : remaining ctx = c :: rest)
    (hsup : Supported c) (hwrite : ¬ is_write c) :
    ∃ ctx', update_jtag_signals ctx = some ctx' ∧ Executed tdo srst done (c :: rest) driven ctx' := by
  unfold update_jtag_signals
  rw [get_cmd_cons hrem]
  dsimp only
  rw [if_neg hwrite]
  have hleft := remaining_queued rest ctx
  by_cases hreset : is_reset c
  · obtain ⟨hR, hQ⟩ := ne_of_write_or_reset (.inr hreset)
    rw [if_pos hreset]
    refine ⟨_, rfl, h.executed_one hleft ?_ ?_⟩
    · simp only [Reference.execute, if_neg hwrite, if_pos hreset, ← h.pins]
      rfl
    · simp only [Reference.execute, if_neg hR, if_neg hQ, List.append_nil, ← h.events]
      rfl
  · rw [if_neg hreset]
    have hkeep : ((Reference.run tdo srst done).execute tdo c).pins = ctx.pins := by
      simp only [Reference.execute, if_neg hwrite, if_neg hreset, ← h.pins]
    have hevents : ((Reference.run tdo srst done).execute tdo c).events = ctx.sock.events ++
        (if c = 'R' then [SockEvent.write (Char.ofNat ('0'.toNat + ctx.tdo.toNat))]
          else if c = 'Q' then [SockEvent.client_close] else []) := by
      rw [htdo, h.driven, h.events]
      rfl
    have hother : c ∈ ['R', 'B', 'b', 'Q'] := (hsup.resolve_left hwrite).resolve_left hreset
    simp only [List.mem_cons, List.not_mem_nil, or_false] at hother
    rcases hother with rfl | rfl | rfl | rfl
    · exact ⟨_, rfl, h.executed_one hleft hkeep.symm hevents.symm⟩
    · exact ⟨_, rfl, h.executed_one hleft hkeep.symm (hevents.trans (List.append_nil _)).symm⟩
    · exact ⟨_, rfl, h.executed_one hleft hkeep.symm (hevents.trans (List.append_nil _)).symm⟩
    · exact ⟨_, rfl, h.executed_one hleft hkeep.symm hevents.symm⟩

end call

/-- One call: with nothing to do it does nothing, and otherwise it has executed the next
command, or that and an `R` behind it. -/
theorem update_spec (hstable : ChangesOnFall tdo) {done : List Char} {ctx : Ctx}
    {driven : List Pins} (h : Matches tdo srst done ctx driven) (htdo : ctx.tdo = tdo driven)
    (hsup : ∀ c ∈ remaining ctx, Supported c) :
    ∃ ctx' taken, update_jtag_signals ctx = some ctx' ∧ remaining ctx = taken ++ remaining ctx' ∧
      (taken = [] → remaining ctx = []) ∧
      Matches tdo srst (done ++ taken) ctx' (drive ctx'.pins driven) := by
  cases hrem : remaining ctx with
  | nil =>
      refine ⟨ctx, [], ?_, by rw [hrem]; rfl, fun _ => rfl, ?_⟩
      · unfold update_jtag_signals
        rw [get_cmd_nil hrem]
      · have hhead := Reference.head_driven tdo srst done
        rw [← h.driven, ← h.pins] at hhead
        rw [List.append_nil, drive_of_head hhead]
        exact h
  | cons c rest =>
      rw [hrem] at hsup
      have hrest : ∀ x ∈ rest, Supported x := fun x hx => hsup x (List.mem_cons_of_mem _ hx)
      have hcall : ∃ ctx', update_jtag_signals ctx = some ctx' ∧
          Executed tdo srst done (c :: rest) driven ctx' := by
        by_cases hwrite : is_write c
        · exact h.executed_write hstable htdo hrem hrest hwrite
        · exact h.executed_other htdo hrem (hsup c List.mem_cons_self) hwrite
      obtain ⟨ctx', hupdate, taken, htaken, hne, hmatches⟩ := hcall
      exact ⟨ctx', taken, hupdate, htaken, fun hnil => absurd hnil hne, hmatches⟩

/-! ## Any number of clocks -/

/-- The bridge has done what the reference does on some of the stream, and what remains
is the rest of it. -/
def Bridged (tdo : List Pins → Bool) (srst : Bool) (stream : List Char) (s : Sim) : Prop :=
  ∃ done, stream = done ++ remaining s.ctx ∧ Matches tdo srst done s.ctx s.driven

theorem bridged_start (tdo : List Pins → Bool) (srst : Bool) : Bridged tdo srst [] (start srst) :=
  ⟨[], rfl, rfl, rfl, rfl⟩

theorem remaining_arrived (ctx : Ctx) (b : Bool) (arrived : List Char) :
    remaining { ctx with sock := { ctx.sock with buf_in := ctx.sock.buf_in ++ arrived }, tdo := b }
      = remaining ctx ++ arrived := by
  unfold remaining
  by_cases h : ctx.cmd = no_cmd
  · rw [if_pos h, if_pos h]
  · rw [if_neg h, if_neg h]
    rfl

/-- A clock keeps the bridge in step, and takes a command if there is one. -/
theorem clock_step (hstable : ChangesOnFall tdo) {stream arrived : List Char} {s : Sim}
    (h : Bridged tdo srst stream s) (hsup : ∀ c ∈ stream ++ arrived, Supported c) :
    ∃ s', clock tdo arrived s = some s' ∧ Bridged tdo srst (stream ++ arrived) s' ∧
      (remaining s'.ctx).length ≤ (remaining s.ctx ++ arrived).length - 1 := by
  obtain ⟨done, hstream, hmatch⟩ := h
  set ctx1 : Ctx := { s.ctx with
    sock := { s.ctx.sock with buf_in := s.ctx.sock.buf_in ++ arrived }
    tdo := tdo s.driven } with hctx1
  have hrem1 : remaining ctx1 = remaining s.ctx ++ arrived := remaining_arrived _ _ _
  have hmatch1 : Matches tdo srst done ctx1 s.driven := ⟨hmatch.pins, hmatch.driven, hmatch.events⟩
  have hsup1 : ∀ c ∈ remaining ctx1, Supported c := by
    intro c hc
    refine hsup c ?_
    rw [hrem1] at hc
    rw [hstream, List.append_assoc]
    exact List.mem_append_right _ hc
  obtain ⟨ctx', taken, hupdate, htaken, hnone, hmatch'⟩ :=
    update_spec hstable hmatch1 rfl hsup1
  refine ⟨⟨ctx', drive ctx'.pins s.driven⟩, ?_, ⟨done ++ taken, ?_, hmatch'⟩, ?_⟩
  · show (update_jtag_signals ctx1).bind (fun ctx => some (⟨ctx, drive ctx.pins s.driven⟩ : Sim)) = _
    rw [hupdate]
    rfl
  · rw [hstream, List.append_assoc, ← hrem1, htaken, List.append_assoc]
  · rw [← hrem1]
    rw [htaken, List.length_append] at *
    cases taken with
    | nil =>
        have hnil := hnone rfl
        simp_all
    | cons c taken =>
        simp only [List.length_cons]
        omega

/-- The bridge keeps in step over any arrivals, from any state in step. -/
theorem bridged_clocks (hstable : ChangesOnFall tdo) (arrivals : List (List Char))
    {stream : List Char} {s : Sim} (h : Bridged tdo srst stream s)
    (hsup : ∀ c ∈ stream ++ arrivals.flatten, Supported c) :
    ∃ s', arrivals.foldlM (fun s arrived => clock tdo arrived s) s = some s' ∧
      Bridged tdo srst (stream ++ arrivals.flatten) s' := by
  induction arrivals generalizing stream s with
  | nil =>
      refine ⟨s, rfl, ?_⟩
      rw [List.flatten_nil, List.append_nil]
      exact h
  | cons arrived arrivals ih =>
      rw [List.flatten_cons, ← List.append_assoc] at hsup ⊢
      obtain ⟨s1, hclock, h1, -⟩ :=
        clock_step hstable h fun c hc => hsup c (List.mem_append_left _ hc)
      obtain ⟨s', hrun, h'⟩ := ih h1 hsup
      refine ⟨s', ?_, h'⟩
      rw [List.foldlM_cons, hclock]
      exact hrun

/-- Clocks without arrivals work off what remains, at least a command each. -/
theorem idle_clocks (hstable : ChangesOnFall tdo) (k : Nat) {stream : List Char} {s : Sim}
    (h : Bridged tdo srst stream s) (hsup : ∀ c ∈ stream, Supported c) :
    ∃ s', (List.replicate k []).foldlM (fun s arrived => clock tdo arrived s) s = some s' ∧
      Bridged tdo srst stream s' ∧ (remaining s'.ctx).length ≤ (remaining s.ctx).length - k := by
  induction k generalizing s with
  | zero => exact ⟨s, rfl, h, le_rfl⟩
  | succ k ih =>
      have hsup' : ∀ c ∈ stream ++ [], Supported c := by rwa [List.append_nil]
      obtain ⟨s1, hclock, h1, hlen⟩ := clock_step hstable h hsup'
      rw [List.append_nil] at h1 hlen
      obtain ⟨s', hrun, h', hlen'⟩ := ih h1
      refine ⟨s', ?_, h', by omega⟩
      rw [List.replicate_succ, List.foldlM_cons, hclock]
      exact hrun

/-- The reference writes one response for each `R`. -/
theorem Reference.responses (tdo : List Pins → Bool) (srst : Bool) (stream : List Char) :
    (Reference.run tdo srst stream).events.countP (fun e => e ≠ .client_close) =
      stream.count 'R' := by
  induction stream using List.reverseRecOn with
  | nil => rfl
  | append_singleton done c ih =>
      rw [Reference.run_snoc, List.count_append, ← ih, Reference.execute, List.countP_append]
      congr 1
      by_cases hR : c = 'R'
      · subst hR
        rfl
      · rw [if_neg hR, List.count_eq_zero.mpr (by simpa using Ne.symm hR)]
        by_cases hQ : c = 'Q'
        · rw [if_pos hQ]
          rfl
        · rw [if_neg hQ]
          rfl

/-- However a stream of commands is divided into arrivals, the bridge drives the pin
states and writes the responses of the reference: at every moment those of the commands
it has consumed, and of the whole stream once it has had a clock for each. -/
theorem bridge_loses_nothing (tdo : List Pins → Bool) (hstable : ChangesOnFall tdo) (srst : Bool)
    (arrivals : List (List Char)) (hsup : ∀ c ∈ arrivals.flatten, Supported c) :
    (∃ s, simulate tdo srst arrivals = some s ∧
      ∃ done, arrivals.flatten = done ++ remaining s.ctx ∧
        s.driven = (Reference.run tdo srst done).driven ∧
        s.ctx.sock.events = (Reference.run tdo srst done).events ∧
        s.ctx.sock.events.countP (fun e => e ≠ .client_close) = done.count 'R') ∧
    ∀ k ≥ arrivals.flatten.length, ∃ s,
      simulate tdo srst (arrivals ++ List.replicate k []) = some s ∧
        s.driven = (Reference.run tdo srst arrivals.flatten).driven ∧
        s.ctx.sock.events = (Reference.run tdo srst arrivals.flatten).events ∧
        s.ctx.sock.events.countP (fun e => e ≠ .client_close) = arrivals.flatten.count 'R' := by
  obtain ⟨s, hrun, hbridged⟩ := bridged_clocks hstable arrivals (bridged_start tdo srst) hsup
  rw [List.nil_append] at hbridged
  refine ⟨⟨s, hrun, ?_⟩, fun k hk => ?_⟩
  · obtain ⟨done, hdone, hmatch⟩ := hbridged
    refine ⟨done, hdone, hmatch.driven, hmatch.events, ?_⟩
    rw [hmatch.events, Reference.responses]
  · obtain ⟨s', hidle, ⟨done, hdone, hmatch⟩, hlen⟩ := idle_clocks hstable k hbridged hsup
    have hleft : (remaining s.ctx).length ≤ arrivals.flatten.length := by
      obtain ⟨d, hd, -⟩ := hbridged
      rw [hd, List.length_append]
      omega
    -- every command of the stream has had its clock
    have hnone : remaining s'.ctx = [] := List.eq_nil_of_length_eq_zero (by omega)
    rw [hnone, List.append_nil] at hdone
    subst hdone
    refine ⟨s', ?_, hmatch.driven, hmatch.events, ?_⟩
    · rw [simulate, List.foldlM_append, hrun]
      exact hidle
    · rw [hmatch.events, Reference.responses]

/-- A device that shows a new bit at each falling edge. -/
def toggling : List Pins → Bool
  | pins :: last :: before => (last.tck && !pins.tck) ^^ toggling (last :: before)
  | _ => false

theorem toggling_changes_on_fall : ChangesOnFall toggling := by
  intro pins driven hstays
  cases driven with
  | nil => rfl
  | cons last before =>
      by_cases hsame : pins = last
      · rw [drive_of_head (hsame ▸ rfl)]
      · have hedge : (last.tck && !pins.tck) = false := by
          by_contra hfall
          rw [Bool.not_eq_false, Bool.and_eq_true, Bool.not_eq_true'] at hfall
          exact hstays ⟨last, rfl, hfall⟩
        rw [show drive pins (last :: before) = pins :: last :: before from if_neg hsame, toggling,
          hedge, Bool.false_xor]

theorem bridge_loses_nothing_toggling :
    (∃ s, simulate toggling true [['4', 'R'], ['0', '4'], ['R', 'Q']] = some s ∧
      ∃ done, ['4', 'R', '0', '4', 'R', 'Q'] = done ++ remaining s.ctx ∧
        s.driven = (Reference.run toggling true done).driven ∧
        s.ctx.sock.events = (Reference.run toggling true done).events ∧
        s.ctx.sock.events.countP (fun e => e ≠ .client_close) = done.count 'R') ∧
    ∃ s, simulate toggling true ([['4', 'R'], ['0', '4'], ['R', 'Q']] ++ List.replicate 6 []) =
        some s ∧ s.ctx.sock.events = [.write '0', .write '1', .client_close] := by
  have hsup : ∀ c ∈ [['4', 'R'], ['0', '4'], ['R', 'Q']].flatten, Supported c := by
    intro c hc
    unfold Supported
    fin_cases hc <;> decide
  obtain ⟨hrun, hidle⟩ := bridge_loses_nothing toggling toggling_changes_on_fall true
    [['4', 'R'], ['0', '4'], ['R', 'Q']] hsup
  refine ⟨hrun, ?_⟩
  obtain ⟨s, hs, -, hevents, -⟩ := hidle 6 (by decide)
  exact ⟨s, hs, hevents.trans (by decide)⟩

end IbexFirmware.Jtagdpi
