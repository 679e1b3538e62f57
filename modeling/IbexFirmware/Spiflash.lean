/-
The SPI flash of the test bench (`dv/spiflash.v`).

The model has a shift register, and counters of bits, bytes and dummy cycles. The rising
edge of the clock shifts in what is on the lines, as wide as the mode is, and every eighth
bit is a byte to act on (`spi_action`). While the clock is low the flash puts the upper
bits of the register on the lines. In a read the register is refilled from the memory byte
by byte, and its own output is shifted back into it, which does no harm because the
register is refilled just when all of it has been on the lines.

The registers keep their names. A line has a level or it is undefined, because nobody
drives it or two parties drive it against each other; sampling an undefined line is outside
of the model. The registers that are only displayed (`spi_in`, `spi_out`, `spi_io_vld`) are
left out, and the clock is low whenever `csb` changes.
-/
import IbexFirmware.Lib.Bytes

set_option autoImplicit false

namespace IbexFirmware.Spiflash

open Bytes

/-! ## State -/

/-- `mode` and `next_mode`; `off` is 0. -/
inductive Mode where
  | off
  | mode_spi
  | mode_dspi_rd
  | mode_dspi_wr
  | mode_qspi_rd
  | mode_qspi_wr
  | mode_qspi_ddr_rd
  | mode_qspi_ddr_wr
  deriving DecidableEq

/-- The lines `io0` to `io3`. -/
structure Lanes (α : Type) where
  io0 : α
  io1 : α
  io2 : α
  io3 : α
  deriving DecidableEq

def latency : ℕ := 8

/-- The registers of the module. -/
structure Registers where
  buffer : u8
  bitcount : ℕ
  bytecount : ℕ
  dummycount : ℕ
  spi_cmd : u8
  xip_cmd : u8
  spi_addr : BitVec 24
  powered_up : Bool
  mode : Mode
  next_mode : Mode
  oe : Lanes Bool
  dout : Lanes Bool

/-- No output is enabled. -/
def released : Lanes Bool := ⟨false, false, false, false⟩

/-- All of them are. -/
def driven : Lanes Bool := ⟨true, true, true, true⟩

/-- The upper four bits of the register. -/
def upper_nibble (buffer : u8) : Lanes Bool :=
  ⟨buffer.getLsbD 4, buffer.getLsbD 5, buffer.getLsbD 6, buffer.getLsbD 7⟩

/-! ## Actions on a byte -/

section

variable (memory : BitVec 24 → u8)

/-- The address bytes, from the upper one on. -/
def take_address (d : Registers) : Registers :=
  if d.bytecount = 2 then { d with spi_addr := d.buffer ++ d.spi_addr.extractLsb' 0 16 }
  else if d.bytecount = 3 then
    { d with
      spi_addr := d.spi_addr.extractLsb' 16 8 ++ d.buffer ++ d.spi_addr.extractLsb' 0 8 }
  else if d.bytecount = 4 then { d with spi_addr := d.spi_addr.extractLsb' 8 16 ++ d.buffer }
  else d

/-- `buffer = memory[spi_addr]; spi_addr = spi_addr + 1`. -/
def fetch (d : Registers) : Registers :=
  { d with buffer := memory d.spi_addr, spi_addr := d.spi_addr + 1 }

/-- The commands that have a mode byte behind the address: `first` is what is done at the
command itself, and `wr` the mode of the data. -/
def read_io (first : Registers → Registers) (wr : Mode) (d : Registers) : Registers :=
  let d := if d.bytecount = 1 then first d else d
  let d := take_address d
  let d := if d.bytecount = 5 then
      { d with
        xip_cmd := if d.buffer = 0xa5 then d.spi_cmd else 0
        mode := wr
        dummycount := latency }
    else d
  if 5 ≤ d.bytecount then fetch memory d else d

/-- The first byte after `csb` has gone low is a command. -/
def take_command (d : Registers) : Registers :=
  if d.bytecount = 1 then
    { d with
      spi_cmd := d.buffer
      powered_up := if d.buffer = 0xab then true else if d.buffer = 0xb9 then false else d.powered_up
      xip_cmd := if d.buffer = 0xff then 0 else d.xip_cmd }
  else d

/-- At most one of the four reads is done, because none of them changes the command. -/
def spi_action (d : Registers) : Registers :=
  let d := take_command d
  if d.powered_up ∧ d.spi_cmd = 0x03 then
    let d := take_address d
    if 4 ≤ d.bytecount then fetch memory d else d
  else if d.powered_up ∧ d.spi_cmd = 0xbb then
    read_io memory (fun d => { d with mode := .mode_dspi_rd }) .mode_dspi_wr d
  else if d.powered_up ∧ d.spi_cmd = 0xeb then
    read_io memory (fun d => { d with mode := .mode_qspi_rd }) .mode_qspi_wr d
  else if d.powered_up ∧ d.spi_cmd = 0xed then
    read_io memory (fun d => { d with next_mode := .mode_qspi_ddr_rd }) .mode_qspi_ddr_wr d
  else d

/-! ## Edges -/

/-- `buffer = {buffer, io0}`, and with two and with four lines. -/
def shift1 (buffer : u8) (b0 : Bool) : u8 := (buffer ++ BitVec.ofBool b0).setWidth 8

def shift2 (buffer : u8) (b1 b0 : Bool) : u8 :=
  (buffer ++ BitVec.ofBool b1 ++ BitVec.ofBool b0).setWidth 8

def shift4 (buffer : u8) (b3 b2 b1 b0 : Bool) : u8 :=
  (buffer ++ BitVec.ofBool b3 ++ BitVec.ofBool b2 ++ BitVec.ofBool b1 ++ BitVec.ofBool b0).setWidth 8

/-- `n` bits have been shifted in. -/
def count_bits (n : ℕ) (d : Registers) : Registers :=
  if d.bitcount + n = 8 then
    spi_action memory { d with bitcount := 0, bytecount := d.bytecount + 1 }
  else { d with bitcount := d.bitcount + n }

def ddr_rd_edge (io : Lanes (Option Bool)) (d : Registers) : Option Registers := do
  let b3 ← io.io3
  let b2 ← io.io2
  let b1 ← io.io1
  let b0 ← io.io0
  some (count_bits memory 4 { d with buffer := shift4 d.buffer b3 b2 b1 b0 })

def ddr_wr_edge (d : Registers) : Registers :=
  count_bits memory 4
    { d with
      oe := driven
      dout := upper_nibble d.buffer
      buffer := shift4 d.buffer false false false false }

/-- `always @(posedge clk)`, with `csb` low. -/
def on_posedge (io : Lanes (Option Bool)) (d : Registers) : Option Registers :=
  if 0 < d.dummycount then some { d with dummycount := d.dummycount - 1 }
  else
    match d.mode with
    | .off => some d
    | .mode_spi => do
        let b0 ← io.io0
        some (count_bits memory 1 { d with buffer := shift1 d.buffer b0 })
    | .mode_dspi_rd | .mode_dspi_wr => do
        let b1 ← io.io1
        let b0 ← io.io0
        some (count_bits memory 2 { d with buffer := shift2 d.buffer b1 b0 })
    | .mode_qspi_rd | .mode_qspi_wr => do
        let b3 ← io.io3
        let b2 ← io.io2
        let b1 ← io.io1
        let b0 ← io.io0
        some (count_bits memory 4 { d with buffer := shift4 d.buffer b3 b2 b1 b0 })
    | .mode_qspi_ddr_rd => ddr_rd_edge memory io d
    | .mode_qspi_ddr_wr => some (ddr_wr_edge memory d)

/-- The outputs while the clock is low. `io` is what was on the lines before. -/
def drive_outputs (io : Lanes (Option Bool)) (d : Registers) : Option Registers :=
  if 0 < d.dummycount then some { d with oe := released }
  else
    match d.mode with
    | .off => some d
    | .mode_spi =>
        some { d with
          oe := ⟨false, true, false, false⟩
          dout := { d.dout with io1 := d.buffer.getLsbD 7 } }
    | .mode_dspi_rd | .mode_qspi_rd => some { d with oe := released }
    | .mode_dspi_wr =>
        some { d with
          oe := ⟨true, true, false, false⟩
          dout := { d.dout with io0 := d.buffer.getLsbD 6, io1 := d.buffer.getLsbD 7 } }
    | .mode_qspi_wr => some { d with oe := driven, dout := upper_nibble d.buffer }
    | .mode_qspi_ddr_rd => ddr_rd_edge memory io d
    | .mode_qspi_ddr_wr => some (ddr_wr_edge memory d)

/-- A mode to come takes effect. -/
def switch_mode (d : Registers) : Registers :=
  match d.next_mode with
  | .off => d
  | .mode_qspi_ddr_rd => { d with oe := released, mode := d.next_mode, next_mode := .off }
  | .mode_qspi_ddr_wr =>
      { d with
        oe := driven
        dout := upper_nibble d.buffer
        mode := d.next_mode
        next_mode := .off }
  | _ => { d with mode := d.next_mode, next_mode := .off }

/-- `always @(csb, clk)`, with both low. -/
def on_low (io : Lanes (Option Bool)) (d : Registers) : Option Registers :=
  (drive_outputs memory io d).map switch_mode

/-- `always @(csb)` at the rising edge. -/
def on_csb_high (d : Registers) : Registers :=
  { d with buffer := 0, bitcount := 0, bytecount := 0, mode := .mode_spi, oe := released }

/-- `always @(csb)` at the falling edge. -/
def on_csb_low (d : Registers) : Registers :=
  if d.xip_cmd ≠ 0 then
    spi_action memory { d with buffer := d.xip_cmd, bitcount := 0, bytecount := 1 }
  else d

/-! ## On the bus -/

/-- What is on a line that the host and the flash may drive. -/
def line (host : Option Bool) (oe dout : Bool) : Option Bool :=
  if oe then
    match host with
    | none => some dout
    | some level => if level = dout then some dout else none
  else host

def lines (host : Lanes (Option Bool)) (d : Registers) : Lanes (Option Bool) where
  io0 := line host.io0 d.oe.io0 d.dout.io0
  io1 := line host.io1 d.oe.io1 d.dout.io1
  io2 := line host.io2 d.oe.io2 d.dout.io2
  io3 := line host.io3 d.oe.io3 d.dout.io3

/-- The host drives nothing. -/
def undriven : Lanes (Option Bool) := ⟨none, none, none, none⟩

/-- `csb` goes low. -/
def select (d : Registers) : Option Registers := on_low memory (lines undriven d) (on_csb_low memory d)

/-- One clock, and what the host finds on the lines at its rising edge. -/
def clock (host : Lanes (Option Bool)) (d : Registers) :
    Option (Lanes (Option Bool) × Registers) := do
  let high ← on_posedge memory (lines host d) d
  let low ← on_low memory (lines host high) high
  some (lines host d, low)

/-- `csb` goes high. -/
def deselect (d : Registers) : Registers := on_csb_high d

/-- The flash once `csb` is high for the first time. The command, the address and the
outputs have not been set. -/
def power_on (spi_cmd : u8) (spi_addr : BitVec 24) : Registers where
  buffer := 0
  bitcount := 0
  bytecount := 0
  dummycount := 0
  spi_cmd := spi_cmd
  xip_cmd := 0
  spi_addr := spi_addr
  powered_up := false
  mode := .mode_spi
  next_mode := .off
  oe := released
  dout := released

/-- The states that the flash can come to, with the level of `csb`. -/
inductive Reachable : Bool → Registers → Prop
  | power_on (spi_cmd : u8) (spi_addr : BitVec 24) : Reachable true (power_on spi_cmd spi_addr)
  | select {d d' : Registers} (hd : Reachable true d) (hselect : select memory d = some d') :
      Reachable false d'
  | clock {d d' : Registers} {host io : Lanes (Option Bool)} (hd : Reachable false d)
      (hclock : clock memory host d = some (io, d')) : Reachable false d'
  | deselect {d : Registers} (hd : Reachable false d) : Reachable true (deselect d)

/-! ## While `csb` is high -/

/-- The registers that the rising edge of `csb` resets. -/
structure Deselected (d : Registers) : Prop where
  buffer : d.buffer = 0
  bitcount : d.bitcount = 0
  bytecount : d.bytecount = 0
  mode : d.mode = .mode_spi
  oe : d.oe = released

@[simp] theorem switch_mode_next_mode (d : Registers) : (switch_mode d).next_mode = .off := by
  unfold switch_mode
  split <;> simp_all

theorem on_low_next_mode {io : Lanes (Option Bool)} {d d' : Registers}
    (hlow : on_low memory io d = some d') : d'.next_mode = .off := by
  rw [on_low, Option.map_eq_some_iff] at hlow
  obtain ⟨d1, _, rfl⟩ := hlow
  exact switch_mode_next_mode d1

/-- No mode is to come between two edges, and while `csb` is high the registers are reset. -/
theorem deselected_of_reachable {csb : Bool} {d : Registers} (hd : Reachable memory csb d) :
    d.next_mode = .off ∧ (csb = true → Deselected d) := by
  induction hd with
  | power_on spi_cmd spi_addr => exact ⟨rfl, fun _ => ⟨rfl, rfl, rfl, rfl, rfl⟩⟩
  | select hd hselect ih => exact ⟨on_low_next_mode memory hselect, nofun⟩
  | @clock d d' host io hd hclock ih =>
      simp only [clock, Option.bind_eq_bind, Option.bind_eq_some_iff, Option.some.injEq,
        Prod.mk.injEq] at hclock
      obtain ⟨high, _, low, hlow, _, rfl⟩ := hclock
      exact ⟨on_low_next_mode memory hlow, nofun⟩
  | deselect hd ih => exact ⟨ih.1, fun _ => ⟨rfl, rfl, rfl, rfl, rfl⟩⟩

end

end IbexFirmware.Spiflash
