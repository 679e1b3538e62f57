/-
Reading a word from the SPI flash (`flash_read_word` of the test bench's boot loader).

A fast quad read is four segments under one `csb`: the command on one line, the address and
the mode byte on four, eight dummy clocks, and the data on four. The SPI host sends the low
byte of a word first and the upper bit of a byte first, it clocks once for each dummy, and
it keeps `csb` low where the segment asks for it. `flash_read_word_reads` puts host and
flash together: the word comes out as the boot loader's model of the flash has it, and the
flash is left as it was found.

The host's wait loops are left out: a segment is finished when it has been started, and a
wait that would not end is `none`, as is a line that is sampled while it is undefined.
-/
import IbexFirmware.Bootloader
import IbexFirmware.Spiflash

set_option autoImplicit false

namespace IbexFirmware.FlashRead

open Bytes Spiflash

/-! ## The SPI host -/

def SPI_DIR_DUMMY : u32 := 0
def SPI_DIR_RX : u32 := 1
def SPI_DIR_TX : u32 := 2

def SPI_SPEED_STANDARD : u32 := 0
def SPI_SPEED_DUAL : u32 := 1
def SPI_SPEED_QUAD : u32 := 2

/-- How many lines a segment uses. -/
inductive Speed where
  | standard
  | dual
  | quad
  deriving DecidableEq

/-- The clocks that a byte takes. -/
def Speed.clocks : Speed → ℕ
  | .standard => 8
  | .dual => 4
  | .quad => 2

/-- The fields of the `COMMAND` register. -/
structure Command where
  direction : u32
  speed : Option Speed
  csaat : Bool
  len : ℕ

/-- `LEN` is one less than the length. -/
def Command.decode (command : u32) : Command where
  direction := (command >>> 12) &&& 0x3
  speed :=
    if (command >>> 10) &&& 0x3 = SPI_SPEED_STANDARD then some .standard
    else if (command >>> 10) &&& 0x3 = SPI_SPEED_DUAL then some .dual
    else if (command >>> 10) &&& 0x3 = SPI_SPEED_QUAD then some .quad
    else none
  csaat := command.getLsbD 9
  len := (command &&& 0x1FF).toNat + 1

/-- What the host drives in clock `k` of a byte. -/
def tx_lanes (speed : Speed) (byte : u8) (k : ℕ) : Lanes (Option Bool) :=
  match speed with
  | .standard => { undriven with io0 := some (byte.getLsbD (7 - k)) }
  | .dual =>
      { undriven with
        io0 := some (byte.getLsbD (6 - 2 * k))
        io1 := some (byte.getLsbD (7 - 2 * k)) }
  | .quad =>
      { io0 := some (byte.getLsbD (4 - 4 * k))
        io1 := some (byte.getLsbD (5 - 4 * k))
        io2 := some (byte.getLsbD (6 - 4 * k))
        io3 := some (byte.getLsbD (7 - 4 * k)) }

/-- The host shifts in what it finds on the lines. -/
def rx_shift (speed : Speed) (byte : u8) (io : Lanes (Option Bool)) : Option u8 :=
  match speed with
  | .standard => do
      let b0 ← io.io1
      some (shift1 byte b0)
  | .dual => do
      let b1 ← io.io1
      let b0 ← io.io0
      some (shift2 byte b1 b0)
  | .quad => do
      let b3 ← io.io3
      let b2 ← io.io2
      let b1 ← io.io1
      let b0 ← io.io0
      some (shift4 byte b3 b2 b1 b0)

/-- The FIFOs, the level of `csb`, and the flash at the other end. -/
structure SpiHost where
  tx : List u32
  rx : List u32
  csb : Bool
  flash : Registers

/-- The bytes of a word in the order they are sent. -/
def bytes_of_word (word : u32) : List u8 := [byteOf word 0, byteOf word 1, byteOf word 2, byteOf word 3]

/-- Received bytes are packed into words, and the last word is filled up. -/
def words_of_bytes : List u8 → List u32
  | [] => []
  | [b0] => [word b0 0 0 0]
  | [b0, b1] => [word b0 b1 0 0]
  | [b0, b1, b2] => [word b0 b1 b2 0]
  | b0 :: b1 :: b2 :: b3 :: bytes => word b0 b1 b2 b3 :: words_of_bytes bytes

section

variable (memory : BitVec 24 → u8)

/-- `n` clocks in which the host drives nothing and takes no notice of the lines. -/
def dummy_clocks : ℕ → Registers → Option Registers
  | 0, d => some d
  | n + 1, d => do
      let (_, d) ← clock memory undriven d
      dummy_clocks n d

/-- Clocks from `k` on for a byte. -/
def send_clocks (speed : Speed) (byte : u8) : (n k : ℕ) → Registers → Option Registers
  | 0, _, d => some d
  | n + 1, k, d => do
      let (_, d) ← clock memory (tx_lanes speed byte k) d
      send_clocks speed byte n (k + 1) d

def send_byte (speed : Speed) (byte : u8) (d : Registers) : Option Registers :=
  send_clocks memory speed byte speed.clocks 0 d

def send_bytes (speed : Speed) : List u8 → Registers → Option Registers
  | [], d => some d
  | byte :: bytes, d => do
      let d ← send_byte memory speed byte d
      send_bytes speed bytes d

def receive_clocks (speed : Speed) : ℕ → u8 → Registers → Option (u8 × Registers)
  | 0, byte, d => some (byte, d)
  | n + 1, byte, d => do
      let (io, d) ← clock memory undriven d
      let byte ← rx_shift speed byte io
      receive_clocks speed n byte d

def receive_byte (speed : Speed) (d : Registers) : Option (u8 × Registers) :=
  receive_clocks memory speed speed.clocks 0 d

def receive_bytes (speed : Speed) : ℕ → Registers → Option (List u8 × Registers)
  | 0, d => some ([], d)
  | n + 1, d => do
      let (byte, d) ← receive_byte memory speed d
      let (bytes, d) ← receive_bytes speed n d
      some (byte :: bytes, d)

/-- The clocks of a segment, with `csb` low. A transmission takes whole words from the
FIFO and drops what is left of the last one. Full duplex is left out. -/
def run_direction (command : Command) (s : SpiHost) : Option SpiHost := do
  let speed ← command.speed
  if command.direction = SPI_DIR_TX then do
    let count := (command.len + 3) / 4
    if s.tx.length < count then none
    else do
      let bytes := ((s.tx.take count).flatMap bytes_of_word).take command.len
      let flash ← send_bytes memory speed bytes s.flash
      some { s with tx := s.tx.drop count, flash := flash }
  else if command.direction = SPI_DIR_RX then do
    let (bytes, flash) ← receive_bytes memory speed command.len s.flash
    some { s with rx := s.rx ++ words_of_bytes bytes, flash := flash }
  else if command.direction = SPI_DIR_DUMMY then do
    let flash ← dummy_clocks memory command.len s.flash
    some { s with flash := flash }
  else none

/-- `csb` goes low if it is not low from the segment before. -/
def start_segment (s : SpiHost) : Option SpiHost :=
  if s.csb then (select memory s.flash).map fun flash => { s with csb := false, flash := flash }
  else some s

def end_segment (csaat : Bool) (s : SpiHost) : SpiHost :=
  if csaat then s else { s with csb := true, flash := deselect s.flash }

/-- A segment. -/
def run_segment (command : Command) (s : SpiHost) : Option SpiHost := do
  let s ← start_segment memory s
  let s ← run_direction memory command s
  some (end_segment command.csaat s)

/-! ## The boot loader -/

def FLASH_CMD_POWER_UP : u8 := 0xAB
def FLASH_CMD_READ_QUAD : u8 := 0xEB
def FLASH_MODE_BYTE : u32 := 0x00
def FLASH_DUMMY_CYCLES : u32 := 8

def spi_make_command (direction speed csaat length : u32) : u32 :=
  (direction &&& 0x3) <<< 12 ||| (speed &&& 0x3) <<< 10 |||
    (if csaat ≠ 0 then 1#32 <<< 9 else 0) ||| ((length - 1) &&& 0x1FF)

def spi_transmit_word (word : u32) (s : SpiHost) : SpiHost := { s with tx := s.tx ++ [word] }

def spi_transmit_byte (byte : u8) (s : SpiHost) : SpiHost := spi_transmit_word (byte.setWidth 32) s

def spi_run_command (direction speed csaat length : u32) (s : SpiHost) : Option SpiHost :=
  run_segment memory (.decode (spi_make_command direction speed csaat length)) s

def spi_receive_word (s : SpiHost) : Option (u32 × SpiHost) :=
  match s.rx with
  | [] => none
  | word :: rx => some (word, { s with rx := rx })

def flash_power_up (s : SpiHost) : Option SpiHost :=
  spi_run_command memory SPI_DIR_TX SPI_SPEED_STANDARD 0 1 (spi_transmit_byte FLASH_CMD_POWER_UP s)

/-- The address and the mode byte in one word. -/
def pack_address (addr : u32) : u32 :=
  (addr >>> 16 &&& 0xFF) <<< 0 ||| (addr >>> 8 &&& 0xFF) <<< 8 ||| (addr >>> 0 &&& 0xFF) <<< 16 |||
    (FLASH_MODE_BYTE &&& 0xFF) <<< 24

def flash_read_word (addr : u32) (s : SpiHost) : Option (u32 × SpiHost) := do
  let s ← spi_run_command memory SPI_DIR_TX SPI_SPEED_STANDARD 1 1
    (spi_transmit_byte FLASH_CMD_READ_QUAD s)
  let s ← spi_run_command memory SPI_DIR_TX SPI_SPEED_QUAD 1 4
    (spi_transmit_word (pack_address addr) s)
  let s ← spi_run_command memory SPI_DIR_DUMMY SPI_SPEED_QUAD 1 FLASH_DUMMY_CYCLES s
  let s ← spi_run_command memory SPI_DIR_RX SPI_SPEED_QUAD 0 4 s
  spi_receive_word s

end

/-! ## Bits of a byte in order -/

theorem getLsbD_append_ofBool {n : ℕ} (x : BitVec n) (b : Bool) (i : ℕ) :
    (x ++ BitVec.ofBool b).getLsbD i = if i = 0 then b else x.getLsbD (i - 1) := by
  rw [BitVec.getLsbD_append]
  by_cases hi : i = 0
  · subst hi
    cases b <;> rfl
  · rw [if_neg hi, if_neg (by omega)]

theorem getLsbD_shift1 (buffer : u8) (b0 : Bool) (i : ℕ) (hi : i < 8) :
    (shift1 buffer b0).getLsbD i = if i = 0 then b0 else buffer.getLsbD (i - 1) := by
  simp only [shift1, BitVec.getLsbD_setWidth, hi, decide_true, Bool.true_and,
    getLsbD_append_ofBool]

theorem getLsbD_shift4 (buffer : u8) (b3 b2 b1 b0 : Bool) (i : ℕ) (hi : i < 8) :
    (shift4 buffer b3 b2 b1 b0).getLsbD i =
      if i = 0 then b0 else if i - 1 = 0 then b1 else if i - 1 - 1 = 0 then b2
      else if i - 1 - 1 - 1 = 0 then b3 else buffer.getLsbD (i - 1 - 1 - 1 - 1) := by
  simp only [shift4, BitVec.getLsbD_setWidth, hi, decide_true, Bool.true_and,
    getLsbD_append_ofBool]

theorem shift4_shift4 (buffer byte : u8) :
    shift4 (shift4 buffer (byte.getLsbD 7) (byte.getLsbD 6) (byte.getLsbD 5) (byte.getLsbD 4))
      (byte.getLsbD 3) (byte.getLsbD 2) (byte.getLsbD 1) (byte.getLsbD 0) = byte := by
  apply BitVec.eq_of_getLsbD_eq
  intro i hi
  rw [getLsbD_shift4 _ _ _ _ _ i hi]
  interval_cases i
  all_goals first
    | rfl
    | exact getLsbD_shift4 _ _ _ _ _ _ (by decide)

theorem shift1_eight (buffer byte : u8) :
    shift1 (shift1 (shift1 (shift1 (shift1 (shift1 (shift1 (shift1 buffer (byte.getLsbD 7))
      (byte.getLsbD 6)) (byte.getLsbD 5)) (byte.getLsbD 4)) (byte.getLsbD 3)) (byte.getLsbD 2))
      (byte.getLsbD 1)) (byte.getLsbD 0) = byte := by
  apply BitVec.eq_of_getLsbD_eq
  intro i hi
  interval_cases i <;> simp only [getLsbD_shift1, Nat.reduceLT, Nat.reduceSub, if_true, if_false,
    OfNat.ofNat_ne_zero, one_ne_zero]

theorem upper_nibble_shift4 (buffer : u8) (b3 b2 b1 b0 : Bool) :
    upper_nibble (shift4 buffer b3 b2 b1 b0) =
      ⟨buffer.getLsbD 0, buffer.getLsbD 1, buffer.getLsbD 2, buffer.getLsbD 3⟩ := by
  simp only [upper_nibble, getLsbD_shift4, Nat.reduceLT, Nat.reduceSub, Nat.reduceEqDiff, if_false]

/-! ## Clocks -/

section

variable (memory : BitVec 24 → u8)

/-- The output that is enabled while a command is shifted in. -/
def miso : Lanes Bool := ⟨false, true, false, false⟩

/-- A clock whose low phase does not depend on the lines. -/
theorem clock_eq {host : Lanes (Option Bool)} {d high low : Registers}
    (hhigh : on_posedge memory (lines host d) d = some high)
    (hlow : ∀ io, on_low memory io high = some low) :
    clock memory host d = some (lines host d, low) := by
  simp only [clock, hhigh, hlow, Option.bind_eq_bind, Option.bind_some]

/-! ### One line -/

section

variable (byte buffer : u8) (bytecount : ℕ) (cmd xip : u8) (addr : BitVec 24) (up : Bool)
  (dout : Lanes Bool)

theorem on_posedge_spi (k bitcount : ℕ) :
    on_posedge memory (lines (tx_lanes .standard byte k)
        ⟨buffer, bitcount, bytecount, 0, cmd, xip, addr, up, .mode_spi, .off, miso, dout⟩)
        ⟨buffer, bitcount, bytecount, 0, cmd, xip, addr, up, .mode_spi, .off, miso, dout⟩ =
      some (count_bits memory 1 ⟨shift1 buffer (byte.getLsbD (7 - k)), bitcount, bytecount, 0, cmd,
        xip, addr, up, .mode_spi, .off, miso, dout⟩) := by
  simp [on_posedge, lines, line, tx_lanes, miso, undriven]

/-- A clock within a byte. -/
theorem clock_spi (k bitcount : ℕ) (hcount : bitcount + 1 ≠ 8) :
    ∃ io dout', clock memory (tx_lanes .standard byte k)
        ⟨buffer, bitcount, bytecount, 0, cmd, xip, addr, up, .mode_spi, .off, miso, dout⟩ =
      some (io, ⟨shift1 buffer (byte.getLsbD (7 - k)), bitcount + 1, bytecount, 0, cmd, xip, addr,
        up, .mode_spi, .off, miso, dout'⟩) := by
  refine ⟨_, { dout with io1 := (shift1 buffer (byte.getLsbD (7 - k))).getLsbD 7 },
    clock_eq memory (on_posedge_spi memory byte buffer bytecount cmd xip addr up dout k bitcount)
      fun io => ?_⟩
  rw [count_bits, if_neg hcount]
  rfl

/-- `n` clocks within a byte, before some others. -/
theorem send_clocks_spi (n rest k bitcount : ℕ) (hcount : bitcount + n ≤ 7) :
    ∃ dout', send_clocks memory .standard byte (n + rest) k
        ⟨buffer, bitcount, bytecount, 0, cmd, xip, addr, up, .mode_spi, .off, miso, dout⟩ =
      send_clocks memory .standard byte rest (k + n)
        ⟨(List.range' k n).foldl (fun buffer i => shift1 buffer (byte.getLsbD (7 - i))) buffer,
          bitcount + n, bytecount, 0, cmd, xip, addr, up, .mode_spi, .off, miso, dout'⟩ := by
  induction n generalizing buffer k bitcount dout with
  | zero =>
      rw [Nat.zero_add]
      exact ⟨dout, rfl⟩
  | succ n ih =>
      obtain ⟨io, dout1, hclock⟩ := clock_spi memory byte buffer bytecount cmd xip addr up dout k
        bitcount (by omega)
      obtain ⟨dout', hrest⟩ := ih (shift1 buffer (byte.getLsbD (7 - k))) dout1 (k + 1) (bitcount + 1)
        (by omega)
      refine ⟨dout', ?_⟩
      rw [Nat.add_right_comm, send_clocks, hclock, Option.bind_eq_bind, Option.bind_some]
      simp only [hrest, List.range'_succ, List.foldl_cons, Nat.add_assoc, Nat.add_comm 1]

/-- A byte, for a low phase after it that does not depend on the lines. -/
theorem send_standard_byte {low : Lanes Bool → Registers}
    (hlow : ∀ io dout, on_low memory io (spi_action memory ⟨byte, 0, bytecount + 1, 0, cmd, xip,
      addr, up, .mode_spi, .off, miso, dout⟩) = some (low dout)) :
    ∃ dout', send_byte memory .standard byte
        ⟨buffer, 0, bytecount, 0, cmd, xip, addr, up, .mode_spi, .off, miso, dout⟩ =
      some (low dout') := by
  obtain ⟨dout', hseven⟩ := send_clocks_spi memory byte buffer bytecount cmd xip addr up dout 7 1 0 0
    (by decide)
  have hlast := clock_eq memory (on_posedge_spi memory byte
    ((List.range' 0 7).foldl (fun buffer i => shift1 buffer (byte.getLsbD (7 - i))) buffer)
    bytecount cmd xip addr up dout' 7 7) (fun io => by
      rw [count_bits, if_pos rfl]
      exact (congrArg (fun b => on_low memory io (spi_action memory ⟨b, 0, bytecount + 1, 0, cmd,
        xip, addr, up, .mode_spi, .off, miso, dout'⟩)) (shift1_eight buffer byte)).trans
          (hlow io dout'))
  refine ⟨dout', hseven.trans ?_⟩
  rw [send_clocks, hlast]
  rfl

end

/-! ### Four lines -/

section

variable (byte buffer : u8) (bytecount : ℕ) (cmd xip : u8) (addr : BitVec 24) (up : Bool)
  (dout : Lanes Bool)

theorem on_posedge_qspi_rd (k bitcount : ℕ) :
    on_posedge memory (lines (tx_lanes .quad byte k)
        ⟨buffer, bitcount, bytecount, 0, cmd, xip, addr, up, .mode_qspi_rd, .off, released, dout⟩)
        ⟨buffer, bitcount, bytecount, 0, cmd, xip, addr, up, .mode_qspi_rd, .off, released, dout⟩ =
      some (count_bits memory 4 ⟨shift4 buffer (byte.getLsbD (7 - 4 * k)) (byte.getLsbD (6 - 4 * k))
          (byte.getLsbD (5 - 4 * k)) (byte.getLsbD (4 - 4 * k)), bitcount, bytecount, 0, cmd, xip,
        addr, up, .mode_qspi_rd, .off, released, dout⟩) := by
  simp [on_posedge, lines, line, tx_lanes, released]

theorem clock_qspi_rd (k bitcount : ℕ) (hcount : bitcount + 4 ≠ 8) :
    ∃ io, clock memory (tx_lanes .quad byte k)
        ⟨buffer, bitcount, bytecount, 0, cmd, xip, addr, up, .mode_qspi_rd, .off, released, dout⟩ =
      some (io, ⟨shift4 buffer (byte.getLsbD (7 - 4 * k)) (byte.getLsbD (6 - 4 * k))
          (byte.getLsbD (5 - 4 * k)) (byte.getLsbD (4 - 4 * k)), bitcount + 4, bytecount, 0, cmd,
        xip, addr, up, .mode_qspi_rd, .off, released, dout⟩) := by
  refine ⟨_, clock_eq memory (on_posedge_qspi_rd memory byte buffer bytecount cmd xip addr up dout
    k bitcount) fun io => ?_⟩
  rw [count_bits, if_neg hcount]
  rfl

/-- A byte, for a low phase after it that does not depend on the lines. -/
theorem send_quad_byte {low : Registers}
    (hlow : ∀ io, on_low memory io (spi_action memory ⟨byte, 0, bytecount + 1, 0, cmd, xip, addr,
      up, .mode_qspi_rd, .off, released, dout⟩) = some low) :
    send_byte memory .quad byte
        ⟨buffer, 0, bytecount, 0, cmd, xip, addr, up, .mode_qspi_rd, .off, released, dout⟩ =
      some low := by
  obtain ⟨io, hfirst⟩ := clock_qspi_rd memory byte buffer bytecount cmd xip addr up dout 0 0
    (by decide)
  have hlast := clock_eq memory (on_posedge_qspi_rd memory byte
    (shift4 buffer (byte.getLsbD 7) (byte.getLsbD 6) (byte.getLsbD 5) (byte.getLsbD 4))
    bytecount cmd xip addr up dout 1 4) (fun io => by
      rw [count_bits, if_pos rfl]
      exact (congrArg (fun b => on_low memory io (spi_action memory ⟨b, 0, bytecount + 1, 0, cmd,
        xip, addr, up, .mode_qspi_rd, .off, released, dout⟩)) (shift4_shift4 buffer byte)).trans
          (hlow io))
  rw [send_byte, Speed.clocks, send_clocks, hfirst, Option.bind_eq_bind, Option.bind_some]
  simp only [Nat.zero_add, send_clocks]
  rw [hlast]
  rfl
end

/-! ### The phases of a read -/

/-- `csb` goes low. -/
theorem select_deselected {d : Registers} (hd : Deselected d) (hnext : d.next_mode = .off)
    (hdummy : d.dummycount = 0) (hxip : d.xip_cmd = 0) :
    ∃ dout, select memory d =
      some ⟨0, 0, 0, 0, d.spi_cmd, 0, d.spi_addr, d.powered_up, .mode_spi, .off, miso, dout⟩ := by
  obtain ⟨buffer, bitcount, bytecount, dummycount, spi_cmd, xip_cmd, spi_addr, powered_up, mode,
    next_mode, oe, dout⟩ := d
  obtain ⟨hbuffer, hbit, hbyte, hmode, hoe⟩ := hd
  subst hbuffer hbit hbyte hmode hoe hnext hdummy hxip
  refine ⟨{ dout with io1 := false }, ?_⟩
  simp [select, on_csb_low, on_low, drive_outputs, switch_mode, miso]

/-- While the address is sent. -/
def addressed (buffer : u8) (bytecount : ℕ) (addr : BitVec 24) (dout : Lanes Bool) : Registers :=
  ⟨buffer, 0, bytecount, 0, FLASH_CMD_READ_QUAD, 0, addr, true, .mode_qspi_rd, .off, released, dout⟩

/-- The flash waits for `n` dummy clocks, with the byte at `a` to be read first. -/
def waiting (n : ℕ) (a : BitVec 24) (dout : Lanes Bool) : Registers :=
  ⟨memory a, 0, 5, n, FLASH_CMD_READ_QUAD, 0, a + 1, true, .mode_qspi_wr, .off, released, dout⟩

/-- The flash outputs the byte at `a`. -/
def reading (bytecount : ℕ) (a : BitVec 24) : Registers :=
  ⟨memory a, 0, bytecount, 0, FLASH_CMD_READ_QUAD, 0, a + 1, true, .mode_qspi_wr, .off, driven,
    upper_nibble (memory a)⟩

theorem send_command (cmd : u8) (addr : BitVec 24) (dout : Lanes Bool) :
    ∃ dout', send_byte memory .standard FLASH_CMD_READ_QUAD
        ⟨0, 0, 0, 0, cmd, 0, addr, true, .mode_spi, .off, miso, dout⟩ =
      some (addressed FLASH_CMD_READ_QUAD 1 addr dout') := by
  refine send_standard_byte memory FLASH_CMD_READ_QUAD 0 0 cmd 0 addr true dout fun io dout => ?_
  rfl

/-- The three parts of the address put together. -/
theorem address_of_parts (addr : BitVec 24) (b2 b1 b0 : u8) :
    let addr : BitVec 24 := b2 ++ addr.extractLsb' 0 16
    let addr : BitVec 24 := addr.extractLsb' 16 8 ++ b1 ++ addr.extractLsb' 0 8
    addr.extractLsb' 8 16 ++ b0 = b2 ++ b1 ++ b0 := by
  intro addr2 addr3
  apply BitVec.eq_of_getLsbD_eq
  intro i hi
  simp only [addr3, addr2, BitVec.getLsbD_append, BitVec.getLsbD_extractLsb']
  by_cases h8 : i < 8
  · simp only [h8, if_true]
  by_cases h16 : i < 16
  · simp [h8, show i - 8 < 8 by omega, show i - 8 < 16 by omega, show 8 + (i - 8) = i by omega]
  · simp [h8, show ¬ i - 8 < 8 by omega, show i - 8 < 16 by omega, show 8 + (i - 8) = i by omega,
      h16, show i - 8 - 8 < 8 by omega, show 16 + (i - 8 - 8) = i by omega, show i - 16 = i - 8 - 8 by omega]

theorem send_address (b2 b1 b0 buffer : u8) (addr : BitVec 24) (dout : Lanes Bool) :
    send_bytes memory .quad [b2, b1, b0, 0] (addressed buffer 1 addr dout) =
      some (waiting memory latency (b2 ++ b1 ++ b0) dout) := by
  have h2 : send_byte memory .quad b2 (addressed buffer 1 addr dout) =
      some (addressed b2 2 (b2 ++ addr.extractLsb' 0 16) dout) :=
    send_quad_byte memory b2 buffer 1 _ 0 addr true dout fun io => rfl
  have h3 : ∀ addr, send_byte memory .quad b1 (addressed b2 2 addr dout) =
      some (addressed b1 3 (addr.extractLsb' 16 8 ++ b1 ++ addr.extractLsb' 0 8) dout) :=
    fun addr => send_quad_byte memory b1 b2 2 _ 0 addr true dout fun io => rfl
  have h4 : ∀ addr, send_byte memory .quad b0 (addressed b1 3 addr dout) =
      some (addressed b0 4 (addr.extractLsb' 8 16 ++ b0) dout) :=
    fun addr => send_quad_byte memory b0 b1 3 _ 0 addr true dout fun io => rfl
  -- the mode byte is not the one that keeps the command, and the first byte is fetched
  have h5 : ∀ addr, send_byte memory .quad 0 (addressed b0 4 addr dout) =
      some (waiting memory latency addr dout) :=
    fun addr => send_quad_byte memory 0 b0 4 _ 0 addr true dout fun io => rfl
  simp only [send_bytes, h2, h3, h4, h5, Option.bind_eq_bind, Option.bind_some, address_of_parts]

theorem dummy_clocks_waiting (n : ℕ) (a : BitVec 24) (dout : Lanes Bool) :
    dummy_clocks memory (n + 1) (waiting memory (n + 1) a dout) = some (reading memory 5 a) := by
  induction n with
  | zero => rfl
  | succ n ih =>
      rw [dummy_clocks]
      exact ih

/-- From the sixth byte on an action refills the register. -/
theorem spi_action_reading (buffer : u8) (bytecount : ℕ) (hcount : 5 ≤ bytecount) (a : BitVec 24)
    (dout : Lanes Bool) :
    spi_action memory ⟨buffer, 0, bytecount + 1, 0, FLASH_CMD_READ_QUAD, 0, a, true,
        .mode_qspi_wr, .off, driven, dout⟩ =
      ⟨memory a, 0, bytecount + 1, 0, FLASH_CMD_READ_QUAD, 0, a + 1, true, .mode_qspi_wr, .off,
        driven, dout⟩ := by
  simp [spi_action, take_command, read_io, take_address, fetch, FLASH_CMD_READ_QUAD,
    show bytecount ≠ 0 by omega, show bytecount + 1 ≠ 2 by omega, show bytecount + 1 ≠ 3 by omega,
    show bytecount + 1 ≠ 4 by omega, show bytecount + 1 ≠ 5 by omega,
    show 5 ≤ bytecount + 1 by omega]

/-- A byte of the data: the host gets it in two clocks, and the next one is fetched. -/
theorem receive_byte_reading (bytecount : ℕ) (hcount : 5 ≤ bytecount) (a : BitVec 24) :
    receive_byte memory .quad (reading memory bytecount a) =
      some (memory a, reading memory (bytecount + 1) (a + 1)) := by
  obtain ⟨x, hx⟩ : ∃ x, x = memory a := ⟨_, rfl⟩
  let lower : Lanes Bool := ⟨x.getLsbD 0, x.getLsbD 1, x.getLsbD 2, x.getLsbD 3⟩
  have hfirst : clock memory undriven (reading memory bytecount a) =
      some (⟨some (x.getLsbD 4), some (x.getLsbD 5), some (x.getLsbD 6), some (x.getLsbD 7)⟩,
        ⟨shift4 x (x.getLsbD 7) (x.getLsbD 6) (x.getLsbD 5) (x.getLsbD 4), 4, bytecount, 0,
          FLASH_CMD_READ_QUAD, 0, a + 1, true, .mode_qspi_wr, .off, driven, lower⟩) := by
    simp only [lower]
    rw [hx, ← upper_nibble_shift4 (memory a)]
    rfl
  have hlast : ∀ buffer, clock memory undriven ⟨buffer, 4, bytecount, 0, FLASH_CMD_READ_QUAD, 0,
        a + 1, true, .mode_qspi_wr, .off, driven, lower⟩ =
      some (⟨some (x.getLsbD 0), some (x.getLsbD 1), some (x.getLsbD 2), some (x.getLsbD 3)⟩,
        reading memory (bytecount + 1) (a + 1)) := by
    intro buffer
    -- what the flash shifts in are its own outputs, and they do not matter
    have hhigh : on_posedge memory (lines undriven ⟨buffer, 4, bytecount, 0, FLASH_CMD_READ_QUAD,
          0, a + 1, true, .mode_qspi_wr, .off, driven, lower⟩) ⟨buffer, 4, bytecount, 0,
          FLASH_CMD_READ_QUAD, 0, a + 1, true, .mode_qspi_wr, .off, driven, lower⟩ =
        some (spi_action memory ⟨shift4 buffer (x.getLsbD 3) (x.getLsbD 2) (x.getLsbD 1)
          (x.getLsbD 0), 0, bytecount + 1, 0, FLASH_CMD_READ_QUAD, 0, a + 1, true, .mode_qspi_wr,
          .off, driven, lower⟩) := rfl
    rw [spi_action_reading memory _ bytecount hcount] at hhigh
    exact clock_eq memory hhigh fun io => rfl
  rw [receive_byte, Speed.clocks, receive_clocks, hfirst, Option.bind_eq_bind, Option.bind_some]
  simp only [rx_shift, Option.bind_eq_bind, Option.bind_some, receive_clocks, hlast,
    shift4_shift4]
  rw [hx]

theorem receive_bytes_reading (n bytecount : ℕ) (hcount : 5 ≤ bytecount) (a : BitVec 24) :
    receive_bytes memory .quad n (reading memory bytecount a) =
      some ((List.range n).map fun i => memory (a + BitVec.ofNat 24 i),
        reading memory (bytecount + n) (a + BitVec.ofNat 24 n)) := by
  induction n generalizing bytecount a with
  | zero => simp [receive_bytes]
  | succ n ih =>
      have hnext : ∀ i, a + 1 + BitVec.ofNat 24 i = a + BitVec.ofNat 24 (i + 1) := by
        intro i
        rw [BitVec.add_assoc, BitVec.ofNat_add, BitVec.add_comm (1 : BitVec 24)]
        rfl
      rw [receive_bytes, receive_byte_reading memory bytecount hcount]
      simp only [Option.bind_eq_bind, Option.bind_some, ih (bytecount + 1) (by omega), hnext]
      rw [List.range_succ_eq_map, List.map_cons, List.map_map, Nat.add_right_comm, Nat.add_assoc]
      simp [Function.comp_def]

/-! ### Segments keep to the states of the flash -/

theorem reachable_dummy_clocks {n : ℕ} {d d' : Registers} (hd : Reachable memory false d)
    (hrun : dummy_clocks memory n d = some d') : Reachable memory false d' := by
  induction n generalizing d with
  | zero =>
      cases hrun
      exact hd
  | succ n ih =>
      simp only [dummy_clocks, Option.bind_eq_bind, Option.bind_eq_some_iff] at hrun
      obtain ⟨⟨io, d1⟩, hclock, hrest⟩ := hrun
      exact ih (hd.clock hclock) hrest

theorem reachable_send_clocks {speed : Speed} {byte : u8} {n k : ℕ} {d d' : Registers}
    (hd : Reachable memory false d) (hrun : send_clocks memory speed byte n k d = some d') :
    Reachable memory false d' := by
  induction n generalizing k d with
  | zero =>
      cases hrun
      exact hd
  | succ n ih =>
      simp only [send_clocks, Option.bind_eq_bind, Option.bind_eq_some_iff] at hrun
      obtain ⟨⟨io, d1⟩, hclock, hrest⟩ := hrun
      exact ih (hd.clock hclock) hrest

theorem reachable_send_bytes {speed : Speed} {bytes : List u8} {d d' : Registers}
    (hd : Reachable memory false d) (hrun : send_bytes memory speed bytes d = some d') :
    Reachable memory false d' := by
  induction bytes generalizing d with
  | nil =>
      cases hrun
      exact hd
  | cons byte bytes ih =>
      simp only [send_bytes, Option.bind_eq_bind, Option.bind_eq_some_iff] at hrun
      obtain ⟨d1, hbyte, hrest⟩ := hrun
      exact ih (reachable_send_clocks memory hd hbyte) hrest

theorem reachable_receive_clocks {speed : Speed} {n : ℕ} {byte byte' : u8} {d d' : Registers}
    (hd : Reachable memory false d)
    (hrun : receive_clocks memory speed n byte d = some (byte', d')) : Reachable memory false d' := by
  induction n generalizing byte d with
  | zero =>
      cases hrun
      exact hd
  | succ n ih =>
      simp only [receive_clocks, Option.bind_eq_bind, Option.bind_eq_some_iff] at hrun
      obtain ⟨⟨io, d1⟩, hclock, byte1, _, hrest⟩ := hrun
      exact ih (hd.clock hclock) hrest

theorem reachable_receive_bytes {speed : Speed} {n : ℕ} {bytes : List u8} {d d' : Registers}
    (hd : Reachable memory false d)
    (hrun : receive_bytes memory speed n d = some (bytes, d')) : Reachable memory false d' := by
  induction n generalizing d bytes with
  | zero =>
      cases hrun
      exact hd
  | succ n ih =>
      simp only [receive_bytes, Option.bind_eq_bind, Option.bind_eq_some_iff,
        Option.some.injEq, Prod.mk.injEq] at hrun
      obtain ⟨⟨byte, d1⟩, hbyte, ⟨rest, d2⟩, hrest, _, rfl⟩ := hrun
      exact ih (reachable_receive_clocks memory hd hbyte) hrest

/-- The flash of a host is in a state it can come to. -/
def HostReachable (s : SpiHost) : Prop := Reachable memory s.csb s.flash

theorem reachable_start_segment {s s' : SpiHost} (hs : HostReachable memory s)
    (hrun : start_segment memory s = some s') : HostReachable memory s' ∧ s'.csb = false := by
  unfold start_segment at hrun
  by_cases hcsb : s.csb = true
  · rw [if_pos hcsb, Option.map_eq_some_iff] at hrun
    obtain ⟨flash, hselect, rfl⟩ := hrun
    rw [HostReachable, hcsb] at hs
    exact ⟨Reachable.select hs hselect, rfl⟩
  · rw [if_neg hcsb] at hrun
    cases hrun
    exact ⟨hs, Bool.eq_false_iff.mpr hcsb⟩

theorem reachable_run_direction {command : Command} {s s' : SpiHost} (hs : HostReachable memory s)
    (hcsb : s.csb = false) (hrun : run_direction memory command s = some s') :
    HostReachable memory s' ∧ s'.csb = false := by
  rw [HostReachable, hcsb] at hs
  simp only [run_direction, Option.bind_eq_bind, Option.bind_eq_some_iff] at hrun
  obtain ⟨speed, _, hrun⟩ := hrun
  split_ifs at hrun
  all_goals simp only [Option.bind_eq_some_iff, Option.some.injEq] at hrun
  · obtain ⟨flash, hsend, rfl⟩ := hrun
    refine ⟨?_, hcsb⟩
    rw [HostReachable, hcsb]
    exact reachable_send_bytes memory hs hsend
  · obtain ⟨⟨bytes, flash⟩, hreceive, rfl⟩ := hrun
    refine ⟨?_, hcsb⟩
    rw [HostReachable, hcsb]
    exact reachable_receive_bytes memory hs hreceive
  · obtain ⟨flash, hdummy, rfl⟩ := hrun
    refine ⟨?_, hcsb⟩
    rw [HostReachable, hcsb]
    exact reachable_dummy_clocks memory hs hdummy

theorem reachable_run_segment {command : Command} {s s' : SpiHost} (hs : HostReachable memory s)
    (hrun : run_segment memory command s = some s') : HostReachable memory s' := by
  simp only [run_segment, Option.bind_eq_bind, Option.bind_eq_some_iff, Option.some.injEq] at hrun
  obtain ⟨s1, hstart, s2, hdirection, rfl⟩ := hrun
  obtain ⟨hs1, hlow⟩ := reachable_start_segment memory hs hstart
  obtain ⟨hs2, hlow⟩ := reachable_run_direction memory hs1 hlow hdirection
  unfold end_segment
  split_ifs
  · exact hs2
  · rw [HostReachable, hlow] at hs2
    exact Reachable.deselect hs2

/-! ### The whole read -/

/-- Nothing is going on: the FIFOs are empty, and the flash is powered up, not selected, and
without dummy clocks or a command to go on with. -/
structure Idle (s : SpiHost) : Prop where
  reachable : HostReachable memory s
  csb : s.csb = true
  powered_up : s.flash.powered_up = true
  dummycount : s.flash.dummycount = 0
  xip_cmd : s.flash.xip_cmd = 0
  tx : s.tx = []
  rx : s.rx = []

theorem shiftRight_and_0xFF (addr : u32) (i : ℕ) :
    addr >>> (8 * i) &&& 0xFF = (byteOf addr i).setWidth 32 := by
  apply BitVec.eq_of_toNat_eq
  have hmask : (0xFF : u32).toNat = 2 ^ 8 - 1 := rfl
  rw [BitVec.toNat_and, hmask, Nat.and_two_pow_sub_one_eq_mod, BitVec.toNat_ushiftRight, byteOf,
    BitVec.toNat_setWidth, BitVec.extractLsb'_toNat]
  omega

theorem pack_address_eq (addr : u32) :
    pack_address addr = word (byteOf addr 2) (byteOf addr 1) (byteOf addr 0) 0 := by
  have h0 := shiftRight_and_0xFF addr 0
  have h1 := shiftRight_and_0xFF addr 1
  have h2 := shiftRight_and_0xFF addr 2
  rw [pack_address, h0, h1, h2, word, BitVec.shiftLeft_zero]
  rfl

theorem bytes_of_pack_address (addr : u32) :
    bytes_of_word (pack_address addr) = [byteOf addr 2, byteOf addr 1, byteOf addr 0, 0] := by
  rw [pack_address_eq, bytes_of_word]
  simp only [byteOf_word, Nat.reduceLT, if_true, if_false, one_ne_zero, OfNat.ofNat_ne_zero,
    Nat.reduceEqDiff]

theorem address_of_bytes (addr : u32) :
    (byteOf addr 2 ++ byteOf addr 1 ++ byteOf addr 0 : BitVec 24) = addr.setWidth 24 := by
  apply BitVec.eq_of_getLsbD_eq
  intro i hi
  simp only [byteOf, BitVec.getLsbD_append, BitVec.getLsbD_extractLsb', BitVec.getLsbD_setWidth, hi,
    decide_true, Bool.true_and]
  by_cases h8 : i < 8
  · simp [h8]
  by_cases h16 : i < 16
  · simp [h8, show i - 8 < 8 by omega, show 8 + (i - 8) = i by omega]
  · simp [h8, show ¬ i - 8 < 8 by omega, show i - 8 - 8 < 8 by omega,
      show 16 + (i - 8 - 8) = i by omega]

/-- The four commands of a read as the host takes them. -/
theorem decode_command : Command.decode (spi_make_command SPI_DIR_TX SPI_SPEED_STANDARD 1 1) =
    ⟨SPI_DIR_TX, some .standard, true, 1⟩ := rfl

theorem decode_address : Command.decode (spi_make_command SPI_DIR_TX SPI_SPEED_QUAD 1 4) =
    ⟨SPI_DIR_TX, some .quad, true, 4⟩ := rfl

theorem decode_dummy :
    Command.decode (spi_make_command SPI_DIR_DUMMY SPI_SPEED_QUAD 1 FLASH_DUMMY_CYCLES) =
      ⟨SPI_DIR_DUMMY, some .quad, true, 8⟩ := rfl

theorem decode_data : Command.decode (spi_make_command SPI_DIR_RX SPI_SPEED_QUAD 0 4) =
    ⟨SPI_DIR_RX, some .quad, false, 4⟩ := rfl

/-- The first segment: the flash is selected and gets the command. -/
theorem run_command_segment {s : SpiHost} (hidle : Idle memory s) :
    ∃ dout, spi_run_command memory SPI_DIR_TX SPI_SPEED_STANDARD 1 1
        (spi_transmit_byte FLASH_CMD_READ_QUAD s) =
      some ⟨[], [], false, addressed FLASH_CMD_READ_QUAD 1 s.flash.spi_addr dout⟩ := by
  obtain ⟨hnext, hdeselected⟩ := deselected_of_reachable memory hidle.reachable
  obtain ⟨dout, hselect⟩ := select_deselected memory (hdeselected hidle.csb) hnext
    hidle.dummycount hidle.xip_cmd
  rw [hidle.powered_up] at hselect
  obtain ⟨dout', hcommand⟩ := send_command memory s.flash.spi_cmd s.flash.spi_addr dout
  have hstart : start_segment memory (spi_transmit_byte FLASH_CMD_READ_QUAD s) =
      some ⟨[0xEB], [], false, ⟨0, 0, 0, 0, s.flash.spi_cmd, 0, s.flash.spi_addr, true, .mode_spi,
        .off, miso, dout⟩⟩ := by
    simp only [start_segment, spi_transmit_byte, spi_transmit_word, hidle.csb, hidle.tx, hidle.rx,
      hselect, if_true, Option.map_some, List.nil_append]
    rfl
  refine ⟨dout', ?_⟩
  rw [spi_run_command, decode_command, run_segment, hstart]
  have hbytes : (([(0xEB : u32)].take ((1 + 3) / 4)).flatMap bytes_of_word).take 1 =
      [FLASH_CMD_READ_QUAD] := rfl
  simp only [Option.bind_eq_bind, Option.bind_some, run_direction, if_true, hbytes, send_bytes,
    hcommand]
  rfl

/-- The second one: the address and the mode byte. -/
theorem run_address_segment (addr : u32) (addr0 : BitVec 24) (dout : Lanes Bool) :
    spi_run_command memory SPI_DIR_TX SPI_SPEED_QUAD 1 4
        (spi_transmit_word (pack_address addr)
          ⟨[], [], false, addressed FLASH_CMD_READ_QUAD 1 addr0 dout⟩) =
      some ⟨[], [], false, waiting memory latency (addr.setWidth 24) dout⟩ := by
  have hbytes : (([pack_address addr].take ((4 + 3) / 4)).flatMap bytes_of_word).take 4 =
      [byteOf addr 2, byteOf addr 1, byteOf addr 0, 0] := by
    rw [← bytes_of_pack_address addr]
    rfl
  rw [spi_run_command, decode_address, run_segment]
  simp only [start_segment, spi_transmit_word, List.nil_append, Option.bind_eq_bind,
    Option.bind_some, run_direction, if_true, hbytes,
    send_address, address_of_bytes, Bool.false_eq_true, if_false]
  rfl

/-- The third one: the dummy clocks. -/
theorem run_dummy_segment (a : BitVec 24) (dout : Lanes Bool) :
    spi_run_command memory SPI_DIR_DUMMY SPI_SPEED_QUAD 1 FLASH_DUMMY_CYCLES
        ⟨[], [], false, waiting memory latency a dout⟩ =
      some ⟨[], [], false, reading memory 5 a⟩ := by
  have hclocks := dummy_clocks_waiting memory 7 a dout
  have htx : SPI_DIR_DUMMY ≠ SPI_DIR_TX := by decide
  have hrx : SPI_DIR_DUMMY ≠ SPI_DIR_RX := by decide
  rw [spi_run_command, decode_dummy, run_segment]
  simp only [start_segment, Option.bind_eq_bind, Option.bind_some, run_direction, if_neg htx,
    if_neg hrx, if_true, Bool.false_eq_true, if_false]
  rw [show dummy_clocks memory 8 (waiting memory latency a dout) = _ from hclocks]
  rfl

/-- The last one: four bytes of data, and the flash is deselected. -/
theorem run_data_segment (a : BitVec 24) :
    spi_run_command memory SPI_DIR_RX SPI_SPEED_QUAD 0 4 ⟨[], [], false, reading memory 5 a⟩ =
      some ⟨[], [word (memory a) (memory (a + 1)) (memory (a + 2)) (memory (a + 3))], true,
        deselect (reading memory 9 (a + 4))⟩ := by
  have hbytes := receive_bytes_reading memory 4 5 (by decide) a
  have htx : SPI_DIR_RX ≠ SPI_DIR_TX := by decide
  rw [spi_run_command, decode_data, run_segment]
  simp only [start_segment, Option.bind_eq_bind, Option.bind_some, run_direction, if_neg htx,
    if_true, Bool.false_eq_true, if_false, hbytes]
  simp [end_segment, List.range_succ, words_of_bytes]

/-- The word comes out, and the host and the flash are idle again. -/
theorem flash_read_word_reads (addr : u32) (s : SpiHost) (hidle : Idle memory s) :
    ∃ s', flash_read_word memory addr s =
        some (Bootloader.flash_read_word (fun i => memory (BitVec.ofNat 24 i)) addr, s') ∧
      Idle memory s' := by
  obtain ⟨dout, h1⟩ := run_command_segment memory hidle
  have h2 := run_address_segment memory addr s.flash.spi_addr dout
  have h3 := run_dummy_segment memory (addr.setWidth 24) dout
  have h4 := run_data_segment memory (addr.setWidth 24)
  have hword : word (memory (addr.setWidth 24)) (memory (addr.setWidth 24 + 1))
      (memory (addr.setWidth 24 + 2)) (memory (addr.setWidth 24 + 3)) =
        Bootloader.flash_read_word (fun i => memory (BitVec.ofNat 24 i)) addr := by
    have haddr : (addr.setWidth 24 : BitVec 24) = BitVec.ofNat 24 addr.toNat := by
      rw [BitVec.ofNat_toNat]
    rw [Bootloader.flash_read_word, readWord, haddr]
    simp only [BitVec.ofNat_add]
    rfl
  refine ⟨⟨[], [], true, deselect (reading memory 9 (addr.setWidth 24 + 4))⟩, ?_, ?_, rfl, rfl, rfl,
    rfl, rfl, rfl⟩
  · simp only [flash_read_word, Option.bind_eq_bind, h1, Option.bind_some, h2, h3, h4,
      spi_receive_word, hword]
  · -- every segment keeps to the states of the flash
    have hs1 := reachable_run_segment memory (s := spi_transmit_byte FLASH_CMD_READ_QUAD s)
      hidle.reachable h1
    have hs2 := reachable_run_segment memory
      (s := spi_transmit_word (pack_address addr) ⟨[], [], false, _⟩) hs1 h2
    have hs3 := reachable_run_segment memory hs2 h3
    have hs4 := reachable_run_segment memory hs3 h4
    exact hs4

/-! ### Powering up -/

/-- The host after `spi_init` and a flash that has not been used. -/
def initial_host (spi_cmd : u8) (spi_addr : BitVec 24) : SpiHost :=
  ⟨[], [], true, power_on spi_cmd spi_addr⟩

theorem decode_power_up : Command.decode (spi_make_command SPI_DIR_TX SPI_SPEED_STANDARD 0 1) =
    ⟨SPI_DIR_TX, some .standard, false, 1⟩ := rfl

/-- Powering up makes the flash idle. -/
theorem flash_power_up_idle (spi_cmd : u8) (spi_addr : BitVec 24) :
    ∃ s, flash_power_up memory (initial_host spi_cmd spi_addr) = some s ∧ Idle memory s := by
  have hs : HostReachable memory (spi_transmit_byte FLASH_CMD_POWER_UP
      (initial_host spi_cmd spi_addr)) := Reachable.power_on spi_cmd spi_addr
  obtain ⟨dout, hselect⟩ := select_deselected memory (d := power_on spi_cmd spi_addr)
    ⟨rfl, rfl, rfl, rfl, rfl⟩ rfl rfl rfl
  let powered (dout : Lanes Bool) : Registers := ⟨FLASH_CMD_POWER_UP, 0, 1, 0, FLASH_CMD_POWER_UP,
    0, spi_addr, true, .mode_spi, .off, miso, { dout with io1 := true }⟩
  have hlow : ∀ io dout, on_low memory io (spi_action memory ⟨FLASH_CMD_POWER_UP, 0, 0 + 1, 0,
      spi_cmd, 0, spi_addr, false, .mode_spi, .off, miso, dout⟩) = some (powered dout) := by
    intro io dout
    simp [on_low, drive_outputs, spi_action, take_command, switch_mode, FLASH_CMD_POWER_UP, miso,
      powered]
  obtain ⟨dout', hcommand⟩ := send_standard_byte memory FLASH_CMD_POWER_UP 0 0 spi_cmd 0 spi_addr
    false dout hlow
  have hstart : start_segment memory (spi_transmit_byte FLASH_CMD_POWER_UP
      (initial_host spi_cmd spi_addr)) = some ⟨[0xAB], [], false, ⟨0, 0, 0, 0, spi_cmd, 0, spi_addr,
        false, .mode_spi, .off, miso, dout⟩⟩ := by
    have hcsb : (spi_transmit_byte FLASH_CMD_POWER_UP (initial_host spi_cmd spi_addr)).csb = true :=
      rfl
    rw [start_segment, if_pos hcsb]
    exact (congrArg (Option.map _) hselect).trans rfl
  have hrun : flash_power_up memory (initial_host spi_cmd spi_addr) =
      some ⟨[], [], true, deselect (powered dout')⟩ := by
    have hbytes : (([(0xAB : u32)].take ((1 + 3) / 4)).flatMap bytes_of_word).take 1 =
        [FLASH_CMD_POWER_UP] := rfl
    rw [flash_power_up, spi_run_command, decode_power_up, run_segment, hstart]
    simp only [Option.bind_eq_bind, Option.bind_some, run_direction, if_true, hbytes, send_bytes,
      hcommand]
    rfl
  exact ⟨_, hrun, reachable_run_segment memory hs hrun, rfl, rfl, rfl, rfl, rfl, rfl⟩

/-- The word at address 16 of a memory that holds its own addresses. -/
theorem flash_read_word_sixteen :
    ∃ s s', flash_power_up (fun a => a.setWidth 8) (initial_host 0 0) = some s ∧
      flash_read_word (fun a => a.setWidth 8) 16 s = some (0x13121110, s') := by
  obtain ⟨s, hpower, hidle⟩ := flash_power_up_idle (fun a => a.setWidth 8) 0 0
  obtain ⟨s', hread, _⟩ := flash_read_word_reads (fun a => a.setWidth 8) 16 s hidle
  exact ⟨s, s', hpower, hread.trans (by rfl)⟩

end

end IbexFirmware.FlashRead
