/-
The KMAC driver of the silicon creator (`kmac.c`).

KMAC256 is cSHAKE256 of a message under a prefix. The block puts the key in front, and the
driver is to write the two encoded names of the prefix into registers, to append the encoded
length of the result to the message, and to read the result, a rate block at a time. `Block` is
the hardware: what was written to it, and what it is doing. An access that the hardware does
not take in the state that it is in is `none`, as are the traps of the driver.

The message may come in any chunks. `kmac256_iff` says that what is fed to the block is what the
standard says unless the result is empty: the length 0 is a byte of its own in the standard, and
the driver leaves it out.
-/
import IbexFirmware.Lib.Bits
import IbexFirmware.Lib.Cells
import IbexFirmware.RomError

set_option autoImplicit false

namespace IbexFirmware.Kmac

open Bytes Bits Cells

def kModuleKmac : u32 := MODULE_CODE 'K' 'C'
def kErrorKmacInvalidStatus : u32 := ERROR_ 1 kModuleKmac kInternal
def kErrorOk : u32 := RomError.kErrorOk.code

def UINT32_MAX : u32 := 0xffffffff
def kShake256KeccakCapacity : ℕ := 2 * 256
def kShake256KeccakRateBits : ℕ := 1600 - kShake256KeccakCapacity
def kShake256KeccakRateBytes : ℕ := kShake256KeccakRateBits / 8
def kShake256KeccakRateWords : u32 := BitVec.ofNat 32 (kShake256KeccakRateBytes / 4)

/-- From the generated header. -/
def KMAC_PREFIX_MULTIREG_COUNT : ℕ := 11

/-! ## The encodings of the standard -/

/-- The digits of a number to base 256, the upper one first, and one for zero. -/
def digits (x : ℕ) : List u8 :=
  if x = 0 then [0] else ((Nat.digits 256 x).map (BitVec.ofNat 8)).reverse

/-- `left_encode`. -/
def left_encode (x : ℕ) : List u8 := BitVec.ofNat 8 (digits x).length :: digits x

/-- `right_encode`. -/
def right_encode (x : ℕ) : List u8 := digits x ++ [BitVec.ofNat 8 (digits x).length]

/-- `encode_string`: the length is in bits. -/
def encode_string (s : List u8) : List u8 := left_encode (8 * s.length) ++ s

/-- The name of the function that KMAC is. -/
def name_kmac : List u8 := [0x4b, 0x4d, 0x41, 0x43]

/-! ## The block -/

inductive Phase where
  | idle
  | absorb
  | squeeze
  deriving DecidableEq

/-- How the hardware behaves: the words that it squeezes for a prefix and a message, the share
that masks each of them, how long it is busy with a command, and when it reports an error. -/
structure Hardware where
  output : List u8 → List u8 → ℕ → u32
  share0 : ℕ → u32
  busy : ℕ → ℕ
  err : ℕ → Bool

/-- The registers of the prefix, the message, the block of the output that can be read, and the
number of polls and of commands so far. While it is busy there are polls left in which it has
not reached its phase. -/
structure Block where
  prefix_regs : ℕ → u32
  msg : List u8
  phase : Phase
  block : ℕ
  busy : ℕ
  polls : ℕ
  commands : ℕ

def Block.Ready (d : Block) (phase : Phase) : Prop := d.phase = phase ∧ d.busy = 0

instance (d : Block) (phase : Phase) : Decidable (d.Ready phase) :=
  inferInstanceAs (Decidable (_ ∧ _))

/-- `CMD`. -/
inductive Cmd where
  | start
  | process
  | run
  | done
  deriving DecidableEq

section

variable (hw : Hardware)

/-- A command in the phase that it belongs to. -/
def Block.command (d : Block) (cmd : Cmd) : Option Block :=
  let d' := { d with busy := hw.busy d.commands, commands := d.commands + 1 }
  match cmd with
  | .start => if d.Ready .idle then some { d' with phase := .absorb, msg := [] } else none
  | .process => if d.Ready .absorb then some { d' with phase := .squeeze, block := 0 } else none
  | .run => if d.Ready .squeeze then some { d' with block := d.block + 1 } else none
  | .done => if d.Ready .squeeze then some { d' with phase := .idle } else none

/-- Bytes that are written to the message FIFO. -/
def Block.feed (d : Block) (bytes : List u8) : Option Block :=
  if d.Ready .absorb then some { d with msg := d.msg ++ bytes } else none

def Block.write_prefix (d : Block) (i : ℕ) (value : u32) : Option Block :=
  if d.Ready .idle then some { d with prefix_regs := Function.update d.prefix_regs i value }
  else none

/-- The bytes of the registers of the prefix. -/
def Block.prefix_bytes (d : Block) : List u8 :=
  (List.range KMAC_PREFIX_MULTIREG_COUNT).flatMap fun i => le32 (d.prefix_regs i)

/-- The two shares of word `offset` of the state. -/
def Block.state (d : Block) (offset : ℕ) : Option (u32 × u32) :=
  if d.Ready .squeeze then
    let i := d.block * (kShake256KeccakRateBytes / 4) + offset
    some (hw.share0 i, hw.share0 i ^^^ hw.output d.prefix_bytes d.msg i)
  else none

/-- Reading `INTR_STATE` and then `STATUS`: the error, and whether the phase has been reached. -/
def Block.poll (d : Block) (phase : Phase) : Bool × Bool × Block :=
  (hw.err d.polls, decide (d.Ready phase), { d with busy := d.busy - 1, polls := d.polls + 1 })

/-! ## The driver -/

/-- The memory, an array of words for the result, and the block. -/
structure World where
  mem : Mem
  out : ℕ → u32
  dev : Block

def bit (b : Bool) : u32 := if b then 1 else 0

/-- The loop of `poll_state`. -/
def poll_loop (phase : Phase) : (fuel : ℕ) → (res is_error : u32) → Block →
    Option (u32 × u32 × Bool × Block)
  | 0, _, _, _ => none
  | fuel + 1, res, is_error, d =>
      let (err_bit, flag, d) := d.poll hw phase
      let is_error := is_error ^^^ (~~~bit err_bit + 1)
      let res := res ^^^ ((~~~bit flag + 1) <<< 1)
      if !flag ∧ is_error = kHardenedBoolFalse then poll_loop phase fuel res is_error d
      else some (res, is_error, flag, d)

/-- The block is polled once more than it is busy. -/
def poll_state (phase : Phase) (s : World) : Option (u32 × World) := do
  let (res, is_error, flag, dev) ←
    poll_loop hw phase (s.dev.busy + 1) (kErrorOk ^^^ UINT32_MAX) kHardenedBoolFalse s.dev
  let res := res ^^^ bit flag
  if is_error = kHardenedBoolFalse then return (res, { s with dev := dev })
  else return (kErrorKmacInvalidStatus, { s with dev := dev })

def issue_command (cmd : Cmd) (s : World) : Option World := do
  let dev ← s.dev.command hw cmd
  return { s with dev := dev }

def kmac_shake256_start (s : World) : Option (u32 × World) := do
  let (error, s) ← poll_state hw .idle s
  if error ≠ kErrorOk then return (error, s)
  else do
    let s ← issue_command hw .start s
    let (error, s) ← poll_state hw .absorb s
    if error ≠ kErrorOk then return (error, s)
    else return (kErrorOk, s)

def kmac_kmac256_start (s : World) : Option (u32 × World) := kmac_shake256_start hw s

/-- A loop that writes `size` bytes at a time to the FIFO. -/
def fifo_loop (go_on : (in_ptr inlen : u32) → Bool) (size : u32) (value : u32 → List u8) :
    (fuel : ℕ) → (in_ptr inlen : u32) → Block → Option (u32 × u32 × Block)
  | 0, in_ptr, inlen, d => some (in_ptr, inlen, d)
  | fuel + 1, in_ptr, inlen, d =>
      if go_on in_ptr inlen then do
        let d ← d.feed (value in_ptr)
        fifo_loop go_on size value fuel (in_ptr + size) (inlen - size) d
      else some (in_ptr, inlen, d)

/-- Each round takes a byte at least. -/
def kmac_shake256_absorb (in_ptr inlen : u32) (s : World) : Option World := do
  let byte := fun p : u32 => [s.mem p.toNat]
  let word := fun p : u32 => le32 (readWord s.mem p.toNat)
  let fuel := inlen.toNat
  let (in_ptr, inlen, d) ←
    fifo_loop (fun in_ptr inlen => inlen > 0 ∧ in_ptr % 4 ≠ 0) 1 byte fuel in_ptr inlen s.dev
  let (in_ptr, inlen, d) ← fifo_loop (fun _ inlen => inlen ≥ 4) 4 word fuel in_ptr inlen d
  let (_, inlen, d) ← fifo_loop (fun _ inlen => inlen > 0) 1 byte fuel in_ptr inlen d
  hardened_check (inlen = 0)
  return { s with dev := d }

def kmac_kmac256_absorb (data len : u32) (s : World) : Option World :=
  kmac_shake256_absorb data len s

def kmac_shake256_squeeze_start (s : World) : Option World := issue_command hw .process s

/-- The words of one rate block. -/
def squeeze_words (outlen : u32) : (fuel : ℕ) → (idx offset : u32) → World →
    Option (u32 × u32 × World)
  | 0, idx, offset, s => some (idx, offset, s)
  | fuel + 1, idx, offset, s =>
      if idx < outlen ∧ offset < kShake256KeccakRateWords then do
        let (share0, share1) ← s.dev.state hw offset.toNat
        let s := { s with out := Function.update s.out idx.toNat (share0 ^^^ share1) }
        squeeze_words outlen fuel (idx + 1) (offset + 1) s
      else some (idx, offset, s)

/-- The loop of `kmac_shake256_squeeze_end`. -/
def squeeze_loop (outlen : u32) : (fuel : ℕ) → (idx : u32) → World → Option (u32 × u32 × World)
  | 0, idx, s => some (kErrorOk, idx, s)
  | fuel + 1, idx, s =>
      if idx < outlen then do
        hardened_check (idx % kShake256KeccakRateWords = 0)
        let (error, s) ← poll_state hw .squeeze s
        if error ≠ kErrorOk then return (error, idx, s)
        else do
          let (idx, offset, s) ← squeeze_words hw outlen kShake256KeccakRateWords.toNat idx 0 s
          let s ← (if offset = kShake256KeccakRateWords then issue_command hw .run s else pure s)
          squeeze_loop outlen fuel idx s
      else some (kErrorOk, idx, s)

/-- Each round reads a word at least. -/
def kmac_shake256_squeeze_end (outlen : u32) (s : World) : Option (u32 × World) := do
  let (error, idx, s) ← squeeze_loop hw outlen outlen.toNat 0 s
  if error ≠ kErrorOk then return (error, s)
  else do
    hardened_check (idx = outlen)
    let (error, s) ← poll_state hw .squeeze s
    if error ≠ kErrorOk then return (error, s)
    else do
      let s ← issue_command hw .done s
      return (kErrorOk, s)

/-- The bytes from `p` on. -/
def bytes_from (mem : Mem) (p : u32) (n : ℕ) : List u8 :=
  (List.range n).map fun i => mem (p + BitVec.ofNat 32 i).toNat

/-- The array `regs` of `kmac_kmac256_set_prefix`, as the bytes in memory. -/
def prefix_array (name : List u8) : Mem :=
  let regs : Mem := writeWord (writeWord (fun _ => 0) 0 0x4D4B2001) 4 0x00014341
  let regs := Function.update regs 7 (BitVec.ofNat 8 (name.length * 8))
  writeBytes regs 8 name

def kmac_kmac256_set_prefix (prefix_ptr len : u32) (s : World) : Option World := do
  hardened_check (len < 32)
  let regs := prefix_array (bytes_from s.mem prefix_ptr len.toNat)
  let dev ← (List.range KMAC_PREFIX_MULTIREG_COUNT).foldlM
    (fun d i => d.write_prefix i (readWord regs (i * 4))) s.dev
  return { s with dev := dev }

/-- The loop that stores the digits of the length in front of `p`. A word has four of them. -/
def digits_loop (buffer : u32) : (fuel : ℕ) → (val n p : u32) → Mem → u32 × u32 × Mem
  | 0, _, n, p, mem => (n, p, mem)
  | fuel + 1, val, n, p, mem =>
      if val ≠ 0 then
        digits_loop buffer fuel (val >>> 8) (n + 1) (p - 1)
          (Function.update mem (buffer + (p - 1)).toNat ((val &&& 0xFF).setWidth 8))
      else (n, p, mem)

/-- The array `buffer` is at an address of the stack. -/
def kmac_kmac256_final (buffer rlen : u32) (s : World) : Option (u32 × World) := do
  let val := rlen * 32
  let (n, p, mem) := digits_loop buffer 4 val 0 4 s.mem
  let mem := Function.update mem (buffer + 4).toNat (n.setWidth 8)
  let s ← kmac_shake256_absorb (buffer + p) (n + 1) { s with mem := mem }
  let s ← kmac_shake256_squeeze_start hw s
  kmac_shake256_squeeze_end hw rlen s

/-- A whole computation: the prefix, the chunks of the message, and the result. -/
def kmac256 (prefix_ptr len : u32) (chunks : List (u32 × u32)) (buffer rlen : u32) (s : World) :
    Option (u32 × World) := do
  let s ← kmac_kmac256_set_prefix prefix_ptr len s
  let (error, s) ← kmac_kmac256_start hw s
  if error ≠ kErrorOk then return (error, s)
  else do
    let s ← chunks.foldlM (fun s chunk => kmac_kmac256_absorb chunk.1 chunk.2 s) s
    kmac_kmac256_final hw buffer rlen s

end

/-! ## Polls and commands -/

section polls

variable {hw : Hardware} (herr : ∀ k, hw.err k = false) {phase : Phase}

/-- A flag that is not set changes nothing. -/
theorem xor_bit_false (x : u32) : x ^^^ (~~~bit false + 1) = x := by
  have hzero : ~~~bit false + 1 = 0 := by decide
  rw [hzero]
  exact BitVec.xor_zero

theorem xor_bit_false_shift (x : u32) : x ^^^ ((~~~bit false + 1) <<< 1) = x := by
  have hzero : (~~~bit false + 1) <<< 1 = (0 : u32) := by decide
  rw [hzero]
  exact BitVec.xor_zero

/-- One that is set turns the result over, but for its lowest bit. -/
theorem xor_bit_true_shift :
    (kErrorOk ^^^ UINT32_MAX) ^^^ ((~~~bit true + 1) <<< 1) = kErrorOk ^^^ 1 := by
  decide

include herr in
theorem poll_loop_eq {d : Block} (hphase : d.phase = phase) :
    ∃ d', poll_loop hw phase (d.busy + 1) (kErrorOk ^^^ UINT32_MAX) kHardenedBoolFalse d =
        some (kErrorOk ^^^ 1, kHardenedBoolFalse, true, d') ∧
      d' = { d with busy := 0, polls := d'.polls } := by
  obtain ⟨regs, msg, phase', block, busy, polls, commands⟩ := d
  obtain rfl : phase' = phase := hphase
  induction busy generalizing polls with
  | zero =>
      refine ⟨⟨regs, msg, phase', block, 0, polls + 1, commands⟩, ?_, rfl⟩
      have hready : Block.Ready ⟨regs, msg, phase', block, 0, polls, commands⟩ phase' := ⟨rfl, rfl⟩
      rw [poll_loop]
      simp only [Block.poll, herr, decide_eq_true hready, xor_bit_false, xor_bit_true_shift]
      rfl
  | succ busy ih =>
      obtain ⟨d', hloop, hd'⟩ := ih (polls + 1)
      refine ⟨d', ?_, hd'⟩
      have hbusy : ¬Block.Ready ⟨regs, msg, phase', block, busy + 1, polls, commands⟩ phase' := by
        rintro ⟨-, hzero⟩
        exact Nat.succ_ne_zero busy hzero
      rw [poll_loop]
      simp only [Block.poll, herr, decide_eq_false hbusy, Nat.add_sub_cancel, xor_bit_false,
        xor_bit_false_shift]
      exact hloop

include herr in
/-- Without errors a poll waits until the block has done what it is busy with. -/
theorem poll_state_eq {s : World} (hphase : s.dev.phase = phase) :
    ∃ d, poll_state hw phase s = some (kErrorOk, { s with dev := d }) ∧
      d = { s.dev with busy := 0, polls := d.polls } := by
  obtain ⟨d, hloop, hd⟩ := poll_loop_eq herr hphase
  refine ⟨d, ?_, hd⟩
  have hok : kErrorOk ^^^ 1 ^^^ bit true = kErrorOk := by decide
  simp only [poll_state, hloop, Option.bind_eq_bind, Option.bind_some, if_true, hok]
  rfl

end polls

/-! ## The prefix -/

theorem digits_of_lt {x : ℕ} (hx : x < 256) : digits x = [BitVec.ofNat 8 x] := by
  rw [digits]
  split_ifs with hzero
  · rw [hzero]
    rfl
  · rw [Nat.digits_of_lt 256 x hzero hx]
    rfl

/-- The name of the function, and the length of the other name. -/
theorem readBytes_prefix_array_head (name : List u8) :
    readBytes (prefix_array name) 0 8 =
      [0x01, 0x20, 0x4b, 0x4d, 0x41, 0x43, 0x01, BitVec.ofNat 8 (name.length * 8)] := by
  have hhead : ∀ i < 8, prefix_array name i =
      Function.update (writeWord (writeWord (fun _ => 0) 0 0x4D4B2001) 4 0x00014341) 7
        (BitVec.ofNat 8 (name.length * 8)) i :=
    fun i hi => writeBytes_of_not_mem _ _ _ _ (by omega)
  have hread : readBytes (prefix_array name) 0 8 =
      readBytes (Function.update (writeWord (writeWord (fun _ => 0) 0 0x4D4B2001) 4 0x00014341) 7
        (BitVec.ofNat 8 (name.length * 8))) 0 8 := by
    rw [readBytes_eq_iff]
    intro i hi
    rw [Nat.zero_add, hhead i hi]
  rw [hread]
  rfl

/-- What is not written is zero. -/
theorem prefix_array_zero (name : List u8) {i : ℕ} (hi : 8 + name.length ≤ i) :
    prefix_array name i = 0 := by
  rw [prefix_array, writeBytes_of_not_mem _ _ _ _ (by omega), Function.update_of_ne (by omega),
    writeWord_of_not_mem _ _ _ _ (by omega), writeWord_of_not_mem _ _ _ _ (by omega)]

theorem encode_string_short (name : List u8) (hlen : name.length < 32) :
    encode_string name = 0x01 :: BitVec.ofNat 8 (name.length * 8) :: name := by
  rw [encode_string, left_encode, digits_of_lt (by omega), Nat.mul_comm]
  rfl

theorem readBytes_prefix_array (name : List u8) (hlen : name.length < 32) :
    readBytes (prefix_array name) 0 44 =
      encode_string name_kmac ++ encode_string name ++ List.replicate (36 - name.length) 0 := by
  have hsplit : 44 = 8 + (name.length + (36 - name.length)) := by omega
  have hname : readBytes (prefix_array name) 8 name.length = name := readBytes_writeBytes _ _ _
  have hzero : readBytes (prefix_array name) (8 + name.length) (36 - name.length) =
      List.replicate (36 - name.length) 0 := by
    rw [List.eq_replicate_iff]
    refine ⟨length_readBytes _ _ _, fun b hb => ?_⟩
    obtain ⟨i, -, rfl⟩ := List.mem_map.mp hb
    exact prefix_array_zero name (by omega)
  rw [hsplit, readBytes_add, readBytes_add, readBytes_prefix_array_head, Nat.zero_add, hname, hzero,
    encode_string_short name hlen, encode_string_short name_kmac (by decide), List.append_assoc]
  rfl

/-- The first `n` registers of the prefix with the words of the array. -/
def set_prefix_regs (d : Block) (regs : Mem) (n : ℕ) : Block :=
  { d with prefix_regs := fun i => if i < n then readWord regs (i * 4) else d.prefix_regs i }

theorem write_prefix_all (regs : Mem) {d : Block} (hready : d.Ready .idle) (n : ℕ) :
    (List.range n).foldlM (fun d i => d.write_prefix i (readWord regs (i * 4))) d =
      some (set_prefix_regs d regs n) := by
  induction n with
  | zero => rfl
  | succ n ih =>
      have hready' : (set_prefix_regs d regs n).Ready .idle := hready
      have hregs : Function.update (set_prefix_regs d regs n).prefix_regs n (readWord regs (n * 4)) =
          (set_prefix_regs d regs (n + 1)).prefix_regs := by
        funext i
        simp only [set_prefix_regs]
        by_cases hi : i = n
        · subst hi
          simp
        · have hiff : i < n + 1 ↔ i < n := by omega
          rw [Function.update_of_ne hi]
          simp only [hiff]
      rw [List.range_succ, List.foldlM_append, ih]
      simp only [Option.bind_eq_bind, Option.bind_some, List.foldlM_cons, List.foldlM_nil,
        Block.write_prefix, if_pos hready', hregs]
      rfl

theorem length_bytes_from (mem : Mem) (p : u32) (n : ℕ) : (bytes_from mem p n).length = n := by
  rw [bytes_from, List.length_map, List.length_range]

theorem kmac_kmac256_set_prefix_eq {prefix_ptr len : u32} {s : World} (hlen : len.toNat < 32)
    (hready : s.dev.Ready .idle) :
    ∃ d, kmac_kmac256_set_prefix prefix_ptr len s = some { s with dev := d } ∧
      d = { s.dev with prefix_regs := d.prefix_regs } ∧
      d.prefix_bytes = encode_string name_kmac ++
        encode_string (bytes_from s.mem prefix_ptr len.toNat) ++
          List.replicate (36 - len.toNat) 0 := by
  have hlt : len < 32 := hlen
  have hregs := write_prefix_all (prefix_array (bytes_from s.mem prefix_ptr len.toNat)) hready
    KMAC_PREFIX_MULTIREG_COUNT
  refine ⟨set_prefix_regs s.dev (prefix_array (bytes_from s.mem prefix_ptr len.toNat))
    KMAC_PREFIX_MULTIREG_COUNT, ?_, rfl, ?_⟩
  · simp only [ kmac_kmac256_set_prefix, hardened_check, if_pos hlt, Option.bind_eq_bind,
      Option.bind_some, hregs]
    rfl
  · have hbytes := readBytes_prefix_array (bytes_from s.mem prefix_ptr len.toNat)
      (by rw [length_bytes_from]; exact hlen)
    rw [length_bytes_from] at hbytes
    rw [← hbytes, Block.prefix_bytes, show 44 = 4 * KMAC_PREFIX_MULTIREG_COUNT from rfl,
      ← flatMap_readBytes]
    apply List.flatMap_congr
    intro i hi
    rw [List.mem_range] at hi
    simp only [set_prefix_regs, if_pos hi]
    rw [le32_readWord, Nat.zero_add, Nat.mul_comm]

/-! ## The message -/

theorem bytes_from_add (mem : Mem) (p : u32) (a b : ℕ) :
    bytes_from mem p (a + b) = bytes_from mem p a ++ bytes_from mem (p + BitVec.ofNat 32 a) b := by
  rw [bytes_from, List.range_add, List.map_append, List.map_map, bytes_from, bytes_from]
  congr 1
  apply List.map_congr_left
  intro i _
  rw [Function.comp_apply, ← BitVec.ofNat_add_ofNat, BitVec.add_assoc]

/-- An aligned word is four bytes. -/
theorem le32_readWord_eq {mem : Mem} {p : u32} (h : p.toNat % 4 = 0) :
    le32 (readWord mem p.toNat) = bytes_from mem p 4 := by
  rw [le32_readWord]
  apply List.map_congr_left
  intro i hi
  rw [List.mem_range] at hi
  rw [BitVec.toNat_add, BitVec.toNat_ofNat]
  congr 1
  omega

/-- The block after it was fed. -/
def Block.fed (d : Block) (bytes : List u8) : Block := { d with msg := d.msg ++ bytes }

theorem fed_fed (d : Block) (xs ys : List u8) : (d.fed xs).fed ys = d.fed (xs ++ ys) := by
  simp only [Block.fed, List.append_assoc]

/-- A loop feeds the bytes that it goes past, and stops where it is not to go on. -/
theorem fifo_loop_eq {go_on : u32 → u32 → Bool} {size : u32} {value : u32 → List u8} {mem : Mem}
    {P : u32 → Prop} (fuel : ℕ) (d : Block) (hpos : 0 < size.toNat)
    (hgo : ∀ p n, go_on p n = true → size.toNat ≤ n.toNat) (hP : ∀ p, P p → P (p + size))
    (hvalue : ∀ p, P p → value p = bytes_from mem p size.toNat) {p n : u32}
    (hp : P p ∨ n.toNat < size.toNat) (hfuel : n.toNat ≤ fuel) (hready : d.Ready .absorb) :
    ∃ k ≤ n.toNat, fifo_loop go_on size value fuel p n d =
        some (p + BitVec.ofNat 32 k, n - BitVec.ofNat 32 k, d.fed (bytes_from mem p k)) ∧
      go_on (p + BitVec.ofNat 32 k) (n - BitVec.ofNat 32 k) = false := by
  have hstop : ∀ d : Block, some (p, n, d) =
      some (p + BitVec.ofNat 32 0, n - BitVec.ofNat 32 0, d.fed (bytes_from mem p 0)) := by
    intro d
    simp [Block.fed, bytes_from]
  induction fuel generalizing p n d with
  | zero =>
      have hoff : go_on p n = false := by
        rw [Bool.eq_false_iff]
        intro hon
        have hle := hgo p n hon
        omega
      refine ⟨0, Nat.zero_le _, hstop d, ?_⟩
      simpa using hoff
  | succ fuel ih =>
      rw [fifo_loop]
      by_cases hon : go_on p n = true
      · have hle := hgo p n hon
        have hPp : P p := hp.resolve_right (by omega)
        have hsub : (n - size).toNat = n.toNat - size.toNat := BitVec.toNat_sub_of_le hle
        obtain ⟨k, hk, hloop, hoff⟩ := @ih (d.fed (value p)) (p + size) (n - size) (.inl (hP p hPp))
          (by omega) hready (by intro d; simp [Block.fed, bytes_from])
        have hptr : p + size + BitVec.ofNat 32 k = p + BitVec.ofNat 32 (size.toNat + k) := by
          rw [← BitVec.ofNat_add_ofNat, BitVec.ofNat_toNat, BitVec.setWidth_eq, BitVec.add_assoc]
        have hleft : n - size - BitVec.ofNat 32 k = n - BitVec.ofNat 32 (size.toNat + k) := by
          rw [← BitVec.ofNat_add_ofNat, BitVec.ofNat_toNat, BitVec.setWidth_eq]
          bv_omega
        rw [hptr, hleft] at hoff hloop
        refine ⟨size.toNat + k, by omega, ?_, hoff⟩
        rw [if_pos hon]
        simp only [Block.feed, if_pos hready, Option.bind_eq_bind, Option.bind_some]
        refine hloop.trans ?_
        rw [fed_fed, hvalue p hPp, bytes_from_add, BitVec.ofNat_toNat, BitVec.setWidth_eq]
      · refine ⟨0, Nat.zero_le _, ?_, ?_⟩
        · rw [if_neg hon]
          exact hstop d
        · simpa using hon

/-- What is absorbed is the bytes of the buffer, whatever its alignment. -/
theorem kmac_shake256_absorb_eq (in_ptr inlen : u32) {s : World} (hready : s.dev.Ready .absorb) :
    kmac_shake256_absorb in_ptr inlen s =
      some { s with dev := s.dev.fed (bytes_from s.mem in_ptr inlen.toNat) } := by
  have hone : ∀ p : u32, [s.mem p.toNat] = bytes_from s.mem p 1 := by
    intro p
    simp [bytes_from, Nat.mod_eq_of_lt p.isLt]
  have hbytes : ∀ (p n : u32) (d : Block) (go_on : u32 → u32 → Bool), d.Ready .absorb →
      n.toNat ≤ inlen.toNat → (∀ p n, go_on p n = true → 1 ≤ n.toNat) →
      ∃ k ≤ n.toNat, fifo_loop go_on 1 (fun p => [s.mem p.toNat]) inlen.toNat p n d =
          some (p + BitVec.ofNat 32 k, n - BitVec.ofNat 32 k, d.fed (bytes_from s.mem p k)) ∧
        go_on (p + BitVec.ofNat 32 k) (n - BitVec.ofNat 32 k) = false := by
    intro p n d go_on hd hn hgo
    exact fifo_loop_eq (P := fun _ => True) _ _ (by decide) hgo (fun _ _ => trivial) (fun p _ => hone p)
      (.inl trivial) hn hd
  have hsub : ∀ (n : u32) (k : ℕ), k ≤ n.toNat → (n - BitVec.ofNat 32 k).toNat = n.toNat - k := by
    intro n k hk
    rw [BitVec.toNat_sub_of_le]
    · rw [BitVec.toNat_ofNat, Nat.mod_eq_of_lt (by omega)]
    · rw [BitVec.le_def, BitVec.toNat_ofNat, Nat.mod_eq_of_lt (by omega)]
      exact hk
  -- the head, up to the first word
  obtain ⟨a, ha, hhead, hoff⟩ := hbytes in_ptr inlen s.dev
    (fun in_ptr inlen => decide (inlen > 0 ∧ in_ptr % 4 ≠ 0)) hready le_rfl
    (fun p n h => (of_decide_eq_true h).1)
  -- the words
  have halign : (in_ptr + BitVec.ofNat 32 a).toNat % 4 = 0 ∨
      (inlen - BitVec.ofNat 32 a).toNat < (4 : u32).toNat := by
    have hnot := of_decide_eq_false hoff
    by_cases hpos : inlen - BitVec.ofNat 32 a > 0
    · left
      have hmod : (in_ptr + BitVec.ofNat 32 a) % 4 = 0 := by
        by_contra hne
        exact hnot ⟨hpos, hne⟩
      have hnat := congrArg BitVec.toNat hmod
      rwa [BitVec.toNat_umod] at hnat
    · right
      have hzero : (inlen - BitVec.ofNat 32 a).toNat = 0 := Nat.eq_zero_of_not_pos hpos
      rw [hzero]
      decide
  have hmid := hsub inlen a ha
  have hwords : ∃ k ≤ (inlen - BitVec.ofNat 32 a).toNat,
      fifo_loop (fun _ inlen => decide (inlen ≥ 4)) 4 (fun p => le32 (readWord s.mem p.toNat))
          inlen.toNat (in_ptr + BitVec.ofNat 32 a) (inlen - BitVec.ofNat 32 a)
          (s.dev.fed (bytes_from s.mem in_ptr a)) =
        some (in_ptr + BitVec.ofNat 32 a + BitVec.ofNat 32 k,
          inlen - BitVec.ofNat 32 a - BitVec.ofNat 32 k,
          (s.dev.fed (bytes_from s.mem in_ptr a)).fed
            (bytes_from s.mem (in_ptr + BitVec.ofNat 32 a) k)) ∧
      decide (inlen - BitVec.ofNat 32 a - BitVec.ofNat 32 k ≥ 4) = false := by
    apply fifo_loop_eq (P := fun p => p.toNat % 4 = 0)
    · decide
    · exact fun _ _ h => of_decide_eq_true h
    · intro p hp
      have hfour : (4 : u32).toNat = 4 := rfl
      rw [BitVec.toNat_add, hfour]
      omega
    · exact fun p hp => le32_readWord_eq hp
    · exact halign
    · omega
    · exact hready
  obtain ⟨b, hb, hbody, -⟩ := hwords
  have hlast := hsub _ b hb
  -- the bytes behind the last word
  obtain ⟨c, hc, htail, hend⟩ := hbytes (in_ptr + BitVec.ofNat 32 a + BitVec.ofNat 32 b)
    (inlen - BitVec.ofNat 32 a - BitVec.ofNat 32 b)
    ((s.dev.fed (bytes_from s.mem in_ptr a)).fed
      (bytes_from s.mem (in_ptr + BitVec.ofNat 32 a) b))
    (fun _ inlen => decide (inlen > 0)) hready (by omega) (fun p n h => of_decide_eq_true h)
  have hzero : inlen - BitVec.ofNat 32 a - BitVec.ofNat 32 b - BitVec.ofNat 32 c = 0 := by
    have hnot : ¬0 < (inlen - BitVec.ofNat 32 a - BitVec.ofNat 32 b - BitVec.ofNat 32 c).toNat :=
      of_decide_eq_false hend
    apply BitVec.eq_of_toNat_eq
    exact Nat.eq_zero_of_not_pos hnot
  have hsum : a + (b + c) = inlen.toNat := by
    have hthird := hsub _ c hc
    rw [hzero] at hthird
    have hz : (0 : u32).toNat = 0 := rfl
    omega
  simp only [kmac_shake256_absorb, hhead, hbody, htail, hardened_check, hzero, if_true,
    Option.bind_eq_bind, Option.bind_some]
  rw [fed_fed, fed_fed, ← hsum, bytes_from_add, bytes_from_add]
  rfl

/-- The bytes of the chunks. -/
def message (mem : Mem) (chunks : List (u32 × u32)) : List u8 :=
  chunks.flatMap fun chunk => bytes_from mem chunk.1 chunk.2.toNat

theorem absorb_chunks (chunks : List (u32 × u32)) {s : World} (hready : s.dev.Ready .absorb) :
    chunks.foldlM (fun s chunk => kmac_kmac256_absorb chunk.1 chunk.2 s) s =
      some { s with dev := s.dev.fed (message s.mem chunks) } := by
  induction chunks generalizing s with
  | nil => simp [Block.fed, message]
  | cons chunk chunks ih =>
      rw [List.foldlM_cons, kmac_kmac256_absorb, kmac_shake256_absorb_eq _ _ hready]
      refine (@ih { s with dev := s.dev.fed (bytes_from s.mem chunk.1 chunk.2.toNat) }
        hready).trans ?_
      rw [fed_fed]
      rfl

/-! ## The length -/

/-- The digits are stored from the lowest on, each in front of the one before. -/
theorem digits_loop_eq (buffer : u32) {fuel : ℕ} {val p : u32} (n : u32) (mem : Mem)
    (hval : val.toNat < 256 ^ fuel) (hp : fuel ≤ p.toNat) (hp4 : p.toNat ≤ 4) :
    ∃ mem' k, k = (Nat.digits 256 val.toNat).length ∧ k ≤ fuel ∧
      digits_loop buffer fuel val n p mem =
        (n + BitVec.ofNat 32 k, p - BitVec.ofNat 32 k, mem') ∧
      bytes_from mem' (buffer + (p - BitVec.ofNat 32 k)) k =
        ((Nat.digits 256 val.toNat).map (BitVec.ofNat 8)).reverse ∧
      ∀ j, p.toNat ≤ j → j ≤ 4 →
        mem' (buffer + BitVec.ofNat 32 j).toNat = mem (buffer + BitVec.ofNat 32 j).toNat := by
  induction fuel generalizing val n p mem with
  | zero =>
      have hzero : val.toNat = 0 := by omega
      refine ⟨mem, 0, ?_, le_rfl, ?_, ?_, fun _ _ _ => rfl⟩
      · rw [hzero]
        rfl
      · simp [digits_loop]
      · rw [hzero]
        rfl
  | succ fuel ih =>
      rw [digits_loop]
      by_cases hzero : val = 0
      · rw [if_neg (not_not.mpr hzero), hzero]
        exact ⟨mem, 0, rfl, Nat.zero_le _, by simp, rfl, fun _ _ _ => rfl⟩
      · have hpos : 0 < val.toNat := by
          rw [Nat.pos_iff_ne_zero]
          exact fun h => hzero (BitVec.eq_of_toNat_eq h)
        have hshift : (val >>> 8).toNat = val.toNat / 256 := by
          rw [BitVec.toNat_ushiftRight, Nat.shiftRight_eq_div_pow]
        have hprev : (p - 1).toNat = p.toNat - 1 := by
          rw [BitVec.toNat_sub_of_le]
          · rfl
          · show 1 ≤ p.toNat
            omega
        have hdigits : Nat.digits 256 val.toNat =
            val.toNat % 256 :: Nat.digits 256 (val.toNat / 256) :=
          Nat.digits_def' (by decide) hpos
        have hlow : (val &&& 0xFF).setWidth 8 = BitVec.ofNat 8 (val.toNat % 256) := by
          apply BitVec.eq_of_toNat_eq
          rw [BitVec.toNat_setWidth, BitVec.toNat_and, show (0xFF : u32).toNat = 2 ^ 8 - 1 from rfl,
            Nat.and_two_pow_sub_one_eq_mod, BitVec.toNat_ofNat]
        have hlt : (val >>> 8).toNat < 256 ^ fuel := by
          rw [hshift]
          rw [Nat.pow_succ] at hval
          exact Nat.div_lt_of_lt_mul (by rwa [Nat.mul_comm])
        obtain ⟨mem', k, hk, hkle, hloop, hbytes, hframe⟩ := @ih (val >>> 8) (p - 1) (n + 1)
          (Function.update mem (buffer + (p - 1)).toNat ((val &&& 0xFF).setWidth 8)) hlt
          (by omega) (by omega)
        rw [hshift] at hk hbytes
        have hone : BitVec.ofNat 32 (k + 1) = 1 + BitVec.ofNat 32 k := by
          rw [Nat.add_comm, ← BitVec.ofNat_add_ofNat]
          rfl
        have hback : p - 1 - BitVec.ofNat 32 k = p - BitVec.ofNat 32 (k + 1) := by
          rw [hone]
          bv_omega
        have hfront : buffer + (p - 1 - BitVec.ofNat 32 k) + BitVec.ofNat 32 k =
            buffer + (p - 1) := by bv_omega
        -- the digit that was stored first is behind the others
        have hfirst : mem' (buffer + (p - 1)).toNat = BitVec.ofNat 8 (val.toNat % 256) := by
          have hsame := hframe (p - 1).toNat le_rfl (by omega)
          rw [BitVec.ofNat_toNat, BitVec.setWidth_eq, Function.update_self, hlow] at hsame
          exact hsame
        refine ⟨mem', k + 1, by rw [hdigits, hk]; rfl, by omega, ?_, ?_, ?_⟩
        · rw [if_pos hzero, hloop, hback, hone, BitVec.add_assoc]
        · have hsingle : bytes_from mem' (buffer + (p - 1)) 1 =
              [mem' (buffer + (p - 1)).toNat] := by
            simp [bytes_from]
          rw [← hback, bytes_from_add, hbytes, hfront, hsingle, hfirst, hdigits, List.map_cons,
            List.reverse_cons]
        · intro j hj hj4
          rw [hframe j (by omega) hj4, Function.update_of_ne]
          intro heq
          have hj32 : BitVec.ofNat 32 j = p - 1 := by bv_omega
          have hnat := congrArg BitVec.toNat hj32
          rw [BitVec.toNat_ofNat, hprev] at hnat
          omega

/-- What the driver takes for the encoded length. -/
def final_bytes (x : ℕ) : List u8 :=
  ((Nat.digits 256 x).map (BitVec.ofNat 8)).reverse ++ [BitVec.ofNat 8 (Nat.digits 256 x).length]

/-- It is the encoded length, unless this is zero. -/
theorem final_bytes_eq_iff (x : ℕ) : final_bytes x = right_encode x ↔ x ≠ 0 := by
  rw [final_bytes, right_encode, digits]
  split_ifs with hzero
  · rw [hzero]
    exact iff_of_false (by decide) (by simp)
  · rw [List.length_reverse, List.length_map]
    exact iff_of_true rfl hzero

/-- What is absorbed behind the message. -/
theorem absorb_length (buffer val : u32) {s : World} (hready : s.dev.Ready .absorb) :
    ∃ mem n p, digits_loop buffer 4 val 0 4 s.mem = (n, p, mem) ∧
      kmac_shake256_absorb (buffer + p) (n + 1)
          { s with mem := Function.update mem (buffer + 4).toNat (n.setWidth 8) } =
        some { s with
          mem := Function.update mem (buffer + 4).toNat (n.setWidth 8)
          dev := s.dev.fed (final_bytes val.toNat) } := by
  obtain ⟨mem, k, hk, hk4, hloop, hbytes, -⟩ := digits_loop_eq buffer 0 s.mem
    (show val.toNat < 256 ^ 4 from val.isLt) (show 4 ≤ (4 : u32).toNat from le_rfl) le_rfl
  refine ⟨mem, 0 + BitVec.ofNat 32 k, 4 - BitVec.ofNat 32 k, hloop, ?_⟩
  rw [kmac_shake256_absorb_eq]
  · have hk32 : (BitVec.ofNat 32 k).toNat = k := by
      rw [BitVec.toNat_ofNat, Nat.mod_eq_of_lt (by omega)]
    have hcount : (0 + BitVec.ofNat 32 k + 1 : u32).toNat = k + 1 := by
      rw [BitVec.toNat_add, BitVec.toNat_add, hk32, show (0 : u32).toNat = 0 from rfl,
        show (1 : u32).toNat = 1 from rfl]
      omega
    have hend : buffer + (4 - BitVec.ofNat 32 k) + BitVec.ofNat 32 k = buffer + 4 := by bv_omega
    -- the last byte is behind the digits
    have hdigits : bytes_from (Function.update mem (buffer + 4).toNat
        ((0 + BitVec.ofNat 32 k : u32).setWidth 8)) (buffer + (4 - BitVec.ofNat 32 k)) k =
          bytes_from mem (buffer + (4 - BitVec.ofNat 32 k)) k := by
      apply List.map_congr_left
      intro i hi
      rw [List.mem_range] at hi
      rw [Function.update_of_ne]
      intro heq
      have hsame := BitVec.eq_of_toNat_eq heq
      rw [← hend] at hsame
      have hi32 : BitVec.ofNat 32 i = BitVec.ofNat 32 k := by bv_omega
      have hnat := congrArg BitVec.toNat hi32
      rw [hk32, BitVec.toNat_ofNat] at hnat
      omega
    have hcountbyte : (0 + BitVec.ofNat 32 k : u32).setWidth 8 = BitVec.ofNat 8 k := by
      apply BitVec.eq_of_toNat_eq
      rw [BitVec.toNat_setWidth, BitVec.toNat_add, hk32, BitVec.toNat_ofNat,
        show (0 : u32).toNat = 0 from rfl]
      omega
    rw [hcount, bytes_from_add, hend, hdigits, hbytes, final_bytes, ← hk, hcountbyte]
    simp [bytes_from]
  · exact hready

/-! ## The result -/

section squeeze

variable (hw : Hardware)

/-- The array with `k` words of the output from index `idx` on. -/
def squeezed (d : Block) (out : ℕ → u32) (idx k : ℕ) : ℕ → u32 := fun i =>
  if idx ≤ i ∧ i < idx + k then hw.output d.prefix_bytes d.msg i else out i

theorem squeezed_zero (d : Block) (out : ℕ → u32) (idx : ℕ) : squeezed hw d out idx 0 = out := by
  funext i
  exact if_neg (by omega)

theorem squeezed_squeezed (d : Block) (out : ℕ → u32) (idx a b : ℕ) :
    squeezed hw d (squeezed hw d out idx a) (idx + a) b = squeezed hw d out idx (a + b) := by
  funext i
  simp only [squeezed]
  by_cases hlow : idx ≤ i ∧ i < idx + a
  · rw [if_neg (by omega), if_pos hlow, if_pos (by omega)]
  · rw [if_neg hlow]
    by_cases hhigh : idx + a ≤ i ∧ i < idx + a + b
    · rw [if_pos hhigh, if_pos (by omega)]
    · rw [if_neg hhigh, if_neg (by omega)]

theorem squeezed_one (d : Block) (out : ℕ → u32) (idx : ℕ) :
    Function.update out idx (hw.output d.prefix_bytes d.msg idx) = squeezed hw d out idx 1 := by
  funext i
  by_cases hi : i = idx
  · subst hi
    rw [Function.update_self, squeezed, if_pos (by omega)]
  · rw [Function.update_of_ne hi, squeezed, if_neg (by omega)]

theorem toNat_add_one {x : u32} {n : ℕ} (h : x.toNat < n) (hn : n < 2 ^ 32) :
    (x + 1).toNat = x.toNat + 1 := by
  rw [BitVec.toNat_add, show (1 : u32).toNat = 1 from rfl, Nat.mod_eq_of_lt (by omega)]

/-- A rate block is read up to its end, or up to the end of the result. -/
theorem squeeze_words_eq {outlen : u32} {fuel : ℕ} {idx offset : u32} {s : World}
    (hready : s.dev.Ready .squeeze) (hidx : idx.toNat = s.dev.block * 34 + offset.toNat)
    (hle : idx.toNat ≤ outlen.toNat) (hfuel : offset.toNat + fuel = 34) :
    ∃ k, squeeze_words hw outlen fuel idx offset s =
        some (idx + BitVec.ofNat 32 k, offset + BitVec.ofNat 32 k,
          { s with out := squeezed hw s.dev s.out idx.toNat k }) ∧
      idx.toNat + k ≤ outlen.toNat ∧ offset.toNat + k ≤ 34 ∧
      (idx.toNat + k = outlen.toNat ∨ offset.toNat + k = 34) := by
  have hrate : kShake256KeccakRateWords.toNat = 34 := by decide
  have hstop : some (idx, offset, s) = some (idx + BitVec.ofNat 32 0, offset + BitVec.ofNat 32 0,
      { s with out := squeezed hw s.dev s.out idx.toNat 0 }) := by
    rw [squeezed_zero]
    simp
  induction fuel generalizing idx offset s with
  | zero => exact ⟨0, hstop, hle, by omega, .inr hfuel⟩
  | succ fuel ih =>
      rw [squeeze_words]
      by_cases hgo : idx < outlen ∧ offset < kShake256KeccakRateWords
      · have hlt : idx.toNat < outlen.toNat := hgo.1
        have hoff : offset.toNat < 34 := by
          have hlt : offset.toNat < kShake256KeccakRateWords.toNat := hgo.2
          omega
        have hidx1 := toNat_add_one hlt outlen.isLt
        have hoff1 := toNat_add_one hoff (by decide)
        have hword : ∀ x y : u32, x ^^^ (x ^^^ y) = y := by
          intro x y
          rw [← BitVec.xor_assoc, BitVec.xor_self, BitVec.zero_xor]
        have hrate4 : kShake256KeccakRateBytes / 4 = 34 := by decide
        obtain ⟨k, hloop, hk, hk34, hend⟩ := @ih (idx + 1) (offset + 1)
          { s with out := squeezed hw s.dev s.out idx.toNat 1 } hready (by rw [hidx1, hoff1, hidx]; rfl)
          (by omega) (by omega) (by rw [squeezed_zero]; simp)
        have hone : ∀ x : u32, x + 1 + BitVec.ofNat 32 k = x + BitVec.ofNat 32 (1 + k) := by
          intro x
          rw [← BitVec.ofNat_add_ofNat, BitVec.add_assoc]
          rfl
        refine ⟨1 + k, ?_, by omega, by omega, by omega⟩
        rw [if_pos hgo]
        simp only [Block.state, if_pos hready, Option.bind_eq_bind, Option.bind_some, hword, hrate4,
          ← hidx, squeezed_one]
        rw [hloop, hone, hone, hidx1, squeezed_squeezed]
      · refine ⟨0, ?_, hle, by omega, ?_⟩
        · rw [if_neg hgo]
          exact hstop
        · by_contra hnot
          have hlt : idx < outlen := by
            show idx.toNat < outlen.toNat
            omega
          refine hgo ⟨hlt, ?_⟩
          show offset.toNat < kShake256KeccakRateWords.toNat
          omega

/-- The same has been written to the block. -/
def SameInput (d d' : Block) : Prop := d'.prefix_regs = d.prefix_regs ∧ d'.msg = d.msg

theorem SameInput.prefix_bytes {d d' : Block} (h : SameInput d d') :
    d'.prefix_bytes = d.prefix_bytes := by
  rw [Block.prefix_bytes, h.1, Block.prefix_bytes]

theorem SameInput.squeezed {d d' : Block} (h : SameInput d d') (out : ℕ → u32) (idx k : ℕ) :
    squeezed hw d' out idx k = squeezed hw d out idx k := by
  funext i
  rw [Kmac.squeezed, h.prefix_bytes, h.2, Kmac.squeezed]

/-- The next block is asked for where this one is used up. -/
theorem run_if_full (offset : u32) {s : World} (hready : s.dev.Ready .squeeze) :
    ∃ d, (if offset = kShake256KeccakRateWords then issue_command hw .run s else pure s) =
        some { s with dev := d } ∧
      d.phase = .squeeze ∧ SameInput s.dev d ∧
      d.block = if offset = kShake256KeccakRateWords then s.dev.block + 1 else s.dev.block := by
  by_cases hfull : offset = kShake256KeccakRateWords
  · refine ⟨{ s.dev with
      busy := hw.busy s.dev.commands, commands := s.dev.commands + 1, block := s.dev.block + 1 },
      ?_, hready.1, ⟨rfl, rfl⟩, (if_pos hfull).symm⟩
    rw [if_pos hfull, issue_command, Block.command]
    simp only [if_pos hready]
    rfl
  · refine ⟨s.dev, ?_, hready.1, ⟨rfl, rfl⟩, (if_neg hfull).symm⟩
    rw [if_neg hfull]
    rfl

variable {hw} (herr : ∀ k, hw.err k = false)

include herr in
/-- Each round reads a rate block, and asks for the next one if it has read all of it. -/
theorem squeeze_loop_eq {outlen : u32} {fuel : ℕ} {idx : u32} {s : World}
    (hphase : s.dev.phase = .squeeze) (hidx : idx.toNat = s.dev.block * 34 ∨ idx = outlen)
    (hle : idx.toNat ≤ outlen.toNat) (hfuel : outlen.toNat ≤ idx.toNat + fuel) :
    ∃ d, squeeze_loop hw outlen fuel idx s =
        some (kErrorOk, outlen, { s with
          out := squeezed hw s.dev s.out idx.toNat (outlen.toNat - idx.toNat), dev := d }) ∧
      d.phase = .squeeze ∧ SameInput s.dev d := by
  have hrate : kShake256KeccakRateWords = 34 := by decide
  induction fuel generalizing idx s with
  | zero =>
      have hend : idx = outlen := BitVec.eq_of_toNat_eq (by omega)
      refine ⟨s.dev, ?_, hphase, rfl, rfl⟩
      rw [squeeze_loop, hend, Nat.sub_self, squeezed_zero]
  | succ fuel ih =>
      rw [squeeze_loop]
      by_cases hlt : idx < outlen
      · have hlt' : idx.toNat < outlen.toNat := hlt
        have hblock : idx.toNat = s.dev.block * 34 :=
          hidx.resolve_right fun h => absurd hlt (by rw [h]; exact BitVec.lt_irrefl _)
        have hcheck : idx % kShake256KeccakRateWords = 0 := by
          apply BitVec.eq_of_toNat_eq
          rw [hrate, BitVec.toNat_umod, hblock]
          exact Nat.mul_mod_left _ _
        obtain ⟨d, hpoll, hd⟩ := poll_state_eq herr hphase
        have hready : d.Ready .squeeze := by
          rw [hd]
          exact ⟨hphase, rfl⟩
        have hsame : SameInput s.dev d := by
          rw [hd]
          exact ⟨rfl, rfl⟩
        have hdblock : d.block = s.dev.block := by rw [hd]
        obtain ⟨k, hwords, hk, hk34, hend⟩ := @squeeze_words_eq hw outlen 34 idx 0
          { s with dev := d } hready (by rw [hdblock, hblock]; rfl) hle rfl
        have hzero : (0 : u32).toNat = 0 := rfl
        have hidxk : (idx + BitVec.ofNat 32 k).toNat = idx.toNat + k := by
          rw [BitVec.toNat_add, BitVec.toNat_ofNat]
          omega
        obtain ⟨d1, hrun, hphase1, hsame1, hblock1⟩ := run_if_full hw (0 + BitVec.ofNat 32 k)
          (show Block.Ready
            (World.mk s.mem (squeezed hw d s.out idx.toNat k) d).dev .squeeze from hready)
        have hidx1 : (idx + BitVec.ofNat 32 k).toNat = d1.block * 34 ∨
            idx + BitVec.ofNat 32 k = outlen := by
          by_cases hfull : k = 34
          · left
            have hrate34 : (0 + BitVec.ofNat 32 k : u32) = kShake256KeccakRateWords := by
              rw [hfull]
              decide
            rw [hidxk, hblock1, if_pos hrate34, hblock, hfull, Nat.succ_mul]
            show s.dev.block * 34 + 34 = d.block * 34 + 34
            rw [hdblock]
          · right
            apply BitVec.eq_of_toNat_eq
            omega
        obtain ⟨d2, hloop, hphase2, hsame2⟩ := @ih (idx + BitVec.ofNat 32 k)
          { s with out := squeezed hw d s.out idx.toNat k, dev := d1 } hphase1 hidx1
          (by omega) (by omega)
        refine ⟨d2, ?_, hphase2, ?_⟩
        · rw [if_pos hlt]
          simp only [hardened_check, if_pos hcheck, hpoll, Option.bind_eq_bind, Option.bind_some,
            ne_eq, not_true_eq_false, if_false]
          rw [show kShake256KeccakRateWords.toNat = 34 by decide, hwords]
          simp only [Option.bind_some, hrun]
          rw [hloop, hidxk, hsame1.squeezed, hsame.squeezed, hsame.squeezed, squeezed_squeezed]
          have hsum : k + (outlen.toNat - (idx.toNat + k)) = outlen.toNat - idx.toNat := by omega
          rw [hsum]
        · exact ⟨hsame2.1.trans (hsame1.1.trans hsame.1), hsame2.2.trans (hsame1.2.trans hsame.2)⟩
      · have hend : idx = outlen := BitVec.eq_of_toNat_eq (le_antisymm hle (Nat.le_of_not_lt hlt))
        refine ⟨s.dev, ?_, hphase, rfl, rfl⟩
        rw [if_neg hlt, hend, Nat.sub_self, squeezed_zero]

include herr in
/-- The result is the output from its first word on. -/
theorem kmac_shake256_squeeze_end_eq (outlen : u32) {s : World} (hphase : s.dev.phase = .squeeze)
    (hblock : s.dev.block = 0) :
    ∃ d, kmac_shake256_squeeze_end hw outlen s =
        some (kErrorOk, { s with out := squeezed hw s.dev s.out 0 outlen.toNat, dev := d }) ∧
      SameInput s.dev d := by
  obtain ⟨d, hloop, hphase1, hsame⟩ := @squeeze_loop_eq hw herr outlen outlen.toNat 0 s hphase
    (.inl (by rw [hblock]; rfl)) (Nat.zero_le _) (Nat.le_add_left _ _)
  obtain ⟨d1, hpoll, hd1⟩ := poll_state_eq herr (s := { s with
    out := squeezed hw s.dev s.out (0 : u32).toNat (outlen.toNat - (0 : u32).toNat), dev := d })
      hphase1
  have hready : d1.Ready .squeeze := by
    rw [hd1]
    exact ⟨hphase1, rfl⟩
  refine ⟨{ d1 with busy := hw.busy d1.commands, commands := d1.commands + 1, phase := .idle },
    ?_, ?_⟩
  · simp only [kmac_shake256_squeeze_end, hloop, Option.bind_eq_bind, Option.bind_some, ne_eq,
      not_true_eq_false, if_false, hardened_check, if_true, hpoll, issue_command, Block.command,
      if_pos hready]
    rfl
  · have hregs : d1.prefix_regs = d.prefix_regs := by rw [hd1]
    have hmsg : d1.msg = d.msg := by rw [hd1]
    exact ⟨hregs.trans hsame.1, hmsg.trans hsame.2⟩

end squeeze

/-! ## A whole computation -/

section

variable {hw : Hardware} (herr : ∀ k, hw.err k = false)

include herr in
theorem kmac_kmac256_start_eq {s : World} (hready : s.dev.Ready .idle) :
    ∃ d, kmac_kmac256_start hw s = some (kErrorOk, { s with dev := d }) ∧ d.Ready .absorb ∧
      d.msg = [] ∧ d.prefix_regs = s.dev.prefix_regs := by
  obtain ⟨d, hpoll, hd⟩ := poll_state_eq herr hready.1
  have hready1 : d.Ready .idle := by
    rw [hd]
    exact ⟨hready.1, rfl⟩
  obtain ⟨d1, hpoll1, hd1⟩ := @poll_state_eq hw herr .absorb { s with dev := { d with
    busy := hw.busy d.commands, commands := d.commands + 1, phase := .absorb, msg := [] } } rfl
  refine ⟨d1, ?_, ?_, ?_, ?_⟩
  · simp only [kmac_kmac256_start, kmac_shake256_start, hpoll, issue_command, Block.command,
      if_pos hready1, Option.bind_eq_bind, Option.bind_some, ne_eq, not_true_eq_false, if_false,
      Option.pure_def, hpoll1]
  · rw [hd1]
    exact ⟨rfl, rfl⟩
  · rw [hd1]
  · rw [hd1]
    show d.prefix_regs = s.dev.prefix_regs
    rw [hd]

include herr in
theorem kmac_kmac256_final_eq (buffer : u32) {rlen : u32} {s : World}
    (hrlen : 32 * rlen.toNat < 2 ^ 32) (hready : s.dev.Ready .absorb) :
    ∃ s', kmac_kmac256_final hw buffer rlen s = some (kErrorOk, s') ∧
      SameInput (s.dev.fed (final_bytes (32 * rlen.toNat))) s'.dev ∧
      s'.out = squeezed hw s'.dev s.out 0 rlen.toNat := by
  have hval : (rlen * 32).toNat = 32 * rlen.toNat := by
    rw [BitVec.toNat_mul, show (32 : u32).toNat = 32 from rfl, Nat.mul_comm, Nat.mod_eq_of_lt hrlen]
  obtain ⟨mem, n, p, hdigits, habsorb⟩ := absorb_length buffer (rlen * 32) hready
  rw [hval] at habsorb
  have hready1 : (s.dev.fed (final_bytes (32 * rlen.toNat))).Ready .absorb := hready
  obtain ⟨d, hsqueeze, hsame⟩ := kmac_shake256_squeeze_end_eq herr rlen (s := { s with
    mem := Function.update mem (buffer + 4).toNat (n.setWidth 8)
    dev := { s.dev.fed (final_bytes (32 * rlen.toNat)) with
      busy := hw.busy s.dev.commands, commands := s.dev.commands + 1, phase := .squeeze,
      block := 0 } }) rfl rfl
  refine ⟨_, Eq.trans ?_ hsqueeze, ⟨hsame.1, hsame.2⟩,
    (hsame.squeezed hw s.out 0 rlen.toNat).symm⟩
  simp only [kmac_kmac256_final, hdigits, habsorb, kmac_shake256_squeeze_start, issue_command,
    Block.command, if_pos hready1, Option.bind_eq_bind, Option.bind_some, Option.pure_def]
  rfl

/-- The block is fed what the standard says, and the result is the first words of its output. -/
def Computes (hw : Hardware) (prefix_ptr len : u32) (chunks : List (u32 × u32)) (buffer rlen : u32)
    (s : World) : Prop :=
  ∃ s', kmac256 hw prefix_ptr len chunks buffer rlen s = some (kErrorOk, s') ∧
    s'.dev.prefix_bytes = encode_string name_kmac ++
      encode_string (bytes_from s.mem prefix_ptr len.toNat) ++
        List.replicate (36 - len.toNat) 0 ∧
    s'.dev.msg = message s.mem chunks ++ right_encode (32 * rlen.toNat) ∧
    s'.out = fun i =>
      if i < rlen.toNat then hw.output s'.dev.prefix_bytes s'.dev.msg i else s.out i

variable {prefix_ptr len rlen : u32} {s : World}

include herr in
/-- What becomes of a computation. -/
theorem kmac256_eq (chunks : List (u32 × u32)) (buffer : u32) (hlen : len.toNat < 32)
    (hrlen : 32 * rlen.toNat < 2 ^ 32) (hready : s.dev.Ready .idle) :
    ∃ s', kmac256 hw prefix_ptr len chunks buffer rlen s = some (kErrorOk, s') ∧
      s'.dev.prefix_bytes = encode_string name_kmac ++
        encode_string (bytes_from s.mem prefix_ptr len.toNat) ++
          List.replicate (36 - len.toNat) 0 ∧
      s'.dev.msg = message s.mem chunks ++ final_bytes (32 * rlen.toNat) ∧
      s'.out = squeezed hw s'.dev s.out 0 rlen.toNat := by
  obtain ⟨d, hpre, hd, hbytes⟩ := @kmac_kmac256_set_prefix_eq prefix_ptr len s hlen hready
  have hready1 : d.Ready .idle := by
    rw [hd]
    exact hready
  obtain ⟨d1, hstart, hready2, hmsg, hregs⟩ :=
    kmac_kmac256_start_eq herr (s := { s with dev := d }) hready1
  have habsorb := absorb_chunks chunks (s := { s with dev := d1 }) hready2
  have hready3 : (d1.fed (message s.mem chunks)).Ready .absorb := hready2
  obtain ⟨s', hfinal, hsame, hout⟩ := kmac_kmac256_final_eq herr buffer hrlen
    (s := { s with dev := d1.fed (message s.mem chunks) }) hready3
  refine ⟨s', ?_, ?_, ?_, hout⟩
  · simp only [kmac256, hpre, hstart, habsorb, Option.bind_eq_bind, Option.bind_some, ne_eq,
      not_true_eq_false, if_false]
    exact hfinal
  · rw [hsame.prefix_bytes, ← hbytes, Block.prefix_bytes, Block.prefix_bytes]
    show (List.range KMAC_PREFIX_MULTIREG_COUNT).flatMap (fun i => le32 (d1.prefix_regs i)) = _
    rw [hregs]
  · rw [hsame.2]
    show d1.msg ++ message s.mem chunks ++ final_bytes (32 * rlen.toNat) = _
    rw [hmsg, List.nil_append]

/-- A computation is KMAC256 if its result is not empty. An empty one has the length zero, which
takes a byte in the standard and none in the driver. -/
theorem kmac256_iff {hw : Hardware} (herr : ∀ k, hw.err k = false) {prefix_ptr len rlen : u32}
    {s : World} (chunks : List (u32 × u32)) (buffer : u32) (hlen : len.toNat < 32)
    (hrlen : 32 * rlen.toNat < 2 ^ 32) (hready : s.dev.Ready .idle) :
    Computes hw prefix_ptr len chunks buffer rlen s ↔ rlen ≠ 0 := by
  obtain ⟨s', hrun, hpre, hmsg, hout⟩ :=
    @kmac256_eq hw herr prefix_ptr len rlen s chunks buffer hlen hrlen hready
  have hzero : rlen ≠ 0 ↔ 32 * rlen.toNat ≠ 0 := by
    rw [ne_eq, ← BitVec.toNat_inj]
    show ¬rlen.toNat = 0 ↔ _
    omega
  rw [hzero, ← final_bytes_eq_iff]
  constructor
  · rintro ⟨s1, hrun1, -, hmsg1, -⟩
    rw [hrun] at hrun1
    obtain rfl : s' = s1 := (Prod.mk.inj (Option.some.inj hrun1)).2
    rw [hmsg] at hmsg1
    exact List.append_cancel_left hmsg1
  · intro heq
    refine ⟨s', hrun, hpre, by rw [hmsg, heq], ?_⟩
    rw [hout]
    funext i
    simp [squeezed]

end

/-- A block that is never busy, and squeezes zeros. -/
def quiet : Hardware where
  output _ _ _ := 0
  share0 _ := 0
  busy _ := 0
  err _ := false

def fresh : World where
  mem _ := 0
  out _ := 0
  dev := ⟨fun _ => 0, [], .idle, 0, 0, 0, 0⟩

/-- A result of more than a rate block. -/
theorem kmac256_iff_two_blocks : Computes quiet 0x300 5 [(0x101, 7), (0x400, 2)] 0x203 35 fresh :=
  (kmac256_iff (fun _ => rfl) [(0x101, 7), (0x400, 2)] 0x203 (by decide) (by decide)
    ⟨rfl, rfl⟩).mpr (by decide)

/-- An empty result without a message: one byte is fed to the block, and the standard has two. -/
theorem kmac256_empty_result : ¬Computes quiet 0 0 [] 0 0 fresh := by
  rintro ⟨s', hrun, -, hmsg, -⟩
  obtain ⟨s1, hrun1, -, hmsg1, -⟩ := @kmac256_eq quiet (fun _ => rfl) 0 0 0 fresh [] 0 (by decide)
    (by decide) ⟨rfl, rfl⟩
  rw [hrun] at hrun1
  obtain rfl : s' = s1 := (Prod.mk.inj (Option.some.inj hrun1)).2
  rw [hmsg] at hmsg1
  exact absurd hmsg1 (by decide)

end IbexFirmware.Kmac
