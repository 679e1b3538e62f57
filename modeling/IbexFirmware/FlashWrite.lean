/-
Programming the flash (`write` of the silicon creator's `flash_ctrl.c`).

The controller programs inside of a window of 64 bytes, so `write` starts a transaction for
each window that the data reach into: it sets the address and the control register, pushes the
words into the FIFO, and reads the status until the controller is done. `transactions` is the
list of them, and the loop issues these one after the other until one fails
(`write_eq_issue_all`). `Controller` is the other side: it puts the accesses to its registers
together again, and a transaction that succeeds programs its words.

The header with the registers is generated. The control and the status register are their
fields here, and the resolution of the bus is that of the earlgrey chip.
-/
import IbexFirmware.Bitfield
import IbexFirmware.Lib.Bits
import IbexFirmware.Lib.Cells
import IbexFirmware.RomError

set_option autoImplicit false

namespace IbexFirmware.FlashWrite

open Bytes Bits Cells Json

def FLASH_CTRL_PARAM_REG_BUS_PGM_RES_BYTES : u32 := 64
def kWindowWordCount : u32 := FLASH_CTRL_PARAM_REG_BUS_PGM_RES_BYTES / 4

def FLASH_CTRL_PARTITION_BIT_IS_INFO : ℕ := 0
def FLASH_CTRL_PARTITION_FIELD_INFO_TYPE : BitfieldField32 := ⟨0x3, 1⟩

def kFlashCtrlPartitionData : u32 := 0
def kFlashCtrlEraseTypePage : u32 := 0xaf0eab8b
def kFlashCtrlEraseTypeBank : u32 := 0x80329be9

def SIZE_MAX : u32 := 0xffffffff

/-! ## The registers -/

/-- `FLASH_CTRL_CONTROL_OP_VALUE_*`. -/
inductive Op where
  | read
  | prog
  | erase
  deriving DecidableEq

/-- The fields of `CONTROL`. -/
structure Control where
  start : Bool
  op : Op
  partition_sel : Bool
  info_sel : u32
  erase_sel : Bool
  num : u32
  deriving DecidableEq

/-- The fields of `OP_STATUS`. -/
structure OpStatus where
  done : Bool
  err : Bool
  deriving DecidableEq

/-- An access to a register. -/
inductive Access where
  | write_addr (value : u32)
  | write_control (value : Control)
  | write_prog_fifo (value : u32)
  | read_op_status (value : OpStatus)
  | clear_op_status
  deriving DecidableEq

/-- The accesses so far, and what `OP_STATUS` will be read as. -/
structure Device where
  log : List Access
  polls : List OpStatus
  deriving DecidableEq

def Device.record (d : Device) (accesses : List Access) : Device :=
  { d with log := d.log ++ accesses }

/-! ## The driver -/

structure TransactionParams where
  addr : u32
  op_type : Op
  erase_type : u32
  partition : u32
  word_count : u32

def transaction_start (params : TransactionParams) (d : Device) : Option Device := do
  let d := d.record [.write_addr params.addr]
  let is_info := bitfield_bit32_read params.partition FLASH_CTRL_PARTITION_BIT_IS_INFO
  let info_type := bitfield_field32_read params.partition FLASH_CTRL_PARTITION_FIELD_INFO_TYPE
  let bank_erase ←
    if params.erase_type = kFlashCtrlEraseTypeBank then some true
    else if params.erase_type = kFlashCtrlEraseTypePage then some false
    else none
  return d.record [.write_control
    { start := true
      op := params.op_type
      partition_sel := is_info
      info_sel := info_type
      erase_sel := bank_erase
      num := params.word_count - 1 }]

section

variable (mem : Mem)

/-- The loop of `fifo_write`, with a round for each word. -/
def fifo_write_loop (word_count : u32) :
    (fuel : ℕ) → (i r data : u32) → Device → u32 × u32 × Device
  | 0, i, r, _, d => (i, r, d)
  | fuel + 1, i, r, data, d =>
      if i < word_count ∧ r < word_count then
        fifo_write_loop word_count fuel (i + 1) (r - 1) (data + 4)
          (d.record [.write_prog_fifo (readWord mem data.toNat)])
      else (i, r, d)

def fifo_write (word_count data : u32) (d : Device) : Option Device := do
  let (i, r, d) := fifo_write_loop mem word_count word_count.toNat 0 (word_count - 1) data d
  hardened_check (i = word_count)
  hardened_check (r = SIZE_MAX)
  return d

/-- While the status says that the controller is not done, it is read again, and where there
is no further status the wait has no end. -/
def wait_loop (error : RomError) : List OpStatus → List Access → Option (RomError × Device)
  | [], _ => none
  | op_status :: polls, log =>
      let log := log ++ [.read_op_status op_status]
      if !op_status.done then wait_loop error polls log
      else
        let d : Device := ⟨log ++ [.clear_op_status], polls⟩
        if op_status.err then some (error, d) else some (.kErrorOk, d)

def wait_for_done (error : RomError) (d : Device) : Option (RomError × Device) :=
  wait_loop error d.polls d.log

/-- The loop of `write`, which is given up when the fuel is. -/
def write_loop (partition : u32) (error : RomError) :
    (fuel : ℕ) → (addr word_count window_word_count data : u32) → Device →
      Option (RomError × Device)
  | 0, _, _, _, _, _ => none
  | fuel + 1, addr, word_count, window_word_count, data, d =>
      if word_count > 0 then do
        let window_word_count :=
          if word_count < window_word_count then word_count else window_word_count
        let d ← transaction_start
          { addr := addr
            op_type := .prog
            partition := partition
            word_count := window_word_count
            erase_type := kFlashCtrlEraseTypePage } d
        let d ← fifo_write mem window_word_count data d
        let (local_error, d) ← wait_for_done error d
        if local_error ≠ .kErrorOk then return (local_error, d)
        else
          write_loop partition error fuel (addr + window_word_count * 4)
            (word_count - window_word_count) kWindowWordCount (data + window_word_count * 4) d
      else some (.kErrorOk, d)

/-- No more windows than words are programmed. -/
def write (addr partition word_count data : u32) (error : RomError) (d : Device) :
    Option (RomError × Device) :=
  write_loop mem partition error (word_count.toNat + 1) addr word_count
    (kWindowWordCount - (addr / 4) % kWindowWordCount) data d

end

/-! ## The controller -/

/-- What was started, and the words that were pushed into the FIFO. -/
structure Transaction where
  addr : u32
  control : Control
  words : List u32
  deriving DecidableEq

/-- The address register, the transaction that is going on with its words, and those that have
ended, with whether they succeeded. -/
structure Controller where
  addr : u32
  control : Option Control
  fifo : List u32
  ended : List (Transaction × Bool)
  deriving DecidableEq

def Controller.step (c : Controller) : Access → Controller
  | .write_addr value => { c with addr := value }
  | .write_control value => if value.start then { c with control := some value } else c
  | .write_prog_fifo value => { c with fifo := c.fifo ++ [value] }
  | .read_op_status value =>
      match c.control with
      | some control =>
          if value.done then
            { c with
              control := none
              fifo := []
              ended := c.ended ++ [(⟨c.addr, control, c.fifo⟩, !value.err)] }
          else c
      | none => c
  | .clear_op_status => c

/-- The controller behind a driver that has made the accesses of the log. -/
def Device.controller (d : Device) : Controller := d.log.foldl Controller.step ⟨0, none, [], []⟩

/-- The words from `data` on, and the addresses from `addr` on that they belong to. -/
def words_at (mem : Mem) (addr data : u32) (n : ℕ) : List (u32 × u32) :=
  (List.range n).map fun i =>
    (addr + 4 * BitVec.ofNat 32 i, readWord mem (data + 4 * BitVec.ofNat 32 i).toNat)

/-- The words of a transaction, and where they are programmed. -/
def Transaction.cells (t : Transaction) : List (u32 × u32) :=
  t.words.mapIdx fun i w => (t.addr + 4 * BitVec.ofNat 32 i, w)

/-- What the transactions that succeeded have programmed. -/
def Controller.programmed (c : Controller) : List (u32 × u32) :=
  (c.ended.filter Prod.snd).flatMap fun t => t.1.cells

/-! ## The transactions of a write -/

/-- The control register of a transaction that programs `n` words. -/
def prog_control (partition n : u32) : Control where
  start := true
  op := .prog
  partition_sel := bitfield_bit32_read partition FLASH_CTRL_PARTITION_BIT_IS_INFO
  info_sel := bitfield_field32_read partition FLASH_CTRL_PARTITION_FIELD_INFO_TYPE
  erase_sel := false
  num := n - 1

section

variable (mem : Mem) (partition : u32)

/-- The words that a transaction takes from `data`. -/
def words_from (data : u32) (n : ℕ) : List u32 :=
  (List.range n).map fun i => readWord mem (data + 4 * BitVec.ofNat 32 i).toNat

def transactions_loop : (fuel : ℕ) → (addr word_count window_word_count data : u32) →
    List Transaction
  | 0, _, _, _, _ => []
  | fuel + 1, addr, word_count, window_word_count, data =>
      if word_count > 0 then
        let n := if word_count < window_word_count then word_count else window_word_count
        ⟨addr, prog_control partition n, words_from mem data n.toNat⟩ ::
          transactions_loop fuel (addr + n * 4) (word_count - n) kWindowWordCount (data + n * 4)
      else []

/-- A transaction for each window. -/
def transactions (addr word_count data : u32) : List Transaction :=
  transactions_loop mem partition word_count.toNat addr word_count
    (kWindowWordCount - (addr / 4) % kWindowWordCount) data

end

/-- What the driver does for a transaction before it waits. -/
def Transaction.accesses (t : Transaction) : List Access :=
  [.write_addr t.addr, .write_control t.control] ++ t.words.map .write_prog_fifo

/-- One transaction after the other, until one fails. -/
def issue_all (error : RomError) : List Transaction → Device → Option (RomError × Device)
  | [], d => some (.kErrorOk, d)
  | t :: ts, d => do
      let (local_error, d) ← wait_for_done error (d.record t.accesses)
      if local_error ≠ .kErrorOk then return (local_error, d) else issue_all error ts d

theorem record_record (d : Device) (xs ys : List Access) :
    (d.record xs).record ys = d.record (xs ++ ys) := by
  simp only [Device.record, List.append_assoc]

section

variable (mem : Mem)

theorem words_from_succ (data : u32) (n : ℕ) :
    words_from mem data (n + 1) = readWord mem data.toNat :: words_from mem (data + 4) n := by
  rw [words_from, List.range_succ_eq_map, List.map_cons, List.map_map, words_from]
  congr 1
  · simp
  · apply List.map_congr_left
    intro i _
    have haddr : data + 4 * BitVec.ofNat 32 (i + 1) = data + 4 + 4 * BitVec.ofNat 32 i := by
      rw [← BitVec.ofNat_add_ofNat]
      bv_omega
    rw [Function.comp_apply, haddr]

theorem fifo_write_loop_eq {word_count : u32} {fuel : ℕ} {i r : u32} (data : u32) (d : Device)
    (hfuel : i.toNat + fuel = word_count.toNat) (hr : r = word_count - 1 - i) :
    fifo_write_loop mem word_count fuel i r data d =
      (word_count, SIZE_MAX, d.record ((words_from mem data fuel).map .write_prog_fifo)) := by
  induction fuel generalizing i r data d with
  | zero =>
      have hi : i = word_count := BitVec.eq_of_toNat_eq (by omega)
      have hend : r = SIZE_MAX := by
        rw [hr, hi, SIZE_MAX]
        bv_omega
      rw [fifo_write_loop, hi, hend]
      simp [words_from, Device.record]
  | succ fuel ih =>
      have hbounds : i < word_count ∧ r < word_count := by
        subst hr
        constructor
        · bv_omega
        · bv_omega
      rw [fifo_write_loop, if_pos hbounds, ih _ _ (by bv_omega) (by rw [hr]; bv_omega),
        record_record, words_from_succ, List.map_cons]
      rfl

theorem fifo_write_eq (word_count data : u32) (d : Device) :
    fifo_write mem word_count data d =
      some (d.record ((words_from mem data word_count.toNat).map .write_prog_fifo)) := by
  have hloop : fifo_write_loop mem word_count word_count.toNat 0 (word_count - 1) data d =
      (word_count, SIZE_MAX, d.record ((words_from mem data word_count.toNat).map .write_prog_fifo)) :=
    fifo_write_loop_eq mem data d (Nat.zero_add _) (by bv_omega)
  simp only [fifo_write, hloop, hardened_check, if_true, Option.bind_eq_bind, Option.bind_some]
  rfl

/-- The words from `addr` on up to the end of the window. -/
def ToWindowEnd (addr window_word_count : u32) : Prop :=
  addr.toNat / 4 % 16 + window_word_count.toNat = 16

/-- A round of the loop: some words, no more than there are and none behind the window, and
either these are the last ones or the next window starts behind them. -/
structure Round (addr word_count n : u32) : Prop where
  pos : 0 < n.toNat
  le : n.toNat ≤ word_count.toNat
  window : addr.toNat / 4 % 16 + n.toNat ≤ 16
  left : (word_count - n).toNat = word_count.toNat - n.toNat
  next : (word_count - n).toNat = 0 ∨ ToWindowEnd (addr + n * 4) kWindowWordCount

theorem ToWindowEnd.round {addr word_count window_word_count : u32}
    (h : ToWindowEnd addr window_word_count) (hwords : word_count > 0) :
    Round addr word_count
      (if word_count < window_word_count then word_count else window_word_count) := by
  have hpos : 0 < word_count.toNat := hwords
  have hend : addr.toNat / 4 % 16 + window_word_count.toNat = 16 := h
  by_cases hlast : word_count < window_word_count
  · have hlt : word_count.toNat < window_word_count.toNat := hlast
    rw [if_pos hlast]
    exact ⟨hpos, le_rfl, by omega, by bv_omega, .inl (by bv_omega)⟩
  · have hle : window_word_count.toNat ≤ word_count.toNat := Nat.le_of_not_lt hlast
    have hmul : (window_word_count * 4).toNat = window_word_count.toNat * 4 := by
      rw [BitVec.toNat_mul, show (4 : u32).toNat = 4 from rfl]
      omega
    rw [if_neg hlast]
    refine ⟨by omega, hle, by omega, by bv_omega, .inr ?_⟩
    rw [ToWindowEnd, BitVec.toNat_add, hmul, show kWindowWordCount.toNat = 16 from rfl]
    omega

theorem toWindowEnd_first (addr : u32) :
    ToWindowEnd addr (kWindowWordCount - (addr / 4) % kWindowWordCount) := by
  have hcount : kWindowWordCount = 16 := rfl
  have hmod : ((addr / 4) % (16 : u32)).toNat = addr.toNat / 4 % 16 := by
    rw [BitVec.toNat_umod, BitVec.toNat_udiv]
    rfl
  rw [ToWindowEnd, hcount, BitVec.toNat_sub_of_le]
  · rw [hmod, show (16 : u32).toNat = 16 from rfl]
    omega
  · rw [BitVec.le_def, hmod, show (16 : u32).toNat = 16 from rfl]
    omega

theorem transaction_start_prog (addr partition n : u32) (d : Device) :
    transaction_start
        { addr := addr, op_type := .prog, partition := partition, word_count := n,
          erase_type := kFlashCtrlEraseTypePage } d =
      some (d.record [.write_addr addr, .write_control (prog_control partition n)]) := by
  have hne : kFlashCtrlEraseTypePage ≠ kFlashCtrlEraseTypeBank := by decide
  simp only [transaction_start, if_neg hne, if_true, Option.bind_eq_bind, Option.bind_some,
    record_record]
  rfl

variable (partition : u32) (error : RomError)

/-- A round issues a transaction. -/
theorem write_loop_succ (fuel : ℕ) (addr word_count window_word_count data : u32) (d : Device) :
    write_loop mem partition error (fuel + 1) addr word_count window_word_count data d =
      if word_count > 0 then do
        let n := if word_count < window_word_count then word_count else window_word_count
        let (local_error, d) ← wait_for_done error (d.record
          (Transaction.accesses ⟨addr, prog_control partition n, words_from mem data n.toNat⟩))
        if local_error ≠ .kErrorOk then return (local_error, d)
        else
          write_loop mem partition error fuel (addr + n * 4) (word_count - n) kWindowWordCount
            (data + n * 4) d
      else some (.kErrorOk, d) := by
  rw [write_loop]
  simp only [transaction_start_prog, fifo_write_eq, record_record, Option.bind_eq_bind,
    Option.bind_some]
  rfl

/-- The induction is on the fuel: the loop stops at the first transaction that fails. -/
theorem write_loop_eq_issue_all {fuel : ℕ} {addr word_count window_word_count : u32} (data : u32)
    (d : Device) (hfuel : word_count.toNat ≤ fuel)
    (hwindow : word_count.toNat = 0 ∨ ToWindowEnd addr window_word_count) :
    write_loop mem partition error (fuel + 1) addr word_count window_word_count data d =
      issue_all error
        (transactions_loop mem partition fuel addr word_count window_word_count data) d := by
  induction fuel generalizing addr word_count window_word_count data d with
  | zero =>
      have hdone : ¬word_count > 0 := by
        show ¬0 < word_count.toNat
        omega
      rw [write_loop_succ, if_neg hdone]
      rfl
  | succ fuel ih =>
      rw [write_loop_succ, transactions_loop]
      by_cases hwords : word_count > 0
      · have hpos : 0 < word_count.toNat := hwords
        have hround := (hwindow.resolve_left (by omega)).round hwords
        rw [if_pos hwords, if_pos hwords]
        dsimp only
        generalize (if word_count < window_word_count then word_count else window_word_count) = n
          at hround
        have hn := hround.pos
        have hleft := hround.left
        rw [issue_all]
        refine congrArg (Option.bind _) (funext fun run => ?_)
        rw [ih _ _ (by omega) hround.next]
      · rw [if_neg hwords, if_neg hwords]
        rfl

/-- The driver is a loop that issues transactions. -/
theorem write_eq_issue_all (addr word_count data : u32) (d : Device) :
    write mem addr partition word_count data error d =
      issue_all error (transactions mem partition addr word_count data) d :=
  write_loop_eq_issue_all mem partition error data d le_rfl (.inr (toWindowEnd_first addr))

/-! ## Words and windows -/

theorem words_at_add (addr data n : u32) (k : ℕ) :
    words_at mem addr data (n.toNat + k) =
      words_at mem addr data n.toNat ++ words_at mem (addr + n * 4) (data + n * 4) k := by
  have hstep : ∀ (a : u32) (i : ℕ),
      a + 4 * BitVec.ofNat 32 (n.toNat + i) = a + n * 4 + 4 * BitVec.ofNat 32 i := by
    intro a i
    rw [← BitVec.ofNat_add_ofNat, BitVec.ofNat_toNat, BitVec.setWidth_eq]
    bv_omega
  rw [words_at, List.range_add, List.map_append, List.map_map]
  congr 1
  apply List.map_congr_left
  intro i _
  simp only [Function.comp_apply, hstep]

theorem cells_words_from (addr data : u32) (control : Control) (n : ℕ) :
    (⟨addr, control, words_from mem data n⟩ : Transaction).cells = words_at mem addr data n := by
  apply List.ext_getElem
  · simp [Transaction.cells, words_from, words_at]
  · intro i _ _
    simp [Transaction.cells, words_from, words_at]

/-- The words lie in the window of the first one, and the control register has their number. -/
structure Windowed (partition : u32) (t : Transaction) : Prop where
  control : t.control = prog_control partition (BitVec.ofNat 32 t.words.length)
  pos : 0 < t.words.length
  le : t.words.length ≤ 16
  window : ∀ p ∈ t.cells, p.1.toNat / 64 = t.addr.toNat / 64

theorem Round.windowed {addr word_count n : u32} (h : Round addr word_count n) (data : u32) :
    Windowed partition ⟨addr, prog_control partition n, words_from mem data n.toNat⟩ := by
  have hlen : (words_from mem data n.toNat).length = n.toNat := by simp [words_from]
  have hwindow := h.window
  refine ⟨?_, by rw [hlen]; exact h.pos, by rw [hlen]; omega, ?_⟩
  · rw [hlen, BitVec.ofNat_toNat, BitVec.setWidth_eq]
  · intro p hp
    rw [cells_words_from] at hp
    obtain ⟨i, hi, rfl⟩ := List.mem_map.mp hp
    rw [List.mem_range] at hi
    have hmul : (4 * BitVec.ofNat 32 i : u32).toNat = 4 * i := by
      rw [BitVec.toNat_mul, BitVec.toNat_ofNat, show (4 : u32).toNat = 4 from rfl]
      omega
    dsimp only
    rw [BitVec.toNat_add, hmul]
    omega

/-- The induction is on the fuel: each round takes the words up to the end of the window. -/
theorem transactions_loop_spec {fuel : ℕ} {addr word_count window_word_count : u32} (data : u32)
    (hfuel : word_count.toNat ≤ fuel)
    (hwindow : word_count.toNat = 0 ∨ ToWindowEnd addr window_word_count) :
    (transactions_loop mem partition fuel addr word_count window_word_count data).flatMap
        Transaction.cells = words_at mem addr data word_count.toNat ∧
      ∀ t ∈ transactions_loop mem partition fuel addr word_count window_word_count data,
        Windowed partition t := by
  induction fuel generalizing addr word_count window_word_count data with
  | zero =>
      rw [transactions_loop, Nat.eq_zero_of_le_zero hfuel]
      exact ⟨rfl, nofun⟩
  | succ fuel ih =>
      rw [transactions_loop]
      by_cases hwords : word_count > 0
      · have hpos : 0 < word_count.toNat := hwords
        have hround := (hwindow.resolve_left (by omega)).round hwords
        rw [if_pos hwords]
        generalize (if word_count < window_word_count then word_count else window_word_count) = n
          at hround
        have hn := hround.pos
        have hle := hround.le
        have hleft := hround.left
        obtain ⟨hcells, hall⟩ := ih (data + n * 4) (by omega) hround.next
        constructor
        · rw [List.flatMap_cons, hcells, cells_words_from, hleft, ← words_at_add,
            Nat.add_sub_of_le hle]
        · intro t ht
          obtain rfl | ht := List.mem_cons.mp ht
          · exact hround.windowed mem partition data
          · exact hall t ht
      · have hzero : word_count.toNat = 0 := Nat.eq_zero_of_not_pos hwords
        rw [if_neg hwords, hzero]
        exact ⟨rfl, nofun⟩

/-- The transactions program the words in their order and each once. -/
theorem transactions_cells (addr word_count data : u32) :
    (transactions mem partition addr word_count data).flatMap Transaction.cells =
      words_at mem addr data word_count.toNat :=
  (transactions_loop_spec mem partition data le_rfl (.inr (toWindowEnd_first addr))).1

theorem transactions_windowed (addr word_count data : u32) :
    ∀ t ∈ transactions mem partition addr word_count data, Windowed partition t :=
  (transactions_loop_spec mem partition data le_rfl (.inr (toWindowEnd_first addr))).2

end

/-! ## The other side -/

/-- Whether the transactions succeed, one after the other, as the status will tell. -/
def results (polls : List OpStatus) : List Bool := (polls.filter OpStatus.done).map fun s => !s.err

def Controller.run (c : Controller) (accesses : List Access) : Controller :=
  accesses.foldl Controller.step c

/-- Nothing is going on. -/
structure Controller.Idle (c : Controller) : Prop where
  control : c.control = none
  fifo : c.fifo = []

theorem controller_record (d : Device) (accesses : List Access) :
    (d.record accesses).controller = d.controller.run accesses :=
  List.foldl_append

theorem run_fifo (c : Controller) (words : List u32) :
    c.run (words.map .write_prog_fifo) = { c with fifo := c.fifo ++ words } := by
  induction words generalizing c with
  | nil => simp [Controller.run]
  | cons w words ih =>
      have hstep : c.run ((w :: words).map .write_prog_fifo) =
          Controller.run { c with fifo := c.fifo ++ [w] } (words.map .write_prog_fifo) := rfl
      rw [hstep, ih, List.append_assoc]
      rfl

/-- A transaction that was started waits for its end. -/
theorem run_accesses {c : Controller} (hc : c.Idle) {t : Transaction} (ht : t.control.start = true) :
    c.run t.accesses = ⟨t.addr, some t.control, t.words, c.ended⟩ := by
  have hstart : c.run t.accesses =
      Controller.run ⟨t.addr, some t.control, c.fifo, c.ended⟩ (t.words.map .write_prog_fifo) := by
    rw [Controller.run, Transaction.accesses, List.foldl_append, List.foldl_cons, List.foldl_cons]
    simp only [Controller.step, ht, if_true]
    rfl
  rw [hstart, run_fifo, hc.fifo, List.nil_append]

/-- The wait for the end of a transaction. -/
theorem wait_loop_ends (error : RomError) (polls : List OpStatus) (log : List Access)
    {t : Transaction} {ended : List (Transaction × Bool)}
    (hrun : (Device.mk log polls).controller = ⟨t.addr, some t.control, t.words, ended⟩) :
    (results polls = [] ∧ wait_loop error polls log = none) ∨
      ∃ ok d, results polls = ok :: results d.polls ∧
        wait_loop error polls log = some (if ok then .kErrorOk else error, d) ∧
        d.controller = ⟨t.addr, none, [], ended ++ [(t, ok)]⟩ := by
  induction polls generalizing log with
  | nil => exact .inl ⟨rfl, rfl⟩
  | cons op_status polls ih =>
      have hread : (Device.mk (log ++ [Access.read_op_status op_status]) polls).controller =
          Controller.step ⟨t.addr, some t.control, t.words, ended⟩ (.read_op_status op_status) := by
        rw [← hrun]
        exact List.foldl_append
      rw [wait_loop]
      by_cases hdone : op_status.done = true
      · right
        refine ⟨!op_status.err,
          ⟨log ++ [Access.read_op_status op_status] ++ [Access.clear_op_status], polls⟩, ?_, ?_, ?_⟩
        · simp [results, hdone]
        · cases herr : op_status.err with
          | false => simp [hdone]
          | true => simp [hdone]
        · have hclear : (Device.mk
                (log ++ [Access.read_op_status op_status] ++ [Access.clear_op_status])
              polls).controller =
                (Device.mk (log ++ [Access.read_op_status op_status]) polls).controller :=
            List.foldl_append
          rw [hclear, hread]
          simp [Controller.step, hdone]
      · have hbusy : op_status.done = false := Bool.eq_false_iff.mpr hdone
        have hsame : results (op_status :: polls) = results polls := by simp [results, hbusy]
        rw [hsame]
        simp only [hbusy, Bool.not_false, if_true]
        apply ih
        rw [hread]
        simp [Controller.step, hbusy]

theorem wait_for_done_ends (error : RomError) {d : Device} (hidle : d.controller.Idle)
    {t : Transaction} (ht : t.control.start = true) :
    (results d.polls = [] ∧ wait_for_done error (d.record t.accesses) = none) ∨
      ∃ ok d', results d.polls = ok :: results d'.polls ∧
        wait_for_done error (d.record t.accesses) = some (if ok then .kErrorOk else error, d') ∧
        d'.controller = ⟨t.addr, none, [], d.controller.ended ++ [(t, ok)]⟩ := by
  apply wait_loop_ends
  show (d.record t.accesses).controller = _
  rw [controller_record, run_accesses hidle ht]

variable {error : RomError} {ts : List Transaction}

/-- Transactions of which none fails. -/
theorem issue_all_succeeds (hstart : ∀ t ∈ ts, t.control.start = true) {d : Device}
    (hidle : d.controller.Idle)
    (hok : (results d.polls).take ts.length = List.replicate ts.length true) :
    ∃ d', issue_all error ts d = some (.kErrorOk, d') ∧
      d'.controller.ended = d.controller.ended ++ ts.map (·, true) := by
  induction ts generalizing d with
  | nil => exact ⟨d, rfl, (List.append_nil _).symm⟩
  | cons t ts ih =>
      have ht := hstart t List.mem_cons_self
      obtain ⟨hnone, -⟩ | ⟨ok, d1, hresults, hwait, hcontroller⟩ :=
        wait_for_done_ends error hidle ht
      · rw [hnone, List.take_nil, List.length_cons, List.replicate_succ] at hok
        exact absurd hok (by simp)
      · rw [hresults, List.length_cons, List.take_succ_cons, List.replicate_succ] at hok
        obtain ⟨rfl, hrest⟩ := List.cons.inj hok
        have hidle1 : d1.controller.Idle := by
          rw [hcontroller]
          exact ⟨rfl, rfl⟩
        obtain ⟨d2, hissue, hended⟩ := ih (fun t ht => hstart t (List.mem_cons_of_mem _ ht)) hidle1
          hrest
        refine ⟨d2, ?_, ?_⟩
        · rw [issue_all, hwait]
          exact hissue
        · rw [hended, hcontroller, List.append_assoc]
          rfl

/-- Behind the first transaction that fails there is none. -/
theorem issue_all_fails (herror : error ≠ .kErrorOk) (hstart : ∀ t ∈ ts, t.control.start = true)
    {d : Device} (hidle : d.controller.Idle) {k : ℕ} (hk : k < ts.length)
    (hok : (results d.polls).take (k + 1) = List.replicate k true ++ [false]) :
    ∃ d', issue_all error ts d = some (error, d') ∧
      d'.controller.ended = d.controller.ended ++ (ts.take k).map (·, true) ++ [(ts[k], false)] := by
  induction ts generalizing d k with
  | nil => exact absurd hk (Nat.not_lt_zero k)
  | cons t ts ih =>
      have ht := hstart t List.mem_cons_self
      obtain ⟨hnone, -⟩ | ⟨ok, d1, hresults, hwait, hcontroller⟩ :=
        wait_for_done_ends error hidle ht
      · rw [hnone, List.take_nil] at hok
        exact absurd hok.symm (by simp)
      · rw [hresults, List.take_succ_cons] at hok
        cases k with
        | zero =>
            obtain ⟨rfl, -⟩ := List.cons.inj hok
            refine ⟨d1, ?_, ?_⟩
            · rw [issue_all, hwait]
              simp [herror]
            · rw [hcontroller]
              simp
        | succ k =>
            rw [List.replicate_succ, List.cons_append] at hok
            obtain ⟨rfl, hrest⟩ := List.cons.inj hok
            have hidle1 : d1.controller.Idle := by
              rw [hcontroller]
              exact ⟨rfl, rfl⟩
            obtain ⟨d2, hissue, hended⟩ := ih (fun t ht => hstart t (List.mem_cons_of_mem _ ht))
              hidle1 (Nat.lt_of_succ_lt_succ hk) hrest
            refine ⟨d2, ?_, ?_⟩
            · rw [issue_all, hwait]
              exact hissue
            · rw [hended, hcontroller]
              simp

theorem programmed_of_ended {c : Controller} {failed : List (Transaction × Bool)}
    (h : c.ended = ts.map (·, true) ++ failed) (hfailed : failed.filter Prod.snd = []) :
    c.programmed = ts.flatMap Transaction.cells := by
  have hsucceeded : (ts.map (·, true)).filter Prod.snd = ts.map (·, true) := by
    rw [List.filter_eq_self]
    simp
  rw [Controller.programmed, h, List.filter_append, hsucceeded, hfailed, List.append_nil,
    List.flatMap_map]

/-- A write is a transaction for each window, and these program each word once and in its order.
Where the controller carries all of them out the write returns without an error, and where one
fails, no other is started behind it and what was programmed is that of the windows in front. -/
theorem write_programs (mem : Mem) (addr partition word_count data : u32) {error : RomError}
    (herror : error ≠ .kErrorOk) :
    let ts := transactions mem partition addr word_count data
    ts.flatMap Transaction.cells = words_at mem addr data word_count.toNat ∧
      (∀ t ∈ ts, Windowed partition t) ∧
      ∀ polls : List OpStatus,
        ((results polls).take ts.length = List.replicate ts.length true →
          ∃ d, write mem addr partition word_count data error ⟨[], polls⟩ = some (.kErrorOk, d) ∧
            d.controller.ended = ts.map (·, true) ∧
            d.controller.programmed = words_at mem addr data word_count.toNat) ∧
        ∀ k, (hk : k < ts.length) →
          (results polls).take (k + 1) = List.replicate k true ++ [false] →
            ∃ d, write mem addr partition word_count data error ⟨[], polls⟩ = some (error, d) ∧
              d.controller.ended = (ts.take k).map (·, true) ++ [(ts[k], false)] ∧
              d.controller.programmed = (ts.take k).flatMap Transaction.cells := by
  intro ts
  have hcells : ts.flatMap Transaction.cells = words_at mem addr data word_count.toNat :=
    transactions_cells mem partition addr word_count data
  have hwindowed : ∀ t ∈ ts, Windowed partition t :=
    transactions_windowed mem partition addr word_count data
  have hstart : ∀ t ∈ ts, t.control.start = true := by
    intro t ht
    rw [(hwindowed t ht).control]
    rfl
  refine ⟨hcells, hwindowed, fun polls => ⟨fun hok => ?_, fun k hk hok => ?_⟩⟩
  · have hidle : (Device.mk [] polls).controller.Idle := ⟨rfl, rfl⟩
    obtain ⟨d, hissue, hended⟩ := issue_all_succeeds hstart hidle hok
    refine ⟨d, ?_, hended, ?_⟩
    · rw [write_eq_issue_all]
      exact hissue
    · rw [programmed_of_ended (hended.trans (List.append_nil _).symm) rfl, hcells]
  · have hidle : (Device.mk [] polls).controller.Idle := ⟨rfl, rfl⟩
    obtain ⟨d, hissue, hended⟩ := issue_all_fails herror hstart hidle hk hok
    refine ⟨d, ?_, hended, programmed_of_ended hended rfl⟩
    rw [write_eq_issue_all]
    exact hissue

/-- Two words in front of the end of a window and one behind it, where the second transaction
fails. -/
theorem write_programs_first_window :
    ∃ d, write (fun a => BitVec.ofNat 8 a) 0x38 kFlashCtrlPartitionData 3 0x100
        .kErrorFlashCtrlDataWrite ⟨[], [⟨false, false⟩, ⟨true, false⟩, ⟨true, true⟩]⟩ =
          some (.kErrorFlashCtrlDataWrite, d) ∧
      d.controller.programmed = [(0x38, 0x03020100), (0x3c, 0x07060504)] := by
  obtain ⟨d, hwrite, -, hprogrammed⟩ :=
    ((write_programs (fun a => BitVec.ofNat 8 a) 0x38 kFlashCtrlPartitionData 3 0x100
      (show RomError.kErrorFlashCtrlDataWrite ≠ .kErrorOk by decide)).2.2
        [⟨false, false⟩, ⟨true, false⟩, ⟨true, true⟩]).2 1 (by decide) (by decide)
  refine ⟨d, hwrite, hprogrammed.trans ?_⟩
  decide

end IbexFirmware.FlashWrite
