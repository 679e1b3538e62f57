/-
The packet memory of the USB device and the copies in and out of it (`usb.c`).

The device is a part of the bus, a map from addresses to words. Its addresses come from
generated headers: `UsbdevRegs` has the ones the driver uses, `Layout` what it relies on.
The packet memory is 32 buffers of 16 words each behind the registers, one buffer next to
the other. It takes whole words only, so `copy_to_buffer` puts the bytes behind the last
full word into a word of their own, and it writes this word also when there are none:
`copy_to_buffer_exact` says when a copy stays in its buffer all the same.
-/
import IbexFirmware.Bitfield
import IbexFirmware.Lib.Bits

set_option autoImplicit false

namespace IbexFirmware.Usb

open Bytes Bits Json

/-! ## Addresses -/

def USBDEV_NUM_BUFFERS : ℕ := 32
def USBDEV_PARAM_N_ENDPOINTS : ℕ := 12

/-- The words of the bus, by their addresses. -/
abbrev Bus := ℕ → u32

/-- The constants of the generated headers. -/
structure UsbdevRegs where
  kBase : ℕ
  USBDEV_EP_OUT_ENABLE_REG_OFFSET : ℕ
  USBDEV_EP_IN_ENABLE_REG_OFFSET : ℕ
  USBDEV_RXENABLE_SETUP_REG_OFFSET : ℕ
  USBDEV_RXENABLE_OUT_REG_OFFSET : ℕ
  USBDEV_SET_NAK_OUT_REG_OFFSET : ℕ
  USBDEV_IN_SENT_REG_OFFSET : ℕ
  USBDEV_OUT_STALL_REG_OFFSET : ℕ
  USBDEV_IN_STALL_REG_OFFSET : ℕ
  USBDEV_CONFIGIN_0_REG_OFFSET : ℕ
  USBDEV_BUFFER_REG_OFFSET : ℕ
  USBDEV_CONFIGIN_0_BUFFER_0_FIELD : BitfieldField32
  USBDEV_CONFIGIN_0_SIZE_0_FIELD : BitfieldField32
  USBDEV_CONFIGIN_0_PEND_0_BIT : ℕ
  USBDEV_CONFIGIN_0_RDY_0_BIT : ℕ

/-- Where the `configin` register of an endpoint is. -/
def UsbdevRegs.configin_offset (R : UsbdevRegs) (ep : ℕ) : ℕ :=
  R.USBDEV_CONFIGIN_0_REG_OFFSET + ep * 4

/-- Where the registers are. -/
def UsbdevRegs.offsets (R : UsbdevRegs) : List ℕ :=
  [R.USBDEV_EP_OUT_ENABLE_REG_OFFSET, R.USBDEV_EP_IN_ENABLE_REG_OFFSET,
    R.USBDEV_RXENABLE_SETUP_REG_OFFSET, R.USBDEV_RXENABLE_OUT_REG_OFFSET,
    R.USBDEV_SET_NAK_OUT_REG_OFFSET, R.USBDEV_IN_SENT_REG_OFFSET, R.USBDEV_OUT_STALL_REG_OFFSET,
    R.USBDEV_IN_STALL_REG_OFFSET] ++ (List.range USBDEV_PARAM_N_ENDPOINTS).map R.configin_offset

/-- What the driver relies on. Each register has an address of its own, in front of the packet
memory; the device is not at the bottom of the bus; the fields of `configin` share no bit. -/
structure Layout extends UsbdevRegs where
  offsets_nodup : toUsbdevRegs.offsets.Nodup
  offsets_lt : ∀ offset ∈ toUsbdevRegs.offsets, offset < USBDEV_BUFFER_REG_OFFSET
  base_ge : USBDEV_BUFFER_REG_OFFSET ≤ kBase
  buffer_wide : USBDEV_CONFIGIN_0_BUFFER_0_FIELD.Wide 5
  size_wide : USBDEV_CONFIGIN_0_SIZE_0_FIELD.Wide 7
  pend_lt : USBDEV_CONFIGIN_0_PEND_0_BIT < 32
  rdy_lt : USBDEV_CONFIGIN_0_RDY_0_BIT < 32
  buffer_beside_size : USBDEV_CONFIGIN_0_BUFFER_0_FIELD.Beside 5 USBDEV_CONFIGIN_0_SIZE_0_FIELD 7
  buffer_beside_pend :
    USBDEV_CONFIGIN_0_BUFFER_0_FIELD.Beside 5
      (bitfield_bit32_to_field32 USBDEV_CONFIGIN_0_PEND_0_BIT) 1
  buffer_beside_rdy :
    USBDEV_CONFIGIN_0_BUFFER_0_FIELD.Beside 5
      (bitfield_bit32_to_field32 USBDEV_CONFIGIN_0_RDY_0_BIT) 1
  size_beside_pend :
    USBDEV_CONFIGIN_0_SIZE_0_FIELD.Beside 7
      (bitfield_bit32_to_field32 USBDEV_CONFIGIN_0_PEND_0_BIT) 1
  size_beside_rdy :
    USBDEV_CONFIGIN_0_SIZE_0_FIELD.Beside 7
      (bitfield_bit32_to_field32 USBDEV_CONFIGIN_0_RDY_0_BIT) 1
  pend_ne_rdy : USBDEV_CONFIGIN_0_PEND_0_BIT ≠ USBDEV_CONFIGIN_0_RDY_0_BIT

/-- The addresses as they are in the chip. -/
def earlgrey : Layout where
  kBase := 0x40320000
  USBDEV_EP_OUT_ENABLE_REG_OFFSET := 0x14
  USBDEV_EP_IN_ENABLE_REG_OFFSET := 0x18
  USBDEV_RXENABLE_SETUP_REG_OFFSET := 0x2c
  USBDEV_RXENABLE_OUT_REG_OFFSET := 0x30
  USBDEV_SET_NAK_OUT_REG_OFFSET := 0x34
  USBDEV_IN_SENT_REG_OFFSET := 0x38
  USBDEV_OUT_STALL_REG_OFFSET := 0x3c
  USBDEV_IN_STALL_REG_OFFSET := 0x40
  USBDEV_CONFIGIN_0_REG_OFFSET := 0x44
  USBDEV_BUFFER_REG_OFFSET := 0x800
  USBDEV_CONFIGIN_0_BUFFER_0_FIELD := ⟨0x1f, 0⟩
  USBDEV_CONFIGIN_0_SIZE_0_FIELD := ⟨0x7f, 8⟩
  USBDEV_CONFIGIN_0_PEND_0_BIT := 30
  USBDEV_CONFIGIN_0_RDY_0_BIT := 31
  offsets_nodup := by decide
  offsets_lt := by decide
  base_ge := by decide
  buffer_wide := ⟨rfl, by decide⟩
  size_wide := ⟨rfl, by decide⟩
  pend_lt := by decide
  rdy_lt := by decide
  buffer_beside_size := .inl (by decide)
  buffer_beside_pend := .inl (by decide)
  buffer_beside_rdy := .inl (by decide)
  size_beside_pend := .inl (by decide)
  size_beside_rdy := .inl (by decide)
  pend_ne_rdy := by decide

variable (L : Layout)

/-- Where buffer `id` starts. -/
def Layout.buffer_addr (id : ℕ) : ℕ := L.kBase + L.USBDEV_BUFFER_REG_OFFSET + id * 64

/-! ## The copies -/

/-- A store to the bus. -/
def store (bus : Bus) (addr : ℕ) (w : u32) : Bus := Function.update bus addr w

/-- The second loop of `copy_to_buffer`: the bytes from `src` on, from bit `shift` on. -/
def last_word (mem : Mem) : (src len shift : ℕ) → (last : u32) → u32
  | _, 0, _, last => last
  | src, len + 1, shift, last =>
      last_word mem (src + 1) len (shift + 8) (last ||| (mem src).setWidth 32 <<< shift)

/-- The first loop of `copy_to_buffer`, and the store behind the loops. -/
def copy_words_out (mem : Mem) : (dst src len : ℕ) → Bus → Bus
  | dst, src, len + 4, bus =>
      copy_words_out mem (dst + 4) (src + 4) len (store bus dst (readWord mem src))
  | dst, src, len, bus => store bus dst (last_word mem src len 0 0)

def copy_to_buffer (id : ℕ) (mem : Mem) (src len : ℕ) (bus : Bus) : Bus :=
  copy_words_out mem (L.buffer_addr id) src len bus

/-- The second loop of `copy_from_buffer`. -/
def last_bytes : (last : u32) → (dst len : ℕ) → Mem → Mem
  | _, _, 0, mem => mem
  | last, dst, len + 1, mem =>
      last_bytes (last >>> 8) (dst + 1) len (Function.update mem dst (last.setWidth 8))

/-- The first loop of `copy_from_buffer` and what is behind it. -/
def copy_words_in (bus : Bus) : (src dst len : ℕ) → Mem → Mem
  | src, dst, len + 4, mem =>
      copy_words_in bus (src + 4) (dst + 4) len (writeWord mem dst (bus src))
  | src, dst, len, mem => if len > 0 then last_bytes (bus src) dst len mem else mem

def copy_from_buffer (id : ℕ) (bus : Bus) (dst len : ℕ) (mem : Mem) : Mem :=
  copy_words_in bus (L.buffer_addr id) dst len mem

/-! ## What the copies leave behind -/

/-- Byte `i` behind an address of the bus. -/
def busByte (bus : Bus) (addr i : ℕ) : u8 := byteOf (bus (addr + 4 * (i / 4))) (i % 4)

/-- The loop has put `k` bytes into the word and goes on with the next. -/
theorem byteOf_last_word (mem : Mem) (src len k : ℕ) (last : u32) (hlen : k + len ≤ 4)
    (hlast : ∀ i < 4, k ≤ i → byteOf last i = 0) {i : ℕ} (hi : i < 4) :
    byteOf (last_word mem src len (8 * k) last) i =
      if i < k then byteOf last i else if i < k + len then mem (src + (i - k)) else 0 := by
  induction len generalizing src k last with
  | zero =>
      rw [last_word]
      by_cases hik : i < k
      · rw [if_pos hik]
      · rw [if_neg hik, if_neg (by omega), hlast i hi (by omega)]
  | succ len ih =>
      have hbyte : ∀ j < 4, byteOf (last ||| (mem src).setWidth 32 <<< (8 * k)) j =
          if j = k then mem src else byteOf last j := by
        intro j hj
        rw [byteOf_or, byteOf_shiftLeft _ hj]
        by_cases hjk : j = k
        · rw [if_pos hjk, if_pos hjk, hlast j hj (by omega)]
          simp
        · rw [if_neg hjk, if_neg hjk]
          simp
      have hclear : ∀ j < 4, k + 1 ≤ j →
          byteOf (last ||| (mem src).setWidth 32 <<< (8 * k)) j = 0 := by
        intro j hj hkj
        rw [hbyte j hj, if_neg (by omega), hlast j hj (by omega)]
      rw [last_word, show 8 * k + 8 = 8 * (k + 1) by ring, ih _ _ _ (by omega) hclear, hbyte i hi]
      by_cases hik : i < k
      · rw [if_pos (by omega), if_pos hik, if_neg (by omega)]
      · by_cases heq : i = k
        · subst heq
          rw [if_pos (by omega), if_pos rfl, if_neg hik, if_pos (by omega), Nat.sub_self,
            Nat.add_zero]
        · rw [if_neg (by omega), if_neg hik,
            show src + 1 + (i - (k + 1)) = src + (i - k) by omega,
            show k + 1 + len = k + (len + 1) by ring]

theorem byteOf_last_word_zero (mem : Mem) (src : ℕ) {len i : ℕ} (hlen : len < 4) (hi : i < 4) :
    byteOf (last_word mem src len 0 0) i = if i < len then mem (src + i) else 0 := by
  have hzero : ∀ j < 4, 0 ≤ j → byteOf (0 : u32) j = 0 := by
    intro j hj _
    interval_cases j <;> rfl
  have hword := byteOf_last_word mem src len 0 0 (by omega) hzero hi
  simpa using hword

theorem busByte_add_four (bus : Bus) (addr i : ℕ) :
    busByte bus addr (i + 4) = busByte bus (addr + 4) i := by
  rw [busByte, busByte, Nat.add_div_right i (by omega), Nat.add_mod_right,
    show addr + 4 * (i / 4 + 1) = addr + 4 + 4 * (i / 4) by ring]

/-- The copy stores to the words from `dst` on that the bytes reach into, and to the word
behind the full ones. -/
theorem copy_words_out_of_not_mem (mem : Mem) (dst src len : ℕ) (bus : Bus) {addr : ℕ}
    (h : addr < dst ∨ dst + 4 * (len / 4) < addr) :
    copy_words_out mem dst src len bus addr = bus addr := by
  fun_induction copy_words_out mem dst src len bus with
  | case1 dst src len bus ih =>
      rw [ih (by omega), store, Function.update_of_ne (by omega)]
  | case2 dst src len bus hlen =>
      rw [store, Function.update_of_ne (by omega)]

theorem copy_words_out_last (mem : Mem) (dst src len : ℕ) (bus : Bus) :
    copy_words_out mem dst src len bus (dst + 4 * (len / 4)) =
      last_word mem (src + 4 * (len / 4)) (len % 4) 0 0 := by
  fun_induction copy_words_out mem dst src len bus with
  | case1 dst src len bus ih =>
      rw [show dst + 4 * ((len + 4) / 4) = dst + 4 + 4 * (len / 4) by omega, ih,
        show src + 4 * ((len + 4) / 4) = src + 4 + 4 * (len / 4) by omega,
        show (len + 4) % 4 = len % 4 from Nat.add_mod_right len 4]
  | case2 dst src len bus hlen =>
      have hlt : len < 4 := by
        by_contra hge
        exact hlen (len - 4) (by omega)
      rw [Nat.div_eq_of_lt hlt, Nat.mod_eq_of_lt hlt, store]
      simp

theorem copy_words_out_copies (mem : Mem) (dst src len : ℕ) (bus : Bus) {i : ℕ} (hi : i < len) :
    busByte (copy_words_out mem dst src len bus) dst i = mem (src + i) := by
  fun_induction copy_words_out mem dst src len bus generalizing i with
  | case1 dst src len bus ih =>
      by_cases h4 : i < 4
      · -- the rest of the copy leaves the first word as it is
        rw [busByte, Nat.div_eq_of_lt h4, Nat.mod_eq_of_lt h4,
          copy_words_out_of_not_mem _ _ _ _ _ (.inl (by omega))]
        exact (congrArg (byteOf · i) (Function.update_self dst _ bus)).trans
          (byteOf_readWord mem src i h4)
      · obtain ⟨j, rfl⟩ : ∃ j, i = j + 4 := ⟨i - 4, by omega⟩
        rw [busByte_add_four, ih (by omega), show src + 4 + j = src + (j + 4) by ring]
  | case2 dst src len bus hlen =>
      have hlt : len < 4 := by
        by_contra hge
        exact hlen (len - 4) (by omega)
      rw [busByte, Nat.div_eq_of_lt (by omega), Nat.mod_eq_of_lt (by omega), Nat.mul_zero,
        Nat.add_zero, store, Function.update_self, byteOf_last_word_zero _ _ hlt (by omega),
        if_pos hi]

theorem last_bytes_eq (last : u32) (dst len : ℕ) (mem : Mem) (hlen : len ≤ 4) (x : ℕ) :
    last_bytes last dst len mem x =
      if dst ≤ x ∧ x < dst + len then byteOf last (x - dst) else mem x := by
  induction len generalizing last dst mem with
  | zero => rw [last_bytes, if_neg (by omega)]
  | succ len ih =>
      rw [last_bytes, ih _ _ _ (by omega)]
      by_cases hx : x = dst
      · subst hx
        rw [if_neg (by omega), if_pos (by omega), Function.update_self, Nat.sub_self]
        apply BitVec.eq_of_getLsbD_eq
        intro i hi
        simp [byteOf, hi]
      · by_cases hin : dst + 1 ≤ x ∧ x < dst + 1 + len
        · obtain ⟨i, rfl⟩ : ∃ i, x = dst + 1 + i := ⟨x - (dst + 1), by omega⟩
          rw [if_pos hin, if_pos (by omega), show dst + 1 + i - (dst + 1) = i by omega,
            show dst + 1 + i - dst = i + 1 by omega]
          apply BitVec.eq_of_getLsbD_eq
          intro j hj
          simp [byteOf, hj, show 8 + (8 * i + j) = 8 * (i + 1) + j by ring]
        · rw [if_neg hin, if_neg (by omega), Function.update_of_ne hx]

theorem copy_words_in_eq (bus : Bus) (src dst len : ℕ) (mem : Mem) (x : ℕ) :
    copy_words_in bus src dst len mem x =
      if dst ≤ x ∧ x < dst + len then busByte bus src (x - dst) else mem x := by
  fun_induction copy_words_in bus src dst len mem with
  | case1 src dst len mem ih =>
      rw [ih]
      by_cases hin : dst + 4 ≤ x ∧ x < dst + 4 + len
      · obtain ⟨i, rfl⟩ : ∃ i, x = dst + 4 + i := ⟨x - (dst + 4), by omega⟩
        rw [if_pos hin, if_pos (by omega), show dst + 4 + i - (dst + 4) = i by omega,
          show dst + 4 + i - dst = i + 4 by omega, busByte_add_four]
      · rw [if_neg hin]
        by_cases hword : dst ≤ x ∧ x < dst + 4
        · rw [writeWord_of_mem _ _ _ _ hword, if_pos (by omega), busByte,
            Nat.div_eq_of_lt (by omega), Nat.mod_eq_of_lt (by omega), Nat.mul_zero, Nat.add_zero]
        · rw [writeWord_of_not_mem _ _ _ _ hword, if_neg (by omega)]
  | case2 src dst len mem hlen hpos =>
      have hlt : len < 4 := by
        by_contra hge
        exact hlen (len - 4) (by omega)
      rw [last_bytes_eq _ _ _ _ (by omega)]
      by_cases hin : dst ≤ x ∧ x < dst + len
      · rw [if_pos hin, if_pos hin, busByte, Nat.div_eq_of_lt (by omega),
          Nat.mod_eq_of_lt (by omega), Nat.mul_zero, Nat.add_zero]
      · rw [if_neg hin, if_neg hin]
  | case3 src dst len mem hlen hpos => rw [if_neg (by omega)]

/-! ## A copy and its buffer -/

/-- The copy of the `len` bytes at `src` into buffer `id` puts them there, comes back as it
went in, and leaves alone what is not its own. -/
structure CopyStays (id : ℕ) (mem : Mem) (src len : ℕ) (bus : Bus) : Prop where
  copied :
    ∀ i < len, busByte (copy_to_buffer L id mem src len bus) (L.buffer_addr id) i = mem (src + i)
  others :
    ∀ id' < USBDEV_NUM_BUFFERS, id' ≠ id → ∀ i < 64,
      busByte (copy_to_buffer L id mem src len bus) (L.buffer_addr id') i =
        busByte bus (L.buffer_addr id') i
  past :
    ∀ addr, L.buffer_addr USBDEV_NUM_BUFFERS ≤ addr →
      copy_to_buffer L id mem src len bus addr = bus addr
  returned :
    ∀ dst into,
      readBytes (copy_from_buffer L id (copy_to_buffer L id mem src len bus) dst len into) dst len =
        readBytes mem src len
  within :
    ∀ dst into x, ¬(dst ≤ x ∧ x < dst + len) →
      copy_from_buffer L id (copy_to_buffer L id mem src len bus) dst len into x = into x

variable {L}

theorem buffer_addr_add (id k : ℕ) : L.buffer_addr (id + k) = L.buffer_addr id + k * 64 := by
  rw [Layout.buffer_addr, Layout.buffer_addr]
  ring

/-- The bytes that are copied are in the buffer, however many there are. -/
theorem copy_to_buffer_copies (id : ℕ) (mem : Mem) (src : ℕ) {len i : ℕ} (bus : Bus)
    (hi : i < len) :
    busByte (copy_to_buffer L id mem src len bus) (L.buffer_addr id) i = mem (src + i) :=
  copy_words_out_copies _ _ _ _ _ hi

theorem copy_from_buffer_eq (id : ℕ) (bus : Bus) (dst len : ℕ) (mem : Mem) (x : ℕ) :
    copy_from_buffer L id bus dst len mem x =
      if dst ≤ x ∧ x < dst + len then busByte bus (L.buffer_addr id) (x - dst) else mem x :=
  copy_words_in_eq _ _ _ _ _ _

/-- What a copy of at most a packet stores to is in the buffer, or it is the word behind. -/
theorem copy_to_buffer_of_not_mem (id : ℕ) (mem : Mem) (src : ℕ) {len addr : ℕ} (bus : Bus)
    (hlen : len ≤ 64)
    (h : addr < L.buffer_addr id ∨ L.buffer_addr (id + 1) ≤ addr ∧ (len = 64 →
      addr ≠ L.buffer_addr (id + 1))) :
    copy_to_buffer L id mem src len bus addr = bus addr := by
  apply copy_words_out_of_not_mem
  rw [buffer_addr_add] at h
  omega

/-- A full packet ends with a store of zero to the word behind the buffer. -/
theorem copy_to_buffer_overrun (id : ℕ) (mem : Mem) (src : ℕ) (bus : Bus) :
    copy_to_buffer L id mem src 64 bus (L.buffer_addr (id + 1)) = 0 := by
  rw [buffer_addr_add]
  exact copy_words_out_last mem (L.buffer_addr id) src 64 bus

/-- Nothing outside of its buffer is changed by a copy. -/
theorem copyStays_of_frame {id : ℕ} {mem : Mem} {src len : ℕ} {bus : Bus}
    (hframe : ∀ addr, addr < L.buffer_addr id ∨ L.buffer_addr (id + 1) ≤ addr →
      copy_to_buffer L id mem src len bus addr = bus addr) (hid : id < USBDEV_NUM_BUFFERS) :
    CopyStays L id mem src len bus where
  copied i hi := copy_to_buffer_copies id mem src bus hi
  others id' _ hne i hi := by
    rw [busByte, busByte, hframe _ ?_]
    rcases lt_or_gt_of_ne hne with hlt | hgt
    · left
      rw [show id = id' + (id - id') by omega, buffer_addr_add]
      omega
    · right
      have hadd := buffer_addr_add (L := L) (id + 1) (id' - (id + 1))
      rw [show id + 1 + (id' - (id + 1)) = id' by omega] at hadd
      omega
  past addr haddr := by
    apply hframe
    right
    have hadd := buffer_addr_add (L := L) (id + 1) (USBDEV_NUM_BUFFERS - (id + 1))
    rw [show id + 1 + (USBDEV_NUM_BUFFERS - (id + 1)) = USBDEV_NUM_BUFFERS by omega] at hadd
    omega
  returned dst into := by
    rw [readBytes_eq_iff]
    intro i hi
    rw [copy_from_buffer_eq, if_pos (by omega), Nat.add_sub_cancel_left,
      copy_to_buffer_copies id mem src bus hi]
  within dst into x hx := by
    rw [copy_from_buffer_eq, if_neg hx]

/-- A copy stays in its buffer exactly when the packet is not a full one, or the word behind
the buffer is zero already. -/
theorem copy_to_buffer_exact (L : Layout) (id : ℕ) (mem : Mem) (src len : ℕ) (bus : Bus)
    (hid : id < USBDEV_NUM_BUFFERS) (hlen : len ≤ 64) :
    CopyStays L id mem src len bus ↔ len < 64 ∨ bus (L.buffer_addr (id + 1)) = 0 := by
  constructor
  · intro h
    by_cases hlt : len < 64
    · exact .inl hlt
    · right
      obtain rfl : len = 64 := by omega
      have hzero := copy_to_buffer_overrun (L := L) id mem src bus
      by_cases hlast : id + 1 < USBDEV_NUM_BUFFERS
      · -- the word behind is the first of the next buffer
        apply word_ext
        intro i hi
        have hbyte := h.others (id + 1) hlast (by omega) i (by omega)
        rw [busByte, busByte, Nat.div_eq_of_lt hi, Nat.mod_eq_of_lt hi, Nat.mul_zero,
          Nat.add_zero, hzero] at hbyte
        exact hbyte.symm
      · rw [← h.past _ (by rw [show id + 1 = USBDEV_NUM_BUFFERS by omega]), hzero]
  · intro h
    refine copyStays_of_frame (fun addr haddr => ?_) hid
    by_cases hword : len = 64 ∧ addr = L.buffer_addr (id + 1)
    · obtain ⟨rfl, rfl⟩ := hword
      rw [copy_to_buffer_overrun, h.resolve_left (by omega)]
    · apply copy_to_buffer_of_not_mem _ _ _ _ hlen
      rcases haddr with hlt | hge
      · exact .inl hlt
      · exact .inr ⟨hge, fun h64 heq => hword ⟨h64, heq⟩⟩

/-- A full packet into buffer 0 in front of a buffer that holds something. -/
theorem full_packet_overruns :
    ¬CopyStays earlgrey 0 (fun _ => 0) 0x10000000 64 (fun _ => 1) := by
  intro h
  have hnext := h.others 1 (by decide) (by decide) 0 (by decide)
  revert hnext
  decide

theorem full_packet_stays_before_zero :
    CopyStays earlgrey 31 (fun _ => 7) 0x10000000 64 (fun _ => 0) :=
  (copy_to_buffer_exact earlgrey 31 (fun _ => 7) 0x10000000 64 (fun _ => 0) (by decide)
    (by decide)).mpr (.inr rfl)

end IbexFirmware.Usb
