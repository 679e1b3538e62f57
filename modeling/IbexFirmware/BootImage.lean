/-
What the bootloader runs: the image round trip, the contents it has checked when
it jumps, and where its copy loop writes.

The copy loop works in words while the size and the CRC work in bytes, and
`size / 4` rounds down. So after the loop the first `4 * (size / 4)` payload bytes
in SRAM come from flash and the last `size % 4` are whatever SRAM held before
(`copy_loop_sram`), and the CRC is taken over that mixture (`loaded_bytes`). The
sibling loader in `simulate_flash.c` refuses a size that is not a multiple of
four; `bootloader.c` does not, and `mkflash.py` pads nothing. The results below
give the exact condition under which the mixture is the image.
-/
import IbexFirmware.Bootloader

set_option autoImplicit false

namespace IbexFirmware.Bootloader

open Bytes

/-! ## The copy loop -/

/-- The flash address of payload word `i`. It does not wrap for any word the size
check lets through. -/
theorem payload_addr (i : ℕ) (hi : i < 0x4000) :
    (FLASH_PAYLOAD_OFFSET + BitVec.ofNat 32 i * 4).toNat = 12 + 4 * i := by
  have h12 : FLASH_PAYLOAD_OFFSET.toNat = 12 := rfl
  have h4 : (4 : u32).toNat = 4 := rfl
  rw [BitVec.toNat_add, BitVec.toNat_mul, BitVec.toNat_ofNat, h12, h4]
  omega

/-- After `n` words, the first `4 * n` bytes from the load address on are the
flash payload's and every other byte of SRAM is the one it was. -/
theorem copy_loop_sram (flash sram : Mem) (n : ℕ) (hn : n ≤ 0x4000) (x : ℕ) :
    (copy_loop flash sram n).sram x =
      if SRAM_LOAD_ADDR.toNat ≤ x ∧ x < SRAM_LOAD_ADDR.toNat + 4 * n
      then flash (12 + (x - SRAM_LOAD_ADDR.toNat)) else sram x := by
  induction n with
  | zero =>
      rw [if_neg (by omega)]
      rfl
  | succ n ih =>
      have hstep : (copy_loop flash sram (n + 1)).sram
          = writeWord (copy_loop flash sram n).sram (SRAM_LOAD_ADDR.toNat + 4 * n)
              (readWord flash (12 + 4 * n)) := by
        simp only [copy_loop, List.range_succ, List.foldl_append, List.foldl_cons, List.foldl_nil,
          copy_step, flash_read_word, payload_addr n (by omega)]
      rw [hstep]
      generalize SRAM_LOAD_ADDR.toNat = base at ih ⊢
      by_cases hx : base + 4 * n ≤ x ∧ x < base + 4 * n + 4
      · rw [writeWord_of_mem _ _ _ _ hx, byteOf_readWord _ _ _ (by omega), if_pos (by omega)]
        congr 1
        omega
      · rw [writeWord_of_not_mem _ _ _ _ hx, ih (by omega)]
        by_cases hlt : base ≤ x ∧ x < base + 4 * n
        · rw [if_pos hlt, if_pos (by omega)]
        · rw [if_neg hlt, if_neg (by omega)]

/-- The loop stores to consecutive words from the load address on. -/
theorem copy_loop_stores (flash sram : Mem) (n : ℕ) :
    (copy_loop flash sram n).stores
      = (List.range n).map (fun i => SRAM_LOAD_ADDR.toNat + 4 * i) := by
  induction n with
  | zero => rfl
  | succ n ih =>
      have hstep : (copy_loop flash sram (n + 1)).stores
          = (copy_loop flash sram n).stores ++ [SRAM_LOAD_ADDR.toNat + 4 * n] := by
        simp only [copy_loop, List.range_succ, List.foldl_append, List.foldl_cons, List.foldl_nil,
          copy_step]
      rw [hstep, ih, List.range_succ, List.map_append, List.map_singleton]

/-! ## The header checks and the jump -/

/-- The size word of the header. -/
def header_size (flash : Mem) : u32 := flash_read_word flash FLASH_SIZE_OFFSET

/-- The header passes the magic and the size check. -/
def HeaderAccepted (flash : Mem) : Prop :=
  flash_read_word flash FLASH_MAGIC_OFFSET = EXPECTED_MAGIC ∧
    0 < header_size flash ∧ header_size flash ≤ MAX_PAYLOAD_SIZE

/-- The payload bytes behind the last whole word: those the loop does not copy. -/
def payload_tail (flash : Mem) (size : ℕ) : List u8 :=
  readBytes flash (12 + 4 * (size / 4)) (size % 4)

/-- The bytes SRAM holds in their place. -/
def leftover (sram : Mem) (size : ℕ) : List u8 :=
  readBytes sram (SRAM_LOAD_ADDR.toNat + 4 * (size / 4)) (size % 4)

/-- The `size` bytes the CRC is taken over: the words copied from flash, then the
bytes SRAM already held behind them. -/
def loaded_bytes (flash sram : Mem) (size : ℕ) : List u8 :=
  readBytes flash 12 (4 * (size / 4)) ++ leftover sram size

/-- The size check as the source writes it, negated. -/
theorem size_check_iff (size : u32) :
    ¬ (size = 0 ∨ size > MAX_PAYLOAD_SIZE) ↔ 0 < size ∧ size ≤ MAX_PAYLOAD_SIZE := by
  have hmax : MAX_PAYLOAD_SIZE.toNat = 0x10000 := rfl
  have hzero : (0 : u32).toNat = 0 := rfl
  rw [← BitVec.toNat_inj, gt_iff_lt, BitVec.lt_def, BitVec.lt_def, BitVec.le_def, hmax, hzero]
  omega

theorem HeaderAccepted.size_le {flash : Mem} (h : HeaderAccepted flash) :
    (header_size flash).toNat ≤ 0x10000 := h.2.2

theorem size_div_four (size : u32) : (size / 4).toNat = size.toNat / 4 := by
  rw [BitVec.toNat_udiv]
  rfl

/-- After the copy loop of an accepted header the payload range holds `loaded_bytes`. -/
theorem readBytes_copy_loop (flash sram : Mem) (size : ℕ) (hsize : size ≤ 0x10000) :
    readBytes (copy_loop flash sram (size / 4)).sram SRAM_LOAD_ADDR.toNat size
      = loaded_bytes flash sram size := by
  have hwords : readBytes (copy_loop flash sram (size / 4)).sram SRAM_LOAD_ADDR.toNat
      (4 * (size / 4)) = readBytes flash 12 (4 * (size / 4)) := by
    rw [readBytes_eq_iff]
    intro i hi
    rw [copy_loop_sram _ _ _ (by omega), if_pos (by omega), Nat.add_sub_cancel_left]
  have htail : readBytes (copy_loop flash sram (size / 4)).sram
      (SRAM_LOAD_ADDR.toNat + 4 * (size / 4)) (size % 4) = leftover sram size := by
    rw [leftover, readBytes_eq_iff]
    intro i hi
    rw [copy_loop_sram _ _ _ (by omega), if_neg (by omega)]
  calc readBytes (copy_loop flash sram (size / 4)).sram SRAM_LOAD_ADDR.toNat size
      = readBytes (copy_loop flash sram (size / 4)).sram SRAM_LOAD_ADDR.toNat
          (4 * (size / 4) + size % 4) := by rw [Nat.div_add_mod]
    _ = loaded_bytes flash sram size := by rw [readBytes_add, hwords, htail, loaded_bytes]

/-- `main` on an accepted header: the copy, then the comparison that decides. -/
theorem main_of_accepted (flash sram : Mem) (h : HeaderAccepted flash) :
    main flash sram =
      (let c := copy_loop flash sram ((header_size flash).toNat / 4)
       if zlib_crc32 (loaded_bytes flash sram (header_size flash).toNat)
            ≠ flash_read_word flash FLASH_CRC_OFFSET
       then ⟨.bootloader_panic "CRC BAD", c.sram, c.stores⟩
       else ⟨.firmware_entry SRAM_LOAD_ADDR, c.sram, c.stores⟩) := by
  have hsize : ¬ (flash_read_word flash FLASH_SIZE_OFFSET = 0
      ∨ flash_read_word flash FLASH_SIZE_OFFSET > MAX_PAYLOAD_SIZE) :=
    (size_check_iff _).mpr h.2
  rw [main, if_neg (not_not.mpr h.1), if_neg hsize]
  simp only [crc32_compute_spec]
  rw [show flash_read_word flash FLASH_SIZE_OFFSET = header_size flash from rfl, size_div_four,
    readBytes_copy_loop _ _ _ h.size_le]

/-- `main` on a rejected header panics before it has stored anything. -/
theorem main_of_rejected (flash sram : Mem) (h : ¬ HeaderAccepted flash) :
    ∃ message, main flash sram = ⟨.bootloader_panic message, sram, []⟩ := by
  by_cases hmagic : flash_read_word flash FLASH_MAGIC_OFFSET = EXPECTED_MAGIC
  · refine ⟨"SIZE BAD", ?_⟩
    have hsize : flash_read_word flash FLASH_SIZE_OFFSET = 0
        ∨ flash_read_word flash FLASH_SIZE_OFFSET > MAX_PAYLOAD_SIZE := by
      by_contra hcon
      exact h ⟨hmagic, (size_check_iff _).mp hcon⟩
    rw [main, if_neg (not_not.mpr hmagic), if_pos hsize]
  · exact ⟨"MAGIC BAD", by rw [main, if_pos hmagic]⟩

/-- The loader reaches the firmware exactly when the header is accepted and the
CRC of what now lies in SRAM is the stored one. -/
theorem main_enters_iff (flash sram : Mem) :
    (main flash sram).stop = .firmware_entry SRAM_LOAD_ADDR ↔
      HeaderAccepted flash ∧
        zlib_crc32 (loaded_bytes flash sram (header_size flash).toNat)
          = flash_read_word flash FLASH_CRC_OFFSET := by
  by_cases h : HeaderAccepted flash
  · rw [main_of_accepted flash sram h]
    by_cases hcrc : zlib_crc32 (loaded_bytes flash sram (header_size flash).toNat)
        = flash_read_word flash FLASH_CRC_OFFSET
    · simp [h, hcrc]
    · simp [hcrc]
  · obtain ⟨message, hmain⟩ := main_of_rejected flash sram h
    simp [hmain, h]

/-- The SRAM an accepted header's run leaves is the copy loop's, panic or not. -/
theorem main_sram_of_accepted (flash sram : Mem) (h : HeaderAccepted flash) :
    (main flash sram).sram = (copy_loop flash sram ((header_size flash).toNat / 4)).sram := by
  rw [main_of_accepted flash sram h]
  split_ifs <;> rfl

theorem main_stores_of_accepted (flash sram : Mem) (h : HeaderAccepted flash) :
    (main flash sram).stores
      = (List.range ((header_size flash).toNat / 4)).map
          (fun i => SRAM_LOAD_ADDR.toNat + 4 * i) := by
  rw [main_of_accepted flash sram h, ← copy_loop_stores flash sram]
  split_ifs <;> rfl

/-! ## The image round trip -/

/-- What the flash words and the payload bytes are when flash holds an image
`mkflash.py` wrote: four little-endian fields back to back. -/
theorem flash_of_mkflash (app image : List u8) (flash : Mem) (himage : mkflash app = some image)
    (hflash : readBytes flash 0 image.length = image) :
    flash_read_word flash FLASH_MAGIC_OFFSET = EXPECTED_MAGIC ∧
      flash_read_word flash FLASH_SIZE_OFFSET = BitVec.ofNat 32 app.length ∧
      flash_read_word flash FLASH_CRC_OFFSET = zlib_crc32 app ∧
      readBytes flash 12 app.length = app := by
  simp only [mkflash] at himage
  split at himage
  case isFalse => cases himage
  case isTrue =>
    have hlayout : image
        = le32 BOOT_MAGIC ++ (le32 (BitVec.ofNat 32 app.length) ++ (le32 (zlib_crc32 app) ++ app)) := by
      simpa only [List.append_assoc, Option.some.injEq] using himage.symm
    have hlen : image.length = 4 + (4 + (4 + app.length)) := by
      simp only [hlayout, List.length_append, length_le32]
    rw [hlen, readBytes_add, readBytes_add, readBytes_add, hlayout] at hflash
    obtain ⟨hmagic, hflash⟩ := List.append_inj hflash (by simp)
    obtain ⟨hsize, hflash⟩ := List.append_inj hflash (by simp)
    obtain ⟨hcrc, happ⟩ := List.append_inj hflash (by simp)
    exact ⟨readWord_of_readBytes _ _ _ hmagic, readWord_of_readBytes _ _ _ hsize,
      readWord_of_readBytes _ _ _ hcrc, happ⟩

/-- The loaded bytes are the flash payload exactly when the bytes SRAM already held
behind the last whole word are the payload's last ones. -/
theorem loaded_bytes_eq_iff (flash sram : Mem) (size : ℕ) :
    loaded_bytes flash sram size = readBytes flash 12 size ↔
      leftover sram size = payload_tail flash size := by
  have hsplit : readBytes flash 12 size
      = readBytes flash 12 (4 * (size / 4)) ++ payload_tail flash size := by
    rw [payload_tail, ← readBytes_add, Nat.div_add_mod]
  rw [loaded_bytes, hsplit, List.append_right_inj]

/-- The payload tail of a binary that lies in flash as the payload. -/
theorem payload_tail_eq_drop (flash : Mem) (app : List u8)
    (happ : readBytes flash 12 app.length = app) :
    payload_tail flash app.length = app.drop (4 * (app.length / 4)) := by
  have hsplit : readBytes flash 12 (4 * (app.length / 4)) ++ payload_tail flash app.length
      = app := by
    rw [payload_tail, ← readBytes_add, Nat.div_add_mod, happ]
  have hdrop : (readBytes flash 12 (4 * (app.length / 4)) ++ payload_tail flash app.length).drop
      (4 * (app.length / 4)) = payload_tail flash app.length :=
    List.drop_left' (length_readBytes flash 12 (4 * (app.length / 4)))
  rw [← hdrop, hsplit]

/-- The image round trip: the loader enters the firmware with exactly the packed
binary in SRAM if and only if the binary is a whole number of words or its last
`len % 4` bytes were in SRAM already. -/
theorem image_round_trip_iff (app image : List u8) (flash sram : Mem)
    (hpos : 1 ≤ app.length) (hmax : app.length ≤ MAX_PAYLOAD_SIZE.toNat)
    (himage : mkflash app = some image) (hflash : readBytes flash 0 image.length = image) :
    ((main flash sram).stop = .firmware_entry SRAM_LOAD_ADDR ∧
        readBytes (main flash sram).sram SRAM_LOAD_ADDR.toNat app.length = app) ↔
      (app.length % 4 = 0 ∨ leftover sram app.length = app.drop (4 * (app.length / 4))) := by
  obtain ⟨hmagic, hsize, hcrc, happ⟩ := flash_of_mkflash app image flash himage hflash
  have hle : app.length ≤ 0x10000 := hmax
  have hnat : (header_size flash).toNat = app.length := by
    rw [header_size, hsize, BitVec.toNat_ofNat, Nat.mod_eq_of_lt (by omega)]
  have haccepted : HeaderAccepted flash := by
    refine ⟨hmagic, ?_, ?_⟩
    · show 0 < (header_size flash).toNat
      omega
    · show (header_size flash).toNat ≤ MAX_PAYLOAD_SIZE.toNat
      omega
  have htail : (app.length % 4 = 0 ∨ leftover sram app.length = app.drop (4 * (app.length / 4)))
      ↔ loaded_bytes flash sram app.length = app := by
    have heq := loaded_bytes_eq_iff flash sram app.length
    rw [happ, payload_tail_eq_drop flash app happ] at heq
    rw [heq]
    refine ⟨fun h => h.elim (fun hmod => ?_) id, Or.inr⟩
    rw [leftover, hmod, List.drop_of_length_le (by omega)]
    rfl
  rw [htail, main_enters_iff, main_sram_of_accepted _ _ haccepted, hnat,
    readBytes_copy_loop _ _ _ hle, hcrc]
  exact ⟨fun h => h.2, fun h => ⟨⟨haccepted, by rw [h]⟩, h⟩⟩

/-- A flash that holds `image` from address 0 on and is erased behind it. -/
def flash_with (image : List u8) : Mem := fun a => image.getD a 0xFF

/-- The packed form of a two-word binary, and of one of a single byte. -/
def two_word_image : List u8 :=
  le32 BOOT_MAGIC ++ le32 8 ++ le32 (zlib_crc32 [1, 2, 3, 4, 5, 6, 7, 8]) ++ [1, 2, 3, 4, 5, 6, 7, 8]

def one_byte_image : List u8 :=
  le32 BOOT_MAGIC ++ le32 1 ++ le32 (zlib_crc32 [0xA5]) ++ [0xA5]

theorem image_round_trip_two_words :
    (main (flash_with two_word_image) (fun _ => 0)).stop = .firmware_entry SRAM_LOAD_ADDR ∧
      readBytes (main (flash_with two_word_image) (fun _ => 0)).sram SRAM_LOAD_ADDR.toNat 8
        = [1, 2, 3, 4, 5, 6, 7, 8] :=
  (image_round_trip_iff [1, 2, 3, 4, 5, 6, 7, 8] two_word_image (flash_with two_word_image)
    (fun _ => 0) (by decide) (by decide) rfl rfl).mpr (.inl rfl)

/-- A binary of the single byte `0xA5`, packed and flashed, over zeroed SRAM: the
copy loop makes no iteration, the CRC is that of a zero byte, and the loader stops. -/
theorem one_byte_image_rejected :
    mkflash [0xA5] = some one_byte_image ∧
      readBytes (flash_with one_byte_image) 0 one_byte_image.length = one_byte_image ∧
      (main (flash_with one_byte_image) (fun _ => 0)).stop = .bootloader_panic "CRC BAD" := by
  refine ⟨rfl, rfl, ?_⟩
  have hsize : header_size (flash_with one_byte_image) = 1 := by decide
  have haccepted : HeaderAccepted (flash_with one_byte_image) := by
    refine ⟨by decide, ?_, ?_⟩ <;> rw [hsize] <;> decide
  have hloaded : loaded_bytes (flash_with one_byte_image) (fun _ => 0)
      (header_size (flash_with one_byte_image)).toNat = [0] := by
    rw [hsize]
    rfl
  have hcrc : zlib_crc32 [0] ≠ flash_read_word (flash_with one_byte_image) FLASH_CRC_OFFSET := by
    decide
  rw [main_of_accepted _ _ haccepted, hloaded]
  rw [if_pos hcrc]

/-! ## What is run has been checked -/

/-- The run reaches the firmware only with flash contents whose header, payload
copy and CRC are all right, and this fails exactly for a header whose size is not
a multiple of four over an SRAM whose leftover bytes differ from the payload's
last ones while the CRC of the mixture is the stored word. -/
theorem checked_contents_iff (flash sram : Mem) :
    ((main flash sram).stop = .firmware_entry SRAM_LOAD_ADDR →
        flash_read_word flash FLASH_MAGIC_OFFSET = EXPECTED_MAGIC ∧
          0 < header_size flash ∧ header_size flash ≤ MAX_PAYLOAD_SIZE ∧
          (∀ i < (header_size flash).toNat,
            (main flash sram).sram (SRAM_LOAD_ADDR.toNat + i)
              = flash (FLASH_PAYLOAD_OFFSET.toNat + i)) ∧
          zlib_crc32 (readBytes flash FLASH_PAYLOAD_OFFSET.toNat (header_size flash).toNat)
            = flash_read_word flash FLASH_CRC_OFFSET) ↔
      ¬ (HeaderAccepted flash ∧
          leftover sram (header_size flash).toNat
            ≠ payload_tail flash (header_size flash).toNat ∧
          zlib_crc32 (loaded_bytes flash sram (header_size flash).toNat)
            = flash_read_word flash FLASH_CRC_OFFSET) := by
  have hcopied : ∀ h : HeaderAccepted flash,
      (∀ i < (header_size flash).toNat,
          (main flash sram).sram (SRAM_LOAD_ADDR.toNat + i)
            = flash (FLASH_PAYLOAD_OFFSET.toNat + i)) ↔
        leftover sram (header_size flash).toNat = payload_tail flash (header_size flash).toNat := by
    intro h
    rw [← readBytes_eq_iff, main_sram_of_accepted _ _ h, readBytes_copy_loop _ _ _ h.size_le,
      ← loaded_bytes_eq_iff]
    rfl
  rw [main_enters_iff]
  constructor
  · rintro hchecked ⟨haccepted, hdiffer, hcrc⟩
    obtain ⟨-, -, -, hsame, -⟩ := hchecked ⟨haccepted, hcrc⟩
    exact hdiffer ((hcopied haccepted).mp hsame)
  · rintro hcond ⟨haccepted, hcrc⟩
    have hsame : leftover sram (header_size flash).toNat
        = payload_tail flash (header_size flash).toNat := by
      by_contra hdiffer
      exact hcond ⟨haccepted, hdiffer, hcrc⟩
    have hflash : loaded_bytes flash sram (header_size flash).toNat
        = readBytes flash FLASH_PAYLOAD_OFFSET.toNat (header_size flash).toNat :=
      (loaded_bytes_eq_iff _ _ _).mpr hsame
    exact ⟨haccepted.1, haccepted.2.1, haccepted.2.2, (hcopied haccepted).mpr hsame,
      hflash ▸ hcrc⟩

/-- A one-byte payload `0xA5` under the CRC of the zero byte that SRAM happens to
hold: the loader enters the firmware with a byte in it that is not in flash. -/
def stale_byte_image : List u8 :=
  le32 BOOT_MAGIC ++ le32 1 ++ le32 (zlib_crc32 [0]) ++ [0xA5]

theorem stale_byte_is_run :
    (main (flash_with stale_byte_image) (fun _ => 0)).stop = .firmware_entry SRAM_LOAD_ADDR ∧
      0 < (header_size (flash_with stale_byte_image)).toNat ∧
      (main (flash_with stale_byte_image) (fun _ => 0)).sram (SRAM_LOAD_ADDR.toNat + 0)
        ≠ flash_with stale_byte_image (FLASH_PAYLOAD_OFFSET.toNat + 0) := by
  have hsize : header_size (flash_with stale_byte_image) = 1 := by decide
  have haccepted : HeaderAccepted (flash_with stale_byte_image) := by
    refine ⟨by decide, ?_, ?_⟩ <;> rw [hsize] <;> decide
  have hloaded : loaded_bytes (flash_with stale_byte_image) (fun _ => 0)
      (header_size (flash_with stale_byte_image)).toNat = [0] := by
    rw [hsize]
    rfl
  have hcrc : zlib_crc32 [0] = flash_read_word (flash_with stale_byte_image) FLASH_CRC_OFFSET := by
    decide
  refine ⟨(main_enters_iff _ _).mpr ⟨haccepted, by rw [hloaded, hcrc]⟩, by rw [hsize]; decide, ?_⟩
  rw [main_sram_of_accepted _ _ haccepted, hsize, copy_loop_sram _ _ _ (by decide),
    if_neg (fun h => absurd h.2 (Nat.lt_irrefl _))]
  decide

/-! ## Where the copy loop writes -/

/-- The SRAM of `soc_mod.sv` as `link.ld` maps it: 128 KiB, the last 4 KiB of it
the stack of the code that runs the copy loop. -/
def SRAM_BASE : ℕ := 0x100000
def MemSize : ℕ := 128 * 1024
def stack_origin : ℕ := 0x11F000
def stack_end : ℕ := stack_origin + 0x1000

/-- A byte the copy loop may write: inside the SRAM and outside the stack. -/
def Writable (a : ℕ) : Prop :=
  (SRAM_BASE ≤ a ∧ a < SRAM_BASE + MemSize) ∧ ¬ (stack_origin ≤ a ∧ a < stack_end)

/-- Every byte the copy loop of an accepted header writes is writable exactly when
the size is at most the 60 KiB below the stack (and less than a word more, which
the copy drops). The 64 KiB of `MAX_PAYLOAD_SIZE` reach to the end of the stack. -/
theorem copy_loop_writable_iff (flash sram : Mem) (h : HeaderAccepted flash) :
    (∀ a ∈ (main flash sram).stores, ∀ j < 4, Writable (a + j)) ↔
      header_size flash < 0xF004 := by
  have hbase : SRAM_LOAD_ADDR.toNat = SRAM_BASE + 0x10000 := rfl
  have hstack : stack_origin = SRAM_BASE + 0x1F000 := rfl
  have hend : stack_end = SRAM_BASE + 0x20000 := rfl
  have hmem : MemSize = 0x20000 := rfl
  have hsize := h.size_le
  have hlt : header_size flash < 0xF004 ↔ (header_size flash).toNat < 0xF004 := Iff.rfl
  rw [main_stores_of_accepted flash sram h, hlt]
  simp only [List.mem_map, List.mem_range, Writable, hbase, hstack, hend, hmem]
  generalize (header_size flash).toNat = size at hsize
  generalize SRAM_BASE = base
  constructor
  · intro hall
    by_contra hbig
    have hinside := hall (base + 0x10000 + 4 * 0x3C00) ⟨0x3C00, by omega, rfl⟩ 0 (by omega)
    exact hinside.2 ⟨by omega, by omega⟩
  · rintro hsmall a ⟨i, hi, rfl⟩ j hj
    exact ⟨⟨by omega, by omega⟩, by omega⟩

theorem two_word_image_writable :
    HeaderAccepted (flash_with two_word_image) ∧
      ∀ a ∈ (main (flash_with two_word_image) (fun _ => 0)).stores, ∀ j < 4, Writable (a + j) := by
  have hsize : header_size (flash_with two_word_image) = 8 := by decide
  have haccepted : HeaderAccepted (flash_with two_word_image) := by
    refine ⟨by decide, ?_, ?_⟩ <;> rw [hsize] <;> decide
  exact ⟨haccepted, (copy_loop_writable_iff _ _ haccepted).mpr (by rw [hsize]; decide)⟩

/-- The largest size `main` accepts. -/
def largest_header : List u8 := le32 BOOT_MAGIC ++ le32 0x10000 ++ le32 0

/-- Its copy loop stores to the first word of the stack. -/
theorem largest_header_hits_stack :
    HeaderAccepted (flash_with largest_header) ∧
      stack_origin ∈ (main (flash_with largest_header) (fun _ => 0)).stores ∧
      ¬ Writable (stack_origin + 0) := by
  have hsize : header_size (flash_with largest_header) = 0x10000 := by decide
  have haccepted : HeaderAccepted (flash_with largest_header) := by
    refine ⟨by decide, ?_, ?_⟩ <;> rw [hsize] <;> decide
  refine ⟨haccepted, ?_, fun h => h.2 (by decide)⟩
  rw [main_stores_of_accepted _ _ haccepted, hsize]
  exact List.mem_map.mpr ⟨0x3C00, List.mem_range.mpr (by decide), rfl⟩

end IbexFirmware.Bootloader
