/-
The first-stage bootloader (`sw/bootloader.c`) and the packer that feeds it
(`sw/image/mkflash.py`).

The loader is a straight line with one loop: read a three-word header from SPI
flash, check the magic and the size, copy `size / 4` words to SRAM, compare the
CRC-32 of the `size` SRAM bytes with the stored word, jump. `main` below returns
how it stopped, the SRAM it left and the addresses of the words it stored, so
that a statement about the copy loop can speak about every store and one about
the jump about what lies in SRAM at that moment. `flash_read_word` is the word
stored at its address; the four SPI transactions behind it are not part of this
file, and neither are the UART messages other than the one a panic prints.

The packer and the loader are two programs in two languages with one common
ground, the CRC: `crc32_compute_spec` says the loader's generated table computes
the bit-by-bit check value that the packer stores.
-/
import IbexFirmware.Lib.Crc

set_option autoImplicit false

namespace IbexFirmware.Bootloader

open Bytes

/-! ## `mkflash.py` -/

def BOOT_MAGIC : u32 := 0xB007C0DE

/-- The reflected CRC-32 polynomial. -/
def crc32Poly : u32 := 0xEDB88320

/-- `zlib.crc32`: the reflected CRC-32, initial value and final exclusive or all
ones, defined bit by bit. -/
def zlib_crc32 (data : List u8) : u32 := Crc.check crc32Poly data

/-- The image `mkflash.py` writes, one byte a line of the hex file.
`struct.pack('<III', ...)` raises an error when the size needs more than 32 bits. -/
def mkflash (app : List u8) : Option (List u8) :=
  if app.length < 2 ^ 32 then
    some (le32 BOOT_MAGIC ++ le32 (BitVec.ofNat 32 app.length) ++ le32 (zlib_crc32 app) ++ app)
  else none

/-! ## The CRC section of `bootloader.c` -/

/-- The two static variables of the CRC section. -/
structure Crc32Statics where
  crc32_table : Vector u32 256
  crc32_table_ready : Bool

/-- The statics as the startup code leaves them: zeroed. -/
def Crc32Statics.bss : Crc32Statics := ⟨Vector.replicate 256 0, false⟩

/-- The inner loop of `crc32_init_table` makes eight of these steps. -/
def crc32_bit (crc : u32) : u32 :=
  if crc &&& 1 ≠ 0 then (crc >>> 1) ^^^ 0xEDB88320 else crc >>> 1

def crc32_init_table : Crc32Statics where
  crc32_table := Vector.ofFn fun i : Fin 256 =>
    (List.range 8).foldl (fun crc _ => crc32_bit crc) (BitVec.ofNat 32 i)
  crc32_table_ready := true

/-- One iteration of the loop in `crc32_compute`. -/
def crc32_step (table : Vector u32 256) (crc : u32) (data : u8) : u32 :=
  let index : u8 := ((crc ^^^ data.setWidth 32) &&& 0xFF).setWidth 8
  (crc >>> 8) ^^^ table.get index.toFin

/-- `crc32_compute` over the `len` bytes it is given, with the statics it leaves. -/
def crc32_compute (st : Crc32Statics) (data : List u8) : u32 × Crc32Statics :=
  let st := if st.crc32_table_ready then st else crc32_init_table
  (data.foldl (crc32_step st.crc32_table) 0xFFFFFFFF ^^^ 0xFFFFFFFF, st)

/-! ## The bootloader section -/

def FLASH_MAGIC_OFFSET : u32 := 0x00
def FLASH_SIZE_OFFSET : u32 := 0x04
def FLASH_CRC_OFFSET : u32 := 0x08
def FLASH_PAYLOAD_OFFSET : u32 := 0x0C
def EXPECTED_MAGIC : u32 := 0xB007C0DE
def SRAM_LOAD_ADDR : u32 := 0x00110000
def MAX_PAYLOAD_SIZE : u32 := 0x00010000

/-- The little-endian word the flash holds at `addr`. -/
def flash_read_word (flash : Mem) (addr : u32) : u32 := readWord flash addr.toNat

/-- How `main` ends: in `bootloader_panic` with its message, or in the loaded
firmware at its entry address. -/
inductive Stop where
  | bootloader_panic (message : String)
  | firmware_entry (entry : u32)
  deriving DecidableEq

/-- A finished run: how it ended, the SRAM it left, and the address of every
32-bit store of the copy loop in order. -/
structure Run where
  stop : Stop
  sram : Mem
  stores : List ℕ

/-- What the copy loop changes. -/
structure Copy where
  sram : Mem
  stores : List ℕ

/-- `payload_words[i] = flash_read_word(FLASH_PAYLOAD_OFFSET + (i * 4u))`. -/
def copy_step (flash : Mem) (c : Copy) (i : ℕ) : Copy :=
  let dst := SRAM_LOAD_ADDR.toNat + 4 * i
  { sram := writeWord c.sram dst
      (flash_read_word flash (FLASH_PAYLOAD_OFFSET + BitVec.ofNat 32 i * 4))
    stores := c.stores ++ [dst] }

/-- The copy loop for `n` words. -/
def copy_loop (flash sram : Mem) (n : ℕ) : Copy :=
  (List.range n).foldl (copy_step flash) ⟨sram, []⟩

/-- `main`, from the first flash read on. -/
def main (flash sram : Mem) : Run :=
  let magic := flash_read_word flash FLASH_MAGIC_OFFSET
  let size := flash_read_word flash FLASH_SIZE_OFFSET
  let stored_crc := flash_read_word flash FLASH_CRC_OFFSET
  if magic ≠ EXPECTED_MAGIC then ⟨.bootloader_panic "MAGIC BAD", sram, []⟩
  else if size = 0 ∨ size > MAX_PAYLOAD_SIZE then ⟨.bootloader_panic "SIZE BAD", sram, []⟩
  else
    let c := copy_loop flash sram (size / 4).toNat
    let computed_crc :=
      (crc32_compute .bss (readBytes c.sram SRAM_LOAD_ADDR.toNat size.toNat)).1
    if computed_crc ≠ stored_crc then ⟨.bootloader_panic "CRC BAD", c.sram, c.stores⟩
    else ⟨.firmware_entry SRAM_LOAD_ADDR, c.sram, c.stores⟩

/-! ## The generated table computes the CRC -/

theorem crc32_bit_eq_step (crc : u32) : crc32_bit crc = Crc.step crc32Poly crc := by
  have hone : (crc &&& 1 ≠ 0) ↔ crc.getLsbD 0 = true := by
    rw [show (1 : u32) = 1#32 from rfl, BitVec.and_one_eq_setWidth_ofBool_getLsbD]
    cases crc.getLsbD 0 <;> decide
  simp only [crc32_bit, Crc.step, hone, crc32Poly]

/-- Entry `i` of the generated table is eight shifts of `i`. -/
theorem crc32_table_get (i : u8) :
    crc32_init_table.crc32_table.get i.toFin = Crc.steps crc32Poly 8 (i.setWidth 32) := by
  have hloop : ∀ (n : ℕ) (c : u32),
      (List.range n).foldl (fun crc _ => crc32_bit crc) c = Crc.steps crc32Poly n c := by
    intro n
    induction n with
    | zero => intro c; rfl
    | succ n ih =>
        intro c
        rw [List.range_succ, List.foldl_append, ih, Crc.steps_succ', ← crc32_bit_eq_step]
        rfl
  have hi : BitVec.ofNat 32 i.toFin.val = i.setWidth 32 := by
    apply BitVec.eq_of_toNat_eq
    simp [BitVec.toNat_setWidth]
  have hget : ∀ (f : Fin 256 → u32) (k : Fin 256), (Vector.ofFn f).get k = f k :=
    fun f k => Vector.getElem_ofFn k.isLt
  rw [crc32_init_table, hget, hloop, hi]

/-- The loader's CRC is the packer's, on every byte string and whatever run of the
statics came before. -/
theorem crc32_compute_spec (data : List u8) :
    (crc32_compute .bss data).1 = zlib_crc32 data := by
  have hstep : ∀ (c : u32) (b : u8),
      crc32_step crc32_init_table.crc32_table c b = Crc.byte crc32Poly c b := by
    intro c b
    rw [Crc.byte_eq_table crc32Poly
      (fun i => crc32_init_table.crc32_table.get i.toFin) crc32_table_get]
    have hindex : ((c ^^^ b.setWidth 32) &&& 0xFF).setWidth 8
        = (c ^^^ b.setWidth 32).setWidth 8 := by
      apply BitVec.eq_of_getLsbD_eq
      intro k hk
      have hff : (0xFF : u32).getLsbD k = true := by interval_cases k <;> rfl
      simp only [BitVec.getLsbD_setWidth, BitVec.getLsbD_and, hff, Bool.and_true]
    rw [crc32_step, hindex]
  have hfold : ∀ (bs : List u8) (c : u32),
      bs.foldl (crc32_step crc32_init_table.crc32_table) c = Crc.bytes crc32Poly c bs := by
    intro bs
    induction bs with
    | nil => intro c; rfl
    | cons b bs ih =>
        intro c
        rw [List.foldl_cons, ih, hstep]
        rfl
  simp only [crc32_compute, Crc32Statics.bss, Bool.false_eq_true, if_false, hfold]
  rfl

end IbexFirmware.Bootloader
