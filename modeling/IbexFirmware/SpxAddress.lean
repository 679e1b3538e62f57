/-
Hypertree addresses (`sphincsplus/address.c`).

An address is a buffer of 32 bytes, and a function that sets a field writes at an offset. The
fields overlap: what one kind of address has for its chain and hash, another has for its height
and index. `Fields` are the values in a buffer that the functions here have written, and
`buffer` is that buffer, so that every function is a change of a field. The hash function takes
the first 22 bytes, and these are what the standard makes of an address (`compressed_wots_hash`
and its likes).
-/
import IbexFirmware.AesBlock
import IbexFirmware.Lib.Sha256
import IbexFirmware.Lib.SlhDsa

set_option autoImplicit false

namespace IbexFirmware.Spx

open Bytes Splice SlhDsa
open Crypto (bswap32 byteOf_bswap32)

/-! ## The functions -/

def kSpxOffsetLayer : ℕ := 0
def kSpxOffsetTree : ℕ := 1
def kSpxOffsetType : ℕ := 9
def kSpxOffsetKpAddr : ℕ := 10
def kSpxOffsetChainAddr : ℕ := 17
def kSpxOffsetHashAddr : ℕ := 21
def kSpxOffsetTreeHeight : ℕ := 17
def kSpxOffsetTreeIndex : ℕ := 18

/-- `spx_addr_type_t`, with the types that a verification has. -/
inductive AddrType where
  | kSpxAddrTypeWots
  | kSpxAddrTypeWotsPk
  | kSpxAddrTypeHashTree
  | kSpxAddrTypeForsTree
  | kSpxAddrTypeForsPk

def AddrType.code : AddrType → u8
  | .kSpxAddrTypeWots => 0
  | .kSpxAddrTypeWotsPk => 1
  | .kSpxAddrTypeHashTree => 2
  | .kSpxAddrTypeForsTree => 3
  | .kSpxAddrTypeForsPk => 4

/-- `spx_addr_t`. -/
abbrev Addr : Type := List u8

def addr_zero : Addr := List.replicate 32 0

/-- The bytes of a 64-bit number in memory, once they have been reversed. -/
def bswap64_bytes (x : u64) : List u8 := le32 (bswap32 (hi32 x)) ++ le32 (bswap32 (lo32 x))

def spx_addr_layer_set (addr : Addr) (layer : u8) : Addr := splice addr kSpxOffsetLayer [layer]

def spx_addr_tree_set (addr : Addr) (tree : u64) : Addr :=
  splice addr kSpxOffsetTree (bswap64_bytes tree)

def spx_addr_type_set (addr : Addr) (type : AddrType) : Addr :=
  splice addr kSpxOffsetType [type.code]

/-- The layer is copied with the word that it is in. -/
def spx_addr_subtree_copy (out addr : Addr) : Addr :=
  let layer_field_offset := kSpxOffsetLayer / 4 * 4
  let out := splice out layer_field_offset (slice addr layer_field_offset 4)
  splice out kSpxOffsetTree (slice addr kSpxOffsetTree 8)

def spx_addr_keypair_set (addr : Addr) (keypair : u32) : Addr :=
  splice addr kSpxOffsetKpAddr (le32 (bswap32 keypair))

def spx_addr_keypair_copy (out addr : Addr) : Addr :=
  splice (spx_addr_subtree_copy out addr) kSpxOffsetKpAddr (slice addr kSpxOffsetKpAddr 4)

def spx_addr_chain_set (addr : Addr) (chain : u8) : Addr := splice addr kSpxOffsetChainAddr [chain]

def spx_addr_hash_set (addr : Addr) (hash : u8) : Addr := splice addr kSpxOffsetHashAddr [hash]

def spx_addr_tree_height_set (addr : Addr) (tree_height : u8) : Addr :=
  splice addr kSpxOffsetTreeHeight [tree_height]

def spx_addr_tree_index_set (addr : Addr) (tree_index : u32) : Addr :=
  splice addr kSpxOffsetTreeIndex (le32 (bswap32 tree_index))

/-! ## Fields -/

/-- The values in an address. The byte at offset 17 is a chain or a height, and the four behind it
are a hash, of one byte, or an index. -/
structure Fields where
  layer : u8
  tree : u64
  type : AddrType
  keypair : u32
  chain : u8
  index : u32

def Fields.buffer (f : Fields) : Addr :=
  [f.layer] ++ bswap64_bytes f.tree ++ [f.type.code] ++ le32 (bswap32 f.keypair) ++
    ([0, 0, 0, f.chain] ++ le32 (bswap32 f.index)) ++ List.replicate 10 0

/-- An address of a type with nothing set. -/
def Fields.blank (type : AddrType) : Fields := ⟨0, 0, type, 0, 0, 0⟩

variable (f : Fields)

theorem type_set_zero (type : AddrType) :
    spx_addr_type_set addr_zero type = (Fields.blank type).buffer := by
  cases type <;> decide

@[simp] theorem tree_set_buffer (tree : u64) :
    spx_addr_tree_set f.buffer tree = { f with tree := tree }.buffer := rfl

@[simp] theorem keypair_set_buffer (keypair : u32) :
    spx_addr_keypair_set f.buffer keypair = { f with keypair := keypair }.buffer := rfl

/-- A byte as the four bytes of a number. -/
theorem le32_bswap32_setWidth (b : u8) : le32 (bswap32 (b.setWidth 32)) = [0, 0, 0, b] := by
  have hbyte : ∀ i < 4, byteOf (b.setWidth 32) i = if i = 0 then b else 0 := by
    intro i hi
    apply BitVec.eq_of_getLsbD_eq
    intro j hj
    rcases Nat.eq_zero_or_pos i with rfl | hpos
    · simp [byteOf, hj, show j < 32 by omega]
    · simp [byteOf, hj, hpos.ne', BitVec.getLsbD_of_ge b (8 * i + j) (by omega)]
  simp [le32, byteOf_bswap32, hbyte]

/-- The hash of a one-time key. -/
theorem hash_set_buffer (hash hash' : u8) :
    spx_addr_hash_set { f with index := hash.setWidth 32 }.buffer hash' =
      { f with index := hash'.setWidth 32 }.buffer := by
  simp only [Fields.buffer, le32_bswap32_setWidth]
  rfl

/-! ## Compressed addresses -/

theorem to_byte_u8 (b : u8) : to_byte b.toNat 1 = [b] := by
  simp [to_byte]

theorem to_byte_u32 (w : u32) : to_byte w.toNat 4 = le32 (bswap32 w) := by
  have hbyte : ∀ i < 4, byteOf w i = BitVec.ofNat 8 (w.toNat / 256 ^ i) := by
    intro i _
    rw [byteOf, BitVec.extractLsb', Nat.shiftRight_eq_div_pow, Nat.pow_mul]
  simp [to_byte, le32, byteOf_bswap32, hbyte, List.range_succ]

theorem to_byte_u8_word (b : u8) : to_byte b.toNat 4 = [0, 0, 0, b] := by
  rw [← le32_bswap32_setWidth, ← to_byte_u32, BitVec.toNat_setWidth_of_le (by decide)]

theorem to_byte_u64 (x : u64) : to_byte x.toNat 8 = bswap64_bytes x := by
  have hlow : to_byte (lo32 x).toNat 4 = to_byte x.toNat 4 := by
    refine List.map_congr_left fun i hi => BitVec.eq_of_toNat_eq ?_
    have hi4 := List.mem_range.mp hi
    rw [lo32, BitVec.toNat_setWidth, BitVec.toNat_ofNat, BitVec.toNat_ofNat]
    interval_cases i <;> omega
  have hhigh : (hi32 x).toNat = x.toNat / 256 ^ 4 := by
    rw [hi32, BitVec.toNat_setWidth, BitVec.toNat_ushiftRight, Nat.shiftRight_eq_div_pow]
    omega
  rw [bswap64_bytes, ← to_byte_u32, ← to_byte_u32, hlow, hhigh]
  exact to_byte_add _ 4 4

/-- The unused fields. -/
theorem to_byte_zero_eight : to_byte 0 8 = [0, 0, 0, 0] ++ le32 (bswap32 0) := by decide

theorem to_byte_zero_four : to_byte 0 4 = le32 (bswap32 0) := by decide

/-- The type of an address. -/
theorem to_byte_type (type : AddrType) : to_byte type.code.toNat 1 = [type.code] :=
  to_byte_u8 type.code

theorem compressed_wots_hash (layer : u8) (tree : u64) (keypair : u32) (chain hash : u8) :
    (Adrs.wots_hash layer.toNat tree.toNat keypair.toNat chain.toNat hash.toNat).compressed =
      (Fields.mk layer tree .kSpxAddrTypeWots keypair chain (hash.setWidth 32)).buffer.take 22 := by
  rw [Adrs.compressed, to_byte_u8, to_byte_u64, to_byte_u32, to_byte_u8_word, to_byte_u8_word,
    Fields.buffer, le32_bswap32_setWidth]
  rfl

theorem compressed_wots_pk (layer : u8) (tree : u64) (keypair : u32) :
    (Adrs.wots_pk layer.toNat tree.toNat keypair.toNat).compressed =
      (Fields.mk layer tree .kSpxAddrTypeWotsPk keypair 0 0).buffer.take 22 := by
  rw [Adrs.compressed, to_byte_u8, to_byte_u64, to_byte_u32, to_byte_zero_eight,
    show to_byte 1 1 = [AddrType.kSpxAddrTypeWotsPk.code] from to_byte_type .kSpxAddrTypeWotsPk]
  rfl

theorem compressed_hash_tree (layer : u8) (tree : u64) (height : u8) (index : u32) :
    (Adrs.hash_tree layer.toNat tree.toNat height.toNat index.toNat).compressed =
      (Fields.mk layer tree .kSpxAddrTypeHashTree 0 height index).buffer.take 22 := by
  rw [Adrs.compressed, to_byte_u8, to_byte_u64, to_byte_u8_word, to_byte_u32, to_byte_zero_four,
    show to_byte 2 1 = [AddrType.kSpxAddrTypeHashTree.code] from to_byte_type .kSpxAddrTypeHashTree]
  rfl

theorem compressed_fors_tree (tree : u64) (keypair : u32) (height : u8) (index : u32) :
    (Adrs.fors_tree tree.toNat keypair.toNat height.toNat index.toNat).compressed =
      (Fields.mk 0 tree .kSpxAddrTypeForsTree keypair height index).buffer.take 22 := by
  rw [Adrs.compressed, to_byte_u64, to_byte_u32, to_byte_u8_word, to_byte_u32]
  rfl

theorem compressed_fors_roots (tree : u64) (keypair : u32) :
    (Adrs.fors_roots tree.toNat keypair.toNat).compressed =
      (Fields.mk 0 tree .kSpxAddrTypeForsPk keypair 0 0).buffer.take 22 := by
  rw [Adrs.compressed, to_byte_u64, to_byte_u32, to_byte_zero_eight,
    show to_byte 4 1 = [AddrType.kSpxAddrTypeForsPk.code] from to_byte_type .kSpxAddrTypeForsPk,
    show to_byte 0 1 = [0] from to_byte_u8 0]
  rfl

end IbexFirmware.Spx
