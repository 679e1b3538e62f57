/-
The CBOR writer of the certificates (`lib/cert/cbor.c`).

A writer is called twice: without an output, for the size, and with one. The size and the
bytes come from separate functions that repeat the same thresholds, and the argument is
sent from memory, where its least significant byte is first. `cbor_write_type_writes`
says what one head does to the output; `cbor_heads` puts it beside the format, where
`CborHead.head` is the shortest head of a type and an argument.
-/
import IbexFirmware.Lib.CborHead

set_option autoImplicit false

namespace IbexFirmware.Cbor

open Bytes

/-- `cbor_out_t`. The buffer starts at address 0 of its memory. -/
structure CborOut where
  start : Mem
  offset : ℕ

/-- `cbor_type_t`. -/
inductive CborType where
  | Uint
  | Sint
  | Bstr
  | Tstr
  | Array
  | Map
  deriving DecidableEq

/-- The value of the enumerator. -/
def CborType.toByte : CborType → u8
  | Uint => 0
  | Sint => 1
  | Bstr => 2
  | Tstr => 3
  | Array => 4
  | Map => 5

/-! ## `cbor_arg_type_t` -/

def Cbor_Arg_Type_U8 : u8 := 24
def Cbor_Arg_Type_U16 : u8 := 25
def Cbor_Arg_Type_U32 : u8 := 26
def Cbor_Arg_Type_U64 : u8 := 27

/-! ## Sizes -/

def cbor_calc_arg_size (value : u64) : ℕ :=
  if value ≤ 23 then 0
  else if value ≤ 0xff then 1
  else if value ≤ 0xffff then 2
  else if value ≤ 0xffffffff then 4
  else 8

def cbor_calc_additional_info (value : u64) : u8 :=
  if value ≤ 23 then value.setWidth 8
  else if value ≤ 0xff then Cbor_Arg_Type_U8
  else if value ≤ 0xffff then Cbor_Arg_Type_U16
  else if value ≤ 0xffffffff then Cbor_Arg_Type_U32
  else Cbor_Arg_Type_U64

/-- `(uint64_t)(-(value + 1))` of a negative `int64_t`, whose sum does not overflow. -/
def sint_arg (value : u64) : u64 := -(value + 1)

/-- `value` holds the bits of an `int64_t`. -/
def cbor_calc_int_size (value : u64) : ℕ :=
  if value.toInt < 0 then cbor_calc_arg_size (sint_arg value) else cbor_calc_arg_size value

/-! ## Writing -/

/-- `p->start[p->offset++] = b`. -/
def CborOut.put (p : CborOut) (b : u8) : CborOut :=
  ⟨Function.update p.start p.offset b, p.offset + 1⟩

/-- Byte `i` of `arg` in memory. -/
def arg_byte (arg : u64) (i : ℕ) : u8 := arg.extractLsb' (8 * i) 8

/-- The loop over the bytes of `arg` from `parg` down. -/
def cbor_write_arg (p : CborOut) (arg : u64) : ℕ → CborOut
  | 0 => p
  | parg + 1 => cbor_write_arg (p.put (arg_byte arg parg)) arg parg

/-- The null output is `none`. -/
def cbor_write_raw_bytes (p : Option CborOut) (raw : List u8) : Option CborOut × ℕ :=
  (p.map fun p => ⟨writeBytes p.start p.offset raw, p.offset + raw.length⟩, raw.length)

def cbor_write_type (p : Option CborOut) (type : CborType) (arg : u64) : Option CborOut × ℕ :=
  let sz := cbor_calc_arg_size arg
  (p.map fun p =>
      let add_info := cbor_calc_additional_info arg
      cbor_write_arg (p.put (type.toByte <<< 5 ||| add_info)) arg sz,
    1 + sz)

def cbor_write_int (p : Option CborOut) (value : u64) : Option CborOut × ℕ :=
  if value.toInt < 0 then cbor_write_type p .Sint (sint_arg value)
  else cbor_write_type p .Uint value

def cbor_write_bstr_header (p : Option CborOut) (bstr_size : u32) : Option CborOut × ℕ :=
  cbor_write_type p .Bstr (bstr_size.setWidth 64)

def cbor_write_tstr_header (p : Option CborOut) (tstr_size : u32) : Option CborOut × ℕ :=
  cbor_write_type p .Tstr (tstr_size.setWidth 64)

def cbor_write_array_header (p : Option CborOut) (num_elements : u32) : Option CborOut × ℕ :=
  cbor_write_type p .Array (num_elements.setWidth 64)

def cbor_write_map_header (p : Option CborOut) (num_pairs : u32) : Option CborOut × ℕ :=
  cbor_write_type p .Map (num_pairs.setWidth 64)

/-! ## The head -/

/-- The output with `bytes` behind what it has. -/
def CborOut.emit (p : CborOut) (bytes : List u8) : CborOut :=
  ⟨writeBytes p.start p.offset bytes, p.offset + bytes.length⟩

theorem CborOut.emit_nil (p : CborOut) : p.emit [] = p := by
  have hstart : writeBytes p.start p.offset [] = p.start := by
    funext x
    exact writeBytes_of_not_mem _ _ _ _ (by simp)
  rw [emit, hstart]
  rfl

theorem CborOut.emit_append (p : CborOut) (xs ys : List u8) :
    (p.emit xs).emit ys = p.emit (xs ++ ys) := by
  rw [emit, emit, emit, writeBytes_append, List.length_append, Nat.add_assoc]

theorem CborOut.put_eq_emit (p : CborOut) (b : u8) : p.put b = p.emit [b] := by
  rw [put, emit, update_eq_writeBytes]
  rfl

theorem arg_byte_eq (arg : u64) (i : ℕ) : arg_byte arg i = BitVec.ofNat 8 (arg.toNat / 256 ^ i) := by
  apply BitVec.eq_of_toNat_eq
  rw [arg_byte, BitVec.extractLsb'_toNat, BitVec.toNat_ofNat, Nat.shiftRight_eq_div_pow,
    Nat.pow_mul]

/-- The bytes leave the memory in reversed order. -/
theorem cbor_write_arg_writes (p : CborOut) (arg : u64) (sz : ℕ) :
    cbor_write_arg p arg sz = p.emit (CborHead.be sz arg.toNat) := by
  induction sz generalizing p with
  | zero => exact p.emit_nil.symm
  | succ sz ih =>
      rw [cbor_write_arg, ih, CborOut.put_eq_emit, CborOut.emit_append, CborHead.be_succ, arg_byte_eq]
      rfl

/-- The thresholds of the size. -/
theorem cbor_calc_arg_size_eq (value : u64) :
    cbor_calc_arg_size value = CborHead.argLength value.toNat := by
  unfold cbor_calc_arg_size CborHead.argLength
  simp only [BitVec.le_def]
  split_ifs <;> simp_all <;> omega

/-- The thresholds of the initial byte are the same ones. -/
theorem cbor_calc_additional_info_eq (value : u64) :
    cbor_calc_additional_info value = BitVec.ofNat 8 (CborHead.additional value.toNat) := by
  unfold cbor_calc_additional_info CborHead.additional
  simp only [BitVec.le_def]
  split_ifs <;> simp_all <;> try omega
  all_goals rfl

/-- The two parts of the initial byte do not overlap. -/
theorem initial_byte (type : CborType) (arg : u64) :
    type.toByte <<< 5 ||| cbor_calc_additional_info arg =
      BitVec.ofNat 8 (type.toByte.toNat * 32 + CborHead.additional arg.toNat) := by
  have hlow := CborHead.additional_lt arg.toNat
  have htype : type.toByte.toNat < 8 := by cases type <;> decide
  apply BitVec.eq_of_toNat_eq
  rw [cbor_calc_additional_info_eq, BitVec.toNat_or, BitVec.toNat_shiftLeft, BitVec.toNat_ofNat,
    BitVec.toNat_ofNat, Nat.mod_eq_of_lt (by rw [Nat.shiftLeft_eq]; omega),
    Nat.mod_eq_of_lt (by omega), Nat.mod_eq_of_lt (by omega),
    ← Nat.shiftLeft_add_eq_or_of_lt (show _ < 2 ^ 5 from hlow), Nat.shiftLeft_eq]

/-- What a function that writes `bytes` does. Without an output it has the same size. -/
structure Writes (write : Option CborOut → Option CborOut × ℕ) (bytes : List u8) : Prop where
  out : ∀ p, write (some p) = (some (p.emit bytes), bytes.length)
  null : write none = (none, bytes.length)

theorem cbor_write_type_writes (type : CborType) (arg : u64) :
    Writes (fun p => cbor_write_type p type arg) (CborHead.head type.toByte.toNat arg.toNat) := by
  have hsize : 1 + cbor_calc_arg_size arg =
      (CborHead.head type.toByte.toNat arg.toNat).length := by
    rw [CborHead.length_head, cbor_calc_arg_size_eq]
  constructor
  · intro p
    rw [← hsize]
    simp only [cbor_write_type, Option.map_some]
    rw [cbor_write_arg_writes, CborOut.put_eq_emit, CborOut.emit_append, initial_byte,
      cbor_calc_arg_size_eq]
    rfl
  · simp only [cbor_write_type, Option.map_none]
    rw [hsize]

/-! ## Integers -/

/-- The mapping `-1 - n`, up to the smallest `int64_t`. -/
theorem toNat_sint_arg {value : u64} (h : value.toInt < 0) :
    (sint_arg value).toNat = (-1 - value.toInt).toNat := by
  have hnot : sint_arg value = ~~~value := by
    rw [sint_arg, BitVec.not_eq_neg_add, BitVec.neg_add]
    rfl
  rw [hnot, BitVec.toNat_not]
  rw [BitVec.toInt_eq_toNat_cond] at h ⊢
  split_ifs at h ⊢ with hpos
  · omega
  · omega

theorem cbor_write_int_writes (value : u64) :
    Writes (fun p => cbor_write_int p value) (CborHead.intHead value.toInt) := by
  unfold cbor_write_int CborHead.intHead
  split_ifs with hneg
  · have hwrites := cbor_write_type_writes .Sint (sint_arg value)
    rwa [toNat_sint_arg hneg] at hwrites
  · have hpos : value.toInt.toNat = value.toNat := by
      rw [BitVec.toInt_eq_toNat_cond] at hneg ⊢
      split_ifs at hneg ⊢ with hsign
      · omega
      · omega
    have hwrites := cbor_write_type_writes .Uint value
    rwa [← hpos] at hwrites

theorem cbor_calc_int_size_eq (value : u64) :
    cbor_calc_int_size value + 1 = (CborHead.intHead value.toInt).length := by
  have hnull := (cbor_write_int_writes value).null
  unfold cbor_write_int at hnull
  unfold cbor_calc_int_size
  split_ifs at hnull ⊢ with hneg
  · have hlen := congrArg Prod.snd hnull
    rw [Nat.add_comm]
    exact hlen
  · have hlen := congrArg Prod.snd hnull
    rw [Nat.add_comm]
    exact hlen

/-! ## Heads of every kind -/

/-- A head of `type` and `arg`: a decoder reads both back and stops behind the head, and
there is no shorter one. -/
structure Canonical (bytes : List u8) (type : CborType) (arg : ℕ) : Prop where
  decode : ∀ rest, CborHead.decode (bytes ++ rest) = some (type.toByte.toNat, arg, rest)
  shortest : ∀ other rest, CborHead.decode other = some (type.toByte.toNat, arg, rest) →
    bytes.length + rest.length ≤ other.length

/-- The same for an integer. -/
structure CanonicalInt (bytes : List u8) (value : ℤ) : Prop where
  decode : ∀ rest, CborHead.decodeInt (bytes ++ rest) = some (value, rest)
  shortest : ∀ other rest, CborHead.decodeInt other = some (value, rest) →
    bytes.length + rest.length ≤ other.length

theorem head_canonical (type : CborType) (arg : u64) :
    Canonical (CborHead.head type.toByte.toNat arg.toNat) type arg.toNat where
  decode := CborHead.decode_head (by cases type <;> decide) arg.isLt
  shortest _ _ := CborHead.head_shortest

theorem intHead_canonical (value : u64) :
    CanonicalInt (CborHead.intHead value.toInt) value.toInt where
  decode := CborHead.decodeInt_intHead (BitVec.le_toInt value) BitVec.toInt_lt
  shortest _ _ := CborHead.intHead_shortest

/-- The header writers pass a `size_t` on. -/
theorem header_writes (type : CborType) (size : u32) :
    ∃ bytes, Writes (fun p => cbor_write_type p type (size.setWidth 64)) bytes ∧
      Canonical bytes type size.toNat := by
  have hsize : (size.setWidth 64 : u64).toNat = size.toNat := by
    rw [BitVec.toNat_setWidth, Nat.mod_eq_of_lt (lt_trans size.isLt (by decide))]
  refine ⟨_, cbor_write_type_writes type (size.setWidth 64), ?_⟩
  have hcanonical := head_canonical type (size.setWidth 64)
  rwa [hsize] at hcanonical ⊢

/-- Every head that is written is the shortest one, and every size is its size. -/
theorem cbor_heads :
    (∀ (type : CborType) (arg : u64), ∃ bytes,
      Writes (fun p => cbor_write_type p type arg) bytes ∧ Canonical bytes type arg.toNat ∧
      cbor_calc_arg_size arg + 1 = bytes.length) ∧
    (∀ value : u64, ∃ bytes,
      Writes (fun p => cbor_write_int p value) bytes ∧ CanonicalInt bytes value.toInt ∧
      cbor_calc_int_size value + 1 = bytes.length) ∧
    (∀ size : u32,
      (∃ bytes, Writes (fun p => cbor_write_bstr_header p size) bytes ∧
        Canonical bytes .Bstr size.toNat) ∧
      (∃ bytes, Writes (fun p => cbor_write_tstr_header p size) bytes ∧
        Canonical bytes .Tstr size.toNat) ∧
      (∃ bytes, Writes (fun p => cbor_write_array_header p size) bytes ∧
        Canonical bytes .Array size.toNat) ∧
      (∃ bytes, Writes (fun p => cbor_write_map_header p size) bytes ∧
        Canonical bytes .Map size.toNat)) := by
  refine ⟨?_, ?_, ?_⟩
  · intro type arg
    refine ⟨_, cbor_write_type_writes type arg, head_canonical type arg, ?_⟩
    rw [CborHead.length_head, cbor_calc_arg_size_eq, Nat.add_comm]
  · intro value
    exact ⟨_, cbor_write_int_writes value, intHead_canonical value, cbor_calc_int_size_eq value⟩
  · intro size
    exact ⟨header_writes .Bstr size, header_writes .Tstr size, header_writes .Array size,
      header_writes .Map size⟩

end IbexFirmware.Cbor
