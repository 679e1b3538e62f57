/-
Formatted printing (`print.c`).

What is printed goes to a sink in many small buffers, and each call adds up the answers of the
sink. No function of this file looks at an answer otherwise, so that every sink is handed the
same buffers. This module has the functions, and what numbers, statuses and dumps hand over.

A pointer into a text is the rest of the text, its terminator included. A read behind the end,
an argument that is not there and a write outside a local buffer are faults.
-/
import IbexFirmware.Lib.Sink
import IbexFirmware.Status
import Mathlib.Data.BitVec

set_option autoImplicit false

namespace IbexFirmware.Print

open Bytes Sinks Json

/-- What has no meaning in C, and a loop that does not end. -/
inductive Fault
  /-- A read of the format behind its terminator. -/
  | past_nul
  /-- A read behind the end of another object. -/
  | past_object
  /-- `va_arg`, and no argument of the type. -/
  | no_argument
  /-- A write outside a local buffer. -/
  | overrun
  | diverge
  deriving DecidableEq

abbrev SinkFunc (σ : Type) := Sink σ u8 u32

/-- What a function does to the data of its sink. -/
abbrev Printing (σ α : Type) := StateT σ (Except Fault) α

variable {σ : Type}

def base_dev_null : SinkFunc σ := fun s buf => (buf.length, s)

/-- `out.sink(out.data, buf, len)`. -/
def emit (out : SinkFunc σ) (buf : List u8) : Printing σ u32 := fun s => .ok (out s buf)

/-- `len += p;`, for one call after the other. -/
def in_turn : List (Printing σ u32) → Printing σ u32
  | [] => pure 0
  | p :: ps => do
      let n ← p
      let len ← in_turn ps
      return n + len

def read (object : List u8) (i : ℕ) : Except Fault u8 :=
  match object[i]? with
  | some b => .ok b
  | none => .error .past_object

/-! ## The letters of the specifiers -/

def kPercent : u8 := chr '%'
def kCharacter : u8 := chr 'c'
def kString : u8 := chr 's'
def kSignedDec1 : u8 := chr 'd'
def kSignedDec2 : u8 := chr 'i'
def kUnsignedOct : u8 := chr 'o'
def kUnsignedHexLow : u8 := chr 'x'
def kUnsignedHexHigh : u8 := chr 'X'
def kUnsignedDec : u8 := chr 'u'
def kPointer : u8 := chr 'p'
def kSvBinary : u8 := chr 'b'
def kSvHexLow : u8 := chr 'h'
def kSvHexHigh : u8 := chr 'H'
def kHexLeLow : u8 := chr 'y'
def kHexLeHigh : u8 := chr 'Y'
def kStatusResult : u8 := chr 'r'
def kFourCC : u8 := chr 'C'

def kDigitsHigh : List u8 := text "0123456789ABCDEF"

def kErrorNul : List u8 := text "%<unexpected nul>"
def kUnknownSpec : List u8 := text "%<unknown spec>"
def kErrorTooWide : List u8 := text "%<bad width>"

/-! ## The format -/

/-- `(*format)[0]`. -/
def first_char : List u8 → Except Fault u8
  | [] => .error .past_nul
  | c :: _ => .ok c

/-- The loop of `consume_until_percent`: the length of the text, and the character behind. -/
def text_loop : List u8 → ℕ → Except Fault (ℕ × u8)
  | [], _ => .error .past_nul
  | c :: format, text_len =>
      if c = 0 ∨ c = kPercent then .ok (text_len, c) else text_loop format (text_len + 1)

/-- Whether there is a `%`, the bytes written, and the format from there on. -/
def consume_until_percent (out : SinkFunc σ) (format : List u8) :
    Printing σ (Bool × u32 × List u8) := do
  let (text_len, c) ← text_loop format 0
  let bytes_written ← (if text_len > 0 then emit out (format.take text_len) else pure 0)
  return (decide (c ≠ 0), bytes_written, format.drop text_len)

/-- `format_specifier_t`. -/
structure FormatSpecifier where
  type : u8
  width : u32
  padding : u8
  is_nonstd : Bool
  deriving DecidableEq

/-- The loop over the width. There is no result if the format ends here. -/
def width_loop : List u8 → FormatSpecifier → Except Fault (Option (FormatSpecifier × List u8))
  | [], _ => .error .past_nul
  | c :: format, spec =>
      if c = 0 then .ok none
      else if c < chr '0' ∨ chr '9' < c then .ok (some (spec, c :: format))
      else if spec.padding = 0 ∧ c = chr '0' then
        width_loop format { spec with padding := chr '0' }
      else
        width_loop format
          { spec with
            padding := if spec.padding = 0 then chr ' ' else spec.padding
            width := spec.width * 10 + (c.setWidth 32 - 48) }

/-- The specifier, if it is well formed, the bytes written, and the format behind. -/
def consume_format_specifier (out : SinkFunc σ) (format : List u8) :
    Printing σ (Option FormatSpecifier × u32 × List u8) := do
  -- Past the percent sign.
  let format := format.drop 1
  let c ← first_char format
  let is_nonstd := decide (c = chr '!')
  let format := if is_nonstd then format.drop 1 else format
  match ← width_loop format ⟨0, 0, 0, is_nonstd⟩ with
  | none => return (none, ← emit out kErrorNul, format)
  | some (spec, format) =>
      if (spec.width = 0 ∧ spec.padding ≠ 0) ∨ spec.width > 32 then
        return (none, ← emit out kErrorTooWide, format)
      else return (some { spec with type := format.headD 0 }, 0, format.drop 1)

/-! ## Numbers, statuses and dumps -/

def kWordBits : ℕ := 32

/-- The `while` loop over the digits, with so much of the buffer left. -/
def digits_loop (base : u32) (glyphs : List u8) :
    (room : ℕ) → (value : u32) → (buffer : List u8) → Except Fault (List u8)
  | 0, value, buffer => if value > 0 then .error .overrun else .ok buffer
  | room + 1, value, buffer =>
      if value > 0 then do
        let glyph ← read glyphs (value % base).toNat
        digits_loop base glyphs room (value / base) (glyph :: buffer)
      else .ok buffer

/-- The used part of the buffer before the padding. -/
def digits_buffer (value base : u32) (glyphs : List u8) : Except Fault (List u8) :=
  if value = 0 then do
    let zero ← read glyphs 0
    digits_loop base glyphs (kWordBits - 1) value [zero]
  else digits_loop base glyphs kWordBits value []

def write_digits (out : SinkFunc σ) (value width : u32) (padding : u8) (base : u32)
    (glyphs : List u8) : Printing σ u32 := do
  let buffer ← digits_buffer value base glyphs
  let width := if width = 0 then 1 else width.toNat
  let width := if width > kWordBits then kWordBits else width
  emit out (List.replicate (width - buffer.length) padding ++ buffer)

def write_module_char (out : SinkFunc σ) (c : u8) : Printing σ u32 :=
  if c = chr '\\' then emit out [chr '\\', chr '\\'] else emit out [c]

def write_status (out : SinkFunc σ) (value : u32) (as_json : Bool) : Printing σ u32 :=
  let parts := status_extract value
  let json (s : List u8) := emit out (if as_json then s else [])
  let arg := write_digits out parts.arg 0 0 10 kDigitsLow
  in_turn
    [json [chr '{', chr '"'], emit out parts.code, json [chr '"'], emit out [chr ':'],
      match parts.mod_id with
      | some (m0, m1, m2) =>
          in_turn [emit out [chr '[', chr '"'], write_module_char out m0,
            write_module_char out m1, write_module_char out m2, emit out [chr '"', chr ','],
            arg, emit out [chr ']']]
      | none => arg,
      json [chr '}']]

/-- The padding of a dump. -/
def padding_loop (out : SinkFunc σ) (padding : u8) : (passes : ℕ) → (width : u32) → Printing σ u32
  | 0, _ => throw .diverge
  | passes + 1, width =>
      if width > 0 then do
        let to_write := if width > 32 then 32 else width
        let n ← emit out (List.replicate to_write.toNat padding)
        let bytes_written ← padding_loop out padding passes (width - to_write)
        return n + bytes_written
      else return 0

/-- The loop over the bytes of a dump, so many of which are left. -/
def dump_loop (out : SinkFunc σ) (bytes : List u8) (len : ℕ) (big_endian : Bool)
    (glyphs : List u8) : (left : ℕ) → (buf : List u8) → Printing σ u32
  | 0, buf => if buf ≠ [] then emit out buf else pure 0
  | left + 1, buf => do
      let i := len - (left + 1)
      let byte ← read bytes (if big_endian then len - i - 1 else i)
      let high ← read glyphs (byte >>> 4 &&& 0xf).toNat
      let low ← read glyphs (byte &&& 0xf).toNat
      let buf := buf ++ [high, low]
      if buf.length > 32 then throw .overrun
      else if buf.length = 32 then do
        let n ← emit out buf
        let bytes_written ← dump_loop out bytes len big_endian glyphs left []
        return n + bytes_written
      else dump_loop out bytes len big_endian glyphs left buf

def hex_dump (out : SinkFunc σ) (bytes : List u8) (len width : u32) (padding : u8)
    (big_endian : Bool) (glyphs : List u8) : Printing σ u32 :=
  in_turn
    [if len < width then padding_loop out padding ((width - len).toNat + 1) (width - len)
      else pure 0,
    dump_loop out bytes len.toNat big_endian glyphs len.toNat []]

/-! ## The arguments -/

/-- An argument: a word, or a pointer to an object. -/
inductive VaArg
  | word (value : u32)
  | pointer (object : List u8)

def va_word : List VaArg → Except Fault (u32 × List VaArg)
  | .word value :: args => .ok (value, args)
  | _ => .error .no_argument

def va_pointer : List VaArg → Except Fault (List u8 × List VaArg)
  | .pointer object :: args => .ok (object, args)
  | _ => .error .no_argument

/-- The length of a string. -/
def string_loop : List u8 → ℕ → Except Fault ℕ
  | [], _ => .error .past_object
  | c :: value, len => if c ≠ 0 then string_loop value (len + 1) else .ok len

/-- A buffer of a length. -/
def slice (object : List u8) (len : ℕ) : Except Fault (List u8) :=
  if len ≤ object.length then .ok (object.take len) else .error .past_object

/-! ## The specifiers

The cases of `process_specifier` give the bytes written and the arguments behind their own. -/

def bad_spec (out : SinkFunc σ) (args : List VaArg) : Printing σ (u32 × List VaArg) := do
  return (← emit out kUnknownSpec, args)

/-- The cases that are one call of `write_digits`. -/
def process_unsigned (out : SinkFunc σ) (spec : FormatSpecifier) (args : List VaArg) (base : u32)
    (glyphs : List u8) : Printing σ (u32 × List VaArg) := do
  let (value, args) ← va_word args
  return (← write_digits out value spec.width spec.padding base glyphs, args)

/-- The cases that are one call of `hex_dump`. -/
def process_dump (out : SinkFunc σ) (spec : FormatSpecifier) (args : List VaArg)
    (big_endian : Bool) (glyphs : List u8) : Printing σ (u32 × List VaArg) := do
  let (len, args) ← va_word args
  let (value, args) ← va_pointer args
  return (← hex_dump out value len spec.width spec.padding big_endian glyphs, args)

def process_signed (out : SinkFunc σ) (spec : FormatSpecifier) (args : List VaArg) :
    Printing σ (u32 × List VaArg) := do
  let (value, args) ← va_word args
  let magnitude := if value.msb then -value else value
  let n ← in_turn
    [if value.msb then emit out [chr '-'] else pure 0,
      write_digits out magnitude spec.width spec.padding 10 kDigitsLow]
  return (n, args)

def write_fourcc_char (out : SinkFunc σ) (ch : u8) : Printing σ u32 :=
  if 32 ≤ ch.toNat ∧ ch.toNat < 127 then emit out [ch]
  else
    in_turn [emit out (text "\\x"), emit out [kDigitsLow.getD (ch >>> 4).toNat 0],
      emit out [kDigitsLow.getD (ch &&& 15).toNat 0]]

def process_specifier (out : SinkFunc σ) (spec : FormatSpecifier) (args : List VaArg) :
    Printing σ (u32 × List VaArg) := do
  if spec.type = kPercent then
    if spec.is_nonstd then bad_spec out args
    else return (← emit out [chr '%'], args)
  else if spec.type = kCharacter then
    if spec.is_nonstd then bad_spec out args
    else
      let (value, args) ← va_word args
      return (← emit out [value.setWidth 8], args)
  else if spec.type = kFourCC then
    let (value, args) ← va_word args
    let n ← in_turn ((le32 value).map (write_fourcc_char out))
    return (n, args)
  else if spec.type = kString then
    if spec.is_nonstd then
      let (len, args) ← va_word args
      let (value, args) ← va_pointer args
      let buf ← slice value len.toNat
      return (← emit out buf, args)
    else
      let (value, args) ← va_pointer args
      let len ← string_loop value 0
      return (← emit out (value.take len), args)
  else if spec.type = kSignedDec1 ∨ spec.type = kSignedDec2 then
    if spec.is_nonstd then bad_spec out args else process_signed out spec args
  else if spec.type = kUnsignedOct then
    if spec.is_nonstd then bad_spec out args else process_unsigned out spec args 8 kDigitsLow
  else if spec.type = kPointer then
    if spec.is_nonstd then bad_spec out args
    else
      let n ← emit out (text "0x")
      let (value, args) ← va_word args
      let m ← write_digits out value 8 (chr '0') 16 kDigitsLow
      return (n + m, args)
  else if spec.type = kUnsignedHexLow ∧ spec.is_nonstd then process_dump out spec args true kDigitsLow
  else if spec.type = kUnsignedHexLow ∨ spec.type = kSvHexLow then
    process_unsigned out spec args 16 kDigitsLow
  else if spec.type = kUnsignedHexHigh ∧ spec.is_nonstd then
    process_dump out spec args true kDigitsHigh
  else if spec.type = kUnsignedHexHigh ∨ spec.type = kSvHexHigh then
    process_unsigned out spec args 16 kDigitsHigh
  else if spec.type = kHexLeLow then
    if spec.is_nonstd then process_dump out spec args false kDigitsLow else bad_spec out args
  else if spec.type = kHexLeHigh then
    if spec.is_nonstd then process_dump out spec args false kDigitsHigh else bad_spec out args
  else if spec.type = kUnsignedDec then
    if spec.is_nonstd then bad_spec out args else process_unsigned out spec args 10 kDigitsLow
  else if spec.type = kSvBinary then
    if spec.is_nonstd then
      let (value, args) ← va_word args
      return (← emit out (if value ≠ 0 then text "true" else text "false"), args)
    else process_unsigned out spec args 2 kDigitsLow
  else if spec.type = kStatusResult then
    let (value, args) ← va_word args
    return (← write_status out value spec.is_nonstd, args)
  else bad_spec out args

/-! ## The entry points -/

/-- The loop over the format. Each pass takes a specifier away. -/
def vfprintf_loop (out : SinkFunc σ) : (passes : ℕ) → (format : List u8) → (args : List VaArg) →
    Printing σ u32
  | 0, _, _ => throw .diverge
  | passes + 1, format, args => do
      let c ← first_char format
      if c = 0 then return 0
      else
        let (found, n, format) ← consume_until_percent out format
        if found then
          let (spec, m, format) ← consume_format_specifier out format
          match spec with
          | some spec =>
              let (k, args) ← process_specifier out spec args
              let bytes_written ← vfprintf_loop out passes format args
              return n + m + k + bytes_written
          | none => return n + m
        else return n

/-- A sink that is `NULL` is `none`. -/
def base_vfprintf (out : Option (SinkFunc σ)) (format : List u8) (args : List VaArg) :
    Printing σ u32 :=
  vfprintf_loop (out.getD base_dev_null) format.length format args

def base_fprintf (out : Option (SinkFunc σ)) (format : List u8) (args : List VaArg) :
    Printing σ u32 :=
  base_vfprintf out format args

/-- `snprintf_captures_t`, with the memory that the buffer is in. -/
structure SnprintfCaptures where
  mem : Mem
  buf : ℕ
  bytes_left : ℕ

def snprintf_sink : SinkFunc SnprintfCaptures := fun captures buf =>
  if captures.bytes_left = 0 then (0, captures)
  else
    let len := if buf.length > captures.bytes_left then captures.bytes_left else buf.length
    (len, ⟨writeBytes captures.mem captures.buf (buf.take len), captures.buf + len,
      captures.bytes_left - len⟩)

/-- The bytes written, and the memory behind. -/
def base_snprintf (mem : Mem) (buf : ℕ) (len : u32) (format : List u8) (args : List VaArg) :
    Except Fault (u32 × Mem) := do
  let (n, data) ← base_vfprintf (some snprintf_sink) format args ⟨mem, buf, len.toNat⟩
  return (n, data.mem)

/-! ## What the functions hand to the sink -/

theorem bind_ok {α β : Type} {p : Printing σ α} {f : α → Printing σ β} {s s' : σ} {a : α}
    (h : p s = .ok (a, s')) : (p >>= f) s = f a s' := by
  have hbind : (p >>= f) s = (p s >>= fun x => f x.1 x.2) := rfl
  rw [hbind, h]
  rfl

theorem lift_ok {α : Type} {e : Except Fault α} {a : α} (h : e = .ok a) (s : σ) :
    (liftM e : Printing σ α) s = .ok (a, s) := by
  rw [h]
  rfl

/-- A function that writes to a sink of any kind. -/
abbrev Caller := ∀ σ : Type, SinkFunc σ → Printing σ u32

theorem hands_emit (buf : List u8) : Hands (fun _ out => emit out buf) [buf] := by
  intro σ out s
  rw [deliver_singleton]
  rfl

theorem hands_nothing : Hands (fun (σ) (_ : SinkFunc σ) => (pure 0 : Printing σ u32)) [] :=
  fun _ _ _ => rfl

/-- One call and then another. -/
theorem hands_add {p q : Caller} {cs ds : List (List u8)} (hp : Hands p cs) (hq : Hands q ds) :
    Hands (fun σ out => (do
      let n ← p σ out
      let m ← q σ out
      return n + m : Printing σ u32)) (cs ++ ds) := by
  intro σ out s
  dsimp only
  rw [deliver_append, bind_ok (hp σ out s), bind_ok (hq σ out _)]
  rfl

theorem hands_in_turn_cons {p : Caller} {ps : ∀ σ : Type, SinkFunc σ → List (Printing σ u32)}
    {cs ds : List (List u8)} (hp : Hands p cs) (hps : Hands (fun σ out => in_turn (ps σ out)) ds) :
    Hands (fun σ out => in_turn (p σ out :: ps σ out)) (cs ++ ds) :=
  hands_add hp hps

/-- The glyph of a digit. -/
def glyph (glyphs : List u8) (d : ℕ) : u8 := glyphs.getD d 0

theorem read_eq {object : List u8} {i : ℕ} (h : i < object.length) :
    read object i = .ok (object.getD i 0) := by
  rw [read, List.getElem?_eq_getElem h, List.getD_eq_getElem _ _ h]

section numbers

variable {base : u32} {glyphs : List u8}

/-- The induction is on the room for digits, of which the value takes as many as it has. -/
theorem digits_loop_eq (hbase : 1 < base.toNat) (hglyphs : base.toNat ≤ glyphs.length) (room : ℕ)
    (value : u32) (buffer : List u8) (hvalue : value.toNat < base.toNat ^ room) :
    digits_loop base glyphs room value buffer =
      .ok ((Nat.digits base.toNat value.toNat).reverse.map (glyph glyphs) ++ buffer) := by
  have hzero : (0 : u32).toNat = 0 := rfl
  induction room generalizing value buffer with
  | zero =>
      have hv : value.toNat = 0 := by simpa using hvalue
      have hle : ¬ value > 0 := by rw [gt_iff_lt, BitVec.lt_def, hzero]; omega
      rw [digits_loop, if_neg hle, hv, Nat.digits_zero]
      rfl
  | succ room ih =>
      rw [digits_loop]
      by_cases hpos : value > 0
      · have hpos' : 0 < value.toNat := by rwa [gt_iff_lt, BitVec.lt_def, hzero] at hpos
        have hdigit : (value % base).toNat < glyphs.length := by
          rw [BitVec.toNat_umod]
          exact Nat.lt_of_lt_of_le (Nat.mod_lt _ (by omega)) hglyphs
        have hnext : (value / base).toNat < base.toNat ^ room := by
          rw [BitVec.toNat_udiv]
          exact Nat.div_lt_of_lt_mul (by rwa [pow_succ, mul_comm] at hvalue)
        rw [if_pos hpos, read_eq hdigit, Nat.digits_def' hbase hpos']
        show digits_loop base glyphs room (value / base) _ = _
        rw [ih _ _ hnext, BitVec.toNat_udiv, BitVec.toNat_umod, List.reverse_cons, List.map_append,
          List.append_assoc]
        rfl
      · have hv : value.toNat = 0 := by rw [gt_iff_lt, BitVec.lt_def, hzero] at hpos; omega
        rw [if_neg hpos, hv, Nat.digits_zero]
        rfl

/-- The digits of a number, the highest first. -/
def numeral (base value : ℕ) : List ℕ :=
  if value = 0 then [0] else (Nat.digits base value).reverse

/-- What `write_digits` writes. -/
def digits_text (value width : u32) (padding : u8) (base : u32) (glyphs : List u8) : List u8 :=
  let digits := (numeral base.toNat value.toNat).map (glyph glyphs)
  List.replicate (min width.toNat kWordBits - digits.length) padding ++ digits

theorem digits_buffer_eq (hbase : 1 < base.toNat) (hglyphs : base.toNat ≤ glyphs.length)
    (value : u32) :
    digits_buffer value base glyphs =
      .ok ((numeral base.toNat value.toNat).map (glyph glyphs)) := by
  rw [digits_buffer]
  by_cases hv : value = 0
  · rw [if_pos hv, read_eq (by omega), hv]
    rfl
  · have hne : value.toNat ≠ 0 := fun h => hv (BitVec.eq_of_toNat_eq h)
    have hlt : value.toNat < base.toNat ^ kWordBits :=
      Nat.lt_of_lt_of_le value.isLt (Nat.pow_le_pow_left hbase 32)
    rw [if_neg hv, digits_loop_eq hbase hglyphs _ _ _ hlt, numeral, if_neg hne, List.append_nil]

theorem length_numeral_pos (base value : ℕ) : 0 < (numeral base value).length := by
  rw [numeral]
  split
  · exact Nat.one_pos
  · next hv =>
    rw [List.length_reverse]
    exact List.length_pos_of_ne_nil (Nat.digits_ne_nil_iff_ne_zero.mpr hv)

theorem hands_digits (hbase : 1 < base.toNat) (hglyphs : base.toNat ≤ glyphs.length)
    (value width : u32) (padding : u8) :
    Hands (fun _ out => write_digits out value width padding base glyphs)
      [digits_text value width padding base glyphs] := by
  intro σ out s
  have hpos := length_numeral_pos base.toNat value.toNat
  have hwidth : (if (if width = 0 then 1 else width.toNat) > kWordBits then kWordBits
        else if width = 0 then 1 else width.toNat) -
        ((numeral base.toNat value.toNat).map (glyph glyphs)).length =
      min width.toNat kWordBits - ((numeral base.toNat value.toNat).map (glyph glyphs)).length := by
    rw [List.length_map]
    by_cases hzero : width = 0
    · have hw : width.toNat = 0 := by rw [hzero]; rfl
      rw [if_pos hzero, if_neg (show ¬ 1 > kWordBits by decide), hw, Nat.zero_min]
      omega
    · rw [if_neg hzero]
      split <;> omega
  show write_digits out value width padding base glyphs s = _
  rw [write_digits, bind_ok (lift_ok (digits_buffer_eq hbase hglyphs value) s), deliver_singleton,
    digits_text, ← hwidth]
  rfl

end numbers

/-- What is handed over does not depend on the sink. -/
def Oblivious (p : Caller) : Prop := ∃ cs, Hands p cs

theorem Oblivious.in_turn_cons {p : Caller} {ps : ∀ σ : Type, SinkFunc σ → List (Printing σ u32)}
    (hp : Oblivious p) (hps : Oblivious fun σ out => in_turn (ps σ out)) :
    Oblivious fun σ out => in_turn (p σ out :: ps σ out) := by
  obtain ⟨cs, hcs⟩ := hp
  obtain ⟨ds, hds⟩ := hps
  exact ⟨cs ++ ds, hands_in_turn_cons hcs hds⟩

theorem Oblivious.in_turn_nil : Oblivious fun σ (_ : SinkFunc σ) => in_turn [] :=
  ⟨[], hands_nothing⟩

theorem oblivious_emit (buf : List u8) : Oblivious fun _ out => emit out buf :=
  ⟨[buf], hands_emit buf⟩

theorem oblivious_ite (c : Prop) [Decidable c] {p q : Caller} (hp : Oblivious p)
    (hq : Oblivious q) : Oblivious fun σ out => if c then p σ out else q σ out := by
  by_cases h : c
  · simpa only [if_pos h] using hp
  · simpa only [if_neg h] using hq

theorem oblivious_status (value : u32) (as_json : Bool) :
    Oblivious fun _ out => write_status out value as_json := by
  have harg : Oblivious fun _ out =>
      write_digits out (status_extract value).arg 0 0 10 kDigitsLow :=
    ⟨_, hands_digits (by decide) (by decide) _ _ _⟩
  have hchar (c : u8) : Oblivious fun _ out => write_module_char out c :=
    oblivious_ite _ (oblivious_emit _) (oblivious_emit _)
  refine (oblivious_emit _).in_turn_cons ((oblivious_emit _).in_turn_cons
    ((oblivious_emit _).in_turn_cons ((oblivious_emit _).in_turn_cons
    (Oblivious.in_turn_cons ?_ ((oblivious_emit _).in_turn_cons Oblivious.in_turn_nil)))))
  cases (status_extract value).mod_id with
  | none => exact harg
  | some m =>
      exact (oblivious_emit _).in_turn_cons ((hchar _).in_turn_cons ((hchar _).in_turn_cons
        ((hchar _).in_turn_cons ((oblivious_emit _).in_turn_cons
        (harg.in_turn_cons ((oblivious_emit _).in_turn_cons Oblivious.in_turn_nil))))))

theorem oblivious_fourcc (value : u32) :
    Oblivious fun _ out => in_turn ((le32 value).map (write_fourcc_char out)) := by
  have hchar (ch : u8) : Oblivious fun _ out => write_fourcc_char out ch :=
    oblivious_ite _ (oblivious_emit _) ((oblivious_emit _).in_turn_cons
      ((oblivious_emit _).in_turn_cons ((oblivious_emit _).in_turn_cons Oblivious.in_turn_nil)))
  exact (hchar _).in_turn_cons ((hchar _).in_turn_cons ((hchar _).in_turn_cons
    ((hchar _).in_turn_cons Oblivious.in_turn_nil)))

/-! ## Dumps -/

section dumps

variable {glyphs : List u8} {bytes : List u8} {len : ℕ}

def hex_byte (glyphs : List u8) (b : u8) : List u8 :=
  [glyph glyphs (b >>> 4 &&& 0xf).toNat, glyph glyphs (b &&& 0xf).toNat]

/-- The bytes in the order in which they are printed. -/
def dump_order (big_endian : Bool) (bytes : List u8) : List u8 :=
  if big_endian then bytes.reverse else bytes

def dump_text (big_endian : Bool) (glyphs bytes : List u8) : List u8 :=
  (dump_order big_endian bytes).flatMap (hex_byte glyphs)

theorem length_dump_order (big_endian : Bool) (bytes : List u8) :
    (dump_order big_endian bytes).length = bytes.length := by
  cases big_endian with
  | false => rfl
  | true => exact List.length_reverse

theorem length_dump_text (big_endian : Bool) (glyphs bytes : List u8) :
    (dump_text big_endian glyphs bytes).length = 2 * bytes.length := by
  rw [dump_text, List.length_flatMap, ← length_dump_order big_endian bytes]
  generalize dump_order big_endian bytes = xs
  induction xs with
  | nil => rfl
  | cons x xs ih =>
      rw [List.map_cons, List.sum_cons, ih, List.length_cons, hex_byte]
      simp only [List.length_cons, List.length_nil]
      omega

theorem nibble_lt (b : u8) : (b &&& 0xf).toNat < 16 := by
  rw [BitVec.toNat_and]
  exact Nat.lt_of_le_of_lt Nat.and_le_right (by decide)

theorem drop_dump_order (big_endian : Bool) (hlen : len ≤ bytes.length) {left : ℕ}
    (hleft : left + 1 ≤ len) :
    (dump_order big_endian (bytes.take len)).drop (len - (left + 1)) =
      bytes.getD (if big_endian then len - (len - (left + 1)) - 1 else len - (left + 1)) 0 ::
        (dump_order big_endian (bytes.take len)).drop (len - left) := by
  have hsucc : len - left = len - (left + 1) + 1 := by omega
  have htake : (bytes.take len).length = len := by rw [List.length_take]; omega
  have hlt : len - (left + 1) < (dump_order big_endian (bytes.take len)).length := by
    rw [length_dump_order, htake]
    omega
  rw [List.drop_eq_getElem_cons hlt, hsucc]
  congr 1
  cases big_endian with
  | false =>
      rw [if_neg Bool.false_ne_true, List.getD_eq_getElem _ _ (by omega)]
      exact List.getElem_take
  | true =>
      have hidx : len - 1 - (len - (left + 1)) = left := by omega
      have hidx' : len - (len - (left + 1)) - 1 = left := by omega
      rw [if_pos rfl, hidx', List.getD_eq_getElem _ _ (by omega)]
      simp only [dump_order, if_true, List.getElem_reverse, List.getElem_take, htake, hidx]

/-- The invariant of the loop: what is buffered and what is left is still to be handed over. -/
theorem dump_loop_hands (hglyphs : 16 ≤ glyphs.length) (big_endian : Bool)
    (hlen : len ≤ bytes.length) (left : ℕ) (hleft : left ≤ len) (buf : List u8)
    (heven : buf.length % 2 = 0) (hroom : buf.length < 32) :
    ∃ cs : List (List u8),
      cs.flatten = buf ++ ((dump_order big_endian (bytes.take len)).drop (len - left)).flatMap
        (hex_byte glyphs) ∧
      Hands (fun _ out => dump_loop out bytes len big_endian glyphs left buf) cs := by
  induction left generalizing buf with
  | zero =>
      have hdrop : (dump_order big_endian (bytes.take len)).drop (len - 0) = [] := by
        apply List.drop_eq_nil_of_le
        rw [length_dump_order, List.length_take]
        omega
      rw [hdrop, List.flatMap_nil, List.append_nil]
      by_cases hbuf : buf = []
      · refine ⟨[], hbuf.symm, fun σ out s => ?_⟩
        show dump_loop out bytes len big_endian glyphs 0 buf s = _
        rw [dump_loop, if_neg (by simp [hbuf])]
        rfl
      · refine ⟨[buf], by simp, fun σ out s => ?_⟩
        show dump_loop out bytes len big_endian glyphs 0 buf s = _
        rw [dump_loop, if_pos hbuf, deliver_singleton]
        rfl
  | succ left ih =>
      rw [drop_dump_order big_endian hlen hleft, List.flatMap_cons, ← List.append_assoc]
      let idx := if big_endian then len - (len - (left + 1)) - 1 else len - (left + 1)
      have hidx : idx < bytes.length := by
        show (if big_endian then len - (len - (left + 1)) - 1 else len - (left + 1)) < _
        split <;> omega
      let byte := bytes.getD idx 0
      have hhigh : (byte >>> 4 &&& 0xf).toNat < glyphs.length :=
        Nat.lt_of_lt_of_le (nibble_lt _) hglyphs
      have hlow : (byte &&& 0xf).toNat < glyphs.length :=
        Nat.lt_of_lt_of_le (nibble_lt _) hglyphs
      have hbuf : (buf ++ hex_byte glyphs byte).length = buf.length + 2 := List.length_append
      have hstep {σ : Type} (out : SinkFunc σ) (s : σ) :
          dump_loop out bytes len big_endian glyphs (left + 1) buf s =
            (if (buf ++ hex_byte glyphs byte).length > 32 then throw .overrun
            else if (buf ++ hex_byte glyphs byte).length = 32 then do
              let n ← emit out (buf ++ hex_byte glyphs byte)
              let bytes_written ← dump_loop out bytes len big_endian glyphs left []
              return n + bytes_written
            else dump_loop out bytes len big_endian glyphs left (buf ++ hex_byte glyphs byte)
              : Printing σ u32) s := by
        rw [dump_loop, bind_ok (lift_ok (read_eq hidx) s), bind_ok (lift_ok (read_eq hhigh) s),
          bind_ok (lift_ok (read_eq hlow) s)]
        rfl
      by_cases hfull : (buf ++ hex_byte glyphs byte).length = 32
      · obtain ⟨cs, hcs, hhands⟩ := ih (by omega) [] rfl (by decide)
        refine ⟨(buf ++ hex_byte glyphs byte) :: cs, ?_, fun σ out s => ?_⟩
        · rw [List.flatten_cons, hcs, List.nil_append]
        · refine (hstep out s).trans ?_
          rw [if_neg (by omega), if_pos hfull]
          exact hands_add (hands_emit _) hhands σ out s
      · obtain ⟨cs, hcs, hhands⟩ := ih (by omega) (buf ++ hex_byte glyphs byte)
          (by rw [hbuf]; omega) (by omega)
        refine ⟨cs, hcs, fun σ out s => ?_⟩
        refine (hstep out s).trans ?_
        rw [if_neg (by omega), if_neg hfull]
        exact hhands σ out s

/-- The induction is on the passes, each of which writes up to 32 characters. -/
theorem padding_loop_hands (padding : u8) (passes : ℕ) (width : u32) (h : width.toNat < passes) :
    ∃ cs : List (List u8), cs.flatten = List.replicate width.toNat padding ∧
      Hands (fun _ out => padding_loop out padding passes width) cs := by
  have hzero : (0 : u32).toNat = 0 := rfl
  induction passes generalizing width with
  | zero => omega
  | succ passes ih =>
      by_cases hpos : width > 0
      · have hpos' : 0 < width.toNat := by rwa [gt_iff_lt, BitVec.lt_def, hzero] at hpos
        let to_write := if width > 32 then 32 else width
        have hle : to_write ≤ width ∧ 0 < to_write.toNat := by
          show (if width > 32 then 32 else width) ≤ width ∧
            0 < (if width > 32 then 32 else width).toNat
          split
          · next hbig => exact ⟨BitVec.le_of_lt hbig, by decide⟩
          · exact ⟨BitVec.le_refl width, hpos'⟩
        have hsub : (width - to_write).toNat = width.toNat - to_write.toNat :=
          BitVec.toNat_sub_of_le hle.1
        have hle' : to_write.toNat ≤ width.toNat := hle.1
        obtain ⟨cs, hcs, hhands⟩ := ih (width - to_write) (by omega)
        refine ⟨List.replicate to_write.toNat padding :: cs, ?_, fun σ out s => ?_⟩
        · rw [List.flatten_cons, hcs, hsub, ← List.replicate_add]
          congr 1
          omega
        · show padding_loop out padding (passes + 1) width s = _
          rw [padding_loop, if_pos hpos]
          exact hands_add (hands_emit _) hhands σ out s
      · have hv : width.toNat = 0 := by rw [gt_iff_lt, BitVec.lt_def, hzero] at hpos; omega
        refine ⟨[], by rw [hv]; rfl, fun σ out s => ?_⟩
        show padding_loop out padding (passes + 1) width s = _
        rw [padding_loop, if_neg hpos]
        rfl

/-- What `hex_dump` writes: the padding is short of the width by the bytes, and not by their
digits. -/
theorem hands_dump (hglyphs : 16 ≤ glyphs.length) (len width : u32) (padding : u8)
    (big_endian : Bool) (hlen : len.toNat ≤ bytes.length) :
    ∃ cs : List (List u8),
      cs.flatten = List.replicate (width.toNat - len.toNat) padding ++
        dump_text big_endian glyphs (bytes.take len.toNat) ∧
      Hands (fun _ out => hex_dump out bytes len width padding big_endian glyphs) cs := by
  obtain ⟨ds, hds, hdump⟩ := dump_loop_hands hglyphs big_endian hlen len.toNat le_rfl [] rfl
    (by decide)
  rw [Nat.sub_self, List.drop_zero, List.nil_append] at hds
  have hdump' : Hands (fun _ out =>
      in_turn [dump_loop out bytes len.toNat big_endian glyphs len.toNat []]) (ds ++ []) :=
    hands_in_turn_cons hdump hands_nothing
  rw [List.append_nil] at hdump'
  by_cases hlt : len < width
  · have hsub : (width - len).toNat = width.toNat - len.toNat := BitVec.toNat_sub_of_le (BitVec.le_of_lt hlt)
    obtain ⟨cs, hcs, hpadding⟩ := padding_loop_hands padding ((width - len).toNat + 1) (width - len)
      (Nat.lt_succ_self _)
    refine ⟨cs ++ ds, ?_, fun σ out s => ?_⟩
    · rw [List.flatten_append, hcs, hds, hsub]
      rfl
    · show hex_dump out bytes len width padding big_endian glyphs s = _
      rw [hex_dump, if_pos hlt]
      exact hands_in_turn_cons hpadding hdump' σ out s
  · have hle : width.toNat ≤ len.toNat := by rw [BitVec.lt_def] at hlt; omega
    refine ⟨ds, ?_, fun σ out s => ?_⟩
    · rw [hds, Nat.sub_eq_zero_of_le hle]
      rfl
    · show hex_dump out bytes len width padding big_endian glyphs s = _
      rw [hex_dump, if_neg hlt]
      exact hands_in_turn_cons hands_nothing hdump' σ out s

end dumps

end IbexFirmware.Print
