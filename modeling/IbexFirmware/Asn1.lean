/-
The ASN.1 builder (`lib/cert/asn1.c`).

The builder writes into a buffer of the caller, from `offset` on, and never more than
`size` bytes. A tag is started before its contents are known: one byte is kept for the
length, and when the tag is finished the contents are moved if the length takes more.
The first error is kept in the state, and from then on every function returns at once.

Sizes are natural numbers. `asn1_start` and `asn1_push_bytes` keep them below
`PTRDIFF_MAX`, so that no sum wraps around. The length of a tag is a difference, and
`size_sub` is the one of `size_t`.

A `Call` is a call of one of these functions, with the tags and the bit string that the
caller has under construction in the `Builder`. `Contents` is what the calls are to
emit: pushes, bit strings and tags around more contents.
-/
import IbexFirmware.Lib.Der
import IbexFirmware.RomError

set_option autoImplicit false

namespace IbexFirmware.Asn1

open Bytes Der

/-! ## State -/

def PTRDIFF_MAX : ℕ := 2 ^ 31 - 1

def kAsn1TagNumberOid : u8 := 0x06

/-- `asn1_state_t`. The buffer starts at address 0 of its memory. -/
structure Asn1State where
  buffer : Mem
  size : ℕ
  offset : ℕ
  error : RomError

/-- `asn1_tag_t`. A tag whose state is null is not `active`. -/
structure Asn1Tag where
  active : Bool
  len_offset : ℕ
  len_size : ℕ

/-- `asn1_bitstring_t`. -/
structure Asn1Bitstring where
  active : Bool
  unused_bits_offset : ℕ
  used_bits : ℕ
  current_byte : u8

def Asn1Tag.null : Asn1Tag := ⟨false, 0, 0⟩
def Asn1Bitstring.null : Asn1Bitstring := ⟨false, 0, 0, 0⟩

/-- `RAISE_ASN1_ERROR`. -/
def Asn1State.raise (state : Asn1State) (error : RomError) : Asn1State := { state with error := error }

/-- `a - b` for two sizes. -/
def size_sub (a b : ℕ) : ℕ := (a + 2 ^ 32 - b) % 2 ^ 32

/-- The null buffer is `none`. -/
def asn1_start (buffer : Option Mem) (size : ℕ) : Except RomError Asn1State :=
  match buffer with
  | none => .error .kErrorAsn1StartInvalidArgument
  | some buffer =>
      if PTRDIFF_MAX < size then .error .kErrorAsn1StartInvalidArgument
      else .ok ⟨buffer, size, 0, .kErrorOk⟩

/-! ## Pushing bytes -/

def asn1_push_bytes (state : Asn1State) (bytes : List u8) : Asn1State :=
  if state.error ≠ .kErrorOk then state
  else if PTRDIFF_MAX < bytes.length ∨ PTRDIFF_MAX < state.offset then
    state.raise .kErrorAsn1PushBytesInvalidArgument
  else if state.size < state.offset + bytes.length then state.raise .kErrorAsn1BufferExhausted
  else
    { state with
      buffer := writeBytes state.buffer state.offset bytes
      offset := state.offset + bytes.length }

def asn1_push_byte (state : Asn1State) (byte : u8) : Asn1State := asn1_push_bytes state [byte]

/-! ## Tags -/

/-- What the memory of a tag holds before it is written is taken to be 0. It does not
matter: where the source leaves it, the state has an error. -/
def asn1_start_tag (state : Asn1State) (id : u8) : Asn1State × Asn1Tag :=
  if state.error ≠ .kErrorOk then (state, .null)
  else
    let state := asn1_push_byte state id
    if state.error ≠ .kErrorOk then (state, ⟨true, 0, 0⟩)
    else
      let len_offset := state.offset
      let state := asn1_push_byte state 0
      if state.error ≠ .kErrorOk then (state, ⟨true, len_offset, 0⟩)
      else (state, ⟨true, len_offset, 1⟩)

/-- The number of bytes that a length takes. -/
def final_len_size (length : ℕ) : Option ℕ :=
  if length ≤ 0x7f then some 1
  else if length ≤ 0xff then some 2
  else if length ≤ 0xffff then some 3
  else none

/-- `n` steps of the loop that moves `length` bytes backwards from `src` to `dst`. -/
def copy_backwards (buffer : Mem) (dst src length : ℕ) : ℕ → Mem
  | 0 => buffer
  | i + 1 =>
      let buffer := copy_backwards buffer dst src length i
      Function.update buffer (dst + length - 1 - i) (buffer (src + length - 1 - i))

/-- The bytes of a length that is not too large. -/
def len_octets (length : ℕ) : List u8 :=
  if length ≤ 0x7f then [BitVec.ofNat 8 length]
  else if length ≤ 0xff then [0x81, BitVec.ofNat 8 length]
  else [0x82, BitVec.ofNat 8 (length >>> 8), BitVec.ofNat 8 (length &&& 0xff)]

def asn1_finish_tag (state : Asn1State) (tag : Asn1Tag) : Asn1State × Asn1Tag :=
  if !tag.active then (state, tag)
  else if state.error ≠ .kErrorOk then (state, tag)
  else if tag.len_size ≠ 1 then (state.raise .kErrorAsn1Internal, tag)
  else
    let length := size_sub (size_sub state.offset tag.len_offset) tag.len_size
    match final_len_size length with
    | none => (state.raise .kErrorAsn1Internal, tag)
    | some final_len_size =>
        if tag.len_size ≠ final_len_size ∧
            state.size < state.offset + final_len_size - tag.len_size then
          (state.raise .kErrorAsn1BufferExhausted, tag)
        else
          let buffer :=
            if tag.len_size ≠ final_len_size then
              copy_backwards state.buffer (tag.len_offset + final_len_size)
                (tag.len_offset + tag.len_size) length length
            else state.buffer
          ({ state with
              buffer := writeBytes buffer tag.len_offset (len_octets length)
              offset := state.offset + (final_len_size - tag.len_size) },
            .null)

/-- The functions that push a tag with its contents. -/
def asn1_push_tag (state : Asn1State) (id : u8) (push : Asn1State → Asn1State) : Asn1State :=
  let (state, tag) := asn1_start_tag state id
  (asn1_finish_tag (push state) tag).1

def asn1_push_bool (state : Asn1State) (tag : u8) (value : Bool) : Asn1State :=
  asn1_push_tag state tag fun state => asn1_push_byte state (if value then 0xff else 0)

def asn1_push_oid_raw (state : Asn1State) (bytes : List u8) : Asn1State :=
  asn1_push_tag state kAsn1TagNumberOid fun state => asn1_push_bytes state bytes

/-! ## Integers -/

/-- Drop the first octet while it is `first` and the top bit of the second is `msb`. -/
def drop_octets (first msb : u8) : List u8 → List u8
  | a :: b :: bytes =>
      if a = first ∧ b >>> 7 = msb then drop_octets first msb (b :: bytes) else a :: b :: bytes
  | bytes => bytes

/-- The contents of an integer, of which the octets are not empty. -/
def asn1_push_integer_octets (state : Asn1State) (is_signed : Bool) (bytes_be : List u8) :
    Asn1State :=
  let bytes_be := drop_octets 0 0 bytes_be
  if is_signed then asn1_push_bytes state (drop_octets 0xff 1 bytes_be)
  else
    let state := if bytes_be.headD 0 >>> 7 = 1 then asn1_push_byte state 0 else state
    asn1_push_bytes state bytes_be

def asn1_push_integer (state : Asn1State) (tag : u8) (is_signed : Bool) (bytes_be : List u8) :
    Asn1State :=
  if state.error ≠ .kErrorOk then state
  else if bytes_be.length = 0 then state.raise .kErrorAsn1PushIntegerInvalidArgument
  else asn1_push_tag state tag fun state => asn1_push_integer_octets state is_signed bytes_be

/-- The octets of a word, the most significant first. -/
def bigint (value : u32) : List u8 :=
  [(value >>> 24).setWidth 8, ((value >>> 16) &&& 0xff).setWidth 8,
    ((value >>> 8) &&& 0xff).setWidth 8, (value &&& 0xff).setWidth 8]

def asn1_push_int32 (state : Asn1State) (tag : u8) (value : u32) : Asn1State :=
  asn1_push_integer state tag true (bigint value)

def asn1_push_uint32 (state : Asn1State) (tag : u8) (value : u32) : Asn1State :=
  asn1_push_integer state tag false (bigint value)

/-- The loop that outputs the padding. -/
def asn1_push_padding (state : Asn1State) (padding : u8) : ℕ → Asn1State
  | 0 => state
  | n + 1 => asn1_push_padding (asn1_push_byte state padding) padding n

def padding_byte (is_signed : Bool) (bytes_be : List u8) : u8 :=
  if is_signed ∧ bytes_be.headD 0 >>> 7 = 1 then 0xff else 0

def asn1_push_integer_pad (state : Asn1State) (is_signed : Bool) (bytes_be : List u8)
    (padded_size : ℕ) : Asn1State :=
  if state.error ≠ .kErrorOk then state
  else if bytes_be.length = 0 ∨ padded_size < bytes_be.length then
    state.raise .kErrorAsn1PushIntegerPadInvalidArgument
  else
    let state := asn1_push_padding state (padding_byte is_signed bytes_be)
      (padded_size - bytes_be.length)
    asn1_push_bytes state bytes_be

/-! ## Strings -/

/-- The loop over the characters of a string, which stops at the first 0. -/
def asn1_push_chars (state : Asn1State) (str : Mem) : ℕ → Asn1State
  | 0 => state
  | max_len + 1 =>
      if str 0 = 0 then state
      else asn1_push_chars (asn1_push_byte state (str 0)) (fun i => str (i + 1)) max_len

/-- `str` is the memory from the pointer on. -/
def asn1_push_string (state : Asn1State) (id : u8) (str : Mem) (max_len : ℕ) : Asn1State :=
  asn1_push_tag state id fun state => asn1_push_chars state str max_len

def kLowercaseHexChars : List u8 :=
  ['0', '1', '2', '3', '4', '5', '6', '7', '8', '9', 'a', 'b', 'c', 'd', 'e', 'f'].map fun c =>
    BitVec.ofNat 8 c.toNat

/-- The two characters of a byte. -/
def hex_chars (byte : u8) : List u8 :=
  [kLowercaseHexChars.getD (byte >>> 4).toNat 0, kLowercaseHexChars.getD (byte &&& 0xf).toNat 0]

def asn1_push_hex_chars (state : Asn1State) : List u8 → Asn1State
  | [] => state
  | byte :: bytes => asn1_push_hex_chars ((hex_chars byte).foldl asn1_push_byte state) bytes

def asn1_push_hexstring (state : Asn1State) (id : u8) (bytes : List u8) : Asn1State :=
  asn1_push_tag state id fun state => asn1_push_hex_chars state bytes

/-! ## Bit strings -/

def asn1_start_bitstring (state : Asn1State) : Asn1State × Asn1Bitstring :=
  if state.error ≠ .kErrorOk then (state, .null)
  else (asn1_push_byte state 0, ⟨true, state.offset, 0, 0⟩)

def asn1_bitstring_push_bit (state : Asn1State) (bitstring : Asn1Bitstring) (bit : Bool) :
    Asn1State × Asn1Bitstring :=
  if !bitstring.active then (state, bitstring)
  else if state.error ≠ .kErrorOk then (state, bitstring)
  else
    let current_byte :=
      if bit then bitstring.current_byte ||| 1#8 <<< (7 - bitstring.used_bits)
      else bitstring.current_byte
    let used_bits := bitstring.used_bits + 1
    if used_bits = 8 then
      (asn1_push_byte state current_byte, { bitstring with current_byte := 0, used_bits := 0 })
    else (state, { bitstring with current_byte := current_byte, used_bits := used_bits })

def asn1_finish_bitstring (state : Asn1State) (bitstring : Asn1Bitstring) :
    Asn1State × Asn1Bitstring :=
  if !bitstring.active then (state, bitstring)
  else if state.error ≠ .kErrorOk then (state, bitstring)
  else if 8 ≤ bitstring.used_bits then
    (state.raise .kErrorAsn1FinishBitstringInvalidArgument, { bitstring with active := false })
  else if bitstring.used_bits ≠ 0 then
    let state := asn1_push_byte state bitstring.current_byte
    -- The count is written even if there was no room for the last byte.
    ({ state with
        buffer := Function.update state.buffer bitstring.unused_bits_offset
          (8 - BitVec.ofNat 8 bitstring.used_bits) },
      { bitstring with active := false })
  else (state, { bitstring with active := false })

/-! ## Calls -/

/-- A call that stands for itself. -/
inductive Push where
  | byte (byte : u8)
  | bytes (bytes : List u8)
  | bool (tag : u8) (value : Bool)
  | int32 (tag : u8) (value : u32)
  | uint32 (tag : u8) (value : u32)
  | integer (tag : u8) (is_signed : Bool) (bytes_be : List u8)
  | integer_pad (is_signed : Bool) (bytes_be : List u8) (padded_size : ℕ)
  | oid_raw (bytes : List u8)
  | string (id : u8) (str : Mem) (max_len : ℕ)
  | hexstring (id : u8) (bytes : List u8)

def Push.run : Push → Asn1State → Asn1State
  | byte b, state => asn1_push_byte state b
  | bytes bs, state => asn1_push_bytes state bs
  | bool tag value, state => asn1_push_bool state tag value
  | int32 tag value, state => asn1_push_int32 state tag value
  | uint32 tag value, state => asn1_push_uint32 state tag value
  | integer tag is_signed bytes_be, state => asn1_push_integer state tag is_signed bytes_be
  | integer_pad is_signed bytes_be padded_size, state =>
      asn1_push_integer_pad state is_signed bytes_be padded_size
  | oid_raw bs, state => asn1_push_oid_raw state bs
  | string id str max_len, state => asn1_push_string state id str max_len
  | hexstring id bs, state => asn1_push_hexstring state id bs

inductive Call where
  | push (p : Push)
  | start_tag (id : u8)
  | finish_tag
  | start_bitstring
  | bitstring_push_bit (bit : Bool)
  | finish_bitstring

/-- The state of a builder and what its caller has under construction, the innermost tag
first. -/
structure Builder where
  state : Asn1State
  tags : List Asn1Tag
  bitstring : Asn1Bitstring

def Builder.call (b : Builder) : Call → Builder
  | .push p => { b with state := p.run b.state }
  | .start_tag id =>
      let (state, tag) := asn1_start_tag b.state id
      { b with state := state, tags := tag :: b.tags }
  | .finish_tag =>
      { b with state := (asn1_finish_tag b.state (b.tags.headD .null)).1, tags := b.tags.tail }
  | .start_bitstring =>
      let (state, bitstring) := asn1_start_bitstring b.state
      { b with state := state, bitstring := bitstring }
  | .bitstring_push_bit bit =>
      let (state, bitstring) := asn1_bitstring_push_bit b.state b.bitstring bit
      { b with state := state, bitstring := bitstring }
  | .finish_bitstring =>
      let (state, bitstring) := asn1_finish_bitstring b.state b.bitstring
      { b with state := state, bitstring := bitstring }

def Builder.run (b : Builder) (calls : List Call) : Builder := calls.foldl Builder.call b

/-- A builder on a fresh state. -/
def Builder.on (state : Asn1State) : Builder := ⟨state, [], .null⟩

/-! ## What is to be emitted -/

/-- A tree of tags, in the order in which it is emitted. -/
inductive Contents where
  | empty
  | push (p : Push) (rest : Contents)
  | bits (bits : List Bool) (rest : Contents)
  | tag (id : u8) (contents rest : Contents)

/-- The calls that emit it. -/
def Contents.calls : Contents → List Call
  | empty => []
  | push p rest => .push p :: rest.calls
  | bits bs rest =>
      .start_bitstring :: (bs.map .bitstring_push_bit ++ .finish_bitstring :: rest.calls)
  | tag id contents rest => .start_tag id :: (contents.calls ++ .finish_tag :: rest.calls)

/-- The octets of an integer that has to fill `padded_size` octets. -/
def padded_octets (is_signed : Bool) (bytes_be : List u8) (padded_size : ℕ) : List u8 :=
  List.replicate (padded_size - bytes_be.length) (padding_byte is_signed bytes_be) ++ bytes_be

/-- The characters of a string up to the first 0. -/
def c_string (str : Mem) (max_len : ℕ) : List u8 :=
  (readBytes str 0 max_len).takeWhile (· ≠ 0)

/-- The value of an integer. -/
def integer_value (is_signed : Bool) (bytes_be : List u8) : ℤ :=
  if is_signed then signedValue bytes_be else unsignedValue bytes_be

/-- The encoding of what is pushed. -/
def Push.der : Push → List u8
  | byte b => [b]
  | bytes bs => bs
  | bool tag value => tlv tag [if value then 0xff else 0]
  | int32 tag value => tlv tag (integerOctets value.toInt)
  | uint32 tag value => tlv tag (integerOctets value.toNat)
  | integer tag is_signed bytes_be => tlv tag (integerOctets (integer_value is_signed bytes_be))
  | integer_pad is_signed bytes_be padded_size => padded_octets is_signed bytes_be padded_size
  | oid_raw bs => tlv kAsn1TagNumberOid bs
  | string id str max_len => tlv id (c_string str max_len)
  | hexstring id bs => tlv id (bs.flatMap hex_chars)

/-- Whether there is an encoding, with a length that the builder can write. -/
def Push.Encodable : Push → Prop
  | integer _ is_signed bytes_be =>
      bytes_be ≠ [] ∧ (integerOctets (integer_value is_signed bytes_be)).length ≤ 65535
  | integer_pad _ bytes_be padded_size => bytes_be ≠ [] ∧ bytes_be.length ≤ padded_size
  | oid_raw bs => bs.length ≤ 65535
  | string _ str max_len => (c_string str max_len).length ≤ 65535
  | hexstring _ bs => (bs.flatMap hex_chars).length ≤ 65535
  | _ => True

def Contents.der : Contents → List u8
  | empty => []
  | push p rest => p.der ++ rest.der
  | bits bs rest => bitOctets bs ++ rest.der
  | tag id contents rest => tlv id contents.der ++ rest.der

def Contents.Encodable : Contents → Prop
  | empty => True
  | push p rest => p.Encodable ∧ rest.Encodable
  | bits _ rest => rest.Encodable
  | tag _ contents rest =>
      (contents.Encodable ∧ contents.der.length ≤ 65535) ∧ rest.Encodable

end IbexFirmware.Asn1
