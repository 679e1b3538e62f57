/-
The console JSON codec (`ujson.c`): one context, a reader of single characters with one
character of pushback, and a writer.

The context is explicit state and a function of the source is a program over it. What
`self` points into is the context's `target`: a memory, and with it the record of every
byte stored there, next to the field whose key the reader had just matched. The record
is not in the source; it is what "writes only inside the field" is said about.

A loop of the source is `Session.loop`, bounded by `budget`. Every round of every loop
takes a character from the input, so that the bound is not met before the input ends.
-/
import IbexFirmware.Crc32
import IbexFirmware.Lib.Session

set_option autoImplicit false

namespace IbexFirmware.Json

open Bytes Crc32 PowerFail Session

/-! ## The context -/

/-- The codes of `absl_status.h` that the codec returns. -/
inductive AbslStatus where
  | kInvalidArgument
  | kNotFound
  | kResourceExhausted
  | kFailedPrecondition
  | kOutOfRange
  deriving DecidableEq

/-- Where an object lies. -/
structure Extent where
  start : ℕ
  size : ℕ
  deriving DecidableEq

/-- The memory that `self` points into, the field whose key was read last, and for each
byte stored the field and the address. -/
structure Target where
  mem : Mem
  field : Extent
  writes : List (Extent × ℕ)

/-- Store bytes in the memory. -/
def Target.store (t : Target) (p : ℕ) (bytes : List u8) : Target :=
  { t with
    mem := writeBytes t.mem p bytes
    writes := t.writes ++ (List.range bytes.length).map fun i => (t.field, p + i) }

/-- `ujson_t`. The console callbacks are the characters they have still to deliver and
those they were given. -/
structure Ujson where
  input : List u8
  buffer : Option u8
  crc32 : u32
  output : List u8
  target : Target

abbrev Uj (α : Type) : Type := Proc Ujson AbslStatus α

/-- What bounds a loop that takes a character in every round. -/
def budget (uj : Ujson) : ℕ := uj.input.length + 2

/-- `UJSON_INIT`. -/
def ujson_init (input : List u8) (target : Target) : Ujson :=
  { input := input, buffer := none, crc32 := crc32_init, output := [], target := target }

/-! ## Characters -/

def chr (c : Char) : u8 := BitVec.ofNat 8 c.toNat

def text (s : String) : List u8 := s.toList.map chr

def is_space (c : u8) : Bool :=
  c == chr ' ' || ('\t'.toNat ≤ c.toNat && c.toNat < '\t'.toNat + 5)

def is_digit (c : u8) : Bool := '0'.toNat ≤ c.toNat && c.toNat ≤ '9'.toNat

/-- Whether two strings are the same up to their terminators; the lists are what is in
front of the end of the arrays. -/
def ujson_streq : List u8 → List u8 → Bool
  | [], [] => true
  | a :: _, [] => a == 0
  | [], b :: _ => b == 0
  | a :: as, b :: bs => if a ≠ 0 ∧ b ≠ 0 ∧ a = b then ujson_streq as bs else a == b

/-! ## Single characters in and out -/

/-- The buffer may lie anywhere, which `crc32_add_eq` says makes no difference. -/
def ujson_putbuf (buf : List u8) : Uj Unit :=
  Proc.modify fun uj =>
    { uj with output := uj.output ++ buf, crc32 := crc32_add uj.crc32 0 buf }

/-- The callback at the end of the input returns an error. -/
def ujson_getc : Uj u8 := do
  let uj ← Proc.get
  match uj.buffer with
  | some ch => do
      Proc.modify fun uj => { uj with buffer := none }
      pure ch
  | none =>
      match uj.input with
      | [] => Proc.throw .kResourceExhausted
      | ch :: rest => do
          Proc.modify fun uj => { uj with input := rest, crc32 := crc32_add8 uj.crc32 ch }
          pure ch

def ujson_ungetc (ch : u8) : Uj Unit := do
  let uj ← Proc.get
  if uj.buffer.isSome then Proc.throw .kFailedPrecondition
  else Proc.modify fun uj => { uj with buffer := some ch }

/-- Consumes whitespace returning the first character that is none. -/
def consume_whitespace : Uj u8 := do
  let uj ← Proc.get
  loop (fun _ => do
    let ch ← ujson_getc
    pure (if is_space ch then .inl () else .inr ch)) (budget uj) ()

/-- The value of a hexadecimal digit. -/
def hexdigit (ch : u8) : Option u32 :=
  if '0'.toNat ≤ ch.toNat ∧ ch.toNat ≤ '9'.toNat then
    some (ch.setWidth 32 - (chr '0').setWidth 32)
  else if 'A'.toNat ≤ ch.toNat ∧ ch.toNat ≤ 'F'.toNat then
    some (ch.setWidth 32 - (chr 'A').setWidth 32 + 10)
  else if 'a'.toNat ≤ ch.toNat ∧ ch.toNat ≤ 'f'.toNat then
    some (ch.setWidth 32 - (chr 'a').setWidth 32 + 10)
  else none

def consume_hexdigit : Uj u32 := do
  let ch ← ujson_getc
  match hexdigit ch with
  | some d => pure d
  | none => Proc.throw .kOutOfRange

def consume_hex : Uj u32 := do
  let a ← consume_hexdigit
  let b ← consume_hexdigit
  let c ← consume_hexdigit
  let d ← consume_hexdigit
  pure (a <<< 12 ||| b <<< 8 ||| c <<< 4 ||| d)

def ujson_consume (ch : u8) : Uj Unit := do
  let got ← consume_whitespace
  if ch ≠ got then Proc.throw .kNotFound else pure ()

/-- The result of the pushback is dropped. -/
def ujson_consume_maybe (ch : u8) : Uj Bool := do
  let got ← consume_whitespace
  if ch ≠ got then do
    let _ ← Proc.attempt (ujson_ungetc got)
    pure false
  else pure true

/-! ## Strings -/

/-- What follows a backslash, but for a code point. -/
def simple_escape (ch : u8) : Option u8 :=
  if ch = chr '"' ∨ ch = chr '\\' ∨ ch = chr '/' then some ch
  else if ch = chr 'b' then some 0x08
  else if ch = chr 'f' then some 0x0c
  else if ch = chr 'n' then some 0x0a
  else if ch = chr 'r' then some 0x0d
  else if ch = chr 't' then some 0x09
  else none

/-- A character of a string, `ch` being its first. -/
def unescape (ch : u8) : Uj u8 :=
  if ch = chr '\\' then do
    let ch ← ujson_getc
    match simple_escape ch with
    | some ch => pure ch
    | none =>
        if ch = chr 'u' then do
          let code ← consume_hex
          pure (code.setWidth 8)
        else Proc.throw .kOutOfRange
  else pure ch

/-- What `str` of `ujson_parse_qs` points at: what storing a character there does. -/
abbrev Dest : Type := ℕ → u8 → Target → Target

/-- A buffer on the stack. What it holds is what the function returns. -/
def on_stack : Dest := fun _ _ t => t

/-- A buffer in the memory. -/
def at_address (p : ℕ) : Dest := fun i ch t => t.store (p + i) [ch]

def put (str : Dest) (i : ℕ) (ch : u8) : Uj Unit :=
  Proc.modify fun uj => { uj with target := str i ch uj.target }

/-- A round of `ujson_parse_qs`: `n` has room for `len` characters and holds `n`. -/
def qs_round (str : Dest) (len : ℕ) (n : List u8) : Uj (List u8 ⊕ List u8) := do
  let ch ← ujson_getc
  if ch = chr '"' then pure (.inr n)
  else do
    let ch ← unescape ch
    if n.length < len then do
      put str n.length ch
      pure (.inl (n ++ [ch]))
    else pure (.inl n)

/-- Read a string into a buffer of `len` characters, of which one is for the terminator.
What comes back is what the buffer holds in front of it. -/
def ujson_parse_qs (str : Dest) (len : ℕ) : Uj (List u8) := do
  ujson_consume (chr '"')
  let uj ← Proc.get
  let n ← loop (qs_round str (len - 1)) (budget uj) []
  put str n.length 0
  pure n

def hex : List u8 := text "0123456789abcdef"

/-- What `ujson_serialize_string` puts for a character. -/
def escaped (ch : u8) : List u8 :=
  if ch.toNat < 0x20 ∨ ch = chr '"' ∨ ch = chr '\\' ∨ 0x7f ≤ ch.toNat then
    if ch = chr '"' then [chr '\\', chr '"']
    else if ch = chr '\\' then [chr '\\', chr '\\']
    else if ch = 0x08 then [chr '\\', chr 'b']
    else if ch = 0x0c then [chr '\\', chr 'f']
    else if ch = 0x0a then [chr '\\', chr 'n']
    else if ch = 0x0d then [chr '\\', chr 'r']
    else if ch = 0x09 then [chr '\\', chr 't']
    else [chr '\\', chr 'u', chr '0', chr '0', hex.getD (ch.toNat / 16) 0,
      hex.getD (ch.toNat % 16) 0]
  else [ch]

/-! ## Numbers -/

def UINT64_MAX : ℕ := 2 ^ 64 - 1

/-- A round of `ujson_parse_integer`. A character that could not be read ends the number
like one that is no digit, but there is then none to push back. -/
def integer_round : ℕ × u8 → Uj ((ℕ × u8) ⊕ (ℕ × Option u8))
  | (value, ch) =>
      if is_digit ch then
        if UINT64_MAX / 10 < value then Proc.throw .kOutOfRange
        else if UINT64_MAX - (ch.toNat - '0'.toNat) < value * 10 then Proc.throw .kOutOfRange
        else do
          let s ← Proc.attempt ujson_getc
          match s with
          | .ok ch' => pure (.inl (value * 10 + (ch.toNat - '0'.toNat), ch'))
          | .error _ => pure (.inr (value * 10 + (ch.toNat - '0'.toNat), none))
      else pure (.inr (value, some ch))

/-- The digits of a number, `ch` being the first. -/
def parse_digits (ch : u8) : Uj ℕ :=
  if is_digit ch then do
    let uj ← Proc.get
    let value ← loop integer_round (budget uj) (0, ch)
    match value.2 with
    | some ch => ujson_ungetc ch
    | none => pure ()
    pure value.1
  else Proc.throw .kNotFound

/-- The value whose low bytes are copied to `result`. -/
def ujson_parse_integer : Uj u64 := do
  let ch ← consume_whitespace
  if ch = chr '-' then do
    let ch ← ujson_getc
    let value ← parse_digits ch
    if 2 ^ 63 < value then Proc.throw .kOutOfRange
    else pure (-BitVec.ofNat 64 value)
  else do
    let value ← parse_digits ch
    pure (BitVec.ofNat 64 value)

def ujson_deserialize_bool : Uj Bool := do
  let got ← consume_whitespace
  if got = chr 't' then do
    ujson_consume (chr 'r')
    ujson_consume (chr 'u')
    ujson_consume (chr 'e')
    pure true
  else if got = chr 'f' then do
    ujson_consume (chr 'a')
    ujson_consume (chr 'l')
    ujson_consume (chr 's')
    ujson_consume (chr 'e')
    pure false
  else do
    let _ ← Proc.attempt (ujson_ungetc got)
    Proc.throw .kNotFound

def digit (d : ℕ) : u8 := BitVec.ofNat 8 ('0'.toNat + d)

/-- The low 32 bits of the integer. -/
def ujson_deserialize_uint32_t : Uj u32 := do
  let value ← ujson_parse_integer
  pure (value.setWidth 32)

end IbexFirmware.Json
