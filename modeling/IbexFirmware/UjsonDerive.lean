/-
The deserializers that `ujson_derive.h` makes out of a declaration.

A declaration is data here, and the macros are functions of it: `Fields` is the list of
`field` and `string` lines of a struct, `Ty` is what a `field` line may name. A struct
lies in memory as the compiler lays it out, each field at its own alignment, and the
reader walks that memory with the running pointer `p` of the macros.

With no dimensions a `field` or `string` line is the body of the loop macros without a
loop, which is what `de_loop` is at `[]`.
-/
import IbexFirmware.UjsonText

set_option autoImplicit false

namespace IbexFirmware.Json

open Bytes PowerFail Session

/-! ## Declarations -/

/-- The types that `ujson.c` has functions for. -/
inductive Scalar where
  | uint64_t
  | uint32_t
  | uint16_t
  | uint8_t
  | size_t
  | int64_t
  | int32_t
  | int16_t
  | int8_t
  | bool
  deriving DecidableEq

def Scalar.size : Scalar → ℕ
  | .uint64_t => 8
  | .uint32_t => 4
  | .uint16_t => 2
  | .uint8_t => 1
  | .size_t => 4
  | .int64_t => 8
  | .int32_t => 4
  | .int16_t => 2
  | .int8_t => 1
  | .bool => 1

/-- `UJSON_SERDE_ENUM`: the enumerators with the values C gives them. -/
structure EnumDecl where
  enumerators : List (List u8 × u32)
  with_unknown : Bool

mutual

inductive Ty where
  | scalar (s : Scalar)
  | enum (e : EnumDecl)
  | struct (fields : Fields)

/-- The lines `field(name, type, dims...)` and `string(name, size, dims...)`. -/
inductive Fields where
  | nil
  | field (name : List u8) (type : Ty) (dims : List ℕ) (rest : Fields)
  | string (name : List u8) (size : ℕ) (dims : List ℕ) (rest : Fields)

end

def align_up (align n : ℕ) : ℕ := (n + align - 1) / align * align

mutual

def Ty.align : Ty → ℕ
  | .scalar s => s.size
  | .enum _ => 4
  | .struct fields => fields.align

def Fields.align : Fields → ℕ
  | .nil => 1
  | .field _ type _ rest => max type.align rest.align
  | .string _ _ _ rest => rest.align

end

mutual

/-- `sizeof`. -/
def Ty.size : Ty → ℕ
  | .scalar s => s.size
  | .enum _ => 4
  | .struct fields => align_up fields.align (fields.extent 0)

/-- Where the fields end, the first being laid out from offset `off` on. -/
def Fields.extent : Fields → ℕ → ℕ
  | .nil, off => off
  | .field _ type dims rest, off =>
      rest.extent (align_up type.align off + type.size * dims.prod)
  | .string _ size dims rest, off => rest.extent (off + size * dims.prod)

end

/-! ## Values in memory -/

/-- The bytes of an integer, least significant first. -/
def load_bytes : List u8 → u64
  | [] => 0
  | b :: bytes => load_bytes bytes <<< 8 ||| b.setWidth 64

/-- The integer of `n` bytes at `p`, widened with zeros or with its sign. -/
def load (n : ℕ) (signed : Bool) (m : Mem) (p : ℕ) : u64 :=
  let value := load_bytes (readBytes m p n)
  if signed then (value.setWidth (8 * n)).signExtend 64 else value

/-- The low `n` bytes of `value`. -/
def bytes_of (n : ℕ) (value : u64) : List u8 :=
  (List.range n).map fun i => value.extractLsb' (8 * i) 8

def store (p : ℕ) (bytes : List u8) : Uj Unit :=
  Proc.modify fun uj => { uj with target := uj.target.store p bytes }

/-! ## Deserialization -/

/-- `RUST_ENUM_INTVALUE_STR`. -/
def RUST_ENUM_INTVALUE : List u8 := text "IntValue"

/-- `ujson_deserialize_uint64_t` and its siblings. -/
def Scalar.deserialize (s : Scalar) (p : ℕ) : Uj Unit :=
  match s with
  | .bool => do
      let value ← ujson_deserialize_bool
      store p [if value then 1 else 0]
  | s => do
      let value ← ujson_parse_integer
      store p (bytes_of s.size value)

/-- `UJSON_IMPL_DESERIALIZE_ENUM`; `self` takes the value. -/
def deserialize_enum {α : Type} (enumerators : List (List u8 × u32)) (self : u32 → Uj α) :
    Uj α := do
  if ← ujson_consume_maybe (chr '"') then do
    ujson_ungetc (chr '"')
    let value ← ujson_parse_qs on_stack 128
    match enumerators.find? fun x => ujson_streq value x.1 with
    | some (_, v) => self v
    | none => Proc.throw .kInvalidArgument
  else if ← ujson_consume_maybe (chr '{') then do
    let value ← ujson_parse_qs on_stack 128
    ujson_consume (chr ':')
    if ujson_streq value RUST_ENUM_INTVALUE then do
      let v ← ujson_deserialize_uint32_t
      let r ← self v
      ujson_consume (chr '}')
      pure r
    else Proc.throw .kInvalidArgument
  else do
    let v ← ujson_deserialize_uint32_t
    self v

def EnumDecl.deserialize (e : EnumDecl) (p : ℕ) : Uj Unit :=
  deserialize_enum e.enumerators fun v => store p (bytes_of 4 (v.setWidth 64))

/-- The comma in front of every element but the first. -/
def consume_comma (x : ℕ) : Uj Unit := if x ≠ 0 then ujson_consume (chr ',') else pure ()

/-- A round of the inner loop of `ujson_de_loop`, with its `i` and `p`. -/
def de_element (expr : ℕ → Uj ℕ) (count : ℕ) : ℕ × ℕ → Uj ((ℕ × ℕ) ⊕ (ℕ × ℕ))
  | (i, p) => do
      if ← ujson_consume_maybe (chr ']') then pure (.inr (i, p))
      else do
        consume_comma i
        if i < count then do
          let p ← expr p
          pure (.inl (i + 1, p))
        else pure (.inl (i, p))

/-- A round of an outer loop of `ujson_de_loop`, with its `x` and `p`. -/
def de_row (row : ℕ → Uj ℕ) : ℕ × ℕ → Uj ((ℕ × ℕ) ⊕ ℕ)
  | (x, p) => do
      if ← ujson_consume_maybe (chr ']') then pure (.inr p)
      else do
        consume_comma x
        let p ← row p
        pure (.inl (x + 1, p))

/-- `ujson_de_loop`. Only the innermost level knows its count. The pointer and `mult` are
in bytes. -/
def de_loop (mult : ℕ) (expr : ℕ → Uj ℕ) : List ℕ → ℕ → Uj ℕ
  | [], p => expr p
  | [count], p => do
      ujson_consume (chr '[')
      let uj ← Proc.get
      let (i, p) ← loop (de_element expr count) (budget uj) (0, p)
      pure (p + (count - i) * mult)
  | _ :: d :: dims, p => do
      ujson_consume (chr '[')
      let uj ← Proc.get
      loop (de_row (de_loop mult expr (d :: dims))) (budget uj) (0, p)

/-- The field whose key was read, for the record of the target. -/
def enter (field : Extent) : Uj Unit :=
  Proc.modify fun uj => { uj with target := { uj.target with field := field } }

/-- `ujson_de_field` and `ujson_de_string`: with `name`, `value` is read into `field`,
else it is the turn of the lines behind. -/
def de_line (key name : List u8) (field : Extent) (value : Uj ℕ) (rest : Uj Unit) : Uj Unit :=
  if ujson_streq key name then do
    enter field
    let _ ← value
    pure ()
  else rest

/-- A round of the loop of `UJSON_IMPL_DESERIALIZE_STRUCT`, with its `nfield`. -/
def struct_round (lines : List u8 → Uj Unit) (nfield : ℕ) : Uj (ℕ ⊕ Unit) := do
  if ← ujson_consume_maybe (chr '}') then pure (.inr ())
  else do
    consume_comma nfield
    let key ← ujson_parse_qs on_stack 128
    ujson_consume (chr ':')
    lines key
    pure (.inl (nfield + 1))

/-- `UJSON_IMPL_DESERIALIZE_STRUCT`. -/
def deserialize_struct (lines : List u8 → Uj Unit) : Uj Unit := do
  ujson_consume (chr '{')
  let uj ← Proc.get
  loop (struct_round lines) (budget uj) 0

mutual

/-- `ujson_deserialize_##type_`. -/
def Ty.deserialize : Ty → ℕ → Uj Unit
  | .scalar s, p => s.deserialize p
  | .enum e, p => e.deserialize p
  | .struct fields, self => deserialize_struct fun key => fields.lines key self 0

/-- The chain of comparisons with the names of the fields. -/
def Fields.lines : Fields → List u8 → ℕ → ℕ → Uj Unit
  | .nil, _, _, _ => Proc.throw .kInvalidArgument
  | .field name type dims rest, key, self, off =>
      de_line key name ⟨self + align_up type.align off, type.size * dims.prod⟩
        (de_loop type.size (fun p => do type.deserialize p; pure (p + type.size)) dims
          (self + align_up type.align off))
        (rest.lines key self (align_up type.align off + type.size * dims.prod))
  | .string name size dims rest, key, self, off =>
      de_line key name ⟨self + off, size * dims.prod⟩
        (de_loop size
          (fun p => do
            -- The length is that of the whole field, whatever its dimensions.
            let _ ← ujson_parse_qs (at_address p) (size * dims.prod)
            pure (p + size))
          dims (self + off))
        (rest.lines key self (off + size * dims.prod))

end

/-! ## An enumerator read back -/

variable {s₀ s : Ujson} {ahead : List u8} {t : Target}

/-- The written name of an enumerator goes through the chain of comparisons. -/
theorem deserialize_enum_name {α : Type} {enumerators : List (List u8 × u32)} {self : u32 → Uj α}
    {name : List u8} {Q : α → Ujson → Prop} {E : AbslStatus → Ujson → Prop} {H : Ujson → Prop}
    (hlen : name.length < 128) (h : Reads s₀ (quoted name ++ ahead) t s)
    (hself : ∀ s', ReadTo s₀ ahead t s' →
      Leaves (match enumerators.find? fun x => ujson_streq name x.1 with
        | some (_, v) => self v
        | none => Proc.throw .kInvalidArgument) s' Q E H) :
    Leaves (deserialize_enum enumerators self) s Q E H := by
  refine Leaves.bind (Returns.leaves (consume_maybe_reads h (by decide))) ?_
  rintro _ s₁ ⟨rfl, h₁⟩
  refine Leaves.bind (Returns.leaves (ungetc_reads h₁)) ?_
  intro _ s₂ h₂
  refine Leaves.bind (Returns.leaves (parse_qs_reads hlen h₂)) ?_
  rintro _ s₃ ⟨rfl, h₃⟩
  rw [fill_on_stack] at h₃
  exact hself s₃ h₃

end IbexFirmware.Json
