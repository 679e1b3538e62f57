/-
Status values and their way over the console: `status_create` packs a code, a module
identifier and an argument into 32 bits, `write_status` prints them as JSON, and
`ujson_deserialize_status_t` makes the value again.
-/
import IbexFirmware.UjsonDerive

set_option autoImplicit false

namespace IbexFirmware.Json

open Bytes PowerFail Session

/-! ## Bit fields -/

/-- `bitfield_field32_t`. -/
structure BitfieldField32 where
  mask : u32
  index : ℕ

def bitfield_field32_read (bitfield : u32) (field : BitfieldField32) : u32 :=
  bitfield >>> field.index &&& field.mask

def bitfield_field32_write (bitfield : u32) (field : BitfieldField32) (value : u32) : u32 :=
  (bitfield &&& ~~~(field.mask <<< field.index)) ||| (value &&& field.mask) <<< field.index

def bitfield_bit32_write (bitfield : u32) (bit_index : ℕ) (value : Bool) : u32 :=
  bitfield_field32_write bitfield ⟨0x1, bit_index⟩ (if value then 1 else 0)

/-! ## Status values -/

def STATUS_FIELD_CODE : BitfieldField32 := ⟨0x1f, 0⟩
def STATUS_FIELD_ARG : BitfieldField32 := ⟨0x7ff, 5⟩
def STATUS_FIELD_MODULE_ID : BitfieldField32 := ⟨0x7fff, 16⟩
def STATUS_BIT_ERROR : ℕ := 31

def kOk : u32 := 0

def ASCII_5BIT (v : u8) : u32 :=
  if '@'.toNat ≤ v.toNat ∧ v.toNat ≤ '_'.toNat then v.setWidth 32 - (chr '@').setWidth 32
  else if '`'.toNat ≤ v.toNat ∧ v.toNat ≤ 'z'.toNat then
    v.setWidth 32 - (chr '`').setWidth 32
  else (chr '_').setWidth 32 - (chr '@').setWidth 32

def MAKE_MODULE_ID (a b c : u8) : u32 :=
  ASCII_5BIT a <<< 16 ||| ASCII_5BIT b <<< 21 ||| ASCII_5BIT c <<< 26

/-- The last component of a path. -/
def basename (file : List u8) : List u8 :=
  (file.reverse.takeWhile fun c => c != chr '/' && c != chr '\\').reverse

/-- The module identifier that a file name stands for. -/
def file_module_id (file : List u8) : u32 :=
  match basename file with
  | f0 :: f1 :: f2 :: _ => MAKE_MODULE_ID f0 f1 f2
  | _ => MAKE_MODULE_ID (chr 'u') (chr 'n') (chr 'd')

/-- The line of the assignment to `arg` in `status_create`. -/
def negative_ok_line : u32 := 36

/-- The packed value of an error. -/
def status_error (code module_id arg : u32) : u32 :=
  module_id ||| bitfield_bit32_write 0 STATUS_BIT_ERROR true
    ||| bitfield_field32_write 0 STATUS_FIELD_CODE code
    ||| bitfield_field32_write 0 STATUS_FIELD_ARG arg

def status_create (code module_id : u32) (file : List u8) (arg : u32) : u32 :=
  if code = kOk ∧ arg.msb = false then arg
  else
    status_error code (if module_id = 0 then file_module_id file else module_id)
      (if code = kOk then negative_ok_line else arg)

def status_err (s : u32) : u32 :=
  if s.msb then bitfield_field32_read s STATUS_FIELD_CODE else kOk

/-- `status_codes`. The last name is for an error whose code says that there is none. -/
def status_codes : List (List u8) :=
  ["Ok", "Cancelled", "Unknown", "InvalidArgument", "DeadlineExceeded", "NotFound",
    "AlreadyExists", "PermissionDenied", "ResourceExhausted", "FailedPrecondition", "Aborted",
    "OutOfRange", "Unimplemented", "Internal", "Unavailable", "DataLoss", "Unauthenticated",
    "Undefined17", "Undefined18", "Undefined19", "Undefined20", "Undefined21", "Undefined22",
    "Undefined23", "Undefined24", "Undefined25", "Undefined26", "Undefined27", "Undefined28",
    "Undefined29", "Undefined30", "Undefined31", "ErrorError"].map text

/-- The parts of a status: the name of its code, its argument, and, of an error, the
characters of its module. -/
structure StatusParts where
  code : List u8
  arg : u32
  mod_id : Option (u8 × u8 × u8)

/-- Five bits of a module identifier, as a character. -/
def module_char (module_id : u32) (shift : ℕ) : u8 :=
  chr '@' + (module_id >>> shift &&& 0x1f).setWidth 8

def status_extract (s : u32) : StatusParts :=
  let err := if s.msb ∧ status_err s = 0 then status_codes.length - 1 else (status_err s).toNat
  let code := status_codes.getD err []
  if err ≠ 0 then
    let module_id := bitfield_field32_read s STATUS_FIELD_MODULE_ID
    ⟨code, bitfield_field32_read s STATUS_FIELD_ARG,
      some (module_char module_id 0, module_char module_id 5, module_char module_id 10)⟩
  else ⟨code, s, none⟩

/-! ## Printing -/

def kDigitsLow : List u8 := text "0123456789abcdef"

/-- The `while` loop of `write_digits` over its buffer, which fills from the end. -/
def write_digits_loop (base : ℕ) (glyphs : List u8) : ℕ → ℕ → List u8 → List u8
  | 0, _, buffer => buffer
  | n + 1, value, buffer =>
      if value > 0 then
        write_digits_loop base glyphs n (value / base) (glyphs.getD (value % base) 0 :: buffer)
      else buffer

/-- `kWordBits` is the length of the buffer. -/
def write_digits (sink : List u8 → Uj Unit) (value : u32) (width : ℕ) (padding : u8) (base : ℕ)
    (glyphs : List u8) : Uj Unit :=
  let kWordBits := 32
  let buffer :=
    write_digits_loop base glyphs kWordBits value.toNat
      (if value = 0 then [glyphs.getD 0 0] else [])
  let width := if width = 0 then 1 else if kWordBits < width then kWordBits else width
  sink (List.replicate (width - buffer.length) padding ++ buffer)

/-- A character of the module, for a JSON string. -/
def write_module_char (sink : List u8 → Uj Unit) (c : u8) : Uj Unit :=
  if c = chr '\\' then sink [chr '\\', chr '\\'] else sink [c]

/-- What `write_status` puts behind the colon. -/
def write_status_value (sink : List u8 → Uj Unit) (parts : StatusParts) : Uj Unit :=
  match parts.mod_id with
  | some (m0, m1, m2) => do
      sink [chr '[', chr '"']
      write_module_char sink m0
      write_module_char sink m1
      write_module_char sink m2
      sink [chr '"', chr ',']
      write_digits sink parts.arg 0 0 10 kDigitsLow
      sink [chr ']']
  | none => write_digits sink parts.arg 0 0 10 kDigitsLow

def write_status (sink : List u8 → Uj Unit) (value : u32) (as_json : Bool) : Uj Unit := do
  let parts := status_extract value
  sink (if as_json then [chr '{', chr '"'] else [])
  sink parts.code
  sink (if as_json then [chr '"'] else [])
  sink [chr ':']
  write_status_value sink parts
  sink (if as_json then [chr '}'] else [])

/-! ## Over the console -/

/-- The format is `"%!r"`, a status as JSON. -/
def ujson_serialize_status_t (value : u32) : Uj Unit := write_status ujson_putbuf value true

/-- `ENUM_PRIVATE_STATUS`. -/
def private_status : List (List u8 × u32) :=
  (["Ok", "Cancelled", "Unknown", "InvalidArgument", "DeadlineExceeded", "NotFound",
    "AlreadyExists", "PermissionDenied", "ResourceExhausted", "FailedPrecondition", "Aborted",
    "OutOfRange", "Unimplemented", "Internal", "Unavailable", "DataLoss",
    "Unauthenticated"].zipIdx).map fun x => (text x.1, BitVec.ofNat 32 x.2)

def ujson_deserialize_private_status_t : Uj u32 := deserialize_enum private_status pure

/-- `__FILE__` of `ujson.c`. -/
def ujson_c : List u8 := text "sw/device/lib/ujson/ujson.c"

/-- The characters behind the colon: the module identifier, zero when there is none, and
the argument. What the array `module` held before is `junk`. -/
def status_body (junk : ℕ → u8) : Uj (u32 × u32) := do
  if ← ujson_consume_maybe (chr '[') then do
    let str ← ujson_parse_qs on_stack 4
    let mod := fun i => (str ++ [0]).getD i (junk i)
    ujson_consume (chr ',')
    let arg ← ujson_deserialize_uint32_t
    ujson_consume (chr ']')
    pure (MAKE_MODULE_ID (mod 0) (mod 1) (mod 2), arg)
  else do
    let arg ← ujson_deserialize_uint32_t
    pure (0, arg)

def ujson_deserialize_status_t (junk : ℕ → u8) : Uj u32 := do
  ujson_consume (chr '{')
  let code ← ujson_deserialize_private_status_t
  ujson_consume (chr ':')
  let (module_id, arg) ← status_body junk
  ujson_consume (chr '}')
  pure (status_create code module_id ujson_c arg)

/-! ## The fields of a packed value -/

/-- The module field that three characters of five bits make. -/
def packed_module (x y z : BitVec 5) : u32 :=
  x.setWidth 32 <<< 16 ||| y.setWidth 32 <<< 21 ||| z.setWidth 32 <<< 26

theorem ascii_5bit_eq : ∀ v : u8, ASCII_5BIT v = ((ASCII_5BIT v).setWidth 5).setWidth 32 := by
  decide

theorem make_module_id_eq (a b c : u8) :
    MAKE_MODULE_ID a b c = packed_module ((ASCII_5BIT a).setWidth 5) ((ASCII_5BIT b).setWidth 5)
      ((ASCII_5BIT c).setWidth 5) := by
  rw [packed_module, ← ascii_5bit_eq, ← ascii_5bit_eq, ← ascii_5bit_eq]
  rfl

theorem file_module_id_packed (file : List u8) :
    ∃ x y z, file_module_id file = packed_module x y z := by
  unfold file_module_id
  split
  · exact ⟨_, _, _, make_module_id_eq _ _ _⟩
  · exact ⟨_, _, _, make_module_id_eq _ _ _⟩

section fields

variable (x y z : BitVec 5) (code arg : u32)

theorem status_error_eq (module_id : u32) :
    status_error code module_id arg =
      module_id ||| 0x80000000 ||| (code &&& 0x1f) ||| (arg &&& 0x7ff) <<< 5 := by
  simp [status_error, bitfield_bit32_write, bitfield_field32_write, STATUS_BIT_ERROR,
    STATUS_FIELD_CODE, STATUS_FIELD_ARG]

theorem status_error_msb (module_id : u32) :
    (status_error code module_id arg).msb = true := by
  simp [status_error_eq, BitVec.msb_eq_getLsbD_last]

theorem status_error_code :
    status_err (status_error code (packed_module x y z) arg) = code &&& 0x1f := by
  rw [status_err, if_pos (status_error_msb _ _ _), status_error_eq]
  apply BitVec.eq_of_getLsbD_eq
  intro i hi
  interval_cases i <;> simp [bitfield_field32_read, STATUS_FIELD_CODE, packed_module]

theorem status_error_arg :
    bitfield_field32_read (status_error code (packed_module x y z) arg) STATUS_FIELD_ARG =
      arg &&& 0x7ff := by
  rw [status_error_eq]
  apply BitVec.eq_of_getLsbD_eq
  intro i hi
  interval_cases i <;> simp [bitfield_field32_read, STATUS_FIELD_ARG, packed_module]

theorem status_error_module :
    bitfield_field32_read (status_error code (packed_module x y z) arg) STATUS_FIELD_MODULE_ID =
      x.setWidth 32 ||| y.setWidth 32 <<< 5 ||| z.setWidth 32 <<< 10 := by
  rw [status_error_eq]
  apply BitVec.eq_of_getLsbD_eq
  intro i hi
  interval_cases i <;> simp [bitfield_field32_read, STATUS_FIELD_MODULE_ID, packed_module]

/-- Writing a value's fields again makes the value. -/
theorem status_error_masked (module_id : u32) :
    status_error (code &&& 0x1f) module_id (arg &&& 0x7ff) = status_error code module_id arg := by
  rw [status_error_eq, status_error_eq, BitVec.and_assoc code, BitVec.and_assoc arg]
  rfl

end fields

/-- The character of five bits. -/
def char_of (x : BitVec 5) : u8 := chr '@' + x.setWidth 8

theorem ascii_5bit_char_of : ∀ x : BitVec 5, ASCII_5BIT (char_of x) = x.setWidth 32 := by
  decide

theorem make_module_id_char_of (x y z : BitVec 5) :
    MAKE_MODULE_ID (char_of x) (char_of y) (char_of z) = packed_module x y z := by
  rw [MAKE_MODULE_ID, ascii_5bit_char_of, ascii_5bit_char_of, ascii_5bit_char_of]
  rfl

/-- A module character depends on the five bits from its shift on. -/
theorem module_char_eq {module_id : u32} {shift : ℕ} {x : BitVec 5}
    (h : ∀ i < 5, module_id.getLsbD (shift + i) = x.getLsbD i) :
    module_char module_id shift = char_of x := by
  have hbits : (module_id >>> shift &&& 0x1f).setWidth 8 = x.setWidth 8 := by
    apply BitVec.eq_of_getLsbD_eq
    intro i hi
    rw [BitVec.getLsbD_setWidth, BitVec.getLsbD_setWidth, BitVec.getLsbD_and,
      BitVec.getLsbD_ushiftRight]
    by_cases hlt : i < 5
    · rw [h i hlt]
      interval_cases i <;> simp
    · rw [BitVec.getLsbD_of_ge x i (by omega)]
      interval_cases i <;> simp at hlt ⊢
  rw [module_char, hbits, char_of]

theorem module_chars (x y z : BitVec 5) :
    module_char (x.setWidth 32 ||| y.setWidth 32 <<< 5 ||| z.setWidth 32 <<< 10) 0 = char_of x ∧
    module_char (x.setWidth 32 ||| y.setWidth 32 <<< 5 ||| z.setWidth 32 <<< 10) 5 = char_of y ∧
    module_char (x.setWidth 32 ||| y.setWidth 32 <<< 5 ||| z.setWidth 32 <<< 10) 10 =
      char_of z := by
  refine ⟨module_char_eq ?_, module_char_eq ?_, module_char_eq ?_⟩
  · intro i hi
    interval_cases i <;> simp
  · intro i hi
    interval_cases i <;> simp
  · intro i hi
    interval_cases i <;> simp

/-- The name under which an error with this code field is printed. -/
def error_name (code : u32) : List u8 :=
  status_codes.getD (if code = 0 then status_codes.length - 1 else code.toNat) []

theorem status_extract_error (x y z : BitVec 5) (code arg : u32) :
    status_extract (status_error code (packed_module x y z) arg) =
      ⟨error_name (code &&& 0x1f), arg &&& 0x7ff, some (char_of x, char_of y, char_of z)⟩ := by
  obtain ⟨hx, hy, hz⟩ := module_chars x y z
  have hmsb := status_error_msb code arg (packed_module x y z)
  have herr : (if (status_error code (packed_module x y z) arg).msb ∧ code &&& 0x1f = 0 then
        status_codes.length - 1 else (code &&& 0x1f).toNat) =
      if code &&& 0x1f = 0 then status_codes.length - 1 else (code &&& 0x1f).toNat := by
    simp only [hmsb, true_and]
  have hne : (if code &&& 0x1f = 0 then status_codes.length - 1
      else (code &&& 0x1f).toNat) ≠ 0 := by
    split
    · decide
    · intro h
      exact absurd (BitVec.eq_of_toNat_eq h) ‹_›
  unfold status_extract error_name
  dsimp only
  rw [status_error_code, status_error_arg, status_error_module, hx, hy, hz, herr, if_pos hne]

theorem status_extract_ok {arg : u32} (h : arg.msb = false) :
    status_extract arg = ⟨text "Ok", arg, none⟩ := by
  have herr : status_err arg = 0 := by simp [status_err, h, kOk]
  unfold status_extract
  simp only [herr, h]
  rfl

/-! ## The printed form -/

theorem write_digits_loop_eq (n v : ℕ) (buffer : List u8) (hpos : 0 < v) (hv : v < 10 ^ n) :
    write_digits_loop 10 kDigitsLow n v buffer = decimal v ++ buffer := by
  have hglyph : ∀ d : Fin 10, kDigitsLow.getD d 0 = digit d := by decide
  induction n generalizing v buffer with
  | zero => simp at hv; omega
  | succ n ih =>
      rw [write_digits_loop, if_pos hpos, hglyph ⟨v % 10, Nat.mod_lt v (by omega)⟩, decimal]
      by_cases hlt : v < 10
      · rw [if_pos hlt, Nat.div_eq_of_lt hlt]
        cases n <;> simp [write_digits_loop, Nat.mod_eq_of_lt hlt]
      · rw [if_neg hlt, ih (v / 10) _ (by omega) (by rw [pow_succ] at hv; omega), List.append_assoc]
        rfl

theorem write_digits_writes (value : u32) (s : Ujson) :
    Writes (write_digits ujson_putbuf value 0 0 10 kDigitsLow) s (decimal value.toNat) := by
  have hbuffer : write_digits_loop 10 kDigitsLow 32 value.toNat
      (if value = 0 then [kDigitsLow.getD 0 0] else []) = decimal value.toNat := by
    by_cases hzero : value = 0
    · rw [hzero, decimal]
      decide
    · have hpos : 0 < value.toNat :=
        Nat.pos_of_ne_zero fun h => hzero (BitVec.eq_of_toNat_eq h)
      have hlt : value.toNat < 10 ^ 32 := value.isLt.trans (by norm_num)
      rw [if_neg hzero, write_digits_loop_eq 32 _ [] hpos hlt, List.append_nil]
  have hlen : 1 - (decimal value.toNat).length = 0 := by
    have := List.length_pos_of_ne_nil (decimal_ne_nil value.toNat)
    omega
  rw [write_digits]
  simp only [hbuffer, if_true, hlen, List.replicate_zero, List.nil_append]
  exact putbuf_writes s _

/-- The characters behind the colon. -/
def status_value_text (parts : StatusParts) : List u8 :=
  match parts.mod_id with
  | some (m0, m1, m2) =>
      chr '[' :: (quoted [m0, m1, m2] ++ chr ',' :: (decimal parts.arg.toNat ++ [chr ']']))
  | none => decimal parts.arg.toNat

/-- The characters of a status on the console. -/
def status_text (parts : StatusParts) : List u8 :=
  chr '{' :: (quoted parts.code ++ chr ':' :: (status_value_text parts ++ [chr '}']))

theorem module_char_writes (x : BitVec 5) (s : Ujson) :
    Writes (write_module_char ujson_putbuf (char_of x)) s (escaped (char_of x)) := by
  have hescaped : ∀ x : BitVec 5, escaped (char_of x) =
      if char_of x = chr '\\' then [chr '\\', chr '\\'] else [char_of x] := by decide
  rw [write_module_char, hescaped x]
  split
  · exact putbuf_writes s _
  · exact putbuf_writes s _

/-- What a status consists of: its name needs no escape, and neither do the characters of
its module, but for the backslash. -/
structure PlainParts (parts : StatusParts) : Prop where
  code : parts.code.flatMap escaped = parts.code
  mod_id : ∀ m, parts.mod_id = some m → ∃ x y z, m = (char_of x, char_of y, char_of z)

theorem status_value_writes {parts : StatusParts} (h : PlainParts parts) (s : Ujson) :
    Writes (write_status_value ujson_putbuf parts) s (status_value_text parts) := by
  obtain ⟨code, arg, mod_id⟩ := parts
  cases mod_id with
  | none => exact write_digits_writes arg s
  | some m =>
      obtain ⟨x, y, z, rfl⟩ := h.mod_id m rfl
      have htext : status_value_text ⟨code, arg, some (char_of x, char_of y, char_of z)⟩ =
          [chr '[', chr '"'] ++ (escaped (char_of x) ++ (escaped (char_of y) ++
            (escaped (char_of z) ++ ([chr '"', chr ','] ++ (decimal arg.toNat ++ [chr ']']))))) := by
        simp [status_value_text, quoted]
      rw [htext]
      exact Writes.bind (putbuf_writes _ _) (Writes.bind (module_char_writes x _)
        (Writes.bind (module_char_writes y _) (Writes.bind (module_char_writes z _)
        (Writes.bind (putbuf_writes _ _) (Writes.bind (write_digits_writes _ _)
        (putbuf_writes _ _))))))

/-- A status goes out as a JSON object. -/
theorem serialize_status_writes {value : u32} (h : PlainParts (status_extract value)) (s : Ujson) :
    Writes (ujson_serialize_status_t value) s (status_text (status_extract value)) := by
  have htext : status_text (status_extract value) = [chr '{', chr '"'] ++
      ((status_extract value).code ++ ([chr '"'] ++ ([chr ':'] ++
        (status_value_text (status_extract value) ++ [chr '}'])))) := by
    simp [status_text, quoted, h.code]
  rw [htext]
  exact Writes.bind (putbuf_writes _ _) (Writes.bind (putbuf_writes _ _)
    (Writes.bind (putbuf_writes _ _) (Writes.bind (putbuf_writes _ _)
    (Writes.bind (status_value_writes h _) (putbuf_writes _ _)))))

theorem status_name_plain : ∀ name ∈ status_codes, name.flatMap escaped = name := by
  decide +kernel

theorem error_name_mem (code : u32) : error_name (code &&& 0x1f) ∈ status_codes := by
  have hmem : ∀ n : Fin 32, error_name (BitVec.ofNat 32 n) ∈ status_codes := by decide
  have hlt : (code &&& 0x1f).toNat < 32 := by
    rw [BitVec.toNat_and]
    exact Nat.lt_of_le_of_lt Nat.and_le_right (by decide)
  have hcode := hmem ⟨_, hlt⟩
  rwa [BitVec.ofNat_toNat, BitVec.setWidth_eq] at hcode

theorem error_parts_plain (x y z : BitVec 5) (code arg : u32) :
    PlainParts (status_extract (status_error code (packed_module x y z) arg)) := by
  rw [status_extract_error]
  refine ⟨status_name_plain _ (error_name_mem code), ?_⟩
  rintro m ⟨⟩
  exact ⟨x, y, z, rfl⟩

theorem ok_parts_plain {arg : u32} (h : arg.msb = false) : PlainParts (status_extract arg) := by
  have hmem : text "Ok" ∈ status_codes := by decide
  rw [status_extract_ok h]
  exact ⟨status_name_plain _ hmem, fun m hm => nomatch hm⟩

/-! ## Reading it back -/

section reading

variable {s₀ s : Ujson} {ahead : List u8} {t : Target} {junk : ℕ → u8}

theorem digit_not_bracket : ∀ d : u8, is_digit d = true → chr '[' ≠ d := by decide

theorem status_body_ok {arg : u32} (h : Reads s₀ (decimal arg.toNat ++ chr '}' :: ahead) t s) :
    Returns (status_body junk) s fun r s' => r = (0, arg) ∧ Reads s₀ (chr '}' :: ahead) t s' := by
  have htext := h
  obtain ⟨d, ds, hdec, hd⟩ := exists_decimal arg.toNat
  rw [hdec] at htext
  refine Leaves.bind
    (consume_maybe_other htext (digit_not_space d hd).1 (digit_not_bracket d hd)) ?_
  rintro _ s₁ ⟨rfl, h₁⟩
  have h₁' : Reads s₀ ((d :: ds) ++ chr '}' :: ahead) t s₁ := h₁
  rw [← hdec] at h₁'
  refine Leaves.bind (deserialize_uint32_reads (by decide) h₁') ?_
  rintro _ s₂ ⟨rfl, h₂⟩
  exact Leaves.pure ⟨rfl, h₂⟩

theorem status_body_error {arg : u32} {x y z : BitVec 5}
    (h : Reads s₀ (chr '[' :: (quoted [char_of x, char_of y, char_of z] ++
      chr ',' :: (decimal arg.toNat ++ chr ']' :: ahead))) t s) :
    Returns (status_body junk) s fun r s' =>
      r = (packed_module x y z, arg) ∧ ReadTo s₀ ahead t s' := by
  refine Leaves.bind (consume_maybe_reads h (by decide)) ?_
  rintro _ s₁ ⟨rfl, h₁⟩
  refine Leaves.bind (parse_qs_reads (by simp) h₁.toReads) ?_
  rintro _ s₂ ⟨rfl, h₂⟩
  rw [fill_on_stack] at h₂
  refine Leaves.bind (consume_reads h₂.toReads (by decide)) ?_
  intro _ s₃ h₃
  refine Leaves.bind (deserialize_uint32_reads (by decide) h₃.toReads) ?_
  rintro _ s₄ ⟨rfl, h₄⟩
  refine Leaves.bind (consume_reads h₄ (by decide)) ?_
  intro _ s₅ h₅
  -- The three characters are the whole of the array but its terminator.
  exact Leaves.pure ⟨congrArg (·, _) (make_module_id_char_of x y z), h₅⟩

/-- The whole object, up to the name of the code. -/
theorem deserialize_status_name {parts : StatusParts} {Q : u32 → Ujson → Prop}
    {E : AbslStatus → Ujson → Prop} {H : Ujson → Prop} (hlen : parts.code.length < 128)
    (h : Reads s₀ (status_text parts ++ ahead) t s)
    (hnone : (private_status.find? fun x => ujson_streq parts.code x.1) = none →
      ∀ s', E .kInvalidArgument s')
    (hsome : ∀ n code, (private_status.find? fun x => ujson_streq parts.code x.1) = some (n, code) →
      ∀ s', Reads s₀ (status_value_text parts ++ chr '}' :: ahead) t s' →
      Leaves (do
        let (module_id, arg) ← status_body junk
        ujson_consume (chr '}')
        pure (status_create code module_id ujson_c arg)) s' Q E H) :
    Leaves (ujson_deserialize_status_t junk) s Q E H := by
  rw [status_text, List.cons_append, List.append_assoc, List.cons_append, List.append_assoc] at h
  refine Leaves.bind (Returns.leaves (consume_reads h (by decide))) ?_
  intro _ s₁ h₁
  cases hfind : private_status.find? fun x => ujson_streq parts.code x.1 with
  | none =>
      refine Leaves.bind (R := fun _ _ => False) ?_ (fun _ _ => False.elim)
      refine deserialize_enum_name hlen h₁.toReads fun s₂ h₂ => ?_
      rw [hfind]
      exact Leaves.throw (hnone hfind s₂)
  | some entry =>
      obtain ⟨n, code⟩ := entry
      refine Leaves.bind (R := fun r s' => r = code ∧
        ReadTo s₀ (chr ':' :: (status_value_text parts ++ chr '}' :: ahead)) t s') ?_ ?_
      · refine deserialize_enum_name hlen h₁.toReads fun s₂ h₂ => ?_
        rw [hfind]
        exact Leaves.pure ⟨rfl, h₂⟩
      · rintro _ s₂ ⟨rfl, h₂⟩
        refine Leaves.bind (Returns.leaves (consume_reads h₂.toReads (by decide))) ?_
        intro _ s₃ h₃
        exact hsome n _ hfind s₃ h₃.toReads

theorem find_error_name : ∀ code : Fin 32,
    (private_status.find? fun x => ujson_streq (error_name (BitVec.ofNat 32 code)) x.1) =
      if 1 ≤ code.val ∧ code.val ≤ 16 then
        some (error_name (BitVec.ofNat 32 code), BitVec.ofNat 32 code) else none := by
  decide

theorem length_error_name (code : u32) : (error_name (code &&& 0x1f)).length < 128 := by
  have hall : ∀ name ∈ status_codes, name.length < 128 := by decide
  exact hall _ (error_name_mem code)

theorem code_field_eq (code : u32) : code &&& 0x1f = BitVec.ofNat 32 (code.toNat % 32) := by
  apply BitVec.eq_of_toNat_eq
  have hmask : code.toNat &&& 31 = code.toNat % 32 := Nat.and_two_pow_sub_one_eq_mod code.toNat 5
  have hcode : (code &&& 0x1f).toNat = code.toNat % 32 := hmask
  rw [hcode, BitVec.toNat_ofNat]
  omega

/-- An error comes back with its code, its argument and the module that the reader makes of
the characters, if its code has a name that the reader knows. -/
theorem deserialize_status_error (x y z : BitVec 5) (code arg : u32)
    (h : Reads s₀ (status_text (status_extract (status_error code (packed_module x y z) arg))
      ++ ahead) t s) :
    (1 ≤ code.toNat % 32 ∧ code.toNat % 32 ≤ 16 →
      Returns (ujson_deserialize_status_t junk) s fun r _ =>
        r = status_create (code &&& 0x1f) (packed_module x y z) ujson_c (arg &&& 0x7ff)) ∧
    (¬ (1 ≤ code.toNat % 32 ∧ code.toNat % 32 ≤ 16) →
      Leaves (ujson_deserialize_status_t junk) s (fun _ _ => False)
        (fun e _ => e = .kInvalidArgument) fun _ => False) := by
  have hfind := find_error_name ⟨code.toNat % 32, Nat.mod_lt _ (by omega)⟩
  rw [← code_field_eq] at hfind
  rw [status_extract_error] at h
  constructor
  · intro hcode
    rw [if_pos hcode] at hfind
    refine deserialize_status_name (length_error_name code) h (fun hnone => ?_)
      fun n c hsome s₁ h₁ => ?_
    · rw [hfind] at hnone
      cases hnone
    · rw [hfind] at hsome
      obtain ⟨rfl, rfl⟩ := Prod.mk.inj (Option.some.inj hsome)
      simp only [status_value_text, List.cons_append, List.append_assoc, List.nil_append] at h₁
      refine Leaves.bind (status_body_error h₁) ?_
      rintro _ s₂ ⟨rfl, h₂⟩
      refine Leaves.bind (consume_reads h₂.toReads (by decide)) ?_
      intro _ s₃ h₃
      exact Leaves.pure rfl
  · intro hcode
    rw [if_neg hcode] at hfind
    refine deserialize_status_name (length_error_name code) h (fun _ _ => rfl)
      fun n c hsome s₁ h₁ => ?_
    rw [hfind] at hsome
    cases hsome

theorem deserialize_status_ok {arg : u32} (harg : arg.msb = false)
    (h : Reads s₀ (status_text (status_extract arg) ++ ahead) t s) :
    Returns (ujson_deserialize_status_t junk) s fun r _ => r = arg := by
  have hfind : (private_status.find? fun x => ujson_streq (text "Ok") x.1) =
      some (text "Ok", 0) := by decide
  have hlen : (text "Ok").length < 128 := by decide
  rw [status_extract_ok harg] at h
  refine deserialize_status_name hlen h (fun hnone => ?_) fun n c hsome s₁ h₁ => ?_
  · rw [hfind] at hnone
    cases hnone
  · rw [hfind] at hsome
    obtain ⟨rfl, rfl⟩ := Prod.mk.inj (Option.some.inj hsome)
    refine Leaves.bind (status_body_ok h₁) ?_
    rintro _ s₂ ⟨rfl, h₂⟩
    refine Leaves.bind (consume_reads h₂ (by decide)) ?_
    intro _ s₃ h₃
    exact Leaves.pure (if_pos ⟨rfl, harg⟩)

end reading

/-! ## The round trip -/

/-- The module of an error, as `status_create` settles it. -/
def resolved_module (module_id : u32) (file : List u8) : u32 :=
  if module_id = 0 then file_module_id file else module_id

/-- The statuses that come back: a result, and an error whose code field is one of the
sixteen codes and whose module field is not zero. -/
def StatusReadable (code module_id : u32) (file : List u8) (arg : u32) : Prop :=
  (code = kOk ∧ arg.msb = false) ∨
    (1 ≤ code.toNat % 32 ∧ code.toNat % 32 ≤ 16 ∧ resolved_module module_id file ≠ 0)

theorem resolved_module_packed {module_id : u32} (file : List u8)
    (h : module_id = 0 ∨ ∃ a b c, module_id = MAKE_MODULE_ID a b c) :
    ∃ x y z, resolved_module module_id file = packed_module x y z := by
  unfold resolved_module
  split
  · exact file_module_id_packed file
  · rename_i hne
    obtain ⟨a, b, c, rfl⟩ := h.resolve_left hne
    exact ⟨_, _, _, make_module_id_eq a b c⟩

/-- The reader makes the same value, unless the module field is zero: then it takes the
module of its own file. -/
theorem status_create_again (x y z : BitVec 5) {code arg : u32} (hcode : code &&& 0x1f ≠ 0) :
    status_create (code &&& 0x1f) (packed_module x y z) ujson_c (arg &&& 0x7ff) =
      status_error code (packed_module x y z) arg ↔ packed_module x y z ≠ 0 := by
  have hkOk : ¬ (code &&& 0x1f = kOk ∧ (arg &&& 0x7ff).msb = false) := fun h => hcode h.1
  rw [status_create, if_neg hkOk, if_neg (show ¬ code &&& 0x1f = kOk from hcode)]
  constructor
  · intro heq hzero
    have hfile : file_module_id ujson_c = packed_module 0x15 0x0a 0x13 := by decide
    have hzero' : packed_module x y z = packed_module 0 0 0 := hzero
    rw [if_pos hzero, hfile, hzero'] at heq
    have hfield := congrArg (fun v => bitfield_field32_read v STATUS_FIELD_MODULE_ID) heq
    simp only [status_error_module] at hfield
    exact absurd hfield (by decide)
  · intro hne
    rw [if_neg hne, status_error_masked]

/-- What is written, whichever of the two forms the value has. -/
theorem status_create_plain (code module_id : u32) (file : List u8) (arg : u32)
    (hmodule : module_id = 0 ∨ ∃ a b c, module_id = MAKE_MODULE_ID a b c) :
    PlainParts (status_extract (status_create code module_id file arg)) := by
  obtain ⟨x, y, z, hxyz⟩ := resolved_module_packed file hmodule
  unfold status_create
  split
  · rename_i hok
    exact ok_parts_plain hok.2
  · rw [← resolved_module, hxyz]
    exact error_parts_plain x y z code _

/-- A status that was written comes back exactly when it is `StatusReadable`. -/
theorem status_round_trip_iff (code module_id : u32) (file : List u8) (arg : u32)
    (hmodule : module_id = 0 ∨ ∃ a b c, module_id = MAKE_MODULE_ID a b c)
    (junk : ℕ → u8) (writer reader : Machine Ujson) (bytes rest : List u8)
    (hwritten : (ujson_serialize_status_t (status_create code module_id file arg) writer).2.mem.output
      = writer.mem.output ++ bytes)
    (hbuffer : reader.mem.buffer = none) (hinput : reader.mem.input = bytes ++ rest) :
    ((ujson_serialize_status_t (status_create code module_id file arg) writer).1 = .ret () ∧
      (ujson_deserialize_status_t junk reader).1 = .ret (status_create code module_id file arg)) ↔
    StatusReadable code module_id file arg := by
  obtain ⟨⟨⟩, hret, hmem⟩ := Returns.run
    (serialize_status_writes (status_create_plain code module_id file arg hmodule) writer.mem) rfl
  have hbytes : status_text (status_extract (status_create code module_id file arg)) = bytes := by
    rw [hmem] at hwritten
    exact List.append_cancel_left hwritten
  have hreads : Reads reader.mem (bytes ++ rest) reader.mem.target reader.mem :=
    hinput ▸ Reads.start hbuffer
  rw [← hbytes] at hreads
  rw [and_iff_right hret]
  by_cases hok : code = kOk ∧ arg.msb = false
  · have hvalue : status_create code module_id file arg = arg := if_pos hok
    rw [hvalue] at hreads ⊢
    have hreturns : Returns (ujson_deserialize_status_t junk) _ _ :=
      deserialize_status_ok hok.2 hreads
    obtain ⟨r, hr, rfl⟩ := Returns.run hreturns rfl
    exact iff_of_true hr (Or.inl hok)
  · obtain ⟨x, y, z, hxyz⟩ := resolved_module_packed file hmodule
    have hvalue : status_create code module_id file arg = status_error code (packed_module x y z)
        (if code = kOk then negative_ok_line else arg) := by
      rw [status_create, if_neg hok, ← resolved_module, hxyz]
    rw [hvalue] at hreads ⊢
    have hcases : (_ → Returns (ujson_deserialize_status_t junk) _ _) ∧ _ :=
      deserialize_status_error x y z code _ hreads
    obtain ⟨hknown, hunknown⟩ := hcases
    rw [StatusReadable, hxyz, or_iff_right hok]
    by_cases hcode : 1 ≤ code.toNat % 32 ∧ code.toNat % 32 ≤ 16
    · obtain ⟨r, hr, hvalue'⟩ := Returns.run (hknown hcode) rfl
      have hne : code &&& 0x1f ≠ 0 := by
        intro hzero
        have hmod := congrArg BitVec.toNat (code_field_eq code)
        have hnat : (0 : u32).toNat = 0 := rfl
        rw [hzero, BitVec.toNat_ofNat, hnat] at hmod
        omega
      rw [hr, hvalue', Outcome.ret.injEq, status_create_again x y z hne]
      exact ⟨fun h => ⟨hcode.1, hcode.2, h⟩, fun h => h.2.2⟩
    · have hends := hunknown hcode reader rfl
      refine iff_of_false (fun hr => ?_) fun h => hcode ⟨h.1, h.2.1⟩
      rw [hr] at hends
      exact hends

/-- A console that has just been set up. -/
def console (input : List u8) : Machine Ujson :=
  Machine.on (ujson_init input ⟨fun _ => 0, ⟨0, 0⟩, []⟩) fun _ => .done

/-- What a status looks like on a console of its own. -/
def printed (value : u32) : List u8 := (ujson_serialize_status_t value (console [])).2.mem.output

theorem status_round_trip_not_found :
    (ujson_serialize_status_t (status_create 5 0 (text "lib/base/status.c") 36) (console [])).1 =
        .ret () ∧
      (ujson_deserialize_status_t (fun _ => 0) (console (printed
        (status_create 5 0 (text "lib/base/status.c") 36)))).1 =
        .ret (status_create 5 0 (text "lib/base/status.c") 36) :=
  (status_round_trip_iff 5 0 (text "lib/base/status.c") 36 (Or.inl rfl) (fun _ => 0) (console [])
    (console (printed (status_create 5 0 (text "lib/base/status.c") 36)))
    (printed (status_create 5 0 (text "lib/base/status.c") 36)) [] rfl rfl
    (List.append_nil _).symm).mpr (.inr ⟨by decide, by decide, by decide +kernel⟩)

/-- An `OK_STATUS` with a negative argument is printed as `ErrorError`, and an error of a
file whose name begins with three characters of value zero as module `@@@`. The reader
knows neither. -/
theorem negative_ok_and_zero_module_not_read :
    (ujson_deserialize_status_t (fun _ => 0) (console (printed
        (status_create kOk 0 (text "status.c") 0xffffffff)))).1 = .error .kInvalidArgument ∧
      (ujson_deserialize_status_t (fun _ => 0) (console (printed
        (status_create 5 0 (text "@@@.c") 36)))).1 ≠ .ret (status_create 5 0 (text "@@@.c") 36) := by
  decide +kernel

end IbexFirmware.Json
