/-
Widths: how many characters a conversion writes.

An integer is written as its shortest numeral, padded to the width (`printed_integer`). A dump is
padded too far: `hex_dump` takes the bytes off the width, and each of them is two characters.
`printed_widths` says when a dump has its width in spite of that.
-/
import IbexFirmware.PrintFormat

set_option autoImplicit false

namespace IbexFirmware.Print

open Bytes Sinks Json

/-! ## A format with one specifier -/

/-- The digits of a width, none where it is zero. -/
def width_digits (zero : Bool) (width : ℕ) : List u8 :=
  if width = 0 then [] else (if zero then [chr '0'] else []) ++ decimal width

/-- What stands behind the `%`. -/
def spec_text (nonstd zero : Bool) (width : ℕ) (type : u8) : List u8 :=
  (if nonstd then [chr '!'] else []) ++ (width_digits zero width ++ [type])

/-- What the specifier pads with. -/
def pad_char (zero : Bool) : u8 := if zero then chr '0' else chr ' '

/-- What an unbounded sink is handed. -/
def printed (format : List u8) (args : List VaArg) : Except Fault (u32 × List u8) :=
  base_fprintf (some recorder) (format ++ [0]) args []

theorem width_value_decimal : ∀ w : Fin 33, width_value 0 (decimal w) = BitVec.ofNat 32 w := by
  decide +kernel

theorem width_padding_decimal : ∀ w : Fin 33, w ≠ 0 → width_padding (decimal w) = chr ' ' := by
  decide +kernel

theorem width_digits_spec (zero : Bool) {width : ℕ} (h : width ≤ 32) :
    (∀ d ∈ width_digits zero width, is_digit d) ∧
      width_value 0 (width_digits zero width) = BitVec.ofNat 32 width ∧
      width_padding (width_digits zero width) = if width = 0 then 0 else pad_char zero := by
  rw [width_digits]
  by_cases hw : width = 0
  · subst hw
    exact ⟨fun d hd => absurd hd List.not_mem_nil, rfl, rfl⟩
  · have hvalue := width_value_decimal ⟨width, by omega⟩
    rw [if_neg hw, if_neg hw]
    cases zero with
    | false =>
        have hne : (⟨width, by omega⟩ : Fin 33) ≠ 0 := fun h => hw (congrArg Fin.val h)
        exact ⟨decimal_digits width, hvalue, width_padding_decimal _ hne⟩
    | true =>
        refine ⟨fun d hd => ?_, hvalue, rfl⟩
        rcases List.mem_cons.mp hd with rfl | hd
        · decide
        · exact decimal_digits width d hd

/-- The specifier is read as it was meant. -/
theorem read_spec_text (nonstd zero : Bool) {width : ℕ} (h : width ≤ 32) {type : u8}
    (htype : is_digit type = false ∧ type ≠ chr '!') :
    read_specifier (spec_text nonstd zero width type) =
      some (⟨type, BitVec.ofNat 32 width, if width = 0 then 0 else pad_char zero, nonstd⟩, []) := by
  obtain ⟨hdigits, hvalue, hpadding⟩ := width_digits_spec zero h
  have hbang : behind_bang (spec_text nonstd zero width type) = width_digits zero width ++ [type] ∧
      decide ((spec_text nonstd zero width type).head? = some (chr '!')) = nonstd := by
    cases nonstd with
    | true => exact ⟨rfl, rfl⟩
    | false =>
        have hhead : (width_digits zero width ++ [type]).head? ≠ some (chr '!') := by
          cases hds : width_digits zero width with
          | nil => exact fun h => htype.2 (Option.some.inj h)
          | cons d ds =>
              have hd : is_digit d = true := hdigits d (hds ▸ List.mem_cons_self)
              intro heq
              rw [show d = chr '!' from Option.some.inj heq] at hd
              exact absurd hd (by decide)
        exact ⟨if_neg hhead, decide_eq_false hhead⟩
  have htake : (width_digits zero width ++ [type]).takeWhile is_digit = width_digits zero width := by
    rw [List.takeWhile_append_of_pos hdigits, List.takeWhile_cons_of_neg (by simp [htype.1]),
      List.append_nil]
  have hdrop : (width_digits zero width ++ [type]).dropWhile is_digit = [type] := by
    rw [List.dropWhile_append_of_pos hdigits, List.dropWhile_cons_of_neg (by simp [htype.1])]
  have hwidth : ¬ ((BitVec.ofNat 32 width = 0 ∧ (if width = 0 then 0 else pad_char zero) ≠ 0) ∨
      BitVec.ofNat 32 width > 32) := by
    have hnat : (BitVec.ofNat 32 width).toNat = width := by
      rw [BitVec.toNat_ofNat]
      omega
    rintro (⟨hzero, hne⟩ | hbig)
    · have hw : width = 0 := by rw [← hnat, hzero]; rfl
      exact hne (if_pos hw)
    · rw [gt_iff_lt, BitVec.lt_def, hnat] at hbig
      exact absurd h (Nat.not_le_of_lt hbig)
  rw [read_specifier, hbang.1, htake, hdrop]
  dsimp only
  rw [hvalue, hpadding, if_neg hwidth, hbang.2]

/-- A format that is one specifier prints what the specifier prints. -/
theorem printed_single {cs : List u8} (hnul : 0 ∉ cs) {spec : FormatSpecifier}
    (hspec : read_specifier cs = some (spec, [])) {args rest : List VaArg} {pieces : List (List u8)}
    (h : HandsLeaving (fun _ out => process_specifier out spec args) pieces rest) :
    printed (kPercent :: cs) args = .ok (pieces.flatten.length, pieces.flatten) := by
  have hplain : ∀ x ∈ ([] : List u8), x ≠ 0 ∧ x ≠ kPercent := fun x hx => absurd hx List.not_mem_nil
  have hrun := fprintf_specifier hnul hspec hplain h _ recorder []
  rw [recorder, deliver_accept, text_pieces, if_pos rfl, List.append_nil] at hrun
  exact hrun

/-! ## Integers -/

/-- A letter that prints an integer. -/
structure IntegerConversion where
  letter : u8
  base : u32
  glyphs : List u8
  signed : Bool
  deriving DecidableEq

def integer_conversions : List IntegerConversion :=
  [⟨kSignedDec1, 10, kDigitsLow, true⟩, ⟨kSignedDec2, 10, kDigitsLow, true⟩,
    ⟨kUnsignedDec, 10, kDigitsLow, false⟩, ⟨kUnsignedOct, 8, kDigitsLow, false⟩,
    ⟨kUnsignedHexLow, 16, kDigitsLow, false⟩, ⟨kSvHexLow, 16, kDigitsLow, false⟩,
    ⟨kUnsignedHexHigh, 16, kDigitsHigh, false⟩, ⟨kSvHexHigh, 16, kDigitsHigh, false⟩,
    ⟨kSvBinary, 2, kDigitsLow, false⟩]

namespace IntegerConversion

variable (c : IntegerConversion) (value : u32)

/-- The integer that the argument is. -/
def meaning : ℤ := if c.signed then value.toInt else value.toNat

def sign : List u8 := if c.meaning value < 0 then [chr '-'] else []

end IntegerConversion

/-- `ds` are the digits of `value`, the highest first, and no fewer digits have this value. -/
structure IsNumeral (base value : ℕ) (ds : List ℕ) : Prop where
  ne_nil : ds ≠ []
  lt_base : ∀ d ∈ ds, d < base
  value_eq : Nat.ofDigits base ds.reverse = value
  minimal : ∀ es : List ℕ, es ≠ [] → (∀ d ∈ es, d < base) → Nat.ofDigits base es.reverse = value →
    ds.length ≤ es.length

theorem isNumeral_numeral {base : ℕ} (hbase : 1 < base) (value : ℕ) :
    IsNumeral base value (numeral base value) := by
  have hreverse : (numeral base value).reverse =
      if value = 0 then [0] else Nat.digits base value := by
    rw [numeral]
    split
    · rfl
    · exact List.reverse_reverse _
  refine ⟨List.ne_nil_of_length_pos (length_numeral_pos base value), fun d hd => ?_, ?_,
    fun es hne hlt hvalue => ?_⟩
  · rw [← List.mem_reverse, hreverse] at hd
    split at hd
    · obtain rfl := List.mem_singleton.mp hd
      omega
    · exact Nat.digits_lt_base hbase hd
  · rw [hreverse]
    split
    · next h => rw [h]; rfl
    · exact Nat.ofDigits_digits base value
  · rw [← List.length_reverse, hreverse]
    split
    · exact List.length_pos_of_ne_nil hne
    · rw [Nat.digits_length_le_iff hbase, ← hvalue, ← List.length_reverse]
      exact Nat.ofDigits_lt_base_pow_length hbase fun d hd => hlt d (List.mem_reverse.mp hd)

/-- What a conversion of a value is to write: the sign, and a field of at least `width` that
holds the shortest numeral at its right end. -/
def IntegerHonoured (c : IntegerConversion) (zero : Bool) (width : ℕ) (value : u32) : Prop :=
  ∃ n ds field, IsNumeral c.base.toNat (c.meaning value).natAbs ds ∧
    printed (kPercent :: spec_text false zero width c.letter) [.word value] =
      .ok (n, c.sign value ++ field) ∧
    field.length = max width ds.length ∧
    field = List.replicate (width - ds.length) (pad_char zero) ++ ds.map (glyph c.glyphs)

/-- The cases of `process_specifier` that print an integer. -/
theorem process_integer {c : IntegerConversion} (hc : c ∈ integer_conversions) (width : u32)
    (padding : u8) (args : List VaArg) :
    (fun σ (out : SinkFunc σ) => process_specifier out ⟨c.letter, width, padding, false⟩ args) =
      fun _ out => if c.signed then process_signed out ⟨c.letter, width, padding, false⟩ args
        else process_unsigned out ⟨c.letter, width, padding, false⟩ args c.base c.glyphs := by
  simp only [integer_conversions, List.mem_cons, List.not_mem_nil, or_false] at hc
  rcases hc with rfl | rfl | rfl | rfl | rfl | rfl | rfl | rfl | rfl <;> rfl

theorem integer_conversion_spec : ∀ c ∈ integer_conversions,
    (1 < c.base.toNat ∧ c.base.toNat ≤ c.glyphs.length) ∧
      (is_digit c.letter = false ∧ c.letter ≠ chr '!') ∧ c.letter ≠ 0 ∧
      (c.signed = true → c.base = 10 ∧ c.glyphs = kDigitsLow) := by
  decide

theorem toNat_neg_of_msb {value : u32} (h : value.msb = true) :
    (-value).toNat = value.toInt.natAbs := by
  have hlt := value.isLt
  have hge : 2 ^ 31 ≤ value.toNat := BitVec.toNat_ge_of_msb_true h
  rw [BitVec.toNat_neg, BitVec.toInt_eq_msb_cond, if_pos h]
  omega

/-- A conversion writes the sign and the digits of the magnitude, padded to the width. -/
theorem integer_hands {c : IntegerConversion} (hc : c ∈ integer_conversions) (width : u32)
    (padding : u8) (value : u32) :
    ∃ pieces magnitude, pieces.flatten = c.sign value ++
        digits_text magnitude width padding c.base c.glyphs ∧
      magnitude.toNat = (c.meaning value).natAbs ∧
      HandsLeaving (fun _ out => process_specifier out ⟨c.letter, width, padding, false⟩
        [.word value]) pieces [] := by
  obtain ⟨⟨hbase, hglyphs⟩, -, -, hsigned⟩ := integer_conversion_spec c hc
  rw [process_integer hc]
  cases hsign : c.signed with
  | false =>
      have hmeaning : c.meaning value = value.toNat := by simp [IntegerConversion.meaning, hsign]
      refine ⟨[digits_text value width padding c.base c.glyphs], value, ?_, ?_, ?_⟩
      · rw [IntegerConversion.sign, hmeaning, if_neg (by omega), List.flatten_singleton]
        rfl
      · rw [hmeaning, Int.natAbs_natCast]
      · have hdigits := hands_digits hbase hglyphs value width padding
        exact hands_word (p := fun v _ out => write_digits out v width padding c.base c.glyphs)
          hdigits []
  | true =>
      obtain ⟨h10, hlow⟩ := hsigned hsign
      have hmeaning : c.meaning value = value.toInt := if_pos hsign
      have hdigits (v : u32) :
          Hands (fun _ out => in_turn [write_digits out v width padding 10 kDigitsLow])
            [digits_text v width padding 10 kDigitsLow] :=
        hands_in_turn_cons (hands_digits (by decide) (by decide) v width padding) hands_nothing
      rw [h10, hlow]
      cases hmsb : value.msb with
      | true =>
          have hneg : c.meaning value < 0 := by
            rw [hmeaning]
            exact BitVec.toInt_neg_of_msb_true hmsb
          refine ⟨[[chr '-'], digits_text (-value) width padding 10 kDigitsLow], -value, ?_, ?_, ?_⟩
          · rw [IntegerConversion.sign, if_pos hneg]
            simp
          · rw [hmeaning, toNat_neg_of_msb hmsb]
          · refine hands_word (p := fun v _ out => in_turn
              [if v.msb then emit out [chr '-'] else pure 0,
                write_digits out (if v.msb then -v else v) width padding 10 kDigitsLow]) ?_ []
            simp only [hmsb, if_true]
            exact hands_in_turn_cons (hands_emit _) (hdigits (-value))
      | false =>
          have hnonneg : c.meaning value = value.toNat := by
            rw [hmeaning, BitVec.toInt_eq_toNat_of_msb hmsb]
          refine ⟨[digits_text value width padding 10 kDigitsLow], value, ?_, ?_, ?_⟩
          · rw [IntegerConversion.sign, hnonneg, if_neg (by omega), List.flatten_singleton]
            rfl
          · rw [hnonneg, Int.natAbs_natCast]
          · refine hands_word (p := fun v _ out => in_turn
              [if v.msb then emit out [chr '-'] else pure 0,
                write_digits out (if v.msb then -v else v) width padding 10 kDigitsLow]) ?_ []
            simp only [hmsb, Bool.false_eq_true, if_false]
            exact hands_in_turn_cons hands_nothing (hdigits value)

theorem digits_text_field {width : ℕ} (h : width ≤ 32) (zero : Bool) (base value : u32)
    (glyphs : List u8) :
    digits_text value (BitVec.ofNat 32 width) (if width = 0 then 0 else pad_char zero) base glyphs =
      List.replicate (width - (numeral base.toNat value.toNat).length) (pad_char zero) ++
        (numeral base.toNat value.toNat).map (glyph glyphs) := by
  have hnat : min (BitVec.ofNat 32 width).toNat kWordBits = width := by
    rw [BitVec.toNat_ofNat, kWordBits]
    omega
  rw [digits_text, hnat, List.length_map]
  split
  · next hw => rw [hw, Nat.zero_sub, List.replicate_zero, List.replicate_zero]
  · rfl

theorem spec_text_nul {nonstd zero : Bool} {width : ℕ} (h : width ≤ 32) {type : u8}
    (htype : type ≠ 0) : 0 ∉ spec_text nonstd zero width type := by
  have hdigits := (width_digits_spec zero h).1
  have hbang : (0 : u8) ≠ chr '!' := by decide
  intro hmem
  rw [spec_text, List.mem_append, List.mem_append, List.mem_singleton] at hmem
  rcases hmem with hmem | hmem | hmem
  · cases nonstd with
    | false => cases hmem
    | true => exact hbang (List.mem_singleton.mp hmem)
  · exact digit_ne_zero 0 (hdigits 0 hmem) rfl
  · exact htype hmem.symm

/-- Every integer conversion has its width. -/
theorem printed_integer {c : IntegerConversion} (hc : c ∈ integer_conversions) (zero : Bool)
    {width : ℕ} (h : width ≤ 32) (value : u32) : IntegerHonoured c zero width value := by
  obtain ⟨⟨hbase, -⟩, hletter, hne, -⟩ := integer_conversion_spec c hc
  obtain ⟨pieces, magnitude, hpieces, hmagnitude, hhands⟩ := integer_hands hc
    (BitVec.ofNat 32 width) (if width = 0 then 0 else pad_char zero) value
  have hprinted := printed_single (spec_text_nul h hne) (read_spec_text false zero h hletter) hhands
  rw [hpieces, digits_text_field h, hmagnitude] at hprinted
  refine ⟨_, _, _, isNumeral_numeral hbase _, hprinted, ?_, rfl⟩
  rw [List.length_append, List.length_replicate, List.length_map]
  omega

/-! ## Dumps -/

/-- A letter that prints a dump. -/
structure DumpConversion where
  letter : u8
  big_endian : Bool
  glyphs : List u8
  deriving DecidableEq

def dump_conversions : List DumpConversion :=
  [⟨kUnsignedHexLow, true, kDigitsLow⟩, ⟨kUnsignedHexHigh, true, kDigitsHigh⟩,
    ⟨kHexLeLow, false, kDigitsLow⟩, ⟨kHexLeHigh, false, kDigitsHigh⟩]

/-- The arguments of a dump. -/
def dump_args (bytes : List u8) : List VaArg :=
  [.word (BitVec.ofNat 32 bytes.length), .pointer bytes]

/-- What a dump is to write: a field of at least `width` that holds two digits for each byte at
its right end. -/
def DumpHonoured (c : DumpConversion) (zero : Bool) (width : ℕ) (bytes : List u8) : Prop :=
  ∃ n field,
    printed (kPercent :: spec_text true zero width c.letter) (dump_args bytes) = .ok (n, field) ∧
    field.length = max width (2 * bytes.length) ∧
    field = List.replicate (width - 2 * bytes.length) (pad_char zero) ++
      dump_text c.big_endian c.glyphs bytes

theorem process_dump_eq {c : DumpConversion} (hc : c ∈ dump_conversions) (width : u32)
    (padding : u8) (args : List VaArg) :
    (fun σ (out : SinkFunc σ) => process_specifier out ⟨c.letter, width, padding, true⟩ args) =
      fun _ out => process_dump out ⟨c.letter, width, padding, true⟩ args c.big_endian c.glyphs := by
  simp only [dump_conversions, List.mem_cons, List.not_mem_nil, or_false] at hc
  rcases hc with rfl | rfl | rfl | rfl <;> rfl

theorem dump_conversion_spec : ∀ c ∈ dump_conversions,
    16 ≤ c.glyphs.length ∧ (is_digit c.letter = false ∧ c.letter ≠ chr '!') ∧ c.letter ≠ 0 := by
  decide

/-- What a dump writes. -/
theorem printed_dump {c : DumpConversion} (hc : c ∈ dump_conversions) (zero : Bool) {width : ℕ}
    (h : width ≤ 32) {bytes : List u8} (hbytes : bytes.length < 2 ^ 32) :
    ∃ n, printed (kPercent :: spec_text true zero width c.letter) (dump_args bytes) =
      .ok (n, List.replicate (width - bytes.length) (pad_char zero) ++
        dump_text c.big_endian c.glyphs bytes) := by
  obtain ⟨hglyphs, hletter, hne⟩ := dump_conversion_spec c hc
  have hlen : (BitVec.ofNat 32 bytes.length).toNat = bytes.length := by
    rw [BitVec.toNat_ofNat, Nat.mod_eq_of_lt hbytes]
  have hwidth : (BitVec.ofNat 32 width).toNat = width := by
    rw [BitVec.toNat_ofNat]
    omega
  obtain ⟨pieces, hpieces, hdump⟩ := hands_dump hglyphs (BitVec.ofNat 32 bytes.length)
    (BitVec.ofNat 32 width) (if width = 0 then 0 else pad_char zero) c.big_endian (le_of_eq hlen)
  have hhands : HandsLeaving (fun _ out => process_specifier out
      ⟨c.letter, BitVec.ofNat 32 width, if width = 0 then 0 else pad_char zero, true⟩
      (dump_args bytes)) pieces [] := by
    rw [process_dump_eq hc]
    intro σ out s
    have hword : va_word (dump_args bytes) =
        .ok (BitVec.ofNat 32 bytes.length, [.pointer bytes]) := rfl
    have hpointer : va_pointer [.pointer bytes] = .ok (bytes, []) := rfl
    dsimp only
    rw [process_dump, bind_ok (lift_ok hword s)]
    dsimp only
    rw [bind_ok (lift_ok hpointer s)]
    rw [bind_ok (hdump σ out s)]
    rfl
  have hprinted := printed_single (spec_text_nul h hne) (read_spec_text true zero h hletter) hhands
  have hpadding : List.replicate (width - bytes.length) (if width = 0 then 0 else pad_char zero) =
      List.replicate (width - bytes.length) (pad_char zero) := by
    split
    · next hw => rw [hw, Nat.zero_sub, List.replicate_zero, List.replicate_zero]
    · rfl
  rw [hpieces, hlen, hwidth, hpadding, List.take_length] at hprinted
  exact ⟨_, hprinted⟩

/-- A dump has its width exactly where nothing is padded or nothing is dumped. -/
theorem dump_honoured_iff {c : DumpConversion} (hc : c ∈ dump_conversions) (zero : Bool) {width : ℕ}
    (h : width ≤ 32) {bytes : List u8} (hbytes : bytes.length < 2 ^ 32) :
    DumpHonoured c zero width bytes ↔ width ≤ bytes.length ∨ bytes.length = 0 := by
  obtain ⟨n, hn⟩ := printed_dump hc zero h hbytes
  have hlength := length_dump_text c.big_endian c.glyphs bytes
  constructor
  · rintro ⟨m, field, hfield, hmax, -⟩
    obtain ⟨-, rfl⟩ := Prod.mk.inj (Except.ok.inj (hn.symm.trans hfield))
    rw [List.length_append, List.length_replicate, hlength] at hmax
    omega
  · intro hcond
    have hpad : width - bytes.length = width - 2 * bytes.length := by omega
    refine ⟨n, _, hn, ?_, ?_⟩
    · rw [List.length_append, List.length_replicate, hlength]
      omega
    · rw [hpad]

/-! ## Both -/

/-- Every integer conversion has its width, and a dump has it exactly where the width is at most
the number of bytes, or there are none. -/
theorem printed_widths (zero : Bool) {width : ℕ} (hwidth : width ≤ 32) :
    (∀ c ∈ integer_conversions, ∀ value : u32, IntegerHonoured c zero width value) ∧
    ∀ c ∈ dump_conversions, ∀ bytes : List u8, bytes.length < 2 ^ 32 →
      (DumpHonoured c zero width bytes ↔ width ≤ bytes.length ∨ bytes.length = 0) :=
  ⟨fun _ hc value => printed_integer hc zero hwidth value,
    fun _ hc _ hbytes => dump_honoured_iff hc zero hwidth hbytes⟩

theorem printed_widths_of_two_bytes :
    IntegerHonoured ⟨kSignedDec1, 10, kDigitsLow, true⟩ true 6 0xfffffff9 ∧
      DumpHonoured ⟨kHexLeLow, false, kDigitsLow⟩ false 2 [0xab, 0xcd] := by
  have hsix : (6 : ℕ) ≤ 32 := by decide
  have htwo : (2 : ℕ) ≤ 32 := by decide
  exact ⟨(printed_widths true hsix).1 _ (by decide) 0xfffffff9,
    ((printed_widths false htwo).2 _ (by decide) [0xab, 0xcd] (by decide)).mpr (.inl (by decide))⟩

/-- Four bytes and a width of eight: four characters too many. -/
theorem dump_of_four_bytes_not_honoured :
    ¬ DumpHonoured ⟨kUnsignedHexLow, true, kDigitsLow⟩ false 8 [0x01, 0x02, 0x03, 0x04] := by
  rintro ⟨n, field, hprinted, hlength, -⟩
  have hrun : printed (kPercent :: spec_text true false 8 kUnsignedHexLow)
      (dump_args [0x01, 0x02, 0x03, 0x04]) = .ok (12, text "    04030201") := by
    decide +kernel
  obtain ⟨-, rfl⟩ := Prod.mk.inj (Except.ok.inj (hrun.symm.trans hprinted))
  exact absurd hlength (by decide)

end IbexFirmware.Print
