/-
Formats, their specifiers and their arguments.

`read_specifier` and `takes` say what a format means: the specifiers in it, and the arguments
that they take. Where the arguments fit, no function runs into a fault and the sink is handed the
same buffers whatever it answers, so that `base_snprintf_prefix` is a fact about sinks.
-/
import IbexFirmware.Print

set_option autoImplicit false

namespace IbexFirmware.Print

open Bytes Sinks Json

variable {σ : Type}

/-! ## The arguments that a specifier takes -/

/-- A word, a string with its terminator, or a length and a buffer that is as long. -/
inductive Kind
  | word
  | string
  | counted

def FormatSpecifier.takes (spec : FormatSpecifier) : List Kind :=
  if spec.type = kString then [if spec.is_nonstd then .counted else .string]
  else if spec.type = kUnsignedHexLow ∨ spec.type = kUnsignedHexHigh then
    [if spec.is_nonstd then .counted else .word]
  else if spec.type = kHexLeLow ∨ spec.type = kHexLeHigh then
    if spec.is_nonstd then [.counted] else []
  else if spec.type ∈ [kFourCC, kSvHexLow, kSvHexHigh, kSvBinary, kStatusResult] then [.word]
  else if spec.type ∈ [kCharacter, kSignedDec1, kSignedDec2, kUnsignedOct, kPointer,
      kUnsignedDec] then
    if spec.is_nonstd then [] else [.word]
  else []

/-- There may be more arguments than are taken. -/
def Fits : List Kind → List VaArg → Prop
  | [], _ => True
  | .word :: ks, .word _ :: args => Fits ks args
  | .string :: ks, .pointer object :: args => 0 ∈ object ∧ Fits ks args
  | .counted :: ks, .word len :: .pointer object :: args =>
      len.toNat ≤ object.length ∧ Fits ks args
  | _, _ => False

theorem Fits.word {ks : List Kind} {args : List VaArg} (h : Fits (.word :: ks) args) :
    ∃ value rest, args = .word value :: rest ∧ Fits ks rest := by
  match args, h with
  | .word value :: rest, h => exact ⟨value, rest, rfl, h⟩

theorem Fits.string {ks : List Kind} {args : List VaArg} (h : Fits (.string :: ks) args) :
    ∃ object rest, args = .pointer object :: rest ∧ 0 ∈ object ∧ Fits ks rest := by
  match args, h with
  | .pointer object :: rest, h => exact ⟨object, rest, rfl, h⟩

theorem Fits.counted {ks : List Kind} {args : List VaArg} (h : Fits (.counted :: ks) args) :
    ∃ len object rest, args = .word len :: .pointer object :: rest ∧
      len.toNat ≤ object.length ∧ Fits ks rest := by
  match args, h with
  | .word len :: .pointer object :: rest, h => exact ⟨len, object, rest, rfl, h⟩

/-- `p` hands `cs` over, and `rest` are the arguments that it leaves. -/
def HandsLeaving (p : ∀ σ : Type, SinkFunc σ → Printing σ (u32 × List VaArg)) (cs : List (List u8))
    (rest : List VaArg) : Prop :=
  ∀ (σ : Type) (out : SinkFunc σ) (s : σ),
    p σ out s = .ok (((deliver out cs s).1, rest), (deliver out cs s).2)

/-- What is handed over and the arguments that are left do not depend on the sink. -/
def Consumes (p : ∀ σ : Type, SinkFunc σ → Printing σ (u32 × List VaArg)) (rest : List VaArg) :
    Prop :=
  ∃ cs, HandsLeaving p cs rest

theorem Oblivious.consumes {p : Caller} (hp : Oblivious p) (args : List VaArg) :
    Consumes (fun σ out => do return (← p σ out, args)) args := by
  obtain ⟨cs, hcs⟩ := hp
  refine ⟨cs, fun σ out s => ?_⟩
  dsimp only
  rw [bind_ok (hcs σ out s)]
  rfl

/-- A call whose buffers are known, as a case of `process_specifier`. -/
theorem hands_word {p : u32 → Caller} {value : u32} {cs : List (List u8)} (hp : Hands (p value) cs)
    (args : List VaArg) :
    HandsLeaving (fun σ out => do
      let (v, args) ← va_word (.word value :: args)
      return (← p v σ out, args)) cs args := by
  intro σ out s
  have hword : va_word (.word value :: args) = .ok (value, args) := rfl
  dsimp only
  rw [bind_ok (lift_ok hword s)]
  rw [bind_ok (hp σ out s)]
  rfl

/-- A buffer with its length. -/
theorem hands_counted {len : u32} {object : List u8} (h : len.toNat ≤ object.length) :
    HandsLeaving (fun _ out => process_specifier out ⟨kString, 0, 0, true⟩
      [.word len, .pointer object]) [object.take len.toNat] [] := by
  intro σ out s
  have hword : va_word [.word len, .pointer object] = .ok (len, [.pointer object]) := rfl
  have hpointer : va_pointer [.pointer object] = .ok (object, []) := rfl
  have hslice : slice object len.toNat = .ok (object.take len.toNat) := if_pos h
  show (do
    let word ← va_word [.word len, .pointer object]
    let pointer ← va_pointer word.2
    let buf ← slice pointer.1 word.1.toNat
    return (← emit out buf, pointer.2) : Printing σ (u32 × List VaArg)) s = _
  rw [bind_ok (lift_ok hword s), bind_ok (lift_ok hpointer s), bind_ok (lift_ok hslice s),
    deliver_singleton]
  rfl

section specifiers

variable {ks : List Kind} {args : List VaArg}

theorem takes_nothing {p : Caller} (h : Fits ks args) (hp : Oblivious p) :
    ∃ rest, Fits ks rest ∧ Consumes (fun σ out => do return (← p σ out, args)) rest :=
  ⟨args, h, hp.consumes args⟩

theorem takes_word {p : u32 → Caller} (h : Fits (.word :: ks) args) (hp : ∀ v, Oblivious (p v)) :
    ∃ rest, Fits ks rest ∧ Consumes (fun σ out => do
      let (v, args) ← va_word args
      return (← p v σ out, args)) rest := by
  obtain ⟨value, rest, rfl, hrest⟩ := h.word
  exact ⟨rest, hrest, (hp value).consumes rest⟩

theorem takes_string {p : List u8 → ℕ → Caller} (h : Fits (.string :: ks) args)
    (hp : ∀ v len, Oblivious (p v len)) :
    ∃ rest, Fits ks rest ∧ Consumes (fun σ out => do
      let (v, args) ← va_pointer args
      let len ← string_loop v 0
      return (← p v len σ out, args)) rest := by
  obtain ⟨object, rest, rfl, hnul, hrest⟩ := h.string
  have hloop (object : List u8) (len : ℕ) (hnul : 0 ∈ object) :
      ∃ n, string_loop object len = .ok n := by
    induction object generalizing len with
    | nil => cases hnul
    | cons c object ih =>
        by_cases hc : c = 0
        · exact ⟨len, by rw [string_loop, if_neg (not_not.mpr hc)]⟩
        · rw [string_loop, if_pos hc]
          exact ih _ ((List.mem_cons.mp hnul).resolve_left (Ne.symm hc))
  obtain ⟨len, hlen⟩ := hloop object 0 hnul
  obtain ⟨cs, hcs⟩ := (hp object len).consumes rest
  refine ⟨rest, hrest, cs, fun σ out s => ?_⟩
  have hpointer : va_pointer (.pointer object :: rest) = .ok (object, rest) := rfl
  dsimp only
  rw [← hcs σ out s, bind_ok (lift_ok hpointer s)]
  rw [bind_ok (lift_ok hlen s)]

theorem takes_counted {p : u32 → List u8 → Caller} (h : Fits (.counted :: ks) args)
    (hp : ∀ len object, len.toNat ≤ object.length → Oblivious (p len object)) :
    ∃ rest, Fits ks rest ∧ Consumes (fun σ out => do
      let (len, args) ← va_word args
      let (object, args) ← va_pointer args
      return (← p len object σ out, args)) rest := by
  obtain ⟨len, object, rest, rfl, hlen, hrest⟩ := h.counted
  exact ⟨rest, hrest, (hp len object hlen).consumes rest⟩

theorem takes_slice (h : Fits (.counted :: ks) args) :
    ∃ rest, Fits ks rest ∧ Consumes (fun _ out => do
      let (len, args) ← va_word args
      let (value, args) ← va_pointer args
      let buf ← slice value len.toNat
      return (← emit out buf, args)) rest := by
  obtain ⟨len, object, rest, rfl, hlen, hrest⟩ := h.counted
  obtain ⟨cs, hcs⟩ := (oblivious_emit (object.take len.toNat)).consumes rest
  refine ⟨rest, hrest, cs, fun σ out s => ?_⟩
  have hslice : slice object len.toNat = .ok (object.take len.toNat) := if_pos hlen
  have hword : va_word (.word len :: .pointer object :: rest) = .ok (len, .pointer object :: rest) :=
    rfl
  have hpointer : va_pointer (.pointer object :: rest) = .ok (object, rest) := rfl
  dsimp only
  rw [← hcs σ out s, bind_ok (lift_ok hword s)]
  rw [bind_ok (lift_ok hpointer s)]
  rw [bind_ok (lift_ok hslice s)]

variable {width : u32} {padding : u8}

theorem oblivious_unsigned {base : u32} {glyphs : List u8} (hbase : 1 < base.toNat)
    (hglyphs : base.toNat ≤ glyphs.length) (v : u32) :
    Oblivious fun _ out => write_digits out v width padding base glyphs :=
  ⟨_, hands_digits hbase hglyphs v width padding⟩

theorem oblivious_signed (v : u32) :
    Oblivious fun _ out => in_turn
      [if v.msb then emit out [chr '-'] else pure 0,
        write_digits out (if v.msb then -v else v) width padding 10 kDigitsLow] :=
  (oblivious_ite _ (oblivious_emit _) ⟨[], hands_nothing⟩).in_turn_cons
    ((oblivious_unsigned (by decide) (by decide) _).in_turn_cons Oblivious.in_turn_nil)

theorem oblivious_dump {big_endian : Bool} {glyphs : List u8} (hglyphs : 16 ≤ glyphs.length)
    (len : u32) (object : List u8) (hlen : len.toNat ≤ object.length) :
    Oblivious fun _ out => hex_dump out object len width padding big_endian glyphs := by
  obtain ⟨cs, -, hcs⟩ := hands_dump hglyphs len width padding big_endian hlen
  exact ⟨cs, hcs⟩

theorem takes_pointer (h : Fits (.word :: ks) args) :
    ∃ rest, Fits ks rest ∧ Consumes (fun _ out => do
      let n ← emit out (text "0x")
      let (value, args) ← va_word args
      let m ← write_digits out value 8 (chr '0') 16 kDigitsLow
      return (n + m, args)) rest := by
  obtain ⟨value, rest, rfl, hrest⟩ := h.word
  refine ⟨rest, hrest, [text "0x", digits_text value 8 (chr '0') 16 kDigitsLow], fun σ out s => ?_⟩
  have hemit : emit out (text "0x") s = .ok (out s (text "0x")) := rfl
  have hword : va_word (.word value :: rest) = .ok (value, rest) := rfl
  have hdigits : write_digits out value 8 (chr '0') 16 kDigitsLow (out s (text "0x")).2 = _ :=
    hands_digits (by decide) (by decide) value 8 (chr '0') σ out _
  dsimp only
  rw [bind_ok hemit, bind_ok (lift_ok hword _)]
  rw [bind_ok hdigits]
  rfl

/-- The cases that are one call of `write_digits`. -/
theorem takes_unsigned {spec : FormatSpecifier} {base : u32} {glyphs : List u8}
    (h : Fits (.word :: ks) args) (hbase : 1 < base.toNat) (hglyphs : base.toNat ≤ glyphs.length) :
    ∃ rest, Fits ks rest ∧
      Consumes (fun _ out => process_unsigned out spec args base glyphs) rest :=
  takes_word h (oblivious_unsigned hbase hglyphs)

/-- The cases that are one call of `hex_dump`. -/
theorem takes_dump {spec : FormatSpecifier} {big_endian : Bool} {glyphs : List u8}
    (h : Fits (.counted :: ks) args) (hglyphs : 16 ≤ glyphs.length) :
    ∃ rest, Fits ks rest ∧
      Consumes (fun _ out => process_dump out spec args big_endian glyphs) rest :=
  takes_counted h (oblivious_dump hglyphs)

theorem takes_bad_spec (h : Fits ks args) :
    ∃ rest, Fits ks rest ∧ Consumes (fun _ out => bad_spec out args) rest :=
  takes_nothing h (oblivious_emit _)

/-- The cases are the letters: each takes its own arguments and no others. -/
theorem process_specifier_consumes {spec : FormatSpecifier} (h : Fits (spec.takes ++ ks) args) :
    ∃ rest, Fits ks rest ∧ Consumes (fun _ out => process_specifier out spec args) rest := by
  obtain ⟨type, width, padding, nonstd⟩ := spec
  by_cases hletter : type ∈ [kPercent, kCharacter, kFourCC, kString, kSignedDec1, kSignedDec2,
    kUnsignedOct, kPointer, kUnsignedHexLow, kSvHexLow, kUnsignedHexHigh, kSvHexHigh, kHexLeLow,
    kHexLeHigh, kUnsignedDec, kSvBinary, kStatusResult]
  · simp only [List.mem_cons, List.not_mem_nil, or_false] at hletter
    rcases hletter with rfl | rfl | rfl | rfl | rfl | rfl | rfl | rfl | rfl | rfl | rfl | rfl | rfl |
      rfl | rfl | rfl | rfl
    · -- a percent sign
      cases nonstd with
      | false => exact takes_nothing h (oblivious_emit _)
      | true => exact takes_bad_spec h
    · -- a character
      cases nonstd with
      | false =>
          exact takes_word (p := fun v _ out => emit out [v.setWidth 8]) h fun _ => oblivious_emit _
      | true => exact takes_bad_spec h
    · -- a four-character code
      exact takes_word h oblivious_fourcc
    · -- a string
      cases nonstd with
      | false =>
          exact takes_string (p := fun v len _ out => emit out (v.take len)) h
            fun _ _ => oblivious_emit _
      | true => exact takes_slice h
    · -- a signed number, by either letter
      cases nonstd with
      | false => exact takes_word h oblivious_signed
      | true => exact takes_bad_spec h
    · cases nonstd with
      | false => exact takes_word h oblivious_signed
      | true => exact takes_bad_spec h
    · -- an octal number
      cases nonstd with
      | false => exact takes_unsigned h (by decide) (by decide)
      | true => exact takes_bad_spec h
    · -- a pointer
      cases nonstd with
      | false => exact takes_pointer h
      | true => exact takes_bad_spec h
    · -- a hexadecimal number in small letters, or a dump
      cases nonstd with
      | false => exact takes_unsigned h (by decide) (by decide)
      | true => exact takes_dump h (by decide)
    · exact takes_unsigned h (by decide) (by decide)
    · -- the same in capitals
      cases nonstd with
      | false => exact takes_unsigned h (by decide) (by decide)
      | true => exact takes_dump h (by decide)
    · exact takes_unsigned h (by decide) (by decide)
    · -- a dump in the other order
      cases nonstd with
      | false => exact takes_bad_spec h
      | true => exact takes_dump h (by decide)
    · cases nonstd with
      | false => exact takes_bad_spec h
      | true => exact takes_dump h (by decide)
    · -- a decimal number
      cases nonstd with
      | false => exact takes_unsigned h (by decide) (by decide)
      | true => exact takes_bad_spec h
    · -- a binary number, or a truth value
      cases nonstd with
      | false => exact takes_unsigned h (by decide) (by decide)
      | true =>
          exact takes_word
            (p := fun v _ out => emit out (if v ≠ 0 then text "true" else text "false")) h
            fun _ => oblivious_emit _
    · -- a status
      exact takes_word h fun v => oblivious_status v nonstd
  · -- no letter of the list
    simp only [List.mem_cons, List.not_mem_nil, or_false, not_or] at hletter
    have htakes : (FormatSpecifier.mk type width padding nonstd).takes = [] := by
      simp only [FormatSpecifier.takes, hletter, List.mem_cons, List.not_mem_nil, or_self, if_false]
    rw [htakes] at h
    obtain ⟨rest, hrest, hbad⟩ := takes_bad_spec h
    refine ⟨rest, hrest, ?_⟩
    simpa only [process_specifier, hletter, or_self, false_and, if_false] using hbad

end specifiers

/-! ## The specifiers of a format -/

/-- The value of the digits of a width, which may wrap. -/
def width_value (width : u32) (digits : List u8) : u32 :=
  digits.foldl (fun width c => width * 10 + (c.setWidth 32 - 48)) width

/-- What is padded with, if there are digits. -/
def width_padding : List u8 → u8
  | [] => 0
  | c :: _ => if c = chr '0' then chr '0' else chr ' '

/-- What is behind the `!`, if there is one. -/
def behind_bang (cs : List u8) : List u8 := if cs.head? = some (chr '!') then cs.drop 1 else cs

/-- The specifier behind a `%` and what is behind the specifier, if it is well formed. -/
def read_specifier (cs : List u8) : Option (FormatSpecifier × List u8) :=
  let digits := (behind_bang cs).takeWhile is_digit
  let width := width_value 0 digits
  match (behind_bang cs).dropWhile is_digit with
  | [] => none
  | type :: rest =>
      if (width = 0 ∧ width_padding digits ≠ 0) ∨ width > 32 then none
      else some (⟨type, width, width_padding digits, cs.head? = some (chr '!')⟩, rest)

/-- The specifiers of a format of at most so many letters, up to one that is not well formed. -/
def specifiers : (n : ℕ) → List u8 → List FormatSpecifier
  | 0, _ => []
  | n + 1, cs =>
      match read_specifier ((cs.dropWhile (· ≠ kPercent)).drop 1) with
      | none => []
      | some (spec, rest) => spec :: specifiers n rest

/-- The arguments that a format takes. -/
def takes (format : List u8) : List Kind :=
  (specifiers format.length format).flatMap FormatSpecifier.takes

theorem is_digit_iff : ∀ c : u8, is_digit c = true ↔ ¬ (c < chr '0' ∨ chr '9' < c) := by decide

theorem digit_ne_zero : ∀ c : u8, is_digit c = true → c ≠ 0 := by decide

/-- From the first digit on the padding is settled. -/
theorem width_loop_settled (digits tail : List u8) (c : u8) (hdigits : ∀ d ∈ digits, is_digit d)
    (hc : is_digit c = false) (spec : FormatSpecifier) (hpadding : spec.padding ≠ 0) :
    width_loop (digits ++ c :: tail) spec =
      .ok (if c = 0 then none
        else some ({ spec with width := width_value spec.width digits }, c :: tail)) := by
  induction digits generalizing spec with
  | nil =>
      have hsign : c < chr '0' ∨ chr '9' < c := by
        by_contra h
        rw [(is_digit_iff c).mpr h] at hc
        cases hc
      rw [List.nil_append, width_loop, if_pos hsign]
      split <;> rfl
  | cons d digits ih =>
      have hd : is_digit d = true := hdigits d List.mem_cons_self
      rw [List.cons_append, width_loop, if_neg (digit_ne_zero d hd),
        if_neg ((is_digit_iff d).mp hd), if_neg (fun h => hpadding h.1), if_neg hpadding]
      refine ih (fun x hx => hdigits x (List.mem_cons_of_mem _ hx)) ⟨_, _, _, _⟩ ?_
      exact hpadding

/-- The padding is settled by the first digit (`width_loop_settled` reads the others). -/
theorem width_loop_eq (digits tail : List u8) (c : u8) (hdigits : ∀ d ∈ digits, is_digit d)
    (hc : is_digit c = false) (is_nonstd : Bool) :
    width_loop (digits ++ c :: tail) ⟨0, 0, 0, is_nonstd⟩ =
      .ok (if c = 0 then none
        else some (⟨0, width_value 0 digits, width_padding digits, is_nonstd⟩, c :: tail)) := by
  cases digits with
  | nil =>
      have hsign : c < chr '0' ∨ chr '9' < c := by
        by_contra h
        rw [(is_digit_iff c).mpr h] at hc
        cases hc
      rw [List.nil_append, width_loop, if_pos hsign]
      split <;> rfl
  | cons d digits =>
      have hd : is_digit d = true := hdigits d List.mem_cons_self
      have hletters : chr '0' ≠ 0 ∧ chr ' ' ≠ 0 := by decide
      have htail : ∀ x ∈ digits, is_digit x := fun x hx => hdigits x (List.mem_cons_of_mem _ hx)
      rw [List.cons_append, width_loop, if_neg (digit_ne_zero d hd), if_neg ((is_digit_iff d).mp hd)]
      by_cases hzero : d = chr '0'
      · subst hzero
        rw [if_pos ⟨rfl, rfl⟩, width_loop_settled digits tail c htail hc _ hletters.1]
        rfl
      · rw [if_neg (fun h => hzero h.2), if_pos rfl,
          width_loop_settled digits tail c htail hc _ hletters.2, width_padding,
          if_neg hzero]
        rfl

section reading

variable {cs : List u8}

/-- The width is read from behind the `!`. -/
theorem consume_specifier_eq (out : SinkFunc σ) (cs : List u8) (s : σ) :
    consume_format_specifier out (kPercent :: (cs ++ [0])) s =
      (do
        match ← width_loop (behind_bang cs ++ [0])
          ⟨0, 0, 0, decide (cs.head? = some (chr '!'))⟩ with
        | none => return (none, ← emit out kErrorNul, behind_bang cs ++ [0])
        | some (spec, format) =>
            if (spec.width = 0 ∧ spec.padding ≠ 0) ∨ spec.width > 32 then
              return (none, ← emit out kErrorTooWide, format)
            else return (some { spec with type := format.headD 0 }, 0, format.drop 1)
        : Printing σ (Option FormatSpecifier × u32 × List u8)) s := by
  cases cs with
  | nil => rfl
  | cons c cs =>
      have hchar : first_char ((kPercent :: (c :: cs ++ [0])).drop 1) = .ok c := rfl
      rw [consume_format_specifier, bind_ok (lift_ok hchar s)]
      by_cases hbang : c = chr '!'
      · subst hbang
        rfl
      · have hhead : (c :: cs).head? ≠ some (chr '!') := fun h => hbang (Option.some.inj h)
        have hdecide : decide ((c :: cs).head? = some (chr '!')) = false := decide_eq_false hhead
        have hdecide' : decide (c = chr '!') = false := decide_eq_false hbang
        rw [hdecide, behind_bang, if_neg hhead, hdecide']
        rfl

theorem behind_bang_suffix (cs : List u8) : behind_bang cs <:+ cs := by
  rw [behind_bang]
  split
  · exact List.drop_suffix 1 cs
  · exact List.suffix_rfl

theorem read_specifier_suffix {spec : FormatSpecifier} {rest : List u8}
    (h : read_specifier cs = some (spec, rest)) : rest <:+ cs ∧ rest.length < cs.length := by
  have hsuffix : (behind_bang cs).dropWhile is_digit <:+ cs :=
    (List.dropWhile_suffix is_digit).trans (behind_bang_suffix cs)
  rw [read_specifier] at h
  split at h
  · cases h
  · next type tail htail =>
    rw [htail] at hsuffix
    split at h
    · cases h
    · obtain ⟨-, rfl⟩ := Prod.mk.inj (Option.some.inj h)
      exact ⟨(List.suffix_cons type tail).trans hsuffix, hsuffix.length_le⟩

/-- The loop over the width ends at the first letter that is no digit. -/
theorem width_loop_behind (cs : List u8) (hnul : 0 ∉ cs) (is_nonstd : Bool) :
    width_loop (cs ++ [0]) ⟨0, 0, 0, is_nonstd⟩ =
      .ok (match cs.dropWhile is_digit with
        | [] => none
        | type :: rest =>
            some (⟨0, width_value 0 (cs.takeWhile is_digit), width_padding (cs.takeWhile is_digit),
              is_nonstd⟩, type :: (rest ++ [0]))) := by
  have hdigits : ∀ d ∈ cs.takeWhile is_digit, is_digit d := List.all_eq_true.mp List.all_takeWhile
  have hsplit : cs.takeWhile is_digit ++ cs.dropWhile is_digit = cs := List.takeWhile_append_dropWhile
  cases htail : cs.dropWhile is_digit with
  | nil =>
      rw [htail, List.append_nil] at hsplit
      rw [hsplit] at hdigits ⊢
      exact width_loop_eq cs [] 0 hdigits (by decide) is_nonstd
  | cons type rest =>
      have htype : is_digit type = false := by
        have hhead := List.head?_dropWhile_not is_digit cs
        rw [htail] at hhead
        simpa using hhead
      have hne : type ≠ 0 := by
        rintro rfl
        exact hnul (hsplit ▸ List.mem_append_right _ (htail ▸ List.mem_cons_self))
      have hcs : cs ++ [0] = cs.takeWhile is_digit ++ type :: (rest ++ [0]) := by
        conv_lhs => rw [← hsplit, htail]
        rw [List.append_assoc, List.cons_append]
      rw [hcs, width_loop_eq _ _ _ hdigits htype, if_neg hne]

theorem consume_specifier_some (hnul : 0 ∉ cs) {spec : FormatSpecifier} {rest : List u8}
    (h : read_specifier cs = some (spec, rest)) (out : SinkFunc σ) (s : σ) :
    consume_format_specifier out (kPercent :: (cs ++ [0])) s =
      .ok ((some spec, 0, rest ++ [0]), s) := by
  have hnul' : 0 ∉ behind_bang cs := fun hmem => hnul ((behind_bang_suffix cs).subset hmem)
  rw [consume_specifier_eq, bind_ok (lift_ok (width_loop_behind _ hnul' _) s)]
  rw [read_specifier] at h
  split at h
  · cases h
  · next type tail htail =>
    split at h
    · cases h
    · next hwidth =>
      obtain ⟨rfl, rfl⟩ := Prod.mk.inj (Option.some.inj h)
      dsimp only
      rw [if_neg hwidth]
      rfl

theorem consume_specifier_none (hnul : 0 ∉ cs) (h : read_specifier cs = none) :
    ∃ buf format, ∀ (σ : Type) (out : SinkFunc σ) (s : σ),
      consume_format_specifier out (kPercent :: (cs ++ [0])) s =
        .ok ((none, (out s buf).1, format), (out s buf).2) := by
  have hnul' : 0 ∉ behind_bang cs := fun hmem => hnul ((behind_bang_suffix cs).subset hmem)
  rw [read_specifier] at h
  split at h
  · next htail =>
    refine ⟨kErrorNul, behind_bang cs ++ [0], fun σ out s => ?_⟩
    rw [consume_specifier_eq, bind_ok (lift_ok (width_loop_behind _ hnul' _) s), htail]
    rfl
  · next type tail htail =>
    split at h
    · next hwidth =>
      refine ⟨kErrorTooWide, type :: (tail ++ [0]), fun σ out s => ?_⟩
      rw [consume_specifier_eq, bind_ok (lift_ok (width_loop_behind _ hnul' _) s), htail]
      dsimp only
      rw [if_pos hwidth]
      rfl
    · cases h

/-! ## The whole format -/

theorem text_loop_eq (text tail : List u8) (c : u8) (htext : ∀ x ∈ text, x ≠ 0 ∧ x ≠ kPercent)
    (hc : c = 0 ∨ c = kPercent) (n : ℕ) :
    text_loop (text ++ c :: tail) n = .ok (n + text.length, c) := by
  induction text generalizing n with
  | nil => rw [List.nil_append, text_loop, if_pos hc, List.length_nil, Nat.add_zero]
  | cons x text ih =>
      have hx := htext x List.mem_cons_self
      rw [List.cons_append, text_loop, if_neg (not_or.mpr hx),
        ih fun y hy => htext y (List.mem_cons_of_mem _ hy)]
      congr 2
      rw [List.length_cons]
      omega

/-- The text in front of a specifier is handed over in one piece, if there is any. -/
def text_pieces (text : List u8) : List (List u8) := if text = [] then [] else [text]

theorem consume_until_percent_eq {text : List u8} (tail : List u8) {c : u8}
    (htext : ∀ x ∈ text, x ≠ 0 ∧ x ≠ kPercent) (hc : c = 0 ∨ c = kPercent) (out : SinkFunc σ)
    (s : σ) :
    consume_until_percent out (text ++ c :: tail) s =
      .ok ((decide (c ≠ 0), (deliver out (text_pieces text) s).1, c :: tail),
        (deliver out (text_pieces text) s).2) := by
  have hloop : text_loop (text ++ c :: tail) 0 = .ok (text.length, c) := by
    rw [text_loop_eq text tail c htext hc, Nat.zero_add]
  have hdrop : (text ++ c :: tail).drop text.length = c :: tail := List.drop_left
  have htake : (text ++ c :: tail).take text.length = text := List.take_left
  rw [consume_until_percent, bind_ok (lift_ok hloop s), text_pieces]
  dsimp only
  by_cases hempty : text = []
  · rw [if_neg (by simp [hempty]), if_pos hempty, hdrop]
    rfl
  · rw [if_pos (List.length_pos_of_ne_nil hempty), if_neg hempty, hdrop, htake, deliver_singleton]
    rfl

/-- A letter of the format that is not its terminator. -/
theorem first_char_of_plain {text : List u8} (htext : ∀ x ∈ text, x ≠ 0 ∧ x ≠ kPercent) {c : u8}
    (hc : c ≠ 0) (tail : List u8) : ∃ x, first_char (text ++ c :: tail) = .ok x ∧ x ≠ 0 := by
  cases text with
  | nil => exact ⟨c, rfl, hc⟩
  | cons x text => exact ⟨x, rfl, (htext x List.mem_cons_self).1⟩

section passes

variable {text rest : List u8} {n : ℕ} {args : List VaArg}

/-- The last pass, with no specifier. -/
theorem vfprintf_loop_text (htext : ∀ x ∈ text, x ≠ 0 ∧ x ≠ kPercent) :
    Hands (fun _ out => vfprintf_loop out (n + 1) (text ++ [0]) args) (text_pieces text) := by
  intro σ out s
  show vfprintf_loop out (n + 1) (text ++ [0]) args s = _
  cases htext' : text with
  | nil => rfl
  | cons x text' =>
      have hfirst : first_char (text ++ [0]) = .ok x := by rw [htext']; rfl
      have hx : x ≠ 0 := (htext x (htext' ▸ List.mem_cons_self)).1
      rw [← htext', vfprintf_loop, bind_ok (lift_ok hfirst s), if_neg hx,
        bind_ok (consume_until_percent_eq [] htext (Or.inl rfl) out s)]
      rfl

/-- The last pass, with a specifier that is not well formed. -/
theorem vfprintf_loop_malformed (htext : ∀ x ∈ text, x ≠ 0 ∧ x ≠ kPercent) (hnul : 0 ∉ rest)
    (h : read_specifier rest = none) :
    Oblivious fun _ out =>
      vfprintf_loop out (n + 1) (text ++ kPercent :: (rest ++ [0])) args := by
  obtain ⟨buf, behind, hnone⟩ := consume_specifier_none hnul h
  obtain ⟨x, hfirst, hx⟩ := first_char_of_plain htext (by decide : kPercent ≠ 0) (rest ++ [0])
  refine ⟨text_pieces text ++ [buf], fun σ out s => ?_⟩
  show vfprintf_loop out (n + 1) (text ++ kPercent :: (rest ++ [0])) args s = _
  rw [vfprintf_loop, bind_ok (lift_ok hfirst s), if_neg hx,
    bind_ok (consume_until_percent_eq _ htext (Or.inr rfl) out s), deliver_append,
    deliver_singleton]
  dsimp only
  rw [if_pos (by decide), bind_ok (hnone σ out _)]
  rfl

/-- A pass with a specifier. -/
theorem vfprintf_loop_specifier (htext : ∀ x ∈ text, x ≠ 0 ∧ x ≠ kPercent) (hnul : 0 ∉ rest)
    {spec : FormatSpecifier} {behind : List u8} (h : read_specifier rest = some (spec, behind))
    {args' : List VaArg} {cs ds : List (List u8)}
    (hspec : HandsLeaving (fun _ out => process_specifier out spec args) cs args')
    (hbehind : Hands (fun _ out => vfprintf_loop out n (behind ++ [0]) args') ds) :
    Hands (fun _ out => vfprintf_loop out (n + 1) (text ++ kPercent :: (rest ++ [0])) args)
      (text_pieces text ++ (cs ++ ds)) := by
  obtain ⟨x, hfirst, hx⟩ := first_char_of_plain htext (by decide : kPercent ≠ 0) (rest ++ [0])
  have hsum : ∀ a b c : u32, a + 0 + b + c = a + (b + c) := by
    intro a b c
    show a + 0#32 + b + c = a + (b + c)
    rw [BitVec.add_zero, BitVec.add_assoc]
  intro σ out s
  show vfprintf_loop out (n + 1) (text ++ kPercent :: (rest ++ [0])) args s = _
  rw [vfprintf_loop, bind_ok (lift_ok hfirst s), if_neg hx,
    bind_ok (consume_until_percent_eq _ htext (Or.inr rfl) out s), deliver_append, deliver_append]
  dsimp only
  rw [if_pos (by decide), bind_ok (consume_specifier_some hnul h out _)]
  dsimp only
  rw [bind_ok (hspec σ out _)]
  rw [bind_ok (hbehind σ out _)]
  exact congrArg (fun n => Except.ok (n, _)) (hsum _ _ _)

end passes

/-- The induction is on the length of the format: nothing that is printed depends on the sink. -/
theorem vfprintf_loop_oblivious (n : ℕ) (format : List u8) (hlen : format.length ≤ n)
    (hnul : 0 ∉ format) (args : List VaArg)
    (hfits : Fits ((specifiers n format).flatMap FormatSpecifier.takes) args) :
    Oblivious fun _ out => vfprintf_loop out (n + 1) (format ++ [0]) args := by
  induction n generalizing format args with
  | zero =>
      obtain rfl : format = [] := List.length_eq_zero_iff.mp (by omega)
      exact ⟨[], fun _ _ _ => rfl⟩
  | succ n ih =>
      have hsplit : format.takeWhile (· ≠ kPercent) ++ format.dropWhile (· ≠ kPercent) = format :=
        List.takeWhile_append_dropWhile
      have htext : ∀ x ∈ format.takeWhile (· ≠ kPercent), x ≠ 0 ∧ x ≠ kPercent := by
        intro x hx
        refine ⟨?_, by simpa using List.all_eq_true.mp List.all_takeWhile x hx⟩
        rintro rfl
        exact hnul (hsplit ▸ List.mem_append_left _ hx)
      rw [specifiers] at hfits
      cases htail : format.dropWhile (· ≠ kPercent) with
      | nil =>
          rw [htail, List.append_nil] at hsplit
          rw [hsplit] at htext
          exact ⟨_, vfprintf_loop_text htext⟩
      | cons p rest =>
          obtain rfl : p = kPercent := by
            have hhead := List.head?_dropWhile_not (· ≠ kPercent) format
            rw [htail] at hhead
            simpa using hhead
          have hwhole : format ++ [0] =
              format.takeWhile (· ≠ kPercent) ++ kPercent :: (rest ++ [0]) := by
            conv_lhs => rw [← hsplit, htail, List.append_assoc, List.cons_append]
          have hsub : rest <:+ format := by
            rw [← hsplit, htail]
            exact (List.suffix_cons _ rest).trans (List.suffix_append _ _)
          have hnul' : 0 ∉ rest := fun hmem => hnul (hsub.subset hmem)
          rw [htail, List.drop_one, List.tail_cons] at hfits
          rw [hwhole]
          cases hspec : read_specifier rest with
          | none => exact vfprintf_loop_malformed htext hnul' hspec
          | some found =>
              obtain ⟨spec, behind⟩ := found
              rw [hspec] at hfits
              obtain ⟨hsuffix, hshorter⟩ := read_specifier_suffix hspec
              obtain ⟨args', hfits', cs, hcs⟩ := process_specifier_consumes hfits
              have hlen' : behind.length ≤ n := by
                have hrest := hsub.length_le
                omega
              obtain ⟨ds, hds⟩ := ih behind hlen' (fun hmem => hnul' (hsuffix.subset hmem)) args' hfits'
              exact ⟨_, vfprintf_loop_specifier htext hnul' hspec hcs hds⟩

/-- What `base_vfprintf` hands over does not depend on the sink, if the arguments fit. -/
theorem vfprintf_hands {format : List u8} (hnul : 0 ∉ format) {args : List VaArg}
    (hfits : Fits (takes format) args) :
    ∃ cs, ∀ (σ : Type) (out : Option (SinkFunc σ)) (s : σ),
      base_vfprintf out (format ++ [0]) args s = .ok (deliver (out.getD base_dev_null) cs s) := by
  obtain ⟨cs, hcs⟩ := vfprintf_loop_oblivious format.length format le_rfl hnul args hfits
  refine ⟨cs, fun σ out s => ?_⟩
  rw [base_vfprintf, List.length_append]
  exact hcs σ (out.getD base_dev_null) s

/-- A format with no specifier is handed over as it is. -/
theorem fprintf_text {text : List u8} (htext : ∀ x ∈ text, x ≠ 0 ∧ x ≠ kPercent)
    (args : List VaArg) :
    Hands (fun _ out => base_fprintf (some out) (text ++ [0]) args) (text_pieces text) := by
  intro σ out s
  show base_vfprintf (some out) (text ++ [0]) args s = _
  rw [base_vfprintf, List.length_append]
  exact vfprintf_loop_text htext σ out s

/-- A format that is one specifier with text behind it. -/
theorem fprintf_specifier (hnul : 0 ∉ cs) {spec : FormatSpecifier} {behind : List u8}
    (hspec : read_specifier cs = some (spec, behind))
    (hbehind : ∀ x ∈ behind, x ≠ 0 ∧ x ≠ kPercent) {args rest : List VaArg}
    {pieces : List (List u8)}
    (h : HandsLeaving (fun _ out => process_specifier out spec args) pieces rest) :
    Hands (fun _ out => base_fprintf (some out) (kPercent :: cs ++ [0]) args)
      (pieces ++ text_pieces behind) := by
  have hplain : ∀ x ∈ ([] : List u8), x ≠ 0 ∧ x ≠ kPercent := fun x hx => absurd hx List.not_mem_nil
  have hend : Hands (fun _ out => vfprintf_loop out (cs.length + 1) (behind ++ [0]) rest)
      (text_pieces behind) := vfprintf_loop_text hbehind
  have hlength : (kPercent :: cs ++ [0]).length = cs.length + 1 + 1 := by simp
  intro σ out s
  show base_vfprintf (some out) (kPercent :: cs ++ [0]) args s = _
  rw [base_vfprintf, hlength]
  exact vfprintf_loop_specifier hplain hnul hspec h hend σ out s

end reading

/-! ## Bounded formatting -/

/-- A sink that takes everything and keeps it. -/
def recorder : SinkFunc (List u8) := accept Store.list

/-- Bytes go to the memory, and the pointer behind them. -/
def Store.memory : Store (Mem × ℕ) u8 where
  put s bytes := (writeBytes s.1 s.2 bytes, s.2 + bytes.length)
  put_nil s := Prod.ext (funext fun a => writeBytes_of_not_mem _ _ _ _ (by simp)) rfl
  put_append s xs ys := by rw [writeBytes_append, List.length_append, Nat.add_assoc]

/-- The sink of `base_snprintf` is the bounded sink of a memory. -/
theorem snprintf_sink_eq (captures : SnprintfCaptures) (c : List u8) :
    snprintf_sink captures c =
      (((min captures.bytes_left c.length : ℕ) : u32),
        ⟨writeBytes captures.mem captures.buf (c.take captures.bytes_left),
          captures.buf + (c.take captures.bytes_left).length,
          captures.bytes_left - c.length⟩) := by
  obtain ⟨mem, buf, left⟩ := captures
  rw [snprintf_sink]
  dsimp only
  by_cases hzero : left = 0
  · subst hzero
    rw [if_pos rfl, List.take_zero, Nat.zero_min, Nat.zero_sub]
    have hput := Store.memory.put_nil (mem, buf)
    exact congrArg (fun s : Mem × ℕ => ((0 : u32), SnprintfCaptures.mk s.1 s.2 0)) hput.symm
  · rw [if_neg hzero]
    by_cases hcut : c.length > left
    · rw [if_pos hcut, List.length_take, Nat.min_eq_left (le_of_lt hcut), Nat.sub_self,
        Nat.sub_eq_zero_of_le (le_of_lt hcut)]
    · have hle : c.length ≤ left := Nat.le_of_not_lt hcut
      rw [if_neg hcut, List.take_length, List.take_of_length_le hle, Nat.min_eq_right hle]

/-- The memory as a store, with so much room. -/
def memory_sink : SinkFunc ((Mem × ℕ) × ℕ) := bounded Store.memory

theorem deliver_snprintf_sink (cs : List (List u8)) (mem : Mem) (buf len : ℕ) :
    deliver snprintf_sink cs ⟨mem, buf, len⟩ =
      (((min len cs.flatten.length : ℕ) : u32),
        ⟨writeBytes mem buf (cs.flatten.take len), buf + (cs.flatten.take len).length,
          len - cs.flatten.length⟩) := by
  let captures (s : (Mem × ℕ) × ℕ) := SnprintfCaptures.mk s.1.1 s.1.2 s.2
  have hmap : deliver snprintf_sink cs (captures ((mem, buf), len)) =
      ((deliver memory_sink cs ((mem, buf), len)).1,
        captures (deliver memory_sink cs ((mem, buf), len)).2) :=
    deliver_map captures (fun s c => snprintf_sink_eq (captures s) c) cs ((mem, buf), len)
  rw [memory_sink, deliver_bounded] at hmap
  exact hmap

/-- Whatever the room, the buffer holds the beginning of what an unbounded sink is handed, and
nothing behind the room is touched. -/
theorem base_snprintf_prefix {format : List u8} (hnul : 0 ∉ format) {args : List VaArg}
    (hfits : Fits (takes format) args) (mem : Mem) (buf : ℕ) (len : u32) :
    ∃ expansion written mem',
      base_fprintf (some recorder) (format ++ [0]) args [] = .ok (expansion.length, expansion) ∧
      base_snprintf mem buf len (format ++ [0]) args = .ok (written, mem') ∧
      written.toNat = min len.toNat expansion.length ∧
      readBytes mem' buf written.toNat = expansion.take len.toNat ∧
      ∀ a, a < buf ∨ buf + written.toNat ≤ a → mem' a = mem a := by
  obtain ⟨cs, hcs⟩ := vfprintf_hands hnul hfits
  have hwritten : (((min len.toNat cs.flatten.length : ℕ) : u32)).toNat =
      min len.toNat cs.flatten.length := by
    rw [BitVec.natCast_eq_ofNat, BitVec.toNat_ofNat]
    have hlen := len.isLt
    omega
  have hlength : (cs.flatten.take len.toNat).length = min len.toNat cs.flatten.length :=
    List.length_take
  refine ⟨cs.flatten, ((min len.toNat cs.flatten.length : ℕ) : u32),
    writeBytes mem buf (cs.flatten.take len.toNat), ?_, ?_, hwritten, ?_, ?_⟩
  · rw [base_fprintf, hcs]
    exact congrArg Except.ok (deliver_accept Store.list cs [])
  · rw [base_snprintf, hcs]
    show Except.ok ((deliver snprintf_sink cs ⟨mem, buf, len.toNat⟩).1, _) = _
    rw [Option.getD_some, deliver_snprintf_sink]
  · rw [hwritten, ← hlength, readBytes_writeBytes]
  · intro a ha
    rw [hwritten] at ha
    apply writeBytes_of_not_mem
    rw [hlength]
    omega

/-- A format that ends inside a specifier, and a buffer that is full after four bytes. -/
theorem base_snprintf_prefix_four :
    base_fprintf (some recorder) (text "%3d, %" ++ [0]) [.word 7] [] =
        .ok (22, text "  7, %<unexpected nul>") ∧
      ∃ mem', base_snprintf (fun _ => 0) 100 4 (text "%3d, %" ++ [0]) [.word 7] = .ok (4, mem') ∧
        readBytes mem' 100 4 = text "  7," ∧ ∀ a, a < 100 ∨ 104 ≤ a → mem' a = 0 := by
  have hnul : 0 ∉ text "%3d, %" := by decide
  have hfits : Fits (takes (text "%3d, %")) [.word 7] := trivial
  have hexpansion : base_fprintf (some recorder) (text "%3d, %" ++ [0]) [.word 7] [] =
      .ok (22, text "  7, %<unexpected nul>") := by decide +kernel
  obtain ⟨expansion, written, mem', hprintf, hsnprintf, hwritten, hread, hframe⟩ :=
    base_snprintf_prefix hnul hfits (fun _ => 0) 100 4
  obtain rfl : text "  7, %<unexpected nul>" = expansion :=
    congrArg Prod.snd (Except.ok.inj (hexpansion.symm.trans hprintf))
  obtain rfl : written = 4 := BitVec.eq_of_toNat_eq (hwritten.trans (by decide))
  exact ⟨hexpansion, mem', hsnprintf, hread, hframe⟩

end IbexFirmware.Print
