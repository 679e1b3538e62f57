/-
What the integer readers of `ujson.c` accept and store.

All of them are `ujson_parse_integer`, which reads into 64 bits and a sign and copies as
many bytes of the result as the type has. What it tests is that the magnitude fits 64
bits, and a negative one 63. A type that is narrower, or has no sign, or no room for the
upper half of the magnitudes, gets the number modulo two to its width. The unit tests of
the codec ask for that.
-/
import IbexFirmware.UjsonParse

set_option autoImplicit false

namespace IbexFirmware.Json

open Bytes PowerFail Session

/-! ## The bytes of an integer -/

theorem getLsbD_load_bytes (bytes : List u8) (i : ℕ) (hi : i < 64) :
    (load_bytes bytes).getLsbD i = (bytes.getD (i / 8) 0).getLsbD (i % 8) := by
  induction bytes generalizing i with
  | nil => simp [load_bytes]
  | cons b bytes ih =>
      rw [load_bytes, BitVec.getLsbD_or, BitVec.getLsbD_shiftLeft, BitVec.getLsbD_setWidth]
      rcases Nat.lt_or_ge i 8 with hlt | hge
      · have hdiv : i / 8 = 0 := Nat.div_eq_of_lt hlt
        simp [hlt, hi, hdiv, Nat.mod_eq_of_lt hlt]
      · have hdiv : i / 8 = (i - 8) / 8 + 1 := by omega
        have hmod : (i - 8) % 8 = i % 8 := by omega
        have hout : b.getLsbD i = false := BitVec.getLsbD_of_ge b i hge
        simp [hi, hout, Nat.not_lt.mpr hge, hdiv, ih (i - 8) (by omega), hmod]

theorem length_bytes_of (n : ℕ) (v : u64) : (bytes_of n v).length = n := by
  simp [bytes_of]

theorem load_bytes_bytes_of (n : ℕ) (v : u64) :
    load_bytes (bytes_of n v) = (v.setWidth (8 * n)).setWidth 64 := by
  ext i hi
  rw [← BitVec.getLsbD_eq_getElem, ← BitVec.getLsbD_eq_getElem, getLsbD_load_bytes _ i hi]
  simp only [BitVec.getLsbD_setWidth, hi, decide_true, Bool.true_and]
  by_cases hin : i < 8 * n
  · have hdiv : i / 8 < n := by omega
    have hpos : 8 * (i / 8) + i % 8 = i := Nat.div_add_mod i 8
    have hmod : i % 8 < 8 := Nat.mod_lt i (by omega)
    simp [bytes_of, List.getD_eq_getElem?_getD, hdiv, hin, hmod, hpos]
  · have hdiv : ¬ i / 8 < n := by omega
    simp [bytes_of, List.getD_eq_getElem?_getD, hdiv, hin]

theorem setWidth_ofInt {k : ℕ} (hk : k ≤ 64) (z : ℤ) :
    (BitVec.ofInt 64 z).setWidth k = BitVec.ofInt k z := by
  apply BitVec.eq_of_toInt_eq
  rw [BitVec.toInt_setWidth, BitVec.toInt_ofInt, BitVec.toNat_ofInt]
  have hdvd : ((2 ^ k : ℕ) : ℤ) ∣ ((2 ^ 64 : ℕ) : ℤ) :=
    Int.natCast_dvd_natCast.mpr (Nat.pow_dvd_pow 2 hk)
  rw [Int.toNat_of_nonneg (Int.emod_nonneg _ (by norm_num)), ← Int.emod_bmod,
    Int.emod_emod_of_dvd z hdvd, Int.emod_bmod]

/-! ## What the types hold -/

def Scalar.signed : Scalar → Bool
  | .int64_t | .int32_t | .int16_t | .int8_t => true
  | _ => false

/-- The values of the integer type. -/
def Scalar.Represents (type : Scalar) (z : ℤ) : Prop :=
  if type.signed then -2 ^ (8 * type.size - 1) ≤ z ∧ z < 2 ^ (8 * type.size - 1)
  else 0 ≤ z ∧ z < 2 ^ (8 * type.size)

/-- The integer at `p`. -/
def Scalar.value (type : Scalar) (m : Mem) (p : ℕ) : ℤ :=
  if type.signed then (load type.size true m p).toInt else (load type.size false m p).toNat

theorem size_le (type : Scalar) : 1 ≤ type.size ∧ type.size ≤ 8 := by
  cases type <;> decide

/-- The number of the type with the low bytes of `z`. -/
def Scalar.wrap (type : Scalar) (z : ℤ) : ℤ :=
  if type.signed then z.bmod (2 ^ (8 * type.size)) else z % 2 ^ (8 * type.size)

/-- The low bytes of `z` are those of `z` itself exactly if the type has it. -/
theorem wrap_eq_iff {type : Scalar} {z : ℤ} : type.wrap z = z ↔ type.Represents z := by
  have hsize := (size_le type).1
  obtain ⟨j, hj⟩ : ∃ j, 8 * type.size = j + 1 := ⟨8 * type.size - 1, by omega⟩
  have hpow : ((2 ^ (j + 1) : ℕ) : ℤ) = 2 * 2 ^ j := by
    push_cast
    ring
  rw [Scalar.wrap, Scalar.Represents, hj, Nat.add_sub_cancel]
  cases type.signed with
  | true =>
      simp only [if_true]
      constructor
      · intro h
        have hge := Int.le_bmod (x := z) (Nat.two_pow_pos (j + 1))
        have hlt := Int.bmod_lt (x := z) (Nat.two_pow_pos (j + 1))
        rw [h, hpow] at hge hlt
        omega
      · rintro ⟨hge, hlt⟩
        apply Int.bmod_eq_of_le
        · rw [hpow]
          omega
        · rw [hpow]
          omega
  | false =>
      have hwhole : (0 : ℤ) < 2 ^ (j + 1) := by positivity
      constructor
      · intro h
        rw [← h]
        exact ⟨Int.emod_nonneg z (by omega), Int.emod_lt_of_pos z hwhole⟩
      · rintro ⟨hge, hlt⟩
        exact Int.emod_eq_of_lt hge hlt

/-- The bytes that are copied of the 64 bits of `z`, read back at their type. -/
theorem value_bytes_of {type : Scalar} {m : Mem} {p : ℕ} {z : ℤ}
    (h : readBytes m p type.size = bytes_of type.size (BitVec.ofInt 64 z)) :
    type.value m p = type.wrap z := by
  obtain ⟨hpos, hle⟩ := size_le type
  have hload := load_bytes_bytes_of type.size (BitVec.ofInt 64 z)
  rw [setWidth_ofInt (by omega), ← h] at hload
  rw [Scalar.value, Scalar.wrap, load, load, hload]
  cases type.signed with
  | true =>
      simp only [if_true]
      rw [BitVec.setWidth_setWidth_of_le _ (by omega), BitVec.setWidth_eq,
        BitVec.toInt_signExtend_of_le (by omega), BitVec.toInt_ofInt]
  | false =>
      have hwide : (BitVec.ofInt (8 * type.size) z).toNat < 2 ^ 64 :=
        (BitVec.isLt _).trans_le (Nat.pow_le_pow_right (by omega) (by omega))
      have hpow : ((2 ^ (8 * type.size) : ℕ) : ℤ) = 2 ^ (8 * type.size) := by
        push_cast
        rfl
      simp only [Bool.false_eq_true, if_false]
      rw [BitVec.toNat_setWidth, Nat.mod_eq_of_lt hwide, BitVec.toNat_ofInt,
        Int.toNat_of_nonneg (Int.emod_nonneg z (by positivity)), hpow]

/-! ## What is accepted -/

/-- The number a numeral writes. -/
def numeral_value (neg : Bool) (ds : List u8) : ℤ :=
  if neg then -(decimal_value 0 ds : ℤ) else decimal_value 0 ds

theorem integer_bits_eq (neg : Bool) (ds : List u8) :
    integer_bits neg ds = BitVec.ofInt 64 (numeral_value neg ds) := by
  cases neg with
  | false => exact (BitVec.ofInt_natCast 64 _).symm
  | true => rw [integer_bits, numeral_value, if_pos rfl, if_pos rfl, BitVec.ofInt_neg,
      BitVec.ofInt_natCast]

theorem fitsMagnitude_iff (neg : Bool) (ds : List u8) :
    FitsMagnitude neg ds ↔ -2 ^ 63 ≤ numeral_value neg ds ∧ numeral_value neg ds < 2 ^ 64 := by
  have hmax : UINT64_MAX = 18446744073709551615 := rfl
  rw [FitsMagnitude, numeral_value]
  cases neg with
  | false =>
      simp only [Bool.false_eq_true, if_false, false_imp_iff, and_true]
      omega
  | true =>
      simp only [if_true, true_imp_iff]
      omega

variable {xs ds rest : List u8} {neg : Bool} {type : Scalar} {p : ℕ}

/-- A reader of integers takes a numeral of 64 bits, and keeps the bytes it has room for. -/
theorem deserialize_integer {s : Ujson} (htype : type ≠ .bool) (hs : s.unread = xs)
    (h : Numeral xs neg ds rest) :
    Leaves (type.deserialize p) s
      (fun _ s' => FitsMagnitude neg ds ∧ s'.unread = rest ∧ s'.buffer = rest.head? ∧
        readBytes s'.target.mem p type.size = bytes_of type.size (integer_bits neg ds))
      (fun _ _ => ¬ FitsMagnitude neg ds) fun _ => False := by
  have hbody : type.deserialize p =
      ujson_parse_integer >>= fun value => store p (bytes_of type.size value) := by
    cases type with
    | bool => exact absurd rfl htype
    | _ => rfl
  rw [hbody]
  refine Leaves.bind (Leaves.conseq (parse_integer_unread s) (fun _ _ => id)
    (fun _ _ hno => hno neg ds rest (hs ▸ h)) fun _ => id) ?_
  rintro _ s₁ ⟨neg', ds', hnumeral, hfits, rfl, hbuffer⟩
  obtain ⟨rfl, rfl, hrest⟩ := h.unique (hs ▸ hnumeral)
  refine Leaves.modify ⟨hfits, hrest, hrest ▸ hbuffer, ?_⟩
  have hread := readBytes_writeBytes s₁.target.mem p (bytes_of type.size (integer_bits neg' ds'))
  rw [length_bytes_of] at hread
  exact hread

/-- Over the text `xs`, which begins with the number `z`, the reader of the type returns
exactly if the type has `z`. Then `z` is what it stored, and it stopped in front of `rest`,
the first character of which it has read and put back. -/
def ReadsInRange (type : Scalar) (p : ℕ) (xs : List u8) (z : ℤ) (rest : List u8) : Prop :=
  ∀ m : Machine Ujson, m.mem.unread = xs →
    ((type.deserialize p m).1 = .ret () ↔ type.Represents z) ∧
    ((type.deserialize p m).1 = .ret () →
      type.value (type.deserialize p m).2.mem.target.mem p = z ∧
      (type.deserialize p m).2.mem.unread = rest ∧
      (type.deserialize p m).2.mem.buffer = rest.head?)

/-- The same with the 64-bit range in place of the type's, and the low bytes of `z`. -/
def ReadsLowBytes (type : Scalar) (p : ℕ) (xs : List u8) (z : ℤ) (rest : List u8) : Prop :=
  ∀ m : Machine Ujson, m.mem.unread = xs →
    ((type.deserialize p m).1 = .ret () ↔ -2 ^ 63 ≤ z ∧ z < 2 ^ 64) ∧
    ((type.deserialize p m).1 = .ret () →
      type.value (type.deserialize p m).2.mem.target.mem p = type.wrap z ∧
      (type.wrap z = z ↔ type.Represents z) ∧
      (type.deserialize p m).2.mem.unread = rest ∧
      (type.deserialize p m).2.mem.buffer = rest.head?)

/-- A context with the text `xs` in the console. -/
def at_console (xs : List u8) : Ujson := ujson_init xs ⟨fun _ => 0, ⟨0, 0⟩, []⟩

/-- 256 is accepted for an 8-bit type, as 0 is. -/
theorem byte_of_256_accepted : ¬ ReadsInRange .uint8_t 0x100 (text "256") 256 [] := by
  intro h
  have h256 : Numeral (text "256") false (text "256") [] :=
    ⟨by decide, by decide, by decide, by decide⟩
  have hfits : FitsMagnitude false (text "256") := ⟨by decide, nofun⟩
  let m : Machine Ujson := Machine.on (at_console (text "256")) fun _ => .done
  have hmem : m.mem.unread = text "256" := rfl
  have htype : Scalar.uint8_t ≠ .bool := nofun
  have hends := deserialize_integer (p := 0x100) htype hmem h256 m rfl
  have hiff := (h m hmem).1
  rcases hrun : Scalar.uint8_t.deserialize 0x100 m with ⟨outcome, m'⟩
  rw [hrun] at hends hiff
  cases outcome with
  | ret _ =>
      have hrep := hiff.mp rfl
      simp [Scalar.Represents, Scalar.signed, Scalar.size] at hrep
  | error e => exact hends hfits
  | trap => exact hends
  | lost => exact hends

/-- The readers take every number of the 64-bit accumulator and its sign, keep of it what
their type has room for, and stop behind its last digit. -/
theorem integers_read_low_bytes (htype : type ≠ .bool) (h : Numeral xs neg ds rest) :
    ReadsLowBytes type p xs (numeral_value neg ds) rest := by
  intro m hm
  have hends := deserialize_integer (p := p) htype hm h m rfl
  rw [fitsMagnitude_iff, integer_bits_eq] at hends
  generalize type.deserialize p m = run at hends ⊢
  obtain ⟨outcome, m'⟩ := run
  cases outcome with
  | ret _ =>
      obtain ⟨hrange, hunread, hbuffer, hbytes⟩ := hends
      exact ⟨⟨fun _ => hrange, fun _ => rfl⟩,
        fun _ => ⟨value_bytes_of hbytes, wrap_eq_iff, hunread, hbuffer⟩⟩
  | error e => exact ⟨⟨nofun, fun hrange => absurd hrange hends⟩, nofun⟩
  | trap => exact hends.elim
  | lost => exact hends.elim

/-- A negative number in front of a comma. -/
theorem integers_read_low_bytes_minus_42 :
    (Scalar.int8_t ≠ .bool ∧ Numeral (text " -42,") true (text "42") (text ",")) ∧
      ReadsLowBytes .int8_t 0x100 (text " -42,") (numeral_value true (text "42")) (text ",") :=
  have h : Numeral (text " -42,") true (text "42") (text ",") :=
    ⟨by decide, by decide, by decide, by decide⟩
  ⟨⟨by decide, h⟩, integers_read_low_bytes (by decide) h⟩

end IbexFirmware.Json
