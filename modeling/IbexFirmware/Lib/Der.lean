/-
The distinguished encoding rules: each value has one encoding.

An element is its identifier octet, the length of its contents in the definite form, and
the contents. A length takes as few octets as it can, and so does an integer, which is
in two's complement. `integerOctets` says what the octets of an integer are. A builder
starts from octets that are too many and drops some, so what it needs is
`integerOctets_signedValue`: octets of which none can be dropped are those of their
value.
-/
import IbexFirmware.Lib.Bytes

set_option autoImplicit false

namespace IbexFirmware.Der

open Bytes

/-! ## Elements and their lengths -/

/-- The digits of `n` in base 256, the most significant first. -/
def natOctets (n : ℕ) : List u8 := ((Nat.digits 256 n).map (BitVec.ofNat 8)).reverse

/-- A length in the definite form. -/
def lengthOctets (n : ℕ) : List u8 :=
  if n ≤ 0x7f then [BitVec.ofNat 8 n]
  else (0x80 ||| BitVec.ofNat 8 (natOctets n).length) :: natOctets n

/-- An element with its identifier octet. -/
def tlv (id : u8) (contents : List u8) : List u8 :=
  id :: lengthOctets contents.length ++ contents

theorem lengthOctets_short {n : ℕ} (h : n ≤ 0x7f) : lengthOctets n = [BitVec.ofNat 8 n] :=
  if_pos h

theorem lengthOctets_one {n : ℕ} (h : 0x7f < n) (hn : n ≤ 0xff) :
    lengthOctets n = [0x81, BitVec.ofNat 8 n] := by
  have hdigits : natOctets n = [BitVec.ofNat 8 n] := by
    unfold natOctets
    rw [Nat.digits_of_lt 256 n (by omega) (by omega)]
    rfl
  rw [lengthOctets, if_neg (by omega), hdigits, List.length_singleton]
  congr 1

theorem lengthOctets_two {n : ℕ} (h : 0xff < n) (hn : n ≤ 0xffff) :
    lengthOctets n = [0x82, BitVec.ofNat 8 (n / 256), BitVec.ofNat 8 (n % 256)] := by
  have hdigits : natOctets n = [BitVec.ofNat 8 (n / 256), BitVec.ofNat 8 (n % 256)] := by
    unfold natOctets
    rw [Nat.digits_def' (by decide) (by omega),
      Nat.digits_of_lt 256 (n / 256) (by omega) (by omega)]
    rfl
  rw [lengthOctets, if_neg (by omega), hdigits, List.length_cons, List.length_singleton]
  congr 1

/-! ## Integers -/

/-- The octets of an integer: the last one and those of what is left without it. -/
def integerOctets (v : ℤ) : List u8 :=
  if -128 ≤ v ∧ v < 128 then [BitVec.ofInt 8 v]
  else integerOctets (v / 256) ++ [BitVec.ofInt 8 v]
  termination_by v.natAbs
  decreasing_by omega

/-- The two's complement value of big-endian octets. -/
def signedValue : List u8 → ℤ
  | [] => 0
  | b :: bytes => bytes.foldl (fun v x => v * 256 + x.toNat) b.toInt

/-- The value of big-endian octets without a sign. -/
def unsignedValue (bytes : List u8) : ℤ := signedValue (0 :: bytes)

/-- The first nine bits are not all the same, so no octet can be dropped. -/
def Minimal : List u8 → Prop
  | [] => False
  | [_] => True
  | a :: b :: _ => ¬ (a = 0 ∧ b.msb = false) ∧ ¬ (a = 0xff ∧ b.msb = true)

theorem signedValue_snoc {bytes : List u8} (h : bytes ≠ []) (x : u8) :
    signedValue (bytes ++ [x]) = signedValue bytes * 256 + x.toNat := by
  cases bytes with
  | nil => exact absurd rfl h
  | cons b bytes => exact List.foldl_concat _ _ _ _

/-- An octet that only repeats the sign can be dropped. -/
theorem signedValue_cons {a b : u8} (bytes : List u8)
    (h : a = 0 ∧ b.msb = false ∨ a = 0xff ∧ b.msb = true) :
    signedValue (a :: b :: bytes) = signedValue (b :: bytes) := by
  have hhead : a.toInt * 256 + b.toNat = b.toInt := by
    rw [BitVec.toInt_eq_msb_cond b]
    obtain ⟨rfl, hmsb⟩ | ⟨rfl, hmsb⟩ := h
    · rw [hmsb]
      simp
    · rw [hmsb]
      simp
      omega
  show bytes.foldl _ (a.toInt * 256 + b.toNat) = bytes.foldl _ b.toInt
  rw [hhead]

theorem toInt_range (b : u8) : -128 ≤ b.toInt ∧ b.toInt < 128 := by
  have hle := BitVec.le_toInt b
  have hlt := BitVec.toInt_lt (x := b)
  constructor
  · simpa using hle
  · simpa using hlt

theorem toInt_eq_zero {b : u8} : b.toInt = 0 ↔ b = 0 := BitVec.toInt_inj (y := (0 : u8))

theorem toInt_eq_neg_one {b : u8} : b.toInt = -1 ↔ b = 0xff := BitVec.toInt_inj (y := (0xff : u8))

/-- Minimal octets without the last one are minimal. -/
theorem Minimal.dropLast {bytes : List u8} {x : u8} (h : Minimal (bytes ++ [x])) (hne : bytes ≠ []) :
    Minimal bytes := by
  match bytes with
  | [] => exact absurd rfl hne
  | [_] => trivial
  | _ :: _ :: _ => exact h

/-- Two minimal octets or more do not fit into one. -/
theorem Minimal.not_single {bytes : List u8} (h : Minimal bytes) (hlen : 2 ≤ bytes.length) :
    ¬ (-128 ≤ signedValue bytes ∧ signedValue bytes < 128) := by
  induction bytes using List.reverseRecOn with
  | nil => exact absurd hlen (by decide)
  | append_singleton bytes x ih =>
      have hne : bytes ≠ [] := by
        rintro rfl
        exact absurd hlen (by simp)
      rw [signedValue_snoc hne]
      by_cases hmore : 2 ≤ bytes.length
      · have hout := ih (h.dropLast hne) hmore
        omega
      · have hone : bytes.length = 1 := by
          have hpos := List.length_pos_iff.mpr hne
          omega
        obtain ⟨b, rfl⟩ := List.length_eq_one_iff.mp hone
        obtain ⟨hzero, hones⟩ := h
        rw [← toInt_eq_zero, BitVec.msb_eq_false_iff_two_mul_lt] at hzero
        rw [← toInt_eq_neg_one, BitVec.msb_eq_true_iff_two_mul_ge] at hones
        change ¬ (-128 ≤ b.toInt * 256 + x.toNat ∧ b.toInt * 256 + x.toNat < 128)
        omega

/-- Octets of which none can be dropped are those of their value. -/
theorem integerOctets_signedValue {bytes : List u8} (h : Minimal bytes) :
    integerOctets (signedValue bytes) = bytes := by
  induction bytes using List.reverseRecOn with
  | nil => exact absurd h id
  | append_singleton bytes x ih =>
      by_cases hne : bytes = []
      · subst hne
        have hrange := toInt_range x
        rw [List.nil_append, show signedValue [x] = x.toInt from rfl, integerOctets, if_pos hrange,
          BitVec.ofInt_toInt]
      · have hlen : 2 ≤ (bytes ++ [x]).length := by
          have hpos := List.length_pos_iff.mpr hne
          rw [List.length_append, List.length_singleton]
          omega
        have hout := h.not_single hlen
        rw [signedValue_snoc hne] at hout ⊢
        have hquot : (signedValue bytes * 256 + x.toNat) / 256 = signedValue bytes := by omega
        have hlast : BitVec.ofInt 8 (signedValue bytes * 256 + x.toNat) = x := by
          apply BitVec.eq_of_toNat_eq
          rw [BitVec.toNat_ofInt]
          omega
        rw [integerOctets, if_neg hout, hquot, hlast, ih (h.dropLast hne)]

/-! ## Bit strings -/

/-- Up to eight bits as an octet, the first one on top. -/
def octet (bits : List Bool) : u8 :=
  bits.foldl (fun (o : u8) bit => o <<< 1 ||| if bit then 1#8 else 0#8) 0#8 <<< (8 - bits.length)

/-- The octets of a string of bits, the last one padded with zeros. -/
def pack (bits : List Bool) : List u8 :=
  if bits = [] then [] else octet (bits.take 8) :: pack (bits.drop 8)
  termination_by bits.length
  decreasing_by
    have hpos : 0 < bits.length := List.length_pos_iff.mpr ‹_›
    rw [List.length_drop]
    omega

/-- The contents of a bit string: how many bits of the last octet are unused, and the bits. -/
def bitOctets (bits : List Bool) : List u8 :=
  BitVec.ofNat 8 ((8 - bits.length % 8) % 8) :: pack bits

theorem octet_snoc {bits : List Bool} (h : bits.length < 8) (bit : Bool) :
    octet (bits ++ [bit]) =
      if bit then octet bits ||| 1#8 <<< (7 - bits.length) else octet bits := by
  unfold octet
  rw [List.foldl_concat, List.length_append, List.length_singleton, BitVec.shiftLeft_or_distrib,
    ← BitVec.shiftLeft_add, show 1 + (8 - (bits.length + 1)) = 8 - bits.length by omega,
    show 8 - (bits.length + 1) = 7 - bits.length by omega]
  cases bit <;> simp

theorem pack_append (bits : List Bool) (h : bits.length = 8) (rest : List Bool) :
    pack (bits ++ rest) = octet bits :: pack rest := by
  rw [pack, if_neg]
  · rw [List.take_left' h, List.drop_left' h]
  · intro hnil
    rw [List.append_eq_nil_iff.mp hnil |>.1] at h
    cases h

theorem pack_short {bits : List Bool} (hne : bits ≠ []) (h : bits.length < 8) :
    pack bits = [octet bits] := by
  rw [pack, if_neg hne, List.take_of_length_le h.le, List.drop_of_length_le h.le, pack, if_pos rfl]

end IbexFirmware.Der
