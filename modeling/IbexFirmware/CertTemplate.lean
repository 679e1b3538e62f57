/-
The integers of the certificate templates (`lib/cert/template.c`).

A template writes an integer by itself and not through the ASN.1 builder. It drops every
leading zero and puts one back where the octets would be empty or negative, while the
builder stops dropping at the last zero that is needed. `template_octets_minimal` and
`minimal_unsigned` say that both end at octets of which none can be dropped, and these
are fixed by their value.
-/
import IbexFirmware.Asn1Emit

set_option autoImplicit false

namespace IbexFirmware.CertTemplate

open Bytes Der Asn1

/-! ## Writing -/

/-- What the template writes to, with `out` for the pointer. -/
structure Output where
  mem : Mem
  out : ℕ

/-- `*out++ = b`. -/
def Output.put (o : Output) (b : u8) : Output := ⟨Function.update o.mem o.out b, o.out + 1⟩

/-- The loop over the leading zeros. -/
def skip_zeros : List u8 → List u8
  | [] => []
  | b :: bytes => if b = 0 then skip_zeros bytes else b :: bytes

def template_asn1_integer_impl (o : Output) (tag : u8) (tweak_msb : Bool) (bytes_be : List u8) :
    Output :=
  let o := o.put tag
  let size_ptr := o.out
  let o : Output := { o with out := o.out + 1 }
  let bytes_be := if tweak_msb then bytes_be else skip_zeros bytes_be
  let o :=
    if tweak_msb then o.put 0
    else if bytes_be.length = 0 ∨ 0x7f < bytes_be.headD 0 then o.put 0
    else o
  let mem := writeBytes o.mem o.out bytes_be
  let mem := if tweak_msb then Function.update mem o.out (mem o.out ||| 0x80) else mem
  let out := o.out + bytes_be.length
  ⟨Function.update mem size_ptr (BitVec.ofNat 8 (out - size_ptr) - 1), out⟩

/-! ## What is written -/

/-- The output with `bytes` behind what it has. -/
def Output.emit (o : Output) (bytes : List u8) : Output :=
  ⟨writeBytes o.mem o.out bytes, o.out + bytes.length⟩

theorem Output.put_eq_emit (o : Output) (b : u8) : o.put b = o.emit [b] := by
  rw [put, emit, update_eq_writeBytes, List.length_singleton]

theorem Output.emit_append (o : Output) (xs ys : List u8) :
    (o.emit xs).emit ys = o.emit (xs ++ ys) := by
  rw [emit, emit, emit, writeBytes_append, List.length_append, Nat.add_assoc]

/-! ## The octets of an integer -/

/-- The octets behind the size when the top bit is not tweaked. -/
def template_octets (bytes_be : List u8) : List u8 :=
  let bytes_be := skip_zeros bytes_be
  if bytes_be.length = 0 ∨ 0x7f < bytes_be.headD 0 then 0 :: bytes_be else bytes_be

theorem skip_zeros_length (bytes : List u8) : (skip_zeros bytes).length ≤ bytes.length := by
  fun_induction skip_zeros bytes with
  | case1 => exact le_rfl
  | case2 bytes ih => exact ih.trans (Nat.le_succ _)
  | case3 b bytes hb => exact le_rfl

theorem skip_zeros_head {bytes rest : List u8} {b : u8} (h : skip_zeros bytes = b :: rest) :
    b ≠ 0 := by
  fun_induction skip_zeros bytes with
  | case1 => cases h
  | case2 bytes ih => exact ih h
  | case3 b' bytes hb =>
      obtain ⟨rfl, -⟩ := List.cons.inj h
      exact hb

/-- A leading zero does not count. -/
theorem unsignedValue_skip_zeros (bytes : List u8) :
    unsignedValue (skip_zeros bytes) = unsignedValue bytes := by
  fun_induction skip_zeros bytes with
  | case1 => rfl
  | case2 bytes ih =>
      rw [ih]
      exact (signedValue_cons bytes (.inl ⟨rfl, rfl⟩)).symm
  | case3 b bytes hb => rfl

theorem template_octets_length (bytes_be : List u8) :
    (template_octets bytes_be).length ≤ bytes_be.length + 1 := by
  have hskip := skip_zeros_length bytes_be
  unfold template_octets
  dsimp only
  split_ifs
  · exact Nat.succ_le_succ hskip
  · exact hskip.trans (Nat.le_succ _)

/-- The octets that are left need their first one. -/
theorem template_octets_minimal (bytes_be : List u8) :
    Minimal (template_octets bytes_be) ∧
      signedValue (template_octets bytes_be) = unsignedValue bytes_be := by
  rw [← unsignedValue_skip_zeros bytes_be]
  unfold template_octets
  dsimp only
  match hskip : skip_zeros bytes_be with
  | [] => exact ⟨trivial, rfl⟩
  | b :: rest =>
      have hb := skip_zeros_head hskip
      have htop : 0x7f < b ↔ b.msb = true := by
        clear hskip hb
        revert b
        decide
      rw [List.headD_cons]
      by_cases hlarge : 0x7f < b
      · -- A zero in front of a top bit is needed.
        have hmsb := htop.mp hlarge
        rw [if_pos (.inr hlarge)]
        refine ⟨⟨?_, ?_⟩, rfl⟩
        · rintro ⟨-, hclear⟩
          rw [hmsb] at hclear
          cases hclear
        · rintro ⟨hones, -⟩
          exact absurd hones (by decide)
      · have hmsb : b.msb = false := by rwa [htop, Bool.not_eq_true] at hlarge
        have hkeep : ¬ ((b :: rest).length = 0 ∨ 0x7f < b) := by
          rintro (hnil | hlt)
          · cases hnil
          · exact hlarge hlt
        rw [if_neg hkeep]
        refine ⟨?_, (signedValue_cons rest (.inl ⟨rfl, hmsb⟩)).symm⟩
        match rest with
        | [] => trivial
        | c :: rest =>
            refine ⟨fun h => hb h.1, ?_⟩
            rintro ⟨rfl, -⟩
            exact absurd hmsb (by decide)

/-- The octets of the value, as the builder has them. -/
theorem template_octets_eq (bytes_be : List u8) :
    template_octets bytes_be = integerOctets (unsignedValue bytes_be) := by
  obtain ⟨hminimal, hvalue⟩ := template_octets_minimal bytes_be
  rw [← hvalue]
  exact (integerOctets_signedValue hminimal).symm

/-! ## The element -/

/-- A byte in front of a store can be written before it or after it. -/
theorem update_writeBytes (m : Mem) (a x : ℕ) (bytes : List u8) (b : u8) (h : x < a) :
    Function.update (writeBytes m a bytes) x b = writeBytes (Function.update m x b) a bytes := by
  funext y
  by_cases hy : y = x
  · subst hy
    rw [Function.update_self, writeBytes_of_not_mem _ _ _ _ (by omega), Function.update_self]
  · rw [Function.update_of_ne hy]
    unfold writeBytes
    rw [Function.update_of_ne hy]

/-- The size byte is written last and lies between the tag and the octets. -/
theorem template_asn1_integer_writes (o : Output) (tag : u8) (bytes_be : List u8)
    (h : bytes_be.length ≤ 126) :
    template_asn1_integer_impl o tag false bytes_be = o.emit (tlv tag (template_octets bytes_be)) := by
  have hlen := template_octets_length bytes_be
  -- What is written behind the size byte.
  have hoctets : (if (skip_zeros bytes_be).length = 0 ∨ 0x7f < (skip_zeros bytes_be).headD 0 then
      Output.put ⟨(o.put tag).mem, o.out + 2⟩ 0 else ⟨(o.put tag).mem, o.out + 2⟩).emit
        (skip_zeros bytes_be) = (Output.mk (o.put tag).mem (o.out + 2)).emit (template_octets bytes_be) := by
    unfold template_octets
    dsimp only
    split_ifs with hzero
    · rw [Output.put_eq_emit, Output.emit_append]
      rfl
    · rfl
  have hsize : BitVec.ofNat 8 (o.out + 2 + (template_octets bytes_be).length - (o.out + 1)) - 1 =
      BitVec.ofNat 8 (template_octets bytes_be).length := by
    have hcount : o.out + 2 + (template_octets bytes_be).length - (o.out + 1) =
        (template_octets bytes_be).length + 1 := by omega
    rw [hcount, BitVec.ofNat_add]
    exact BitVec.add_sub_cancel _ _
  have hmem : ∀ b, Function.update (writeBytes (o.put tag).mem (o.out + 2) (template_octets bytes_be))
      (o.out + 1) b = writeBytes o.mem o.out (tag :: b :: template_octets bytes_be) := by
    intro b
    have htag := congrArg Output.mem (o.put_eq_emit tag)
    rw [update_writeBytes _ _ _ _ _ (Nat.lt_succ_self _), update_eq_writeBytes, htag]
    have hhead : writeBytes (writeBytes o.mem o.out [tag]) (o.out + 1) [b] =
        writeBytes o.mem o.out [tag, b] := writeBytes_append o.mem o.out [tag] [b]
    exact (congrArg (fun m => writeBytes m (o.out + 2) _) hhead).trans
      (writeBytes_append o.mem o.out [tag, b] _)
  have himpl : template_asn1_integer_impl o tag false bytes_be =
      let e := (Output.mk (o.put tag).mem (o.out + 2)).emit (template_octets bytes_be)
      ⟨Function.update e.mem (o.out + 1) (BitVec.ofNat 8 (e.out - (o.out + 1)) - 1), e.out⟩ := by
    rw [← hoctets]
    rfl
  rw [himpl]
  dsimp only [Output.emit]
  rw [hsize, hmem, tlv, lengthOctets_short (by omega)]
  have hout : o.out + 2 + (template_octets bytes_be).length =
      o.out + (tag :: [BitVec.ofNat 8 (template_octets bytes_be).length] ++
        template_octets bytes_be).length := by
    simp only [List.length_cons, List.length_append, List.length_nil]
    omega
  rw [hout]
  rfl

/-- Both encoders write one encoding, the minimal one of the unsigned value. The builder
writes it unless its buffer is too short, and then it has an error. -/
theorem template_integer_agrees (o : Output) (s : Asn1State) (tag : u8) (bytes_be : List u8)
    (hs : InBounds s) (hok : s.error = .kErrorOk) (hone : 1 ≤ bytes_be.length)
    (hmax : bytes_be.length ≤ 126) :
    ∃ octets, Minimal octets ∧ signedValue octets = unsignedValue bytes_be ∧
      template_asn1_integer_impl o tag false bytes_be = o.emit (tlv tag octets) ∧
      (Appends (tlv tag octets) s (asn1_push_integer s tag false bytes_be) ∨
        s.size < s.offset + (tlv tag octets).length ∧
          (asn1_push_integer s tag false bytes_be).error ≠ .kErrorOk) := by
  obtain ⟨hminimal, hvalue⟩ := template_octets_minimal bytes_be
  refine ⟨template_octets bytes_be, hminimal, hvalue, template_asn1_integer_writes o tag bytes_be hmax,
    ?_⟩
  have hne : bytes_be ≠ [] := List.length_pos_iff.mp hone
  have hlen := template_octets_length bytes_be
  have hemits := (emits_push_integer s tag false bytes_be).result hs hok
  rw [show integer_value false bytes_be = unsignedValue bytes_be from rfl,
    ← template_octets_eq] at hemits
  cases hemits with
  | emitted hvalid happends => exact .inl happends
  | failed herror hunfit => exact .inr ⟨hunfit ⟨hne, by omega⟩, herror⟩

/-- A leading zero that has to stay. -/
theorem template_integer_agrees_top_bit :
    let s : Asn1State := ⟨fun _ => 0, 16, 0, .kErrorOk⟩
    ∃ octets, Minimal octets ∧ signedValue octets = unsignedValue [0, 0, 0x80] ∧
      template_asn1_integer_impl ⟨fun _ => 0, 0⟩ 0x02 false [0, 0, 0x80] =
        Output.emit ⟨fun _ => 0, 0⟩ (tlv 0x02 octets) ∧
      (Appends (tlv 0x02 octets) s (asn1_push_integer s 0x02 false [0, 0, 0x80]) ∨
        s.size < s.offset + (tlv 0x02 octets).length ∧
          (asn1_push_integer s 0x02 false [0, 0, 0x80]).error ≠ .kErrorOk) :=
  template_integer_agrees ⟨fun _ => 0, 0⟩ ⟨fun _ => 0, 16, 0, .kErrorOk⟩ 0x02 [0, 0, 0x80]
    ⟨by decide, by decide⟩ rfl (by decide) (by decide)

end IbexFirmware.CertTemplate
