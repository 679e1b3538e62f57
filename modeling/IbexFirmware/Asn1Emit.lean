/-
What the ASN.1 builder emits is DER.

`Emits valid bytes s s'` is what holds of every function of the builder that takes the
state `s` to `s'`: on an error it does nothing, it stays within the buffer, and either
`bytes` are appended to what is written or there is an error, which happens if and only
if they do not fit or are not `valid`. `Emits.trans` puts two of them in a row and
`emits_tag` puts a tag around one. The length of the tag is where the bytes already
written move, and `written_finish_tag` says where to.
-/
import IbexFirmware.Asn1

set_option autoImplicit false

namespace IbexFirmware.Asn1

open Bytes Der

/-! ## What a step may do -/

/-- The bytes written so far. -/
def Asn1State.written (s : Asn1State) : List u8 := readBytes s.buffer 0 s.offset

structure InBounds (s : Asn1State) : Prop where
  offset_le : s.offset ≤ s.size
  size_le : s.size ≤ PTRDIFF_MAX

/-- From `s` to `s'` nothing outside the buffer is written. -/
structure Grows (s s' : Asn1State) : Prop where
  size_eq : s'.size = s.size
  offset_le : s.offset ≤ s'.offset
  offset_le_size : s'.offset ≤ s.size
  frame : ∀ a, s.size ≤ a → s'.buffer a = s.buffer a

/-- `bytes` are appended to what is written in `s`, and there is no error. -/
structure Appends (bytes : List u8) (s s' : Asn1State) : Prop where
  error_eq : s'.error = .kErrorOk
  written_eq : s'.written = s.written ++ bytes

/-- Either `bytes` are appended or there is an error, and then for a reason. -/
inductive Result (valid : Prop) (bytes : List u8) (s s' : Asn1State) : Prop where
  | emitted (hvalid : valid) (happends : Appends bytes s s')
  | failed (herror : s'.error ≠ .kErrorOk) (hunfit : valid → s.size < s.offset + bytes.length)

structure Emits (valid : Prop) (bytes : List u8) (s s' : Asn1State) : Prop where
  sticky : s.error ≠ .kErrorOk → s' = s
  grows : InBounds s → Grows s s'
  result : InBounds s → s.error = .kErrorOk → Result valid bytes s s'

variable {s s' s'' : Asn1State} {valid valid' : Prop} {bytes bytes' : List u8}

theorem length_written (s : Asn1State) : s.written.length = s.offset := length_readBytes _ _ _

theorem Appends.offset_eq (h : Appends bytes s s') : s'.offset = s.offset + bytes.length := by
  rw [← length_written s', ← length_written s, h.written_eq, List.length_append]

theorem Grows.refl (h : InBounds s) : Grows s s := ⟨rfl, le_rfl, h.offset_le, fun _ _ => rfl⟩

theorem Grows.in_bounds (h : Grows s s') (hs : InBounds s) : InBounds s' :=
  ⟨h.size_eq ▸ h.offset_le_size, h.size_eq ▸ hs.size_le⟩

theorem Grows.trans (h : Grows s s') (h' : Grows s' s'') : Grows s s'' :=
  ⟨h'.size_eq.trans h.size_eq, h.offset_le.trans h'.offset_le, h.size_eq ▸ h'.offset_le_size,
    fun a ha => (h'.frame a (h.size_eq.symm ▸ ha)).trans (h.frame a ha)⟩

theorem Emits.refl (s : Asn1State) : Emits True [] s s :=
  ⟨fun _ => rfl, fun hs => .refl hs, fun _ hok =>
    .emitted trivial ⟨hok, (List.append_nil _).symm⟩⟩

theorem Emits.trans (h : Emits valid bytes s s') (h' : Emits valid' bytes' s' s'') :
    Emits (valid ∧ valid') (bytes ++ bytes') s s'' := by
  refine ⟨fun herror => ?_, fun hs => ?_, fun hs hok => ?_⟩
  · have heq := h.sticky herror
    rw [h'.sticky (heq.symm ▸ herror), heq]
  · exact (h.grows hs).trans (h'.grows ((h.grows hs).in_bounds hs))
  · have hs' := (h.grows hs).in_bounds hs
    cases h.result hs hok with
    | failed herror hunfit =>
        rw [h'.sticky herror]
        refine .failed herror fun hboth => ?_
        rw [List.length_append]
        exact (hunfit hboth.1).trans_le (by omega)
    | emitted hvalid happends =>
        cases h'.result hs' happends.error_eq with
        | failed herror hunfit =>
            refine .failed herror fun hboth => ?_
            have hlt := hunfit hboth.2
            rwa [(h.grows hs).size_eq, happends.offset_eq, Nat.add_assoc, ← List.length_append] at hlt
        | emitted hvalid' happends' =>
            refine .emitted ⟨hvalid, hvalid'⟩ ⟨happends'.error_eq, ?_⟩
            rw [happends'.written_eq, happends.written_eq, List.append_assoc]

theorem Emits.congr (h : Emits valid bytes s s') (hvalid : valid ↔ valid') (hbytes : bytes = bytes') :
    Emits valid' bytes' s s' := by
  subst hbytes
  rwa [← propext hvalid]

theorem Emits.guard (h : Emits valid bytes s s') :
    Emits valid bytes s (if s.error ≠ .kErrorOk then s else s') := by
  by_cases herror : s.error ≠ .kErrorOk
  · obtain rfl := h.sticky herror
    rwa [if_pos herror]
  · rwa [if_neg herror]

/-- An argument that is refused. -/
theorem emits_raise {error : RomError} (herror : error ≠ .kErrorOk) (hvalid : ¬ valid) :
    Emits valid bytes s (if s.error ≠ .kErrorOk then s else s.raise error) := by
  refine ⟨fun h => if_pos h, fun hs => ?_, fun hs hok => ?_⟩
  · split_ifs
    · exact .refl hs
    · exact ⟨rfl, le_rfl, hs.offset_le, fun _ _ => rfl⟩
  · rw [if_neg (not_not.mpr hok)]
    exact .failed herror fun h => absurd h hvalid

/-! ## Pushing bytes -/

theorem written_push (buffer : Mem) (offset : ℕ) (bytes : List u8) :
    readBytes (writeBytes buffer offset bytes) 0 (offset + bytes.length) =
      readBytes buffer 0 offset ++ bytes := by
  have hbehind := readBytes_writeBytes buffer offset bytes
  rw [readBytes_add, Nat.zero_add, hbehind,
    readBytes_writeBytes_disjoint _ _ _ _ _ (.inl (Nat.zero_add _).le)]

theorem emits_push_bytes (s : Asn1State) (bytes : List u8) :
    Emits True bytes s (asn1_push_bytes s bytes) := by
  unfold asn1_push_bytes
  refine ⟨fun h => if_pos h, fun hs => ?_, fun hs hok => ?_⟩
  · split_ifs with herror hlarge hroom
    · exact .refl hs
    · exact ⟨rfl, le_rfl, hs.offset_le, fun _ _ => rfl⟩
    · exact ⟨rfl, le_rfl, hs.offset_le, fun _ _ => rfl⟩
    · exact ⟨rfl, Nat.le_add_right _ _, Nat.not_lt.mp hroom, fun a ha =>
        writeBytes_of_not_mem _ _ _ _ (by omega)⟩
  · rw [if_neg (not_not.mpr hok)]
    have hsize := hs.size_le
    split_ifs with hlarge hroom
    · exact .failed nofun fun _ => by omega
    · exact .failed nofun fun _ => hroom
    · exact .emitted trivial ⟨hok, written_push _ _ _⟩

theorem emits_push_byte (s : Asn1State) (byte : u8) : Emits True [byte] s (asn1_push_byte s byte) :=
  emits_push_bytes s [byte]

/-! ## Tags -/

theorem emits_start_tag (s : Asn1State) (id : u8) : Emits True [id, 0] s (asn1_start_tag s id).1 := by
  have hboth := (emits_push_byte s id).trans (emits_push_byte _ 0)
  have hstate : (asn1_start_tag s id).1 = asn1_push_byte (asn1_push_byte s id) 0 := by
    unfold asn1_start_tag
    dsimp only
    split_ifs with herror herror' herror''
    · rw [(emits_push_byte _ 0).sticky, (emits_push_byte s id).sticky herror]
      rwa [(emits_push_byte s id).sticky herror]
    · exact ((emits_push_byte _ 0).sticky herror').symm
    · rfl
    · rfl
  rw [hstate]
  exact hboth.congr (and_self_iff) rfl

/-- The tag of a start without an error. -/
theorem start_tag_eq {id : u8} (hs : InBounds s) (hok : (asn1_start_tag s id).1.error = .kErrorOk) :
    (asn1_start_tag s id).2 = ⟨true, s.offset + 1, 1⟩ := by
  unfold asn1_start_tag at hok ⊢
  dsimp only at hok ⊢
  split_ifs at hok ⊢ with herror herror' herror''
  · exact absurd hok herror
  · exact absurd hok herror'
  · exact absurd hok herror''
  · cases (emits_push_byte s id).result hs (not_not.mp herror) with
    | failed h _ => exact absurd (not_not.mp herror') h
    | emitted _ happends =>
        rw [happends.offset_eq]
        rfl

/-- Each byte is read before it is overwritten. -/
theorem copy_backwards_apply (buffer : Mem) {dst src length i : ℕ} (h : src ≤ dst) (hi : i ≤ length)
    (a : ℕ) :
    copy_backwards buffer dst src length i a =
      if dst + length - i ≤ a ∧ a < dst + length then buffer (a - (dst - src)) else buffer a := by
  induction i generalizing a with
  | zero => exact (if_neg (by omega)).symm
  | succ i ih =>
      have hread : copy_backwards buffer dst src length i (src + length - 1 - i) =
          buffer (src + length - 1 - i) := by
        rw [ih (by omega), if_neg (by omega)]
      unfold copy_backwards
      dsimp only
      rw [hread]
      by_cases ha : a = dst + length - 1 - i
      · subst ha
        rw [Function.update_self, if_pos (by omega),
          show dst + length - 1 - i - (dst - src) = src + length - 1 - i by omega]
      · rw [Function.update_of_ne ha, ih (by omega)]
        exact if_congr (by omega) rfl rfl

theorem len_octets_eq {length : ℕ} (h : length ≤ 65535) : len_octets length = lengthOctets length := by
  unfold len_octets
  split_ifs with hshort hone
  · exact (lengthOctets_short hshort).symm
  · exact (lengthOctets_one (by omega) hone).symm
  · rw [lengthOctets_two (by omega) h, Nat.shiftRight_eq_div_pow,
      show length &&& 0xff = length % 256 from Nat.and_two_pow_sub_one_eq_mod length 8]

theorem final_len_size_eq (length : ℕ) :
    final_len_size length = if length ≤ 65535 then some (len_octets length).length else none := by
  unfold final_len_size len_octets
  by_cases hshort : length ≤ 0x7f
  · rw [if_pos hshort, if_pos hshort, if_pos (by omega)]
    rfl
  rw [if_neg hshort, if_neg hshort]
  by_cases hone : length ≤ 0xff
  · rw [if_pos hone, if_pos hone, if_pos (by omega)]
    rfl
  rw [if_neg hone, if_neg hone]
  rfl

theorem len_octets_length (length : ℕ) :
    1 ≤ (len_octets length).length ∧ (len_octets length).length ≤ 3 := by
  unfold len_octets
  split_ifs <;> simp

theorem size_sub_of_le {a b : ℕ} (h : b ≤ a) (ha : a < 2 ^ 32) : size_sub a b = a - b := by
  unfold size_sub
  omega

/-- A tag that has been started, with the position behind its length in what is written. -/
def Started (s : Asn1State) (tag : Asn1Tag) : Prop :=
  tag.active = true → tag.len_size = 1 ∧ tag.len_offset + 1 ≤ s.offset

/-- A copy onto itself. -/
theorem copy_backwards_self (buffer : Mem) (src length : ℕ) :
    copy_backwards buffer src src length length = buffer := by
  funext a
  rw [copy_backwards_apply buffer le_rfl le_rfl, Nat.sub_self, Nat.sub_zero, ite_self]

/-- The length that is computed for a tag. -/
theorem tag_length {offset size p : ℕ} (hp : p + 1 ≤ offset) (hoffset : offset ≤ size)
    (hsize : size ≤ PTRDIFF_MAX) : size_sub (size_sub offset p) 1 = offset - p - 1 := by
  have hmax : PTRDIFF_MAX < 2 ^ 32 := by
    unfold PTRDIFF_MAX
    omega
  rw [size_sub_of_le (a := offset) (by omega) (by omega),
    size_sub_of_le (b := 1) (by omega) (by omega)]

/-- What finishing a tag comes to. -/
theorem finish_tag_eq {p : ℕ} (hs : InBounds s) (hok : s.error = .kErrorOk) (hp : p + 1 ≤ s.offset) :
    (asn1_finish_tag s ⟨true, p, 1⟩).1 =
      let length := s.offset - p - 1
      let octets := len_octets length
      if 65535 < length then s.raise .kErrorAsn1Internal
      else if s.size < s.offset + octets.length - 1 then s.raise .kErrorAsn1BufferExhausted
      else
        { s with
          buffer := writeBytes
            (copy_backwards s.buffer (p + octets.length) (p + 1) length length) p octets
          offset := s.offset + (octets.length - 1) } := by
  have hoffset := hs.offset_le
  have hlength := tag_length hp hoffset hs.size_le
  have hoctets := (len_octets_length (s.offset - p - 1)).1
  unfold asn1_finish_tag
  rw [if_neg (show ¬ (!true) = true by decide), if_neg (not_not.mpr hok),
    if_neg (show ¬ 1 ≠ 1 by decide)]
  simp only [hlength, final_len_size_eq]
  generalize s.offset - p - 1 = length at hoctets ⊢
  by_cases hlarge : 65535 < length
  · simp only [if_neg (Nat.not_le.mpr hlarge), if_pos hlarge]
  simp only [if_pos (Nat.not_lt.mp hlarge), if_neg hlarge]
  generalize len_octets length = octets at hoctets ⊢
  by_cases hone : octets.length = 1
  · rw [hone, if_neg (fun h => h.1 rfl), if_neg (not_not.mpr rfl), if_neg (by omega),
      copy_backwards_self]
  · have hmoved : 1 ≠ octets.length := Ne.symm hone
    rw [if_pos hmoved]
    by_cases hroom : s.size < s.offset + octets.length - 1
    · rw [if_pos ⟨hmoved, hroom⟩, if_pos hroom]
    · rw [if_neg (fun h => hroom h.2), if_neg hroom]

/-- Where a finished tag is in the buffer: its length, and its contents moved behind it. -/
theorem readBytes_finish_tag {buffer : Mem} {p : ℕ} {octets w contents : List u8} {x : u8}
    (hwritten : readBytes buffer 0 (p + 1 + contents.length) = w ++ x :: contents)
    (hp : w.length = p) (hoctets : 1 ≤ octets.length) :
    readBytes (writeBytes (copy_backwards buffer (p + octets.length) (p + 1) contents.length
        contents.length) p octets) 0 (p + octets.length + contents.length) =
      w ++ octets ++ contents := by
  have hcopy := copy_backwards_apply buffer (show p + 1 ≤ p + octets.length by omega)
    (le_refl contents.length)
  have hsplit : readBytes buffer 0 p = w ∧ readBytes buffer (p + 1) contents.length = contents := by
    rw [readBytes_add, readBytes_add, List.append_cons, Nat.zero_add, Nat.zero_add] at hwritten
    obtain ⟨hfront, hcontents⟩ := List.append_inj' hwritten (length_readBytes _ _ _)
    exact ⟨(List.append_inj' hfront rfl).1, hcontents⟩
  set moved := copy_backwards buffer (p + octets.length) (p + 1) contents.length contents.length
  have hbelow : readBytes (writeBytes moved p octets) 0 p = w := by
    rw [readBytes_writeBytes_disjoint _ _ _ _ _ (.inl (Nat.zero_add _).le), ← hsplit.1,
      readBytes_eq_iff]
    intro i hi
    rw [hcopy, if_neg (by omega)]
  have hbehind : readBytes (writeBytes moved p octets) (p + octets.length) contents.length =
      contents := by
    rw [readBytes_writeBytes_disjoint _ _ _ _ _ (.inr le_rfl), ← hsplit.2, length_readBytes,
      readBytes_eq_iff]
    intro i hi
    rw [hcopy, if_pos ⟨by omega, by omega⟩, show p + octets.length + i -
      (p + octets.length - (p + 1)) = p + 1 + i by omega]
  rw [readBytes_add, readBytes_add, Nat.zero_add, Nat.zero_add, hbelow, hbehind,
    readBytes_writeBytes]

theorem finish_tag_sticky (h : s.error ≠ .kErrorOk) (tag : Asn1Tag) :
    (asn1_finish_tag s tag).1 = s := by
  unfold asn1_finish_tag
  rw [if_pos h, ite_self]

/-- What is in front of a tag stays, though its length may move the contents. -/
theorem finish_tag_grows {tag : Asn1Tag} (hs : InBounds s)
    (htag : s.error = .kErrorOk → Started s tag) : Grows s (asn1_finish_tag s tag).1 := by
  by_cases hok : s.error = .kErrorOk
  · obtain ⟨active, p, len_size⟩ := tag
    cases active with
    | false => exact .refl hs
    | true =>
        obtain ⟨hone, hp⟩ := htag hok rfl
        subst hone
        change p + 1 ≤ s.offset at hp
        rw [finish_tag_eq hs hok hp]
        dsimp only
        have hoffset := hs.offset_le
        have hoctets := (len_octets_length (s.offset - p - 1)).1
        split_ifs with hlarge hroom
        · exact ⟨rfl, le_rfl, hoffset, fun _ _ => rfl⟩
        · exact ⟨rfl, le_rfl, hoffset, fun _ _ => rfl⟩
        · refine ⟨rfl, Nat.le_add_right _ _, ?_, fun a ha => ?_⟩
          · show s.offset + _ ≤ s.size
            omega
          · show writeBytes _ _ _ a = _
            rw [writeBytes_of_not_mem _ _ _ _ (by omega),
              copy_backwards_apply _ (by omega) le_rfl, if_neg (by omega)]
  · rw [finish_tag_sticky hok]
    exact .refl hs

theorem tlv_length (id : u8) (bytes : List u8) :
    (tlv id bytes).length = 1 + (lengthOctets bytes.length).length + bytes.length := by
  unfold tlv
  rw [List.length_append, List.length_cons, Nat.add_comm 1]

/-- A tag around what is emitted between its start and its finish. -/
theorem emits_tag (id : u8) (hpush : Emits valid bytes (asn1_start_tag s id).1 s') :
    Emits (valid ∧ bytes.length ≤ 65535) (tlv id bytes) s
      (asn1_finish_tag s' (asn1_start_tag s id).2).1 := by
  have hstart := emits_start_tag s id
  have hboth := hstart.trans hpush
  -- The tag of a start that has not failed, and where it is.
  have htag : InBounds s → s'.error = .kErrorOk →
      (asn1_start_tag s id).2 = ⟨true, s.offset + 1, 1⟩ ∧ s.offset + 2 ≤ s'.offset := by
    intro hs hok'
    have hok1 : (asn1_start_tag s id).1.error = .kErrorOk := by
      by_contra herror
      rw [hpush.sticky herror] at hok'
      exact herror hok'
    have hok : s.error = .kErrorOk := by
      by_contra herror
      rw [hstart.sticky herror] at hok1
      exact herror hok1
    refine ⟨start_tag_eq hs hok1, ?_⟩
    cases hstart.result hs hok with
    | failed herror _ => exact absurd hok1 herror
    | emitted _ happends =>
        have hle := (hpush.grows ((hstart.grows hs).in_bounds hs)).offset_le
        rwa [happends.offset_eq] at hle
  refine ⟨fun herror => ?_, fun hs => ?_, fun hs hok => ?_⟩
  · have heq := hboth.sticky herror
    rw [finish_tag_sticky (heq.symm ▸ herror), heq]
  · refine (hboth.grows hs).trans (finish_tag_grows ((hboth.grows hs).in_bounds hs) fun hok' => ?_)
    obtain ⟨heq, hle⟩ := htag hs hok'
    rw [heq]
    exact fun _ => ⟨rfl, hle⟩
  · cases hboth.result hs hok with
    | failed herror hunfit =>
        rw [finish_tag_sticky herror]
        refine .failed herror fun hvalid => (hunfit ⟨trivial, hvalid.1⟩).trans_le ?_
        have hoctets := (len_octets_length bytes.length).1
        rw [len_octets_eq hvalid.2] at hoctets
        rw [tlv_length, List.length_append, List.length_cons, List.length_singleton]
        omega
    | emitted hvalid happends =>
        have hs' := (hboth.grows hs).in_bounds hs
        obtain ⟨heq, hle⟩ := htag hs happends.error_eq
        have hoffset : s'.offset = s.offset + 2 + bytes.length := by
          rw [happends.offset_eq, List.length_append, Nat.add_assoc]
          rfl
        have hlength : s'.offset - (s.offset + 1) - 1 = bytes.length := by omega
        rw [heq, finish_tag_eq hs' happends.error_eq hle, hlength]
        dsimp only
        have hoctets := (len_octets_length bytes.length).1
        split_ifs with hlarge hroom
        · exact .failed nofun fun h => absurd h.2 (Nat.not_le.mpr hlarge)
        · refine .failed nofun fun h => ?_
          rw [(hboth.grows hs).size_eq, len_octets_eq h.2] at hroom
          rw [len_octets_eq h.2] at hoctets
          rw [tlv_length]
          omega
        · refine .emitted ⟨hvalid.2, Nat.not_lt.mp hlarge⟩ ⟨happends.error_eq, ?_⟩
          have hwritten : readBytes s'.buffer 0 (s.offset + 1 + 1 + bytes.length) =
              (s.written ++ [id]) ++ 0 :: bytes := by
            rw [show s.offset + 1 + 1 + bytes.length = s'.offset from hoffset.symm]
            exact happends.written_eq.trans (by simp)
          have hmoved := readBytes_finish_tag hwritten
            (by rw [List.length_append, length_written]; rfl) hoctets
          show readBytes _ 0 (s'.offset + ((len_octets bytes.length).length - 1)) = _
          rw [show s'.offset + ((len_octets bytes.length).length - 1) =
            s.offset + 1 + (len_octets bytes.length).length + bytes.length by omega, hmoved,
            len_octets_eq (Nat.not_lt.mp hlarge)]
          simp [tlv]

theorem emits_push_tag (id : u8) {push : Asn1State → Asn1State}
    (hpush : ∀ s, Emits valid bytes s (push s)) :
    Emits (valid ∧ bytes.length ≤ 65535) (tlv id bytes) s (asn1_push_tag s id push) :=
  emits_tag id (hpush _)

/-! ## Integers -/

theorem top_bit_zero {b : u8} : b >>> 7 = 0 ↔ b.msb = false := by
  revert b
  decide

theorem top_bit_one {b : u8} : b >>> 7 = 1 ↔ b.msb = true := by
  revert b
  decide

theorem drop_octets_ne_nil (first msb : u8) {bytes : List u8} (h : bytes ≠ []) :
    drop_octets first msb bytes ≠ [] := by
  fun_induction drop_octets first msb bytes with
  | case1 a b bytes hdrop ih => exact ih (List.cons_ne_nil _ _)
  | case2 a b bytes hkeep => exact h
  | case3 bytes hshort => exact h

theorem drop_octets_length (first msb : u8) (bytes : List u8) :
    (drop_octets first msb bytes).length ≤ bytes.length := by
  fun_induction drop_octets first msb bytes with
  | case1 a b bytes hdrop ih => exact ih.trans (Nat.le_succ _)
  | case2 a b bytes hkeep => exact le_rfl
  | case3 bytes hshort => exact le_rfl

/-- Where nothing more is dropped. -/
theorem drop_octets_stop {first msb a b : u8} {bytes rest : List u8}
    (h : drop_octets first msb bytes = a :: b :: rest) : ¬ (a = first ∧ b >>> 7 = msb) := by
  fun_induction drop_octets first msb bytes with
  | case1 a' b' bytes hdrop ih => exact ih h
  | case2 a' b' bytes hkeep =>
      obtain ⟨rfl, rfl, -⟩ : a' = a ∧ b' = b ∧ bytes = rest := by simpa using h
      exact hkeep
  | case3 bytes hshort => exact absurd h (hshort a b rest)

/-- Behind a dropped octet the top bit is set as it was. -/
theorem drop_octets_head (first msb : u8) (bytes : List u8) :
    drop_octets first msb bytes = bytes ∨
      ∃ b rest, drop_octets first msb bytes = b :: rest ∧ b >>> 7 = msb := by
  fun_induction drop_octets first msb bytes with
  | case1 a b bytes hdrop ih =>
      refine .inr (ih.elim (fun heq => ⟨b, bytes, heq, hdrop.2⟩) id)
  | case2 a b bytes hkeep => exact .inl rfl
  | case3 bytes hshort => exact .inl rfl

theorem signedValue_drop {first msb : u8} (h : first = 0 ∧ msb = 0 ∨ first = 0xff ∧ msb = 1)
    (bytes : List u8) : signedValue (drop_octets first msb bytes) = signedValue bytes := by
  fun_induction drop_octets first msb bytes with
  | case1 a b bytes hdrop ih =>
      rw [ih, signedValue_cons]
      obtain ⟨rfl, hb⟩ := hdrop
      rw [← top_bit_zero, ← top_bit_one, hb]
      exact h
  | case2 a b bytes hkeep => rfl
  | case3 bytes hshort => rfl

theorem unsignedValue_drop (bytes : List u8) :
    unsignedValue (drop_octets 0 0 bytes) = unsignedValue bytes := by
  fun_induction drop_octets 0 0 bytes with
  | case1 a b bytes hdrop ih =>
      rw [ih]
      obtain ⟨rfl, -⟩ := hdrop
      exact (signedValue_cons (b :: bytes) (.inl ⟨rfl, rfl⟩)).symm
  | case2 a b bytes hkeep => rfl
  | case3 bytes hshort => rfl

/-- The octets of an integer that are pushed. -/
def trimmed (is_signed : Bool) (bytes_be : List u8) : List u8 :=
  let bytes_be := drop_octets 0 0 bytes_be
  if is_signed then drop_octets 0xff 1 bytes_be
  else if bytes_be.headD 0 >>> 7 = 1 then 0 :: bytes_be else bytes_be

theorem trimmed_length (is_signed : Bool) (bytes_be : List u8) :
    (trimmed is_signed bytes_be).length ≤ bytes_be.length + 1 := by
  have hzeros := drop_octets_length 0 0 bytes_be
  unfold trimmed
  dsimp only
  split_ifs with hsigned htop
  · exact (drop_octets_length 0xff 1 _).trans (hzeros.trans (Nat.le_succ _))
  · exact Nat.succ_le_succ hzeros
  · exact hzeros.trans (Nat.le_succ _)

theorem minimal_signed {bytes_be : List u8} (h : bytes_be ≠ []) :
    Minimal (drop_octets 0xff 1 (drop_octets 0 0 bytes_be)) := by
  have hne := drop_octets_ne_nil 0xff 1 (drop_octets_ne_nil 0 0 h)
  match hoctets : drop_octets 0xff 1 (drop_octets 0 0 bytes_be) with
  | [] => exact hne hoctets
  | [_] => trivial
  | a :: b :: rest =>
      have hones := drop_octets_stop hoctets
      refine ⟨?_, by rwa [top_bit_one] at hones⟩
      obtain heq | ⟨b', rest', heq, htop⟩ := drop_octets_head 0xff 1 (drop_octets 0 0 bytes_be)
      · have hzeros := drop_octets_stop (heq.symm.trans hoctets)
        rwa [top_bit_zero] at hzeros
      · rintro ⟨rfl, -⟩
        rw [hoctets] at heq
        obtain ⟨rfl, -⟩ := List.cons.inj heq
        exact absurd htop (by decide)

/-- Without the leading zeros no octet can be spared, and the number is the same. -/
theorem minimal_unsigned {bytes_be : List u8} (h : bytes_be ≠ []) :
    Minimal (trimmed false bytes_be) ∧
      signedValue (trimmed false bytes_be) = unsignedValue bytes_be := by
  rw [← unsignedValue_drop bytes_be]
  have hne := drop_octets_ne_nil 0 0 h
  unfold trimmed
  rw [if_neg (by decide)]
  match hoctets : drop_octets 0 0 bytes_be with
  | [] => exact absurd hoctets hne
  | a :: rest =>
      by_cases htop : a >>> 7 = 1
      · rw [List.headD_cons, if_pos htop]
        refine ⟨⟨?_, ?_⟩, rfl⟩
        · rintro ⟨-, hmsb⟩
          rw [top_bit_one.mp htop] at hmsb
          cases hmsb
        · rintro ⟨hzero, -⟩
          exact absurd hzero (by decide)
      · have hmsb : a.msb = false := by rwa [top_bit_one, Bool.not_eq_true] at htop
        rw [List.headD_cons, if_neg htop]
        refine ⟨?_, (signedValue_cons rest (.inl ⟨rfl, hmsb⟩)).symm⟩
        match rest, hoctets with
        | [], _ => trivial
        | b :: rest, hoctets =>
            have hzeros := drop_octets_stop hoctets
            rw [top_bit_zero] at hzeros
            refine ⟨hzeros, ?_⟩
            rintro ⟨rfl, -⟩
            exact absurd hmsb (by decide)

/-- What is pushed for an integer are the octets of its value. -/
theorem trimmed_eq (is_signed : Bool) {bytes_be : List u8} (h : bytes_be ≠ []) :
    trimmed is_signed bytes_be = integerOctets (integer_value is_signed bytes_be) := by
  cases is_signed with
  | true =>
      have hvalue : signedValue (trimmed true bytes_be) = signedValue bytes_be :=
        (signedValue_drop (.inr ⟨rfl, rfl⟩) _).trans (signedValue_drop (.inl ⟨rfl, rfl⟩) _)
      rw [integer_value, if_pos rfl, ← hvalue]
      exact (integerOctets_signedValue (minimal_signed h)).symm
  | false =>
      obtain ⟨hminimal, hvalue⟩ := minimal_unsigned h
      rw [integer_value, if_neg (by decide), ← hvalue]
      exact (integerOctets_signedValue hminimal).symm

theorem emits_integer_octets (s : Asn1State) (is_signed : Bool) (bytes_be : List u8) :
    Emits True (trimmed is_signed bytes_be) s (asn1_push_integer_octets s is_signed bytes_be) := by
  unfold asn1_push_integer_octets trimmed
  dsimp only
  split_ifs with hsigned htop
  · exact emits_push_bytes _ _
  · exact ((emits_push_byte s 0).trans (emits_push_bytes _ _)).congr and_self_iff rfl
  · exact emits_push_bytes _ _

theorem emits_push_integer (s : Asn1State) (tag : u8) (is_signed : Bool) (bytes_be : List u8) :
    Emits (bytes_be ≠ [] ∧ (integerOctets (integer_value is_signed bytes_be)).length ≤ 65535)
      (tlv tag (integerOctets (integer_value is_signed bytes_be))) s
      (asn1_push_integer s tag is_signed bytes_be) := by
  unfold asn1_push_integer
  by_cases hempty : bytes_be.length = 0
  · rw [if_pos hempty]
    exact emits_raise (by decide) fun h => h.1 (List.length_eq_zero_iff.mp hempty)
  · have hne : bytes_be ≠ [] := fun h => hempty (List.length_eq_zero_iff.mpr h)
    have hpush := emits_push_tag (s := s) tag fun s => emits_integer_octets s is_signed bytes_be
    rw [if_neg hempty, ← trimmed_eq is_signed hne]
    exact (hpush.congr (and_congr_left fun _ => (iff_true_intro hne).symm) rfl).guard

/-- The four octets stand for the word in both readings. -/
theorem bigint_value (value : u32) :
    integer_value true (bigint value) = value.toInt ∧
      integer_value false (bigint value) = value.toNat := by
  have hlow : ∀ x : u32, ((x &&& 0xff).setWidth 8).toNat = x.toNat % 256 := by
    intro x
    rw [BitVec.toNat_setWidth, BitVec.toNat_and]
    show (x.toNat &&& (2 ^ 8 - 1)) % 2 ^ 8 = x.toNat % 256
    rw [Nat.and_two_pow_sub_one_eq_mod, Nat.mod_mod]
  have htop : ((value >>> 24).setWidth 8).toNat = value.toNat / 2 ^ 24 := by
    have hlt := value.isLt
    rw [BitVec.toNat_setWidth, BitVec.toNat_ushiftRight, Nat.shiftRight_eq_div_pow]
    omega
  constructor
  · show ((((value >>> 24).setWidth 8).toInt * 256 + ((value >>> 16 &&& 0xff).setWidth 8).toNat) * 256 +
      ((value >>> 8 &&& 0xff).setWidth 8).toNat) * 256 + ((value &&& 0xff).setWidth 8).toNat = _
    rw [hlow, hlow, hlow, BitVec.toInt_eq_toNat_cond, htop, BitVec.toInt_eq_toNat_cond,
      BitVec.toNat_ushiftRight, BitVec.toNat_ushiftRight, Nat.shiftRight_eq_div_pow,
      Nat.shiftRight_eq_div_pow]
    split_ifs <;> omega
  · show ((((0 : u8).toInt * 256 + ((value >>> 24).setWidth 8).toNat) * 256 +
      ((value >>> 16 &&& 0xff).setWidth 8).toNat) * 256 +
        ((value >>> 8 &&& 0xff).setWidth 8).toNat) * 256 + ((value &&& 0xff).setWidth 8).toNat = _
    rw [hlow, hlow, hlow, htop, BitVec.toNat_ushiftRight, BitVec.toNat_ushiftRight,
      Nat.shiftRight_eq_div_pow, Nat.shiftRight_eq_div_pow, show (0 : u8).toInt = 0 from rfl]
    omega

/-- A word always has an encoding. -/
theorem emits_push_word (s : Asn1State) (tag : u8) (is_signed : Bool) (value : u32) :
    Emits True (tlv tag (integerOctets (integer_value is_signed (bigint value)))) s
      (asn1_push_integer s tag is_signed (bigint value)) := by
  have hne : bigint value ≠ [] := List.cons_ne_nil _ _
  refine (emits_push_integer s tag is_signed (bigint value)).congr (iff_true_intro ⟨hne, ?_⟩) rfl
  rw [← trimmed_eq is_signed hne]
  exact (trimmed_length is_signed _).trans (show 4 + 1 ≤ 65535 by decide)

theorem emits_push_int32 (s : Asn1State) (tag : u8) (value : u32) :
    Emits True (tlv tag (integerOctets value.toInt)) s (asn1_push_int32 s tag value) :=
  (bigint_value value).1 ▸ emits_push_word s tag true value

theorem emits_push_uint32 (s : Asn1State) (tag : u8) (value : u32) :
    Emits True (tlv tag (integerOctets value.toNat)) s (asn1_push_uint32 s tag value) :=
  (bigint_value value).2 ▸ emits_push_word s tag false value

/-! ## The other pushes -/

theorem emits_push_padding (s : Asn1State) (padding : u8) (n : ℕ) :
    Emits True (List.replicate n padding) s (asn1_push_padding s padding n) := by
  induction n generalizing s with
  | zero => exact .refl s
  | succ n ih => exact ((emits_push_byte s padding).trans (ih _)).congr and_self_iff rfl

theorem emits_push_integer_pad (s : Asn1State) (is_signed : Bool) (bytes_be : List u8)
    (padded_size : ℕ) :
    Emits (bytes_be ≠ [] ∧ bytes_be.length ≤ padded_size)
      (padded_octets is_signed bytes_be padded_size) s
      (asn1_push_integer_pad s is_signed bytes_be padded_size) := by
  unfold asn1_push_integer_pad
  by_cases hrefused : bytes_be.length = 0 ∨ padded_size < bytes_be.length
  · rw [if_pos hrefused]
    refine emits_raise (by decide) fun h => ?_
    exact hrefused.elim (fun hempty => h.1 (List.length_eq_zero_iff.mp hempty))
      (Nat.not_lt.mpr h.2)
  · obtain ⟨hempty, hle⟩ := not_or.mp hrefused
    rw [if_neg hrefused]
    refine (((emits_push_padding s _ _).trans (emits_push_bytes _ bytes_be)).congr ?_ rfl).guard
    refine iff_of_true ⟨trivial, trivial⟩ ⟨fun h => hempty ?_, Nat.not_lt.mp hle⟩
    exact List.length_eq_zero_iff.mpr h

theorem c_string_succ (str : Mem) (max_len : ℕ) :
    c_string str (max_len + 1) =
      if str 0 = 0 then [] else str 0 :: c_string (fun i => str (i + 1)) max_len := by
  have hread : readBytes str 0 (max_len + 1) =
      str 0 :: readBytes (fun i => str (i + 1)) 0 max_len := by
    unfold readBytes
    rw [List.range_succ_eq_map, List.map_cons, List.map_map]
    simp [Function.comp_def]
  unfold c_string
  rw [hread, List.takeWhile_cons]
  split_ifs <;> simp_all

theorem emits_push_chars (s : Asn1State) (str : Mem) (max_len : ℕ) :
    Emits True (c_string str max_len) s (asn1_push_chars s str max_len) := by
  induction max_len generalizing s str with
  | zero => exact .refl s
  | succ max_len ih =>
      rw [c_string_succ]
      unfold asn1_push_chars
      split_ifs
      · exact .refl s
      · exact ((emits_push_byte s (str 0)).trans (ih _ _)).congr and_self_iff rfl

theorem emits_push_hex_chars (s : Asn1State) (bytes : List u8) :
    Emits True (bytes.flatMap hex_chars) s (asn1_push_hex_chars s bytes) := by
  induction bytes generalizing s with
  | nil => exact .refl s
  | cons byte bytes ih =>
      have htwo : Emits True (hex_chars byte) s ((hex_chars byte).foldl asn1_push_byte s) :=
        ((emits_push_byte s _).trans (emits_push_byte _ _)).congr and_self_iff rfl
      exact (htwo.trans (ih _)).congr and_self_iff rfl

theorem emits_push (s : Asn1State) (p : Push) : Emits p.Encodable p.der s (p.run s) := by
  cases p with
  | byte b => exact emits_push_byte s b
  | bytes bs => exact emits_push_bytes s bs
  | bool tag value =>
      exact (emits_push_tag tag fun s => emits_push_byte s _).congr
        (iff_true_intro ⟨trivial, (by decide : 1 ≤ 65535)⟩) rfl
  | int32 tag value => exact emits_push_int32 s tag value
  | uint32 tag value => exact emits_push_uint32 s tag value
  | integer tag is_signed bytes_be => exact emits_push_integer s tag is_signed bytes_be
  | integer_pad is_signed bytes_be padded_size =>
      exact emits_push_integer_pad s is_signed bytes_be padded_size
  | oid_raw bs =>
      exact (emits_push_tag _ fun s => emits_push_bytes s bs).congr (iff_of_eq (true_and _)) rfl
  | string id str max_len =>
      exact (emits_push_tag id fun s => emits_push_chars s str max_len).congr (iff_of_eq (true_and _)) rfl
  | hexstring id bs =>
      exact (emits_push_tag id fun s => emits_push_hex_chars s bs).congr (iff_of_eq (true_and _)) rfl

/-! ## Any calls in any order -/

theorem run_append (b : Builder) (calls later : List Call) :
    b.run (calls ++ later) = (b.run calls).run later := List.foldl_append

theorem start_bitstring_sticky (h : s.error ≠ .kErrorOk) : (asn1_start_bitstring s).1 = s := by
  unfold asn1_start_bitstring
  rw [if_pos h]

theorem push_bit_sticky (h : s.error ≠ .kErrorOk) (bitstring : Asn1Bitstring) (bit : Bool) :
    (asn1_bitstring_push_bit s bitstring bit).1 = s := by
  unfold asn1_bitstring_push_bit
  rw [if_pos h, ite_self]

theorem finish_bitstring_sticky (h : s.error ≠ .kErrorOk) (bitstring : Asn1Bitstring) :
    (asn1_finish_bitstring s bitstring).1 = s := by
  unfold asn1_finish_bitstring
  rw [if_pos h, ite_self]

theorem call_sticky {b : Builder} (h : b.state.error ≠ .kErrorOk) (c : Call) :
    (b.call c).state = b.state := by
  cases c with
  | push p => exact (emits_push b.state p).sticky h
  | start_tag id => exact (emits_start_tag b.state id).sticky h
  | finish_tag => exact finish_tag_sticky h _
  | start_bitstring => exact start_bitstring_sticky h
  | bitstring_push_bit bit => exact push_bit_sticky h _ bit
  | finish_bitstring => exact finish_bitstring_sticky h _

/-- Once there is an error, no call changes anything. -/
theorem run_sticky {b : Builder} (h : b.state.error ≠ .kErrorOk) (calls : List Call) :
    (b.run calls).state = b.state := by
  induction calls generalizing b with
  | nil => rfl
  | cons c calls ih =>
      have hcall := call_sticky h c
      exact (ih (hcall.symm ▸ h)).trans hcall

/-- As long as there is no error, what is under construction lies behind `offset`. -/
structure Sound (b : Builder) : Prop where
  in_bounds : InBounds b.state
  tags : b.state.error = .kErrorOk → ∀ tag ∈ b.tags, Started b.state tag
  bits : b.state.error = .kErrorOk → b.bitstring.active = true →
    b.bitstring.unused_bits_offset < b.state.offset

theorem Started.mono {tag : Asn1Tag} (h : Started s tag) (hle : s.offset ≤ s'.offset) :
    Started s' tag := fun hactive => ⟨(h hactive).1, (h hactive).2.trans hle⟩

/-- An error is not taken back. -/
theorem ok_of_call {b : Builder} {c : Call} (h : (b.call c).state.error = .kErrorOk) :
    b.state.error = .kErrorOk := by
  by_contra herror
  rw [call_sticky herror] at h
  exact herror h

theorem emitted_offset (h : Emits valid bytes s s') (hs : InBounds s) (hok : s.error = .kErrorOk)
    (hok' : s'.error = .kErrorOk) : s'.offset = s.offset + bytes.length := by
  cases h.result hs hok with
  | failed herror _ => exact absurd hok' herror
  | emitted _ happends => exact happends.offset_eq

theorem start_bitstring_grows (hs : InBounds s) : Grows s (asn1_start_bitstring s).1 := by
  unfold asn1_start_bitstring
  split_ifs
  · exact .refl hs
  · exact (emits_push_byte s 0).grows hs

theorem push_bit_grows (hs : InBounds s) (bitstring : Asn1Bitstring) (bit : Bool) :
    Grows s (asn1_bitstring_push_bit s bitstring bit).1 := by
  unfold asn1_bitstring_push_bit
  dsimp only
  split_ifs
  all_goals first | exact .refl hs | exact (emits_push_byte s _).grows hs

theorem push_bit_bitstring (s : Asn1State) (bitstring : Asn1Bitstring) (bit : Bool) :
    (asn1_bitstring_push_bit s bitstring bit).2.active = bitstring.active ∧
      (asn1_bitstring_push_bit s bitstring bit).2.unused_bits_offset =
        bitstring.unused_bits_offset := by
  unfold asn1_bitstring_push_bit
  dsimp only
  split_ifs
  all_goals exact ⟨rfl, rfl⟩

/-- A bit string that is finished, whatever was pushed into it. -/
theorem finish_bitstring_grows {bitstring : Asn1Bitstring} (hs : InBounds s)
    (hbits : s.error = .kErrorOk → bitstring.active = true →
      bitstring.unused_bits_offset < s.offset) :
    Grows s (asn1_finish_bitstring s bitstring).1 := by
  unfold asn1_finish_bitstring
  split_ifs with hactive herror hfull hrest
  · exact .refl hs
  · exact .refl hs
  · exact ⟨rfl, le_rfl, hs.offset_le, fun _ _ => rfl⟩
  · have hpush := (emits_push_byte s bitstring.current_byte).grows hs
    have hlt := hbits (not_not.mp herror) (by simpa using hactive)
    have hoffset := hs.offset_le
    refine ⟨hpush.size_eq, hpush.offset_le, hpush.offset_le_size, fun a ha => ?_⟩
    exact (Function.update_of_ne (by omega) _ _).trans (hpush.frame a ha)
  · exact .refl hs

theorem finish_bitstring_active {bitstring : Asn1Bitstring} (hok : s.error = .kErrorOk) :
    (asn1_finish_bitstring s bitstring).2.active = false := by
  unfold asn1_finish_bitstring
  rw [if_neg (not_not.mpr hok)]
  split_ifs with hactive
  · simpa using hactive
  · rfl
  · rfl
  · rfl

/-- Every call writes within the buffer only. -/
theorem call_sound {b : Builder} (h : Sound b) (c : Call) :
    Sound (b.call c) ∧ Grows b.state (b.call c).state := by
  have hs := h.in_bounds
  -- What is started stays started if the state has grown.
  have hkeep : Grows b.state (b.call c).state → (b.call c).state.error = .kErrorOk →
      ∀ tag ∈ b.tags, Started (b.call c).state tag := fun hgrows hok tag hmem =>
    (h.tags (ok_of_call hok) tag hmem).mono hgrows.offset_le
  have hkeep_bits : Grows b.state (b.call c).state → (b.call c).state.error = .kErrorOk →
      b.bitstring.active = true → b.bitstring.unused_bits_offset < (b.call c).state.offset :=
    fun hgrows hok hactive => (h.bits (ok_of_call hok) hactive).trans_le hgrows.offset_le
  cases c with
  | push p =>
      have hgrows := (emits_push b.state p).grows hs
      exact ⟨⟨hgrows.in_bounds hs, hkeep hgrows, hkeep_bits hgrows⟩, hgrows⟩
  | start_tag id =>
      have hgrows := (emits_start_tag b.state id).grows hs
      refine ⟨⟨hgrows.in_bounds hs, fun hok tag hmem => ?_, hkeep_bits hgrows⟩, hgrows⟩
      change tag ∈ (asn1_start_tag b.state id).2 :: b.tags at hmem
      rw [List.mem_cons, start_tag_eq hs hok] at hmem
      obtain rfl | hmem := hmem
      · exact fun _ => ⟨rfl,
          (emitted_offset (emits_start_tag b.state id) hs (ok_of_call hok) hok).ge⟩
      · exact hkeep hgrows hok tag hmem
  | finish_tag =>
      have hgrows : Grows b.state (asn1_finish_tag b.state (b.tags.headD .null)).1 := by
        refine finish_tag_grows hs fun hok => ?_
        cases htags : b.tags with
        | nil => exact nofun
        | cons tag tags => exact h.tags hok tag (htags ▸ List.mem_cons_self)
      exact ⟨⟨hgrows.in_bounds hs, fun hok tag hmem => hkeep hgrows hok tag (List.mem_of_mem_tail hmem),
        hkeep_bits hgrows⟩, hgrows⟩
  | start_bitstring =>
      have hgrows := start_bitstring_grows hs
      refine ⟨⟨hgrows.in_bounds hs, hkeep hgrows, fun hok _ => ?_⟩, hgrows⟩
      have hok0 := ok_of_call hok
      change (asn1_start_bitstring b.state).1.error = _ at hok
      show (asn1_start_bitstring b.state).2.unused_bits_offset < (asn1_start_bitstring b.state).1.offset
      unfold asn1_start_bitstring at hok ⊢
      rw [if_neg (not_not.mpr hok0)] at hok ⊢
      exact (emitted_offset (emits_push_byte b.state 0) hs hok0 hok).ge
  | bitstring_push_bit bit =>
      have hgrows := push_bit_grows hs b.bitstring bit
      obtain ⟨hactive, hoffset⟩ := push_bit_bitstring b.state b.bitstring bit
      refine ⟨⟨hgrows.in_bounds hs, hkeep hgrows, fun hok h => ?_⟩, hgrows⟩
      exact hoffset ▸ hkeep_bits hgrows hok (hactive ▸ h)
  | finish_bitstring =>
      have hgrows := finish_bitstring_grows hs h.bits
      refine ⟨⟨hgrows.in_bounds hs, hkeep hgrows, fun hok hactive => ?_⟩, hgrows⟩
      change (asn1_finish_bitstring b.state b.bitstring).2.active = true at hactive
      rw [finish_bitstring_active (ok_of_call hok)] at hactive
      cases hactive

theorem run_sound {b : Builder} (h : Sound b) (calls : List Call) :
    Sound (b.run calls) ∧ Grows b.state (b.run calls).state := by
  induction calls generalizing b with
  | nil => exact ⟨h, .refl h.in_bounds⟩
  | cons c calls ih =>
      obtain ⟨hcall, hgrows⟩ := call_sound h c
      obtain ⟨hrun, hgrows'⟩ := ih hcall
      exact ⟨hrun, hgrows.trans hgrows'⟩

/-! ## Bit strings -/

/-- The calls that push `bits` and finish the bit string. -/
def bit_calls (bits : List Bool) : List Call :=
  bits.map .bitstring_push_bit ++ [.finish_bitstring]

theorem bit_calls_tags (b : Builder) (bits : List Bool) : (b.run (bit_calls bits)).tags = b.tags := by
  induction bits generalizing b with
  | nil => rfl
  | cons bit bits ih => exact ih (b.call (.bitstring_push_bit bit))

/-- The octet at `w.length` is overwritten. -/
theorem readBytes_update {buffer : Mem} {n : ℕ} {w rest : List u8} {x : u8}
    (h : readBytes buffer 0 n = w ++ x :: rest) (y : u8) :
    readBytes (Function.update buffer w.length y) 0 n = w ++ y :: rest := by
  have hset : readBytes (Function.update buffer w.length y) 0 n =
      (readBytes buffer 0 n).set w.length y := by
    apply List.ext_getElem
    · rw [length_readBytes, List.length_set, length_readBytes]
    · intro i hi hi'
      rw [getElem_readBytes, List.getElem_set, getElem_readBytes, Nat.zero_add]
      by_cases heq : w.length = i
      · rw [if_pos heq, ← heq, Function.update_self]
      · rw [if_neg heq, Function.update_of_ne (Ne.symm heq)]
  rw [hset, h, List.set_append_right _ _ le_rfl, Nat.sub_self, List.set_cons_zero]

/-- The count that is written for a last octet of `used` bits. -/
theorem unused_count {used : ℕ} (hpos : used ≠ 0) (hlt : used < 8) :
    8 - BitVec.ofNat 8 used = BitVec.ofNat 8 ((8 - used % 8) % 8) := by
  interval_cases used
  all_goals first | rfl | exact absurd rfl hpos

/-- What is left of a bit string when it is finished: behind the count at the end of `w`
there are `done` and the octets of `bits`. -/
inductive BitsResult (w done : List u8) (bits : List Bool) (s s' : Asn1State) : Prop where
  | emitted (herror : s'.error = .kErrorOk)
      (hwritten : s'.written =
        w ++ BitVec.ofNat 8 ((8 - bits.length % 8) % 8) :: (done ++ pack bits))
  | failed (herror : s'.error ≠ .kErrorOk) (hunfit : s.size < s.offset + (pack bits).length)

/-- Finishing writes the bits of the octet under construction, and their count. -/
theorem finish_bits {w done : List u8} {cur : List Bool} (hlen : cur.length < 8) (hs : InBounds s)
    (hok : s.error = .kErrorOk) (hwritten : s.written = w ++ 0 :: done) :
    BitsResult w done cur s
      (asn1_finish_bitstring s ⟨true, w.length, cur.length, octet cur⟩).1 := by
  unfold asn1_finish_bitstring
  rw [if_neg (show ¬ (!true) = true by decide), if_neg (not_not.mpr hok),
    if_neg (Nat.not_le.mpr hlen)]
  by_cases hrest : cur = []
  · subst hrest
    refine .emitted hok (hwritten.trans ?_)
    rw [pack, if_pos rfl, List.append_nil]
    rfl
  · have hused : cur.length ≠ 0 := fun h => hrest (List.length_eq_zero_iff.mp h)
    rw [if_pos hused]
    cases (emits_push_byte s (octet cur)).result hs hok with
    | failed herror hunfit =>
        refine .failed herror ?_
        rw [pack_short hrest hlen]
        exact hunfit trivial
    | emitted _ happends =>
        refine .emitted happends.error_eq ?_
        have hpushed := happends.written_eq
        rw [hwritten, List.append_assoc, List.cons_append] at hpushed
        rw [pack_short hrest hlen, ← unused_count hused hlen]
        exact readBytes_update hpushed _

/-- A full octet belongs to what is done. -/
theorem BitsResult.of_octet {w done : List u8} {bits rest : List Bool} {o : u8}
    (h : BitsResult w (done ++ [o]) rest s' s'') (hsize : s'.size = s.size)
    (hoffset : s'.offset = s.offset + 1) (hpack : pack bits = o :: pack rest)
    (hlen : bits.length % 8 = rest.length % 8) : BitsResult w done bits s s'' := by
  cases h with
  | emitted herror hwritten =>
      refine .emitted herror ?_
      rw [hwritten, hlen, hpack, List.append_assoc]
      rfl
  | failed herror hunfit =>
      refine .failed herror ?_
      rw [hsize, hoffset] at hunfit
      rw [hpack, List.length_cons]
      omega

/-- The induction is over the bits: each fills up the octet in hand, which goes out when it is full.
-/
theorem finish_run_bits {w done : List u8} (cur bits : List Bool) {b : Builder}
    (hbits : b.bitstring = ⟨true, w.length, cur.length, octet cur⟩) (hlen : cur.length < 8)
    (hs : InBounds b.state) (hok : b.state.error = .kErrorOk)
    (hwritten : b.state.written = w ++ 0 :: done) :
    BitsResult w done (cur ++ bits) b.state (b.run (bit_calls bits)).state := by
  induction bits generalizing b cur done with
  | nil =>
      rw [List.append_nil]
      show BitsResult w done cur b.state (asn1_finish_bitstring b.state b.bitstring).1
      rw [hbits]
      exact finish_bits hlen hs hok hwritten
  | cons bit bits ih =>
      show BitsResult w done (cur ++ bit :: bits) b.state
        ((b.call (.bitstring_push_bit bit)).run (bit_calls bits)).state
      rw [List.append_cons]
      have hoctet := octet_snoc hlen bit
      have hcall : b.call (.bitstring_push_bit bit) =
          if cur.length + 1 = 8 then
            { b with state := asn1_push_byte b.state (octet (cur ++ [bit]))
                     bitstring := ⟨true, w.length, 0, 0⟩ }
          else { b with bitstring := ⟨true, w.length, cur.length + 1, octet (cur ++ [bit])⟩ } := by
        unfold Builder.call asn1_bitstring_push_bit
        split_ifs <;> simp_all
      by_cases hfull : cur.length + 1 = 8
      · have hoctets := pack_append (cur ++ [bit]) (by simpa using hfull) bits
        have hpush := emits_push_byte b.state (octet (cur ++ [bit]))
        rw [hcall, if_pos hfull]
        cases hpush.result hs hok with
        | failed herror hunfit =>
            rw [run_sticky herror]
            refine .failed herror ((hunfit trivial).trans_le ?_)
            rw [hoctets, List.length_singleton, List.length_cons]
            omega
        | emitted _ happends =>
            have hnext := happends.written_eq
            rw [hwritten, List.append_assoc, List.cons_append] at hnext
            exact (ih [] rfl (by decide) ((hpush.grows hs).in_bounds hs) happends.error_eq
              hnext).of_octet (hpush.grows hs).size_eq happends.offset_eq hoctets (by simp; omega)
      · rw [hcall, if_neg hfull]
        have hlength : (cur ++ [bit]).length = cur.length + 1 := List.length_append
        exact ih (cur ++ [bit])
          (b := { b with bitstring := ⟨true, w.length, cur.length + 1, octet (cur ++ [bit])⟩ })
          (by rw [hlength]) (by omega) hs hok hwritten

theorem bit_calls_grows {b : Builder} (hs : InBounds b.state)
    (hbits : b.state.error = .kErrorOk → b.bitstring.active = true →
      b.bitstring.unused_bits_offset < b.state.offset) (bits : List Bool) :
    Grows b.state (b.run (bit_calls bits)).state := by
  induction bits generalizing b with
  | nil => exact finish_bitstring_grows hs hbits
  | cons bit bits ih =>
      have hgrows := push_bit_grows hs b.bitstring bit
      obtain ⟨hactive, hoffset⟩ := push_bit_bitstring b.state b.bitstring bit
      refine hgrows.trans (ih (b := b.call (.bitstring_push_bit bit)) (hgrows.in_bounds hs) ?_)
      intro hok h
      exact hoffset ▸ (hbits (ok_of_call hok) (hactive ▸ h)).trans_le hgrows.offset_le

/-- A string of bits, with its count. -/
theorem emits_bits (b : Builder) (bits : List Bool) :
    Emits True (bitOctets bits) b.state
        (b.run (.start_bitstring :: bit_calls bits)).state ∧
      (b.run (.start_bitstring :: bit_calls bits)).tags = b.tags := by
  refine ⟨?_, bit_calls_tags (b.call .start_bitstring) bits⟩
  by_cases hok : b.state.error = .kErrorOk
  · have hpush := emits_push_byte b.state 0
    set b1 : Builder :=
      { b with state := asn1_push_byte b.state 0, bitstring := ⟨true, b.state.offset, 0, 0⟩ }
    have hcall : b.call .start_bitstring = b1 := by
      unfold Builder.call asn1_start_bitstring
      simp only [if_neg (not_not.mpr hok), b1]
    show Emits True (bitOctets bits) b.state ((b.call .start_bitstring).run (bit_calls bits)).state
    rw [hcall]
    refine ⟨fun h => absurd hok h, fun hs => ?_, fun hs _ => ?_⟩
    · refine (hpush.grows hs).trans (bit_calls_grows (b := b1) ((hpush.grows hs).in_bounds hs) ?_ bits)
      exact fun hok' _ => (emitted_offset hpush hs hok hok').ge
    · cases hpush.result hs hok with
      | failed herror hunfit =>
          rw [run_sticky (b := b1) herror]
          refine .failed herror fun _ => (hunfit trivial).trans_le ?_
          exact Nat.add_le_add_left (Nat.succ_le_succ (Nat.zero_le _)) _
      | emitted _ happends =>
          have hfresh : b1.bitstring = ⟨true, b.state.written.length, 0, octet []⟩ := by
            rw [length_written]
            rfl
          have hrun := finish_run_bits [] bits hfresh (by decide)
            ((hpush.grows hs).in_bounds hs) happends.error_eq happends.written_eq
          cases hrun with
          | emitted herror hwritten => exact .emitted trivial ⟨herror, hwritten⟩
          | failed herror hunfit =>
              refine .failed herror fun _ => ?_
              change (asn1_push_byte b.state 0).size < (asn1_push_byte b.state 0).offset + _ at hunfit
              rw [(hpush.grows hs).size_eq, happends.offset_eq, List.nil_append] at hunfit
              unfold bitOctets
              rw [List.length_cons]
              rw [List.length_singleton] at hunfit
              omega
  · have hsticky := run_sticky hok (.start_bitstring :: bit_calls bits)
    rw [hsticky]
    exact ⟨fun _ => rfl, fun hs => .refl hs, fun _ h => absurd h hok⟩

/-! ## A tree -/

/-- The calls of a tree emit its encoding and leave the tags that are open as they are. -/
theorem emits_contents (contents : Contents) (b : Builder) :
    Emits contents.Encodable contents.der b.state (b.run contents.calls).state ∧
      (b.run contents.calls).tags = b.tags := by
  induction contents generalizing b with
  | empty => exact ⟨.refl b.state, rfl⟩
  | push p rest ih =>
      obtain ⟨hrest, htags⟩ := ih (b.call (.push p))
      exact ⟨(emits_push b.state p).trans hrest, htags⟩
  | bits bits rest ih =>
      obtain ⟨hbits, htags⟩ := emits_bits b bits
      obtain ⟨hrest, htags'⟩ := ih (b.run (.start_bitstring :: bit_calls bits))
      have hcalls : (Contents.bits bits rest).calls =
          (.start_bitstring :: bit_calls bits) ++ rest.calls := by
        simp [Contents.calls, bit_calls]
      rw [hcalls, run_append]
      exact ⟨(hbits.trans hrest).congr (iff_of_eq (true_and _)) rfl, htags'.trans htags⟩
  | tag id contents rest ihcontents ih =>
      have hcalls : (Contents.tag id contents rest).calls =
          .start_tag id :: contents.calls ++ [.finish_tag] ++ rest.calls := by
        simp [Contents.calls]
      obtain ⟨hcontents, htags⟩ := ihcontents (b.call (.start_tag id))
      have hopen : (b.run (.start_tag id :: contents.calls)).tags =
          (asn1_start_tag b.state id).2 :: b.tags := htags
      set b1 := b.run (.start_tag id :: contents.calls) with hb1
      have hfinish : b1.call .finish_tag =
          { b1 with state := (asn1_finish_tag b1.state (asn1_start_tag b.state id).2).1
                    tags := b.tags } := by
        unfold Builder.call
        rw [hopen]
        rfl
      obtain ⟨hrest, htags'⟩ := ih (b1.call .finish_tag)
      have hrun : b1.run [.finish_tag] = b1.call .finish_tag := rfl
      rw [hcalls, run_append, run_append, ← hb1, hrun]
      rw [hfinish] at hrest htags' ⊢
      exact ⟨(emits_tag id hcontents).trans hrest, htags'⟩

/-- Into a buffer of any size the calls of a tree write its encoding, if there is one and it
fits, and else there is an error. Whatever is called, nothing behind the buffer is
written, and behind an error nothing at all. -/
theorem asn1_emits_der (buffer : Mem) (size : ℕ) (contents : Contents) :
    match asn1_start (some buffer) size with
    | .error error => error = .kErrorAsn1StartInvalidArgument ∧ PTRDIFF_MAX < size
    | .ok state =>
        let b := Builder.on state
        let s := (b.run contents.calls).state
        (contents.Encodable ∧ contents.der.length ≤ size →
            s.error = .kErrorOk ∧ s.offset = contents.der.length ∧
              readBytes s.buffer 0 s.offset = contents.der) ∧
          (¬ (contents.Encodable ∧ contents.der.length ≤ size) → s.error ≠ .kErrorOk) ∧
          ∀ calls, (∀ a, size ≤ a → (b.run calls).state.buffer a = buffer a) ∧
            ((b.run calls).state.error ≠ .kErrorOk →
              ∀ later, (b.run (calls ++ later)).state = (b.run calls).state) := by
  unfold asn1_start
  split_ifs with hsize
  · exact ⟨rfl, hsize⟩
  set b := Builder.on ⟨buffer, size, 0, .kErrorOk⟩
  have hs : InBounds b.state := ⟨Nat.zero_le _, Nat.not_lt.mp hsize⟩
  have hsound : Sound b := ⟨hs, fun _ _ hmem => absurd hmem List.not_mem_nil, fun _ => nofun⟩
  have hemits := (emits_contents contents b).1
  refine ⟨?_, ?_, fun calls => ⟨(run_sound hsound calls).2.frame, fun herror later => ?_⟩⟩
  · rintro ⟨hvalid, hfits⟩
    cases hemits.result hs rfl with
    | failed _ hunfit =>
        have hlt : size < 0 + contents.der.length := hunfit hvalid
        omega
    | emitted _ happends =>
        exact ⟨happends.error_eq, happends.offset_eq.trans (Nat.zero_add _), happends.written_eq⟩
  · rintro hnot
    cases hemits.result hs rfl with
    | failed herror _ => exact herror
    | emitted hvalid happends =>
        have hle : (b.run contents.calls).state.offset ≤ size := (hemits.grows hs).offset_le_size
        rw [happends.offset_eq] at hle
        exact absurd ⟨hvalid, by omega⟩ hnot
  · rw [run_append]
    exact run_sticky herror later

end IbexFirmware.Asn1
