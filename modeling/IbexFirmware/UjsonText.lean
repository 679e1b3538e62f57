/-
What the functions of the codec do on the text they are for.

`Writes p s bytes` says that a program of the writer puts `bytes` and does nothing else.
`Reads s₀ ahead t s` is the invariant of the reader: it was started at `s₀`, the
characters `ahead` are still to come, whether from the pushback or from the input, the
CRC is that of the characters taken, and the target is `t`. Each function has one lemma,
which says what it returns on the text it is for and how far it reads. Where a function
may push a character back, the lemma ends in `Reads`, and where it cannot, in `ReadTo`.
-/
import IbexFirmware.Ujson

set_option autoImplicit false

namespace IbexFirmware.Json

open Bytes Crc32 PowerFail Session

/-! ## What a program of the writer adds -/

/-- The context after `bytes` went out. -/
def Ujson.written (s : Ujson) (bytes : List u8) : Ujson :=
  { s with output := s.output ++ bytes, crc32 := bytes.foldl crc32_add8 s.crc32 }

@[simp] theorem written_nil (s : Ujson) : s.written [] = s := by
  simp [Ujson.written]

@[simp] theorem written_written (s : Ujson) (a b : List u8) :
    (s.written a).written b = s.written (a ++ b) := by
  simp [Ujson.written]

/-- `p` returns, having written `bytes` and done nothing else. -/
def Writes (p : Uj Unit) (s : Ujson) (bytes : List u8) : Prop :=
  Returns p s fun _ s' => s' = s.written bytes

theorem Writes.bind {p : Uj Unit} {f : Unit → Uj Unit} {s : Ujson} {a b : List u8}
    (hp : Writes p s a) (hf : Writes (f ()) (s.written a) b) : Writes (p >>= f) s (a ++ b) := by
  refine Leaves.bind hp ?_
  rintro ⟨⟩ _ rfl
  refine Returns.mono hf ?_
  rintro _ _ rfl
  exact written_written s a b

theorem putbuf_writes (s : Ujson) (buf : List u8) : Writes (ujson_putbuf buf) s buf := by
  refine Leaves.modify ?_
  rw [Ujson.written, crc32_add_eq]

/-- The written form of a string. -/
def quoted (w : List u8) : List u8 := chr '"' :: (w.flatMap escaped ++ [chr '"'])

/-- A number in decimal. -/
def decimal (v : ℕ) : List u8 :=
  if v < 10 then [digit v] else decimal (v / 10) ++ [digit (v % 10)]

/-! ## The reader -/

/-- The reader that was started at `s₀` has `ahead` still to come and left the target as
`t`. -/
structure Reads (s₀ : Ujson) (ahead : List u8) (t : Target) (s : Ujson) : Prop where
  ahead_eq : s.buffer.toList ++ s.input = ahead
  crc_eq : ∃ taken, s₀.input = taken ++ s.input ∧ s.crc32 = taken.foldl crc32_add8 s₀.crc32
  output_eq : s.output = s₀.output
  target_eq : s.target = t

/-- The same with nothing pushed back. -/
structure ReadTo (s₀ : Ujson) (ahead : List u8) (t : Target) (s : Ujson) : Prop
    extends Reads s₀ ahead t s where
  buffer_eq : s.buffer = none

variable {s₀ s : Ujson} {ahead : List u8} {t : Target} {c : u8}

theorem Reads.start (h : s.buffer = none) : Reads s s.input s.target s where
  ahead_eq := by simp [h]
  crc_eq := ⟨[], rfl, rfl⟩
  output_eq := rfl
  target_eq := rfl

theorem Reads.lt_budget (h : Reads s₀ ahead t s) : ahead.length < budget s := by
  rw [← h.ahead_eq, budget, List.length_append]
  have : s.buffer.toList.length ≤ 1 := by cases s.buffer <;> simp
  omega

theorem Reads.set_target (h : Reads s₀ ahead t s) (f : Target → Target) :
    Reads s₀ ahead (f t) { s with target := f s.target } where
  ahead_eq := h.ahead_eq
  crc_eq := h.crc_eq
  output_eq := h.output_eq
  target_eq := by rw [h.target_eq]

theorem ReadTo.set_target (h : ReadTo s₀ ahead t s) (f : Target → Target) :
    ReadTo s₀ ahead (f t) { s with target := f s.target } where
  toReads := h.toReads.set_target f
  buffer_eq := h.buffer_eq

theorem getc_reads (h : Reads s₀ (c :: ahead) t s) :
    Returns ujson_getc s fun a s' => a = c ∧ ReadTo s₀ ahead t s' := by
  obtain ⟨hahead, ⟨taken, hinput, hcrc⟩, houtput, htarget⟩ := h
  refine Leaves.get ?_
  cases hbuffer : s.buffer with
  | some ch =>
      rw [hbuffer] at hahead
      obtain ⟨rfl, rfl⟩ := List.cons.inj hahead
      exact Leaves.modify_bind (Leaves.pure ⟨rfl, ⟨rfl, ⟨taken, hinput, hcrc⟩, houtput, htarget⟩, rfl⟩)
  | none =>
      rw [hbuffer] at hahead
      cases hrest : s.input with
      | nil => simp [hrest] at hahead
      | cons ch rest =>
          rw [hrest] at hahead
          obtain ⟨rfl, rfl⟩ := List.cons.inj hahead
          refine Leaves.modify_bind (Leaves.pure ⟨rfl, ⟨by simp [hbuffer], ⟨taken ++ [ch], ?_, ?_⟩,
            houtput, htarget⟩, hbuffer⟩)
          · rw [hinput, hrest, List.append_assoc]
            rfl
          · rw [List.foldl_append, ← hcrc]
            rfl

theorem ungetc_reads (h : ReadTo s₀ ahead t s) :
    Returns (ujson_ungetc c) s fun _ s' => Reads s₀ (c :: ahead) t s' := by
  refine Leaves.get ?_
  rw [if_neg (by simp [h.buffer_eq])]
  refine Leaves.modify ⟨?_, h.crc_eq, h.output_eq, h.target_eq⟩
  rw [← h.ahead_eq, h.buffer_eq]
  rfl

theorem consume_whitespace_reads (h : Reads s₀ (c :: ahead) t s) (hc : is_space c = false) :
    Returns consume_whitespace s fun a s' => a = c ∧ ReadTo s₀ ahead t s' := by
  refine Leaves.get (Leaves.loop_succ (n := s.input.length + 1) ?_)
  refine Leaves.bind (getc_reads h) ?_
  rintro a s' ⟨rfl, h'⟩
  rw [hc]
  exact Leaves.pure ⟨rfl, h'⟩

theorem consume_reads (h : Reads s₀ (c :: ahead) t s) (hc : is_space c = false) :
    Returns (ujson_consume c) s fun _ s' => ReadTo s₀ ahead t s' := by
  refine Leaves.bind (consume_whitespace_reads h hc) ?_
  rintro a s' ⟨rfl, h'⟩
  rw [if_neg (not_not.mpr rfl)]
  exact Leaves.pure h'

/-- The character is there, and taken. -/
theorem consume_maybe_reads (h : Reads s₀ (c :: ahead) t s) (hc : is_space c = false) :
    Returns (ujson_consume_maybe c) s fun a s' => a = true ∧ ReadTo s₀ ahead t s' := by
  refine Leaves.bind (consume_whitespace_reads h hc) ?_
  rintro a s' ⟨rfl, h'⟩
  rw [if_neg (not_not.mpr rfl)]
  exact Leaves.pure ⟨rfl, h'⟩

/-- Another character is there, and stays. -/
theorem consume_maybe_other {d : u8} (h : Reads s₀ (d :: ahead) t s) (hd : is_space d = false)
    (hne : c ≠ d) :
    Returns (ujson_consume_maybe c) s fun a s' => a = false ∧ Reads s₀ (d :: ahead) t s' := by
  refine Leaves.bind (consume_whitespace_reads h hd) ?_
  rintro a s' ⟨rfl, h'⟩
  rw [if_pos hne]
  refine Leaves.bind (Returns.attempt (ungetc_reads h')) ?_
  rintro r s'' ⟨_, _, h''⟩
  exact Leaves.pure ⟨rfl, h''⟩

/-! ## Strings read back -/

/-- The three ways a character of a string is written. -/
inductive Escape (c : u8) : List u8 → Prop where
  | plain (hquote : c ≠ chr '"') (hslash : c ≠ chr '\\') : Escape c [c]
  | simple {e : u8} (he : simple_escape e = some c) : Escape c [chr '\\', e]
  | code {a b : u8} {x y : u32} (ha : hexdigit a = some x) (hb : hexdigit b = some y)
      (hc : (0 <<< 12 ||| 0 <<< 8 ||| x <<< 4 ||| y : u32).setWidth 8 = c) :
      Escape c [chr '\\', chr 'u', chr '0', chr '0', a, b]

theorem hexdigit_hex : ∀ d : Fin 16, hexdigit (hex.getD d 0) = some (BitVec.ofNat 32 d) := by
  decide

theorem hex_pair (c : u8) :
    (0 <<< 12 ||| 0 <<< 8 ||| BitVec.ofNat 32 (c.toNat / 16) <<< 4
      ||| BitVec.ofNat 32 (c.toNat % 16) : u32).setWidth 8 = c := by
  revert c
  decide

theorem escape_escaped (c : u8) : Escape c (escaped c) := by
  unfold escaped
  split_ifs with hout hquote hslash hb hf hn hr ht
  · exact .simple (by rw [hquote]; decide)
  · exact .simple (by rw [hslash]; decide)
  · exact .simple (by rw [hb]; decide)
  · exact .simple (by rw [hf]; decide)
  · exact .simple (by rw [hn]; decide)
  · exact .simple (by rw [hr]; decide)
  · exact .simple (by rw [ht]; decide)
  · exact .code (hexdigit_hex ⟨c.toNat / 16, by omega⟩) (hexdigit_hex ⟨c.toNat % 16, by omega⟩)
      (hex_pair c)
  · push Not at hout
    exact .plain hout.2.1 hout.2.2.1

theorem consume_hexdigit_reads {x : u32} (h : Reads s₀ (c :: ahead) t s)
    (hx : hexdigit c = some x) :
    Returns consume_hexdigit s fun a s' => a = x ∧ ReadTo s₀ ahead t s' := by
  refine Leaves.bind (getc_reads h) ?_
  rintro a s' ⟨rfl, h'⟩
  rw [hx]
  exact Leaves.pure ⟨rfl, h'⟩

theorem consume_hex_reads {a b : u8} {x y : u32}
    (h : Reads s₀ (chr '0' :: chr '0' :: a :: b :: ahead) t s) (ha : hexdigit a = some x)
    (hb : hexdigit b = some y) :
    Returns consume_hex s fun r s' =>
      r = 0 <<< 12 ||| 0 <<< 8 ||| x <<< 4 ||| y ∧ ReadTo s₀ ahead t s' := by
  refine Leaves.bind (consume_hexdigit_reads h (x := 0) (by decide)) ?_
  rintro _ s₁ ⟨rfl, h₁⟩
  refine Leaves.bind (consume_hexdigit_reads h₁.toReads (x := 0) (by decide)) ?_
  rintro _ s₂ ⟨rfl, h₂⟩
  refine Leaves.bind (consume_hexdigit_reads h₂.toReads ha) ?_
  rintro _ s₃ ⟨rfl, h₃⟩
  refine Leaves.bind (consume_hexdigit_reads h₃.toReads hb) ?_
  rintro _ s₄ ⟨rfl, h₄⟩
  exact Leaves.pure ⟨rfl, h₄⟩

theorem put_reads {str : Dest} {i : ℕ} (h : ReadTo s₀ ahead t s) :
    Returns (put str i c) s fun _ s' => ReadTo s₀ ahead (str i c t) s' :=
  Leaves.modify (h.set_target (str i c))

/-- A written character: its first one does not end the string, and the rest of it is read
with it. -/
theorem escaped_reads (h : Reads s₀ (escaped c ++ ahead) t s) :
    Returns ujson_getc s fun ch s₁ => ch ≠ chr '"' ∧
      Returns (unescape ch) s₁ fun a s₂ => a = c ∧ ReadTo s₀ ahead t s₂ := by
  have hesc := escape_escaped c
  generalize escaped c = w at h hesc
  cases hesc with
  | plain hquote hslash =>
      refine Returns.mono (getc_reads h) ?_
      rintro a s₁ ⟨rfl, h₁⟩
      rw [unescape, if_neg hslash]
      exact ⟨hquote, Leaves.pure ⟨rfl, h₁⟩⟩
  | simple he =>
      refine Returns.mono (getc_reads h) ?_
      rintro a s₁ ⟨rfl, h₁⟩
      rw [unescape, if_pos rfl]
      refine ⟨by decide, Leaves.bind (getc_reads h₁.toReads) ?_⟩
      rintro a s₂ ⟨rfl, h₂⟩
      rw [he]
      exact Leaves.pure ⟨rfl, h₂⟩
  | code ha hb hc =>
      refine Returns.mono (getc_reads h) ?_
      rintro a s₁ ⟨rfl, h₁⟩
      rw [unescape, if_pos rfl]
      refine ⟨by decide, Leaves.bind (getc_reads h₁.toReads) ?_⟩
      rintro a s₂ ⟨rfl, h₂⟩
      have hu : simple_escape (chr 'u') = none := by decide
      rw [hu]
      refine Leaves.bind (consume_hex_reads h₂.toReads ha hb) ?_
      rintro _ s₃ ⟨rfl, h₃⟩
      exact Leaves.pure ⟨hc, h₃⟩

/-- A written character is read back and stored, where there is room. -/
theorem qs_round_reads {str : Dest} {len : ℕ} {n : List u8} (hroom : n.length < len)
    (h : Reads s₀ (escaped c ++ ahead) t s) :
    Returns (qs_round str len n) s fun r s' =>
      r = .inl (n ++ [c]) ∧ ReadTo s₀ ahead (str n.length c t) s' := by
  refine Leaves.bind (escaped_reads h) ?_
  rintro ch s₁ ⟨hquote, hunescape⟩
  rw [if_neg hquote]
  refine Leaves.bind hunescape ?_
  rintro a s₂ ⟨rfl, h₂⟩
  rw [if_pos hroom]
  refine Leaves.bind (put_reads h₂) ?_
  intro _ s' h'
  exact Leaves.pure ⟨rfl, h'⟩

/-- Store the characters of `w`, from index `i` on. -/
def fill (str : Dest) : ℕ → List u8 → Target → Target
  | _, [], t => t
  | i, c :: w, t => fill str (i + 1) w (str i c t)

theorem fill_on_stack (i : ℕ) (w : List u8) (t : Target) : fill on_stack i w t = t := by
  induction w generalizing i t with
  | nil => rfl
  | cons c w ih => exact ih (i + 1) t

theorem qs_loop_reads {str : Dest} {len : ℕ} (w n : List u8) (k : ℕ)
    (hroom : n.length + w.length ≤ len) (hk : w.length < k)
    (h : Reads s₀ (w.flatMap escaped ++ chr '"' :: ahead) t s) :
    Returns (loop (qs_round str len) k n) s fun r s' =>
      r = n ++ w ∧ ReadTo s₀ ahead (fill str n.length w t) s' := by
  induction w generalizing n k t s with
  | nil =>
      obtain ⟨k, rfl⟩ : ∃ j, k = j + 1 := ⟨k - 1, by simp at hk; omega⟩
      refine Leaves.loop_succ (Leaves.bind (getc_reads h) ?_)
      rintro _ s' ⟨rfl, h'⟩
      rw [if_pos rfl, List.append_nil]
      exact Leaves.pure ⟨rfl, h'⟩
  | cons c w ih =>
      obtain ⟨k, rfl⟩ : ∃ j, k = j + 1 := ⟨k - 1, by simp at hk; omega⟩
      rw [List.length_cons] at hroom hk
      rw [List.flatMap_cons, List.append_assoc] at h
      refine Leaves.loop_succ (Returns.mono (qs_round_reads (by omega) h) ?_)
      rintro _ s' ⟨rfl, h'⟩
      have hlen : (n ++ [c]).length = n.length + 1 := by simp
      have hrest := ih (n ++ [c]) k (by omega) (by omega) h'.toReads
      rw [hlen, List.append_assoc] at hrest
      exact hrest

theorem length_le_escaped (w : List u8) : w.length ≤ (w.flatMap escaped).length := by
  have hone : ∀ c : u8, 1 ≤ (escaped c).length := by decide
  induction w with
  | nil => exact Nat.le_refl _
  | cons c w ih =>
      rw [List.flatMap_cons, List.length_append, List.length_cons]
      have := hone c
      omega

/-- A written string is read back, into a buffer that holds it and its terminator. -/
theorem parse_qs_reads {str : Dest} {len : ℕ} {w : List u8} (hroom : w.length < len)
    (h : Reads s₀ (quoted w ++ ahead) t s) :
    Returns (ujson_parse_qs str len) s fun r s' =>
      r = w ∧ ReadTo s₀ ahead (str w.length 0 (fill str 0 w t)) s' := by
  rw [quoted, List.cons_append, List.append_assoc] at h
  refine Leaves.bind (consume_reads h (by decide)) ?_
  intro _ s₁ h₁
  have hbudget : w.length < budget s₁ := by
    have hlt := h₁.lt_budget
    have hle := length_le_escaped w
    rw [List.length_append] at hlt
    omega
  refine Leaves.get (Leaves.bind (qs_loop_reads w [] _ (by simp; omega) hbudget h₁.toReads) ?_)
  rintro r s₂ ⟨rfl, h₂⟩
  refine Leaves.bind (put_reads h₂) ?_
  intro _ s' h'
  exact Leaves.pure ⟨rfl, h'⟩

/-! ## Numbers and truth values read back -/

/-- The number that the digits `ds` continue `v` to. -/
def decimal_value (v : ℕ) (ds : List u8) : ℕ :=
  ds.foldl (fun v d => v * 10 + (d.toNat - '0'.toNat)) v

theorem le_decimal_value (ds : List u8) (v : ℕ) : v ≤ decimal_value v ds := by
  induction ds generalizing v with
  | nil => exact Nat.le_refl v
  | cons d ds ih =>
      have hstep := ih (v * 10 + (d.toNat - '0'.toNat))
      rw [decimal_value, List.foldl_cons]
      exact Nat.le_trans (by omega) hstep

theorem decimal_value_append (v : ℕ) (as bs : List u8) :
    decimal_value v (as ++ bs) = decimal_value (decimal_value v as) bs :=
  List.foldl_append

theorem digit_spec : ∀ d : Fin 10,
    is_digit (digit d) = true ∧ (digit d).toNat - '0'.toNat = d.val := by
  decide

theorem decimal_digits (v : ℕ) : ∀ d ∈ decimal v, is_digit d = true := by
  induction v using decimal.induct with
  | case1 v hv =>
      rw [decimal, if_pos hv]
      intro d hd
      rw [List.mem_singleton.mp hd]
      exact (digit_spec ⟨v, hv⟩).1
  | case2 v hv ih =>
      rw [decimal, if_neg hv]
      intro d hd
      rcases List.mem_append.mp hd with hd | hd
      · exact ih d hd
      · rw [List.mem_singleton.mp hd]
        exact (digit_spec ⟨v % 10, Nat.mod_lt v (by omega)⟩).1

theorem decimal_value_digit (v : ℕ) {d : ℕ} (hd : d < 10) :
    decimal_value v [digit d] = v * 10 + d :=
  congrArg (v * 10 + ·) (digit_spec ⟨d, hd⟩).2

theorem decimal_value_decimal (v : ℕ) : decimal_value 0 (decimal v) = v := by
  induction v using decimal.induct with
  | case1 v hv =>
      rw [decimal, if_pos hv, decimal_value_digit 0 hv, Nat.zero_mul, Nat.zero_add]
  | case2 v hv ih =>
      rw [decimal, if_neg hv, decimal_value_append, ih,
        decimal_value_digit _ (Nat.mod_lt v (by omega))]
      omega

theorem decimal_ne_nil (v : ℕ) : decimal v ≠ [] := by
  rw [decimal]
  split <;> simp

theorem digit_not_space : ∀ d : u8, is_digit d = true → is_space d = false ∧ d ≠ chr '-' := by
  decide

theorem integer_round_reads {v : ℕ} {d : u8} (hd : is_digit d = true)
    (hmax : decimal_value v [d] ≤ UINT64_MAX) (h : Reads s₀ (c :: ahead) t s) :
    Returns (integer_round (v, d)) s fun r s' =>
      r = .inl (decimal_value v [d], c) ∧ ReadTo s₀ ahead t s' := by
  have hmax' : v * 10 + (d.toNat - '0'.toNat) ≤ UINT64_MAX := hmax
  have hmul : ¬ UINT64_MAX / 10 < v := by omega
  have hadd : ¬ UINT64_MAX - (d.toNat - '0'.toNat) < v * 10 := by omega
  rw [integer_round, if_pos hd, if_neg hmul, if_neg hadd]
  refine Leaves.bind (Returns.attempt (getc_reads h)) ?_
  rintro _ s' ⟨_, rfl, rfl, h'⟩
  exact Leaves.pure ⟨rfl, h'⟩

/-- The digits in front of another character are one number. -/
theorem integer_loop_reads (ds : List u8) {v k : ℕ} {d : u8} (hds : ∀ x ∈ ds, is_digit x = true)
    (hd : is_digit d = true) (hc : is_digit c = false)
    (hmax : decimal_value v (d :: ds) ≤ UINT64_MAX) (hk : ds.length + 1 < k)
    (h : ReadTo s₀ (ds ++ c :: ahead) t s) :
    Returns (loop integer_round k (v, d)) s fun r s' =>
      r = (decimal_value v (d :: ds), some c) ∧ ReadTo s₀ ahead t s' := by
  induction ds generalizing v k d s with
  | nil =>
      obtain ⟨k, rfl⟩ : ∃ j, k = j + 2 := ⟨k - 2, by simp at hk; omega⟩
      refine Leaves.loop_succ (Returns.mono (integer_round_reads hd hmax h.toReads) ?_)
      rintro _ s' ⟨rfl, h'⟩
      -- The last round meets the character behind the number.
      refine Leaves.loop_succ ?_
      rw [integer_round, if_neg (by simp [hc])]
      exact Leaves.pure ⟨rfl, h'⟩
  | cons d' ds ih =>
      obtain ⟨k, rfl⟩ : ∃ j, k = j + 1 := ⟨k - 1, by omega⟩
      have hround : decimal_value v [d] ≤ UINT64_MAX := (le_decimal_value (d' :: ds) _).trans hmax
      rw [List.cons_append] at h
      refine Leaves.loop_succ (Returns.mono (integer_round_reads hd hround h.toReads) ?_)
      rintro _ s' ⟨rfl, h'⟩
      exact ih (fun x hx => hds x (List.mem_cons_of_mem _ hx)) (hds d' List.mem_cons_self) hmax
        (by simp at hk; omega) h'

theorem parse_digits_reads {d : u8} {ds : List u8} (hd : is_digit d = true)
    (hds : ∀ x ∈ ds, is_digit x = true) (hc : is_digit c = false)
    (hmax : decimal_value 0 (d :: ds) ≤ UINT64_MAX) (h : ReadTo s₀ (ds ++ c :: ahead) t s) :
    Returns (parse_digits d) s fun r s' =>
      r = decimal_value 0 (d :: ds) ∧ Reads s₀ (c :: ahead) t s' := by
  have hbudget : ds.length + 1 < budget s := by
    have hlt := h.lt_budget
    rw [List.length_append, List.length_cons] at hlt
    omega
  rw [parse_digits, if_pos hd]
  refine Leaves.get (Leaves.bind (integer_loop_reads ds hds hd hc hmax hbudget h) ?_)
  rintro _ s₁ ⟨rfl, h₁⟩
  refine Leaves.bind (ungetc_reads h₁) ?_
  intro _ s' h'
  exact Leaves.pure ⟨rfl, h'⟩

/-- A number that fits 64 bits is read back, sign and all, up to the character behind it. -/
theorem parse_integer_reads {v : ℕ} {neg : Bool} (hc : is_digit c = false) (hv : v ≤ UINT64_MAX)
    (hneg : neg = true → v ≤ 2 ^ 63)
    (h : Reads s₀ ((if neg then [chr '-'] else []) ++ decimal v ++ c :: ahead) t s) :
    Returns ujson_parse_integer s fun r s' =>
      r = (if neg then -BitVec.ofNat 64 v else BitVec.ofNat 64 v) ∧ Reads s₀ (c :: ahead) t s' := by
  obtain ⟨d, ds, hdec⟩ := List.exists_cons_of_ne_nil (decimal_ne_nil v)
  have hdigits := decimal_digits v
  have hvalue := decimal_value_decimal v
  rw [hdec] at h hdigits hvalue
  have hd : is_digit d = true := hdigits d List.mem_cons_self
  have hds : ∀ x ∈ ds, is_digit x = true := fun x hx => hdigits x (List.mem_cons_of_mem d hx)
  have hmax : decimal_value 0 (d :: ds) ≤ UINT64_MAX := by rw [hvalue]; exact hv
  cases neg with
  | false =>
      refine Leaves.bind (consume_whitespace_reads h (digit_not_space d hd).1) ?_
      rintro a s₁ ⟨ha, h₁⟩
      rw [ha, if_neg (digit_not_space d hd).2]
      refine Leaves.bind (parse_digits_reads hd hds hc hmax h₁) ?_
      rintro _ s₂ ⟨rfl, h₂⟩
      rw [hvalue]
      exact Leaves.pure ⟨rfl, h₂⟩
  | true =>
      refine Leaves.bind (consume_whitespace_reads h (by decide)) ?_
      rintro _ s₁ ⟨rfl, h₁⟩
      rw [if_pos rfl]
      refine Leaves.bind (getc_reads h₁.toReads) ?_
      rintro _ s₂ ⟨rfl, h₂⟩
      refine Leaves.bind (parse_digits_reads hd hds hc hmax h₂) ?_
      rintro _ s₃ ⟨rfl, h₃⟩
      rw [hvalue, if_neg (Nat.not_lt.mpr (hneg rfl))]
      exact Leaves.pure ⟨rfl, h₃⟩

theorem exists_decimal (v : ℕ) : ∃ d ds, decimal v = d :: ds ∧ is_digit d = true := by
  obtain ⟨d, ds, hdec⟩ := List.exists_cons_of_ne_nil (decimal_ne_nil v)
  exact ⟨d, ds, hdec, decimal_digits v d (hdec ▸ List.mem_cons_self)⟩

theorem deserialize_uint32_reads {v : u32} (hc : is_digit c = false)
    (h : Reads s₀ (decimal v.toNat ++ c :: ahead) t s) :
    Returns ujson_deserialize_uint32_t s fun r s' => r = v ∧ Reads s₀ (c :: ahead) t s' := by
  have hv : v.toNat ≤ UINT64_MAX := v.isLt.le.trans (by decide)
  have hneg : false = true → v.toNat ≤ 2 ^ 63 := nofun
  refine Leaves.bind (parse_integer_reads hc hv hneg h) ?_
  rintro _ s₁ ⟨rfl, h₁⟩
  refine Leaves.pure ⟨?_, h₁⟩
  simp

end IbexFirmware.Json
