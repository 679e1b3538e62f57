/-
What the readers of `ujson.c` take from any text.

`UjsonText` says what they do with the text they are for. Here it is every text: the
characters still to come are `unread`, whether they were pushed back or wait in the
console, and each reader has one lemma, which says what it took in each way it can end.
White space in front of a token is dropped by `trim`, which is all that
`consume_whitespace` does, so that the lemmas need not speak of it.
-/
import IbexFirmware.Lib.Recognizer
import IbexFirmware.UjsonDerive

set_option autoImplicit false

namespace IbexFirmware.Json

open Bytes PowerFail Session Recognizer

/-- The characters still to come. -/
def Ujson.unread (s : Ujson) : List u8 := s.buffer.toList ++ s.input

/-- A text without the white space in front of it. -/
def trim (xs : List u8) : List u8 := xs.dropWhile is_space

theorem trim_space {c : u8} (hc : is_space c = true) (xs : List u8) : trim (c :: xs) = trim xs :=
  List.dropWhile_cons_of_pos hc

theorem trim_of_not_space {c : u8} (hc : is_space c = false) (xs : List u8) :
    trim (c :: xs) = c :: xs :=
  List.dropWhile_cons_of_neg (by simp [hc])

theorem not_space_of_trim {xs ys : List u8} {c : u8} (h : trim xs = c :: ys) :
    is_space c = false := by
  have hhead := List.head?_dropWhile_not is_space xs
  rw [trim] at h
  simpa [h] using hhead

theorem trim_append {ws : List u8} (hws : ∀ c ∈ ws, is_space c = true) (xs : List u8) :
    trim (ws ++ xs) = trim xs :=
  List.dropWhile_append_of_pos hws

theorem length_trim_le (xs : List u8) : (trim xs).length ≤ xs.length :=
  (List.dropWhile_sublist is_space).length_le

theorem length_unread_lt_budget (s : Ujson) : s.unread.length < budget s := by
  have hbuffer : s.buffer.toList.length ≤ 1 := by cases s.buffer <;> simp
  rw [Ujson.unread, List.length_append, budget]
  omega

theorem buffer_of_unread_nil {s : Ujson} (h : s.unread = []) : s.buffer = none := by
  cases hbuffer : s.buffer with
  | none => rfl
  | some c => simp [Ujson.unread, hbuffer] at h

/-! ## Single characters -/

variable {s : Ujson}

theorem getc_unread (s : Ujson) :
    Leaves ujson_getc s (fun c s' => s.unread = c :: s'.unread ∧ s'.buffer = none)
      (fun _ s' => s' = s ∧ s.unread = []) fun _ => False := by
  refine Leaves.get ?_
  cases hbuffer : s.buffer with
  | some ch =>
      refine Leaves.modify_bind (Leaves.pure ⟨?_, rfl⟩)
      simp [Ujson.unread, hbuffer]
  | none =>
      cases hinput : s.input with
      | nil => exact Leaves.throw ⟨rfl, by simp [Ujson.unread, hbuffer, hinput]⟩
      | cons ch rest =>
          refine Leaves.modify_bind (Leaves.pure ⟨?_, hbuffer⟩)
          simp [Ujson.unread, hbuffer, hinput]

theorem ungetc_unread {c : u8} (h : s.buffer = none) :
    Returns (ujson_ungetc c) s fun _ s' => s'.unread = c :: s.unread ∧ s'.buffer = some c := by
  refine Leaves.get ?_
  rw [if_neg (by simp [h])]
  refine Leaves.modify ⟨?_, rfl⟩
  simp [Ujson.unread, h]

/-- White space is dropped, and the character behind it is taken. -/
theorem consume_whitespace_unread (s : Ujson) :
    Leaves consume_whitespace s (fun c s' => trim s.unread = c :: s'.unread ∧ s'.buffer = none)
      (fun _ _ => trim s.unread = []) fun _ => False := by
  have hloop : ∀ (n : ℕ) (s : Ujson), s.unread.length < n →
      Leaves (loop (fun _ => do
          let ch ← ujson_getc
          pure (if is_space ch then .inl () else .inr ch) :
            Unit → Uj (Unit ⊕ u8)) n ()) s
        (fun c s' => trim s.unread = c :: s'.unread ∧ s'.buffer = none)
        (fun _ _ => trim s.unread = []) fun _ => False := by
    intro n
    induction n with
    | zero => exact fun _ h => absurd h (Nat.not_lt_zero _)
    | succ n ih =>
        intro s hlen
        refine Leaves.loop_succ (Leaves.bind (Leaves.conseq (getc_unread s) (fun _ _ => id)
          (fun _ _ h => by rw [h.2]; rfl) fun _ => id) ?_)
        rintro c s' ⟨hread, hbuffer⟩
        rw [hread, List.length_cons] at hlen
        rw [hread]
        cases hc : is_space c with
        | true =>
            rw [trim_space hc]
            exact Leaves.pure (ih s' (by omega))
        | false =>
            rw [trim_of_not_space hc]
            exact Leaves.pure ⟨rfl, hbuffer⟩
  exact Leaves.get (hloop _ s (length_unread_lt_budget s))

/-- The character `ch` is taken, or the text does not go on with it. -/
theorem consume_unread (s : Ujson) (ch : u8) :
    Leaves (ujson_consume ch) s (fun _ s' => trim s.unread = ch :: s'.unread ∧ s'.buffer = none)
      (fun _ _ => ∀ ys, trim s.unread ≠ ch :: ys) fun _ => False := by
  refine Leaves.bind (Leaves.conseq (consume_whitespace_unread s) (fun _ _ => id)
    (fun _ _ h ys => by simp [h]) fun _ => id) ?_
  rintro c s' ⟨hread, hbuffer⟩
  by_cases hc : ch = c
  · subst hc
    rw [if_neg (not_not.mpr rfl)]
    exact Leaves.pure ⟨hread, hbuffer⟩
  · rw [if_pos hc]
    refine Leaves.throw fun ys hys => hc ?_
    rw [hread] at hys
    exact (List.cons.inj hys).1.symm

/-- Another character than `ch` is pushed back, the white space in front of it is not. -/
theorem consume_maybe_unread (s : Ujson) (ch : u8) :
    Leaves (ujson_consume_maybe ch) s
      (fun taken s' => match taken with
        | true => trim s.unread = ch :: s'.unread ∧ s'.buffer = none
        | false => trim s.unread = s'.unread ∧ ∃ c, s'.buffer = some c ∧ c ≠ ch)
      (fun _ _ => trim s.unread = []) fun _ => False := by
  refine Leaves.bind (consume_whitespace_unread s) ?_
  rintro c s₁ ⟨hread, hbuffer⟩
  by_cases hc : ch = c
  · subst hc
    rw [if_neg (not_not.mpr rfl)]
    exact Leaves.pure ⟨hread, hbuffer⟩
  · rw [if_pos hc]
    refine Leaves.bind (Returns.leaves (Returns.attempt (ungetc_unread hbuffer))) ?_
    rintro _ s₂ ⟨_, _, hunread, hpushed⟩
    exact Leaves.pure ⟨hread.trans hunread.symm, c, hpushed, Ne.symm hc⟩

/-! ## Integers -/

/-- What `ujson_getc` has given, and what is left. -/
def getc_got (s : Ujson) : Except AbslStatus u8 → Ujson → Prop
  | .ok c, s' => s.unread = c :: s'.unread ∧ s'.buffer = none
  | .error _, s' => s' = s ∧ s.unread = []

/-- A round takes the digit it was handed, and the character behind it if there is one. -/
theorem integer_round_digit {v : ℕ} {d : u8} (hd : is_digit d = true) (s : Ujson) :
    Leaves (integer_round (v, d)) s
      (fun r s' => decimal_value v [d] ≤ UINT64_MAX ∧ s'.buffer = none ∧
        match r with
        | .inl (v', c) => v' = decimal_value v [d] ∧ s.unread = c :: s'.unread
        | .inr (v', c) => v' = decimal_value v [d] ∧ c = none ∧ s.unread = [] ∧ s'.unread = [])
      (fun _ _ => UINT64_MAX < decimal_value v [d]) fun _ => False := by
  have hvalue : decimal_value v [d] = v * 10 + (d.toNat - '0'.toNat) := rfl
  have hmax : UINT64_MAX = 18446744073709551615 := rfl
  have hdigit : d.toNat - '0'.toNat ≤ 9 := by
    have hle : d.toNat ≤ '9'.toNat := by simp [is_digit] at hd; exact hd.2
    exact Nat.sub_le_sub_right hle _
  rw [integer_round, if_pos hd, hvalue]
  generalize d.toNat - '0'.toNat = x at hdigit ⊢
  by_cases hmul : UINT64_MAX / 10 < v
  · rw [if_pos hmul]
    exact Leaves.throw (by omega)
  by_cases hadd : UINT64_MAX - x < v * 10
  · rw [if_neg hmul, if_pos hadd]
    exact Leaves.throw (by omega)
  have hle : v * 10 + x ≤ UINT64_MAX := by omega
  rw [if_neg hmul, if_neg hadd]
  refine Leaves.bind (Leaves.attempt (Q := getc_got s) (getc_unread s)) ?_
  rintro (_ | c) s' hread
  · obtain ⟨rfl, hend⟩ := hread
    exact Leaves.pure ⟨hle, buffer_of_unread_nil hend, rfl, rfl, hend, hend⟩
  · exact Leaves.pure ⟨hle, hread.2, rfl, hread.1⟩

/-- The digits in front of anything else are one number, which has to fit 64 bits. -/
theorem integer_loop_digits (k : ℕ) {v : ℕ} {d : u8} (hd : is_digit d = true)
    (hk : s.unread.length + 1 < k) :
    Leaves (loop integer_round k (v, d)) s
      (fun r s' => r.1 = decimal_value v (d :: s.unread.takeWhile is_digit) ∧ r.1 ≤ UINT64_MAX ∧
        s'.buffer = none ∧ r.2.toList ++ s'.unread = s.unread.dropWhile is_digit ∧
        (r.2 = none → s'.unread = []))
      (fun _ _ => UINT64_MAX < decimal_value v (d :: s.unread.takeWhile is_digit))
      fun _ => False := by
  induction k generalizing v d s with
  | zero => omega
  | succ k ih =>
      have hgrow : decimal_value v [d] ≤ decimal_value v (d :: s.unread.takeWhile is_digit) :=
        le_decimal_value _ _
      refine Leaves.loop_succ (Leaves.conseq (integer_round_digit hd s) ?_
        (fun _ _ h => Nat.lt_of_lt_of_le h hgrow) fun _ => id)
      rintro (⟨v', c⟩ | ⟨v', c⟩) s' ⟨hfits, hbuffer, hr⟩
      · obtain ⟨rfl, hread⟩ := hr
        rw [hread] at hk hgrow ⊢
        cases hc : is_digit c with
        | true =>
            rw [List.takeWhile_cons_of_pos hc, List.dropWhile_cons_of_pos hc]
            exact ih hc (by simp at hk; omega)
        | false =>
            rw [List.takeWhile_cons_of_neg (by simp [hc]), List.dropWhile_cons_of_neg (by simp [hc])]
            obtain ⟨k, rfl⟩ : ∃ j, k = j + 1 := ⟨k - 1, by simp at hk; omega⟩
            refine Leaves.loop_succ ?_
            rw [integer_round, if_neg (by simp [hc])]
            exact Leaves.pure ⟨rfl, hfits, hbuffer, rfl, fun h => absurd h (Option.some_ne_none _)⟩
      · obtain ⟨rfl, rfl, hread, hend⟩ := hr
        rw [hread, hend]
        exact ⟨rfl, hfits, hbuffer, rfl, fun _ => rfl⟩

/-- The digits are taken, and nothing else. -/
theorem parse_digits_unread (ch : u8) (h : s.buffer = none) :
    Leaves (parse_digits ch) s
      (fun v s' => is_digit ch = true ∧ v = decimal_value 0 (ch :: s.unread.takeWhile is_digit) ∧
        v ≤ UINT64_MAX ∧ s'.unread = s.unread.dropWhile is_digit ∧ s'.buffer = s'.unread.head?)
      (fun _ _ => is_digit ch = true →
        UINT64_MAX < decimal_value 0 (ch :: s.unread.takeWhile is_digit))
      fun _ => False := by
  cases hch : is_digit ch with
  | false =>
      rw [parse_digits, if_neg (by simp [hch])]
      exact Leaves.throw fun h => absurd h Bool.false_ne_true
  | true =>
      have hbudget : s.unread.length + 1 < budget s := by
        rw [Ujson.unread, h, budget]
        simp
      rw [parse_digits, if_pos hch]
      refine Leaves.get (Leaves.bind (Leaves.conseq (integer_loop_digits (budget s) hch hbudget)
        (fun _ _ => id) (fun _ _ hbig _ => hbig) fun _ => id) ?_)
      rintro ⟨v, _ | c⟩ s₁ ⟨hv, hmax, hbuffer, hrest, hend⟩
      · refine Leaves.pure ⟨rfl, hv, hmax, hrest, ?_⟩
        rw [hbuffer, hend rfl]
        rfl
      · refine Leaves.bind (Returns.leaves (ungetc_unread hbuffer)) ?_
        rintro _ s' ⟨hunread, hpushed⟩
        refine Leaves.pure ⟨rfl, hv, hmax, hunread.trans hrest, ?_⟩
        rw [hunread, hpushed]
        rfl

/-- The text is a sign or none, the digits `ds` and then `ys`, which goes on with something
else. -/
structure Numeral (xs : List u8) (neg : Bool) (ds ys : List u8) : Prop where
  text_eq : trim xs = (if neg then [chr '-'] else []) ++ (ds ++ ys)
  ne_nil : ds ≠ []
  digits : ∀ d ∈ ds, is_digit d = true
  stops : ∀ c ∈ ys.head?, is_digit c = false

/-- The reader has 64 bits for the magnitude, and one value less of them for a sign. -/
def FitsMagnitude (neg : Bool) (ds : List u8) : Prop :=
  decimal_value 0 ds ≤ UINT64_MAX ∧ (neg = true → decimal_value 0 ds ≤ 2 ^ 63)

/-- The 64 bits that are made of it. -/
def integer_bits (neg : Bool) (ds : List u8) : u64 :=
  if neg then -BitVec.ofNat 64 (decimal_value 0 ds) else BitVec.ofNat 64 (decimal_value 0 ds)

section numerals

variable {xs ds ys zs : List u8} {neg : Bool} {c : u8}

theorem Numeral.split (h : Numeral xs neg ds ys) :
    (ds ++ ys).takeWhile is_digit = ds ∧ (ds ++ ys).dropWhile is_digit = ys := by
  have htake : ys.takeWhile is_digit = [] ∧ ys.dropWhile is_digit = ys := by
    cases ys with
    | nil => exact ⟨rfl, rfl⟩
    | cons c ys =>
        have hc : ¬ is_digit c = true := by simp [h.stops c rfl]
        exact ⟨List.takeWhile_cons_of_neg hc, List.dropWhile_cons_of_neg hc⟩
  constructor
  · rw [List.takeWhile_append_of_pos h.digits, htake.1, List.append_nil]
  · rw [List.dropWhile_append_of_pos h.digits, htake.2]

theorem Numeral.of_minus (h : Numeral xs neg ds ys) (hxs : trim xs = chr '-' :: zs) :
    neg = true ∧ zs = ds ++ ys := by
  have htext := hxs.symm.trans h.text_eq
  cases neg with
  | true => exact ⟨rfl, (List.cons.inj htext).2⟩
  | false =>
      obtain ⟨d, ds, rfl⟩ := List.exists_cons_of_ne_nil h.ne_nil
      have hd := h.digits d List.mem_cons_self
      rw [← (List.cons.inj htext).1] at hd
      exact absurd hd (by decide)

theorem Numeral.of_other (h : Numeral xs neg ds ys) (hxs : trim xs = c :: zs) (hc : c ≠ chr '-') :
    neg = false ∧ c :: zs = ds ++ ys := by
  have htext := hxs.symm.trans h.text_eq
  cases neg with
  | true => exact absurd (List.cons.inj htext).1 hc
  | false => exact ⟨rfl, htext⟩

theorem Numeral.unique {neg' : Bool} {ds' ys' : List u8} (h : Numeral xs neg ds ys)
    (h' : Numeral xs neg' ds' ys') : neg' = neg ∧ ds' = ds ∧ ys' = ys := by
  have hsigned : neg' = neg ∧ ds ++ ys = ds' ++ ys' := by
    cases neg with
    | true =>
        obtain ⟨hneg, hds⟩ := h'.of_minus h.text_eq
        exact ⟨hneg, hds⟩
    | false =>
        obtain ⟨d, tail, rfl⟩ := List.exists_cons_of_ne_nil h.ne_nil
        have hd : d ≠ chr '-' := (digit_not_space d (h.digits d List.mem_cons_self)).2
        obtain ⟨hneg, hds⟩ := h'.of_other h.text_eq hd
        exact ⟨hneg, hds⟩
  refine ⟨hsigned.1, ?_, ?_⟩
  · rw [← h'.split.1, ← hsigned.2, h.split.1]
  · rw [← h'.split.2, ← hsigned.2, h.split.2]

/-- The digits are those the reader takes. -/
theorem Numeral.cons_digits (h : Numeral xs neg ds ys) (hds : c :: zs = ds ++ ys) :
    is_digit c = true ∧ ds = c :: zs.takeWhile is_digit ∧ ys = zs.dropWhile is_digit := by
  obtain ⟨d, ds, rfl⟩ := List.exists_cons_of_ne_nil h.ne_nil
  obtain ⟨htake, hdrop⟩ := h.split
  have hcd : c = d := (List.cons.inj hds).1
  have hc : is_digit c = true := hcd ▸ h.digits d List.mem_cons_self
  rw [← hds, List.takeWhile_cons_of_pos hc] at htake
  rw [← hds, List.dropWhile_cons_of_pos hc] at hdrop
  exact ⟨hc, htake.symm, hdrop.symm⟩

theorem takeWhile_numeral (hxs : trim xs = (if neg then [chr '-'] else []) ++ c :: zs)
    (hc : is_digit c = true) :
    Numeral xs neg (c :: zs.takeWhile is_digit) (zs.dropWhile is_digit) where
  text_eq := by rw [hxs, List.cons_append, List.takeWhile_append_dropWhile]
  ne_nil := List.cons_ne_nil _ _
  digits := by
    intro d hd
    rcases List.mem_cons.mp hd with rfl | hd
    · exact hc
    · exact List.all_eq_true.mp List.all_takeWhile d hd
  stops := by
    intro d hd
    have hhead := List.head?_dropWhile_not is_digit zs
    rw [Option.mem_def.mp hd] at hhead
    exact hhead

end numerals

/-- A numeral is accepted where its magnitude fits, and its bits are what comes back. -/
theorem parse_integer_unread (s : Ujson) :
    Leaves ujson_parse_integer s
      (fun value s' => ∃ neg ds, Numeral s.unread neg ds s'.unread ∧ FitsMagnitude neg ds ∧
        value = integer_bits neg ds ∧ s'.buffer = s'.unread.head?)
      (fun _ _ => ∀ neg ds ys, Numeral s.unread neg ds ys → ¬ FitsMagnitude neg ds)
      fun _ => False := by
  refine Leaves.bind (Leaves.conseq (consume_whitespace_unread s) (fun _ _ => id) ?_ fun _ => id) ?_
  · intro _ _ hend neg ds ys h
    have htext := List.append_eq_nil_iff.mp (h.text_eq.symm.trans hend)
    exact absurd (List.append_eq_nil_iff.mp htext.2).1 h.ne_nil
  rintro ch s₁ ⟨hread, hbuffer⟩
  by_cases hch : ch = chr '-'
  · subst hch
    rw [if_pos rfl]
    refine Leaves.bind (Leaves.conseq (getc_unread s₁) (fun _ _ => id) ?_ fun _ => id) ?_
    · rintro _ _ ⟨-, hend⟩ neg ds ys h
      have hds := (h.of_minus hread).2
      rw [hend] at hds
      exact absurd (List.append_eq_nil_iff.mp hds.symm).1 h.ne_nil
    rintro c s₂ ⟨hread₂, hbuffer₂⟩
    refine Leaves.bind (Leaves.conseq (parse_digits_unread c hbuffer₂) (fun _ _ => id) ?_
      fun _ => id) ?_
    · rintro _ _ hbig neg ds ys h hfits
      obtain ⟨hc, rfl, -⟩ := h.cons_digits (hread₂.symm.trans (h.of_minus hread).2)
      exact absurd hfits.1 (Nat.not_le.mpr (hbig hc))
    rintro v s' ⟨hc, hv, hmax, hrest, hpushed⟩
    have hnumeral : Numeral s.unread true (c :: s₂.unread.takeWhile is_digit) s'.unread := by
      rw [hrest]
      exact takeWhile_numeral (by rw [hread, hread₂]; rfl) hc
    by_cases hbig : 2 ^ 63 < v
    · rw [if_pos hbig]
      refine Leaves.throw fun neg ds ys h hfits => ?_
      obtain ⟨rfl, hds⟩ := h.of_minus hread
      obtain ⟨-, rfl, -⟩ := h.cons_digits (hread₂.symm.trans hds)
      have := hfits.2 rfl
      omega
    · rw [if_neg hbig]
      refine Leaves.pure ⟨true, _, hnumeral, ⟨hv ▸ hmax, fun _ => by omega⟩, ?_, hpushed⟩
      rw [hv]
      rfl
  · rw [if_neg hch]
    refine Leaves.bind (Leaves.conseq (parse_digits_unread ch hbuffer) (fun _ _ => id) ?_
      fun _ => id) ?_
    · rintro _ _ hbig neg ds ys h hfits
      obtain ⟨hc, rfl, -⟩ := h.cons_digits (h.of_other hread hch).2
      exact absurd hfits.1 (Nat.not_le.mpr (hbig hc))
    rintro v s' ⟨hc, hv, hmax, hrest, hpushed⟩
    refine Leaves.pure ⟨false, ch :: s₁.unread.takeWhile is_digit, ?_, ⟨hv ▸ hmax, nofun⟩, ?_,
      hpushed⟩
    · rw [hrest]
      exact takeWhile_numeral hread hc
    · rw [hv]
      rfl

end IbexFirmware.Json
