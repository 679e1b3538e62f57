/-
The language that the deserializers of a declaration accept.

A text is a relation between the characters in front of a reader and those it leaves. The
texts of the scalars and strings are read off `ujson.c`, and those of arrays and objects
are lists of items in brackets, read off the macros of `ujson_derive.h`. `Ty.text` puts
them together along a declaration, and `deserialize_answers` is that the deserializer
accepts these texts and no others, and stops where they end.

Where a text is not what JSON makes of its tokens, it carries a number: how often it
departs. White space counts if JSON does not have it there, and so do a comma with no
element behind it and a row for which the array has no room.
-/
import IbexFirmware.UjsonParse

set_option autoImplicit false

namespace IbexFirmware.Json

open Bytes PowerFail Session Recognizer

variable {s : Ujson} {xs ys zs : List u8} {c : u8}

/-- Nobody looks at the result. -/
abbrev Accepts {α : Type} (p : Uj α) (s : Ujson) (T : List u8 → Prop) : Prop :=
  Answers Ujson.unread (fun _ => ()) p s fun _ ys => T ys

/-- One reader after another, when no result is looked at. -/
theorem Accepts.seq {α β : Type} {p : Uj α} {f : α → Uj β} {T : List u8 → Prop}
    {U : List u8 → List u8 → Prop} (hp : Accepts p s T)
    (hf : ∀ a s', Accepts (f a) s' (U s'.unread)) :
    Accepts (p >>= f) s fun ys => ∃ us, T us ∧ U us ys := by
  refine (Answers.seq (C := fun _ us _ ys => U us ys) hp hf).congr fun _ ys => ?_
  exact ⟨fun ⟨us, h⟩ => ⟨(), us, h⟩, fun ⟨_, us, h⟩ => ⟨us, h⟩⟩

/-- A last step that reads nothing. -/
theorem Accepts.then {α β : Type} {p : Uj α} {f : α → Uj β} {T : List u8 → Prop}
    (hp : Accepts p s T) (hf : ∀ a s', Accepts (f a) s' fun ys => ys = s'.unread) :
    Accepts (p >>= f) s T := by
  refine (Accepts.seq (U := fun us ys => ys = us) hp hf).congr fun _ ys => ?_
  exact ⟨fun h => ⟨ys, h, rfl⟩, fun ⟨_, h, heq⟩ => heq ▸ h⟩

theorem Accepts.pure {α : Type} (a : α) (s : Ujson) :
    Accepts (pure a : Uj α) s fun ys => ys = s.unread :=
  Answers.pure fun _ _ => ⟨fun h => ⟨rfl, h⟩, And.right⟩

/-- What was accepted, whatever it was read as. -/
theorem Accepts.of_answers {α κ : Type} {p : Uj α} {obs : α → κ} {T : κ → List u8 → Prop}
    (hp : Answers Ujson.unread obs p s T) : Accepts p s fun ys => ∃ k, T k ys :=
  (Answers.forget (f := fun _ => ()) hp).congr fun _ _ =>
    ⟨fun ⟨k, h⟩ => ⟨k, rfl, h⟩, fun ⟨k, _, h⟩ => ⟨k, h⟩⟩

theorem Accepts.unique {α : Type} {p : Uj α} {T : List u8 → Prop} {ys' : List u8}
    (h : Accepts p s T) (hT : T ys) (hT' : T ys') : ys = ys' := by
  have hone : () = () ∧ ys = ys' := Answers.unique h hT hT'
  exact hone.2

theorem trim_trim (xs : List u8) : trim (trim xs) = trim xs := by
  cases h : trim xs with
  | nil => rfl
  | cons c zs => exact trim_of_not_space (not_space_of_trim h) zs

/-- A token takes the characters up to it. -/
theorem length_of_trim (h : trim xs = c :: ys) : ys.length < xs.length := by
  have hle := length_trim_le xs
  rw [h, List.length_cons] at hle
  exact hle

/-! ## Single characters and strings -/

theorem getc_answers (s : Ujson) :
    Answers Ujson.unread id ujson_getc s fun c ys => s.unread = c :: ys := by
  refine Leaves.conseq (getc_unread s) ?_ ?_ fun _ => False.elim
  · rintro c s' ⟨hread, -⟩ c' ys
    simp only [hread, List.cons.injEq, id, @eq_comm _ c', @eq_comm _ ys]
  · rintro _ _ ⟨-, hend⟩ c ys hread
    rw [hend] at hread
    cases hread

theorem consume_answers (s : Ujson) (ch : u8) :
    Accepts (ujson_consume ch) s fun ys => trim s.unread = ch :: ys := by
  refine Leaves.conseq (consume_unread s ch) ?_ (fun _ _ hno _ ys => hno ys) fun _ => False.elim
  rintro _ s' ⟨hread, -⟩ _ ys
  simp only [hread, List.cons.injEq, true_and, @eq_comm _ ys]

def HexDigit (xs : List u8) (x : u32) (ys : List u8) : Prop :=
  ∃ c, xs = c :: ys ∧ hexdigit c = some x

/-- The four digits of a code point. -/
def HexText (xs : List u8) (code : u32) (ys : List u8) : Prop :=
  ∃ x us, HexDigit xs x us ∧ ∃ y vs, HexDigit us y vs ∧ ∃ z ws, HexDigit vs z ws ∧
    ∃ w rest, HexDigit ws w rest ∧ code = x <<< 12 ||| y <<< 8 ||| z <<< 4 ||| w ∧ ys = rest

/-- A character of a string, as it is written. -/
inductive CharText : List u8 → u8 → List u8 → Prop where
  | plain {c : u8} {ys : List u8} (hquote : c ≠ chr '"') (hslash : c ≠ chr '\\') :
      CharText (c :: ys) c ys
  | simple {e c : u8} {ys : List u8} (he : simple_escape e = some c) :
      CharText (chr '\\' :: e :: ys) c ys
  | code {xs ys : List u8} {code : u32} (h : HexText xs code ys) :
      CharText (chr '\\' :: chr 'u' :: xs) (code.setWidth 8) ys

/-- The characters `w` of a string and its closing quote. -/
inductive CharsText : List u8 → List u8 → List u8 → Prop where
  | close {ys : List u8} : CharsText (chr '"' :: ys) [] ys
  | char {xs zs ys w : List u8} {c : u8} (hc : CharText xs c zs) (hw : CharsText zs w ys) :
      CharsText xs (c :: w) ys

def StringText (xs w ys : List u8) : Prop := ∃ zs, trim xs = chr '"' :: zs ∧ CharsText zs w ys

theorem consume_hexdigit_answers (s : Ujson) :
    Answers Ujson.unread id consume_hexdigit s (HexDigit s.unread) := by
  refine (Answers.seq (C := fun c u x ys => hexdigit c = some x ∧ ys = u) (getc_answers s)
    fun c s' => ?_).congr fun x ys => ?_
  · cases hc : hexdigit c with
    | some d => exact Answers.pure fun x ys => by simp [hc, @eq_comm _ d]
    | none => exact Answers.throw fun x ys h => by simp [hc] at h
  · constructor
    · rintro ⟨c, hread, hc⟩
      exact ⟨c, ys, hread, hc, rfl⟩
    · rintro ⟨c, _, hread, hc, rfl⟩
      exact ⟨c, hread, hc⟩

theorem consume_hex_answers (s : Ujson) :
    Answers Ujson.unread id consume_hex s (HexText s.unread) :=
  Answers.seq (C := fun (x : u32) us code ys => ∃ y vs, HexDigit us y vs ∧ ∃ z ws, HexDigit vs z ws ∧
      ∃ w rest, HexDigit ws w rest ∧ code = x <<< 12 ||| y <<< 8 ||| z <<< 4 ||| w ∧ ys = rest)
    (consume_hexdigit_answers s) fun x s₁ =>
  Answers.seq (C := fun (y : u32) vs code ys => ∃ z ws, HexDigit vs z ws ∧
      ∃ w rest, HexDigit ws w rest ∧ code = x <<< 12 ||| y <<< 8 ||| z <<< 4 ||| w ∧ ys = rest)
    (consume_hexdigit_answers s₁) fun y s₂ =>
  Answers.seq (C := fun (z : u32) ws code ys =>
      ∃ w rest, HexDigit ws w rest ∧ code = x <<< 12 ||| y <<< 8 ||| z <<< 4 ||| w ∧ ys = rest)
    (consume_hexdigit_answers s₂) fun z s₃ =>
  Answers.seq
    (C := fun (w : u32) rest code ys => code = x <<< 12 ||| y <<< 8 ||| z <<< 4 ||| w ∧ ys = rest)
    (consume_hexdigit_answers s₃) fun _ _ => Answers.pure fun _ _ => Iff.rfl

/-- What follows the backslash `e` of an escape. -/
theorem escape_answers (e : u8) (s : Ujson) :
    Answers Ujson.unread id
      (match simple_escape e with
        | some ch => pure ch
        | none =>
            if e = chr 'u' then do
              let code ← consume_hex
              pure (code.setWidth 8)
            else Proc.throw .kOutOfRange : Uj u8) s
      (CharText (chr '\\' :: e :: s.unread)) := by
  have hu : simple_escape (chr 'u') = none := by decide
  cases he : simple_escape e with
  | some d =>
      refine Answers.pure fun c ys => ⟨fun h => ?_, ?_⟩
      · generalize s.unread = us at h ⊢
        cases h with
        | plain _ hslash => exact absurd rfl hslash
        | simple he' => exact ⟨Option.some.inj (he'.symm.trans he), rfl⟩
        | code _ => exact absurd (hu.symm.trans he) nofun
      · rintro ⟨rfl, rfl⟩
        exact .simple he
  | none =>
      by_cases heu : e = chr 'u'
      · subst heu
        refine (Answers.seq (C := fun code us c ys => c = code.setWidth 8 ∧ ys = us)
          (consume_hex_answers s) fun _ _ => Answers.pure fun _ _ => Iff.rfl).congr
            fun c ys => ⟨fun h => ?_, ?_⟩
        · generalize s.unread = us at h ⊢
          cases h with
          | plain _ hslash => exact absurd rfl hslash
          | simple he' => exact absurd (he.symm.trans he') nofun
          | code hhex => exact ⟨_, _, hhex, rfl, rfl⟩
        · rintro ⟨code, _, hhex, rfl, rfl⟩
          exact .code hhex
      · simp only [if_neg heu]
        refine Answers.throw fun c ys h => ?_
        generalize s.unread = us at h
        cases h with
        | plain _ hslash => exact absurd rfl hslash
        | simple he' => exact absurd (he.symm.trans he') nofun
        | code _ => exact heu rfl

/-- What a character is read as, its first one `ch` being no quote. -/
theorem unescape_answers (ch : u8) (hch : ch ≠ chr '"') (s : Ujson) :
    Answers Ujson.unread id (unescape ch) s (CharText (ch :: s.unread)) := by
  rw [unescape]
  by_cases hslash : ch = chr '\\'
  · subst hslash
    rw [if_pos rfl]
    refine (Answers.seq (C := fun e us c ys => CharText (chr '\\' :: e :: us) c ys)
      (getc_answers s) fun e s' => escape_answers e s').congr fun c ys => ⟨fun h => ?_, ?_⟩
    · generalize s.unread = us at h ⊢
      cases h with
      | plain _ hslash => exact absurd rfl hslash
      | simple he => exact ⟨_, _, rfl, .simple he⟩
      | code hhex => exact ⟨_, _, rfl, .code hhex⟩
    · rintro ⟨e, us, hread, h⟩
      rw [hread]
      exact h
  · rw [if_neg hslash]
    refine Answers.pure fun c ys => ⟨fun h => ?_, ?_⟩
    · generalize s.unread = us at h
      cases h with
      | plain _ _ => exact ⟨rfl, rfl⟩
      | simple _ => exact absurd rfl hslash
      | code _ => exact absurd rfl hslash
    · rintro ⟨rfl, rfl⟩
      exact .plain hch hslash

theorem CharText.length_lt {xs ys : List u8} {c : u8} (h : CharText xs c ys) :
    ys.length < xs.length := by
  cases h with
  | plain _ _ => simp
  | simple _ => simp
  | code hhex =>
      obtain ⟨_, _, ⟨_, rfl, _⟩, _, _, ⟨_, rfl, _⟩, _, _, ⟨_, rfl, _⟩, _, _, ⟨_, rfl, _⟩, -, rfl⟩ := hhex
      simp
      omega

theorem CharText.starts {xs ys : List u8} {c : u8} (h : CharText xs c ys) :
    ∃ ch us, xs = ch :: us ∧ ch ≠ chr '"' := by
  cases h with
  | plain hquote _ => exact ⟨_, _, rfl, hquote⟩
  | simple _ => exact ⟨_, _, rfl, by decide⟩
  | code _ => exact ⟨_, _, rfl, by decide⟩

/-- A round of `ujson_parse_qs`. -/
def QsRound (len : ℕ) (n xs : List u8) (r : List u8 ⊕ List u8) (ys : List u8) : Prop :=
  match r with
  | .inl n' => ∃ c, CharText xs c ys ∧ n' = if n.length < len then n ++ [c] else n
  | .inr n' => xs = chr '"' :: ys ∧ n' = n

/-- A character, an escape or the end: what is read and what goes into the string. -/
theorem qs_round_answers (str : Dest) (len : ℕ) (n : List u8) (s : Ujson) :
    Answers Ujson.unread (Sum.map id id) (qs_round str len n) s (QsRound len n s.unread) := by
  refine (Answers.seq (C := fun ch us r ys => QsRound len n (ch :: us) r ys) (getc_answers s)
    fun ch s₁ => ?_).congr fun r ys => ?_
  · simp only [id]
    by_cases hch : ch = chr '"'
    · subst hch
      rw [if_pos rfl]
      refine Answers.pure fun r ys => ?_
      cases r with
      | inl n' =>
          refine ⟨?_, fun h => nomatch h.1⟩
          rintro ⟨c, hc, -⟩
          obtain ⟨_, _, heq, hquote⟩ := hc.starts
          exact absurd (List.cons.inj heq).1.symm hquote
      | inr n' =>
          simp only [QsRound, List.cons.injEq, true_and, Sum.map_inr, id, Sum.inr.injEq]
          exact ⟨fun h => ⟨h.2, h.1.symm⟩, fun h => ⟨h.2.symm, h.1⟩⟩
    · rw [if_neg hch]
      refine (Answers.seq
        (C := fun c us r ys => r = .inl (if n.length < len then n ++ [c] else n) ∧ ys = us)
        (unescape_answers ch hch s₁) fun c s₂ => ?_).congr fun r ys => ?_
      · simp only [id]
        split
        · refine Leaves.modify_bind (Answers.pure fun _ _ => Iff.rfl)
        · exact Answers.pure fun _ _ => Iff.rfl
      · cases r with
        | inl n' =>
            constructor
            · rintro ⟨c, hc, rfl⟩
              exact ⟨c, _, hc, rfl, rfl⟩
            · rintro ⟨c, _, hc, heq, rfl⟩
              exact ⟨c, hc, Sum.inl.inj heq⟩
        | inr n' =>
            refine ⟨fun h => absurd (List.cons.inj h.1).1 hch, ?_⟩
            rintro ⟨_, _, _, heq, -⟩
            cases heq
  · constructor
    · intro h
      have hstarts : ∃ ch us, s.unread = ch :: us := by
        cases r with
        | inl n' =>
            obtain ⟨c, hc, -⟩ := h
            obtain ⟨ch, us, heq, -⟩ := hc.starts
            exact ⟨ch, us, heq⟩
        | inr n' => exact ⟨_, _, h.1⟩
      obtain ⟨ch, us, heq⟩ := hstarts
      exact ⟨ch, us, heq, heq ▸ h⟩
    · rintro ⟨ch, us, heq, h⟩
      rw [heq]
      exact h

/-- The characters up to the quote, of which the buffer takes what it has room for. -/
theorem qs_loop_answers (str : Dest) (len k : ℕ) (n : List u8) (s : Ujson)
    (hk : s.unread.length < k) :
    Answers Ujson.unread id (loop (qs_round str len) k n) s fun n' ys =>
      ∃ w, CharsText s.unread w ys ∧ n' = n ++ w.take (len - n.length) := by
  refine Answers.loop List.length (B := QsRound len)
    (A := fun n xs n' ys => ∃ w, CharsText xs w ys ∧ n' = n ++ w.take (len - n.length))
    (fun n s => qs_round_answers str len n s) ?_ ?_ k n s hk
  · rintro n xs n' ys ⟨c, hc, -⟩
    exact hc.length_lt
  · intro n xs n' ys
    have hroom : ∀ c w, n ++ (c :: w).take (len - n.length) =
        (if n.length < len then n ++ [c] else n) ++
          w.take (len - (if n.length < len then n ++ [c] else n).length) := by
      intro c w
      by_cases hlt : n.length < len
      · obtain ⟨j, hj⟩ : ∃ j, len - n.length = j + 1 := ⟨len - n.length - 1, by omega⟩
        have hnext : len - (n.length + 1) = j := by omega
        simp [hlt, hj, hnext]
      · have hfull : len - n.length = 0 := by omega
        simp [hlt, hfull]
    constructor
    · rintro ⟨w, hw, rfl⟩
      cases hw with
      | close => exact .inl ⟨rfl, by simp⟩
      | char hc hw => exact .inr ⟨_, _, ⟨_, hc, rfl⟩, _, hw, hroom _ _⟩
    · rintro (⟨rfl, rfl⟩ | ⟨_, _, ⟨c, hc, rfl⟩, w, hw, rfl⟩)
      · exact ⟨[], .close, by simp⟩
      · exact ⟨c :: w, .char hc hw, (hroom c w).symm⟩

theorem ujson_parse_qs_answers (str : Dest) (len : ℕ) (s : Ujson) :
    Answers Ujson.unread id (ujson_parse_qs str len) s
      fun n ys => ∃ w, StringText s.unread w ys ∧ n = w.take (len - 1) := by
  refine (Answers.seq (C := fun _ us n ys => ∃ w, CharsText us w ys ∧ n = w.take (len - 1))
    (consume_answers s (chr '"')) fun _ s₁ => Leaves.get ?_).congr fun n ys => ?_
  · refine (Answers.seq (C := fun n us n' ys => n' = n ∧ ys = us)
      (qs_loop_answers str (len - 1) _ [] s₁ (length_unread_lt_budget s₁))
      fun n s₂ => ?_).congr fun n ys => ?_
    · refine Leaves.modify_bind ?_
      exact Answers.pure fun _ _ => Iff.rfl
    · constructor
      · rintro ⟨w, hw, rfl⟩
        exact ⟨_, _, ⟨w, hw, rfl⟩, by simp, rfl⟩
      · rintro ⟨_, _, ⟨w, hw, rfl⟩, rfl, rfl⟩
        exact ⟨w, hw, by simp⟩
  · constructor
    · rintro ⟨w, ⟨us, hread, hw⟩, rfl⟩
      exact ⟨(), us, hread, w, hw, rfl⟩
    · rintro ⟨_, us, hread, w, hw, rfl⟩
      exact ⟨w, ⟨us, hread, hw⟩, rfl⟩

theorem stringText_trim {w : List u8} : StringText (trim xs) w ys ↔ StringText xs w ys := by
  rw [StringText, StringText, trim_trim]

/-! ## Scalars -/

/-- A number that the reader takes. -/
def IntegerText (xs ys : List u8) : Prop :=
  ∃ neg ds, Numeral xs neg ds ys ∧ FitsMagnitude neg ds

theorem integerText_trim : IntegerText (trim xs) ys ↔ IntegerText xs ys := by
  constructor
  · rintro ⟨neg, ds, h, hfits⟩
    exact ⟨neg, ds, ⟨trim_trim xs ▸ h.text_eq, h.ne_nil, h.digits, h.stops⟩, hfits⟩
  · rintro ⟨neg, ds, h, hfits⟩
    exact ⟨neg, ds, ⟨(trim_trim xs).symm ▸ h.text_eq, h.ne_nil, h.digits, h.stops⟩, hfits⟩

/-- A number begins with its sign or a digit. -/
theorem IntegerText.starts (h : IntegerText xs ys) :
    ∃ c zs, trim xs = c :: zs ∧ (c = chr '-' ∨ is_digit c = true) := by
  obtain ⟨neg, ds, h, -⟩ := h
  obtain ⟨d, ds, rfl⟩ := List.exists_cons_of_ne_nil h.ne_nil
  cases neg with
  | true => exact ⟨_, _, h.text_eq, .inl rfl⟩
  | false => exact ⟨d, _, h.text_eq, .inr (h.digits d List.mem_cons_self)⟩

theorem parse_integer_accepts (s : Ujson) :
    Accepts ujson_parse_integer s (IntegerText s.unread) := by
  refine Leaves.conseq (parse_integer_unread s) ?_ ?_ fun _ => False.elim
  · rintro _ s' ⟨neg, ds, h, hfits, -, -⟩ _ ys
    refine ⟨?_, ?_⟩
    · rintro ⟨neg', ds', h', -⟩
      exact ⟨rfl, (h.unique h').2.2⟩
    · rintro ⟨-, rfl⟩
      exact ⟨neg, ds, h, hfits⟩
  · rintro _ _ hno _ ys ⟨neg, ds, h, hfits⟩
    exact hno neg ds ys h hfits

/-- The letters of a word, each behind the white space in front of it; `n` counts the
characters of that. -/
def LettersText : List u8 → List u8 → ℕ → List u8 → Prop
  | [], xs, n, ys => n = 0 ∧ ys = xs
  | c :: cs, xs, n, ys =>
      ∃ zs m, trim xs = c :: zs ∧ LettersText cs zs m ys ∧
        n = (xs.takeWhile is_space).length + m

/-- The white space of JSON. -/
def json_space (c : u8) : Bool :=
  c == chr ' ' || c == chr '\t' || c == chr '\n' || c == chr '\r'

/-- How much of the white space in front of a token is not that of JSON. -/
def stray (xs : List u8) : ℕ := (xs.takeWhile is_space).countP fun c => !json_space c

/-- `true` or `false`, with `n` departures from how JSON writes it. -/
def BoolText (xs : List u8) (value : Bool) (n : ℕ) (ys : List u8) : Prop :=
  ∃ zs m, n = stray xs + m ∧ match value with
    | true => trim xs = chr 't' :: zs ∧ LettersText [chr 'r', chr 'u', chr 'e'] zs m ys
    | false => trim xs = chr 'f' :: zs ∧ LettersText [chr 'a', chr 'l', chr 's', chr 'e'] zs m ys

theorem letter_answers {p : Uj Bool} {cs : List u8} {value : Bool}
    (hp : ∀ s, Answers Ujson.unread id p s
      fun b ys => b = value ∧ ∃ m, LettersText cs s.unread m ys) (s : Ujson) :
    Answers Ujson.unread id (ujson_consume c >>= fun _ => p) s
      fun b ys => b = value ∧ ∃ m, LettersText (c :: cs) s.unread m ys := by
  refine (Answers.seq (C := fun _ us b ys => b = value ∧ ∃ m, LettersText cs us m ys)
    (consume_answers s c) fun _ s₁ => hp s₁).congr fun b ys => ?_
  constructor
  · rintro ⟨rfl, _, us, m, hread, hrest, -⟩
    exact ⟨(), us, hread, rfl, m, hrest⟩
  · rintro ⟨_, us, hread, rfl, m, hrest⟩
    exact ⟨rfl, _, us, m, hread, hrest, rfl⟩

theorem letters_answers_nil (value : Bool) (s : Ujson) :
    Answers Ujson.unread id (pure value : Uj Bool) s
      fun b ys => b = value ∧ ∃ m, LettersText [] s.unread m ys :=
  Answers.pure fun _ _ => ⟨fun h => ⟨h.1, h.2.choose_spec.2⟩, fun h => ⟨h.1, 0, rfl, h.2⟩⟩

theorem boolText_iff {value : Bool} (hxs : trim xs = c :: zs) :
    (∃ n, BoolText xs value n ys) ↔
      (value = true ∧ c = chr 't' ∧ ∃ m, LettersText [chr 'r', chr 'u', chr 'e'] zs m ys) ∨
      (value = false ∧ c = chr 'f' ∧
        ∃ m, LettersText [chr 'a', chr 'l', chr 's', chr 'e'] zs m ys) := by
  constructor
  · rintro ⟨_, us, m, -, h⟩
    cases value with
    | true =>
        obtain ⟨rfl, rfl⟩ := List.cons.inj (hxs.symm.trans h.1)
        exact .inl ⟨rfl, rfl, m, h.2⟩
    | false =>
        obtain ⟨rfl, rfl⟩ := List.cons.inj (hxs.symm.trans h.1)
        exact .inr ⟨rfl, rfl, m, h.2⟩
  · rintro (⟨rfl, rfl, m, h⟩ | ⟨rfl, rfl, m, h⟩)
    · exact ⟨_, zs, m, rfl, hxs, h⟩
    · exact ⟨_, zs, m, rfl, hxs, h⟩

/-- Spaces, then as many letters of either word as there are. -/
theorem deserialize_bool_answers (s : Ujson) :
    Answers Ujson.unread id ujson_deserialize_bool s
      fun b ys => ∃ n, BoolText s.unread b n ys := by
  refine Answers.bind (Leaves.conseq (consume_whitespace_unread s) (fun _ _ => id) ?_
    fun _ => False.elim) ?_
  · rintro _ _ hend b ys ⟨n, zs, m, -, h⟩
    rw [hend] at h
    cases b with
    | true => cases h.1
    | false => cases h.1
  rintro got s₁ ⟨hread, hbuffer⟩
  by_cases ht : got = chr 't'
  · subst ht
    rw [if_pos rfl]
    refine (letter_answers (letter_answers (letter_answers (letters_answers_nil true))) s₁).congr
      fun b ys => ?_
    rw [boolText_iff hread]
    refine ⟨?_, fun h => .inl ⟨h.1, rfl, h.2⟩⟩
    rintro (⟨hb, -, h⟩ | ⟨-, hf, -⟩)
    · exact ⟨hb, h⟩
    · exact absurd hf (by decide)
  rw [if_neg ht]
  by_cases hf : got = chr 'f'
  · subst hf
    rw [if_pos rfl]
    refine (letter_answers (letter_answers (letter_answers (letter_answers
      (letters_answers_nil false)))) s₁).congr fun b ys => ?_
    rw [boolText_iff hread]
    refine ⟨?_, fun h => .inr ⟨h.1, rfl, h.2⟩⟩
    rintro (⟨-, ht, -⟩ | ⟨hb, -, h⟩)
    · exact absurd ht (by decide)
    · exact ⟨hb, h⟩
  · rw [if_neg hf]
    refine Leaves.bind (Returns.leaves (Returns.attempt (ungetc_unread hbuffer))) fun _ _ _ => ?_
    refine Answers.throw fun b ys h => ?_
    rw [boolText_iff hread] at h
    rcases h with ⟨-, ht', -⟩ | ⟨-, hf', -⟩
    · exact ht ht'
    · exact hf hf'

/-- What the reader of a scalar accepts. -/
def Scalar.text : Scalar → List u8 → List u8 → Prop
  | .bool, xs, ys => ∃ value n, BoolText xs value n ys
  | _, xs, ys => IntegerText xs ys

theorem store_accepts (p : ℕ) (bytes : List u8) (s : Ujson) :
    Accepts (store p bytes) s fun ys => ys = s.unread :=
  Leaves.modify fun _ _ => ⟨fun h => ⟨rfl, h⟩, And.right⟩

theorem scalar_deserialize_accepts (type : Scalar) (p : ℕ) (s : Ujson) :
    Accepts (type.deserialize p) s (type.text s.unread) := by
  have hinteger : Accepts (ujson_parse_integer >>= fun v => store p (bytes_of type.size v)) s
      (IntegerText s.unread) :=
    (parse_integer_accepts s).then fun v s' => store_accepts p _ s'
  cases type with
  | bool => exact (Accepts.of_answers (deserialize_bool_answers s)).then fun _ s' => store_accepts p _ s'
  | _ => exact hinteger

/-! ## Enumerators -/

/-- The buffer of a key or an enumerator. -/
def key_of (w : List u8) : List u8 := w.take 127

/-- A name of the list, an object with the value, or the value alone. -/
inductive EnumText (enumerators : List (List u8 × u32)) : List u8 → List u8 → Prop where
  | name {xs w ys : List u8} (hw : StringText xs w ys)
      (hfind : (enumerators.find? fun x => ujson_streq (key_of w) x.1).isSome) :
      EnumText enumerators xs ys
  | object {xs zs w us vs ws ys : List u8} (hopen : trim xs = chr '{' :: zs)
      (hw : StringText zs w us) (hcolon : trim us = chr ':' :: vs)
      (hkey : ujson_streq (key_of w) RUST_ENUM_INTVALUE = true) (hvalue : IntegerText vs ws)
      (hclose : trim ws = chr '}' :: ys) : EnumText enumerators xs ys
  | value {xs ys : List u8} (h : IntegerText xs ys) : EnumText enumerators xs ys

variable {enumerators : List (List u8 × u32)}

theorem enumText_quote (hxs : trim xs = chr '"' :: zs) :
    EnumText enumerators xs ys ↔ ∃ w, StringText xs w ys ∧
      (enumerators.find? fun x => ujson_streq (key_of w) x.1).isSome := by
  constructor
  · intro h
    cases h with
    | name hw hfind => exact ⟨_, hw, hfind⟩
    | object hopen _ _ _ _ _ =>
        rw [hopen] at hxs
        exact absurd (List.cons.inj hxs).1 (by decide)
    | value h =>
        obtain ⟨c, us, hc, hstart⟩ := h.starts
        rw [hxs] at hc
        obtain ⟨rfl, -⟩ := List.cons.inj hc
        exact absurd hstart (by decide)
  · rintro ⟨w, hw, hfind⟩
    exact .name hw hfind

theorem enumText_brace (hxs : trim xs = chr '{' :: zs) :
    EnumText enumerators xs ys ↔ ∃ w us vs ws, StringText zs w us ∧ trim us = chr ':' :: vs ∧
      ujson_streq (key_of w) RUST_ENUM_INTVALUE = true ∧ IntegerText vs ws ∧
      trim ws = chr '}' :: ys := by
  constructor
  · intro h
    cases h with
    | name hw _ =>
        obtain ⟨us, hquote, -⟩ := hw
        rw [hquote] at hxs
        exact absurd (List.cons.inj hxs).1 (by decide)
    | object hopen hw hcolon hkey hvalue hclose =>
        rw [hxs] at hopen
        obtain ⟨-, rfl⟩ := List.cons.inj hopen
        exact ⟨_, _, _, _, hw, hcolon, hkey, hvalue, hclose⟩
    | value h =>
        obtain ⟨c, us, hc, hstart⟩ := h.starts
        rw [hxs] at hc
        obtain ⟨rfl, -⟩ := List.cons.inj hc
        exact absurd hstart (by decide)
  · rintro ⟨w, us, vs, ws, hw, hcolon, hkey, hvalue, hclose⟩
    exact .object hxs hw hcolon hkey hvalue hclose

theorem enumText_other (hxs : trim xs = c :: zs) (hquote : c ≠ chr '"') (hbrace : c ≠ chr '{') :
    EnumText enumerators xs ys ↔ IntegerText xs ys := by
  refine ⟨fun h => ?_, .value⟩
  cases h with
  | name hw _ =>
      obtain ⟨us, hstart, -⟩ := hw
      rw [hxs] at hstart
      exact absurd (List.cons.inj hstart).1 hquote
  | object hopen _ _ _ _ _ =>
      rw [hxs] at hopen
      exact absurd (List.cons.inj hopen).1 hbrace
  | value h => exact h

theorem deserialize_uint32_accepts (s : Ujson) :
    Accepts ujson_deserialize_uint32_t s (IntegerText s.unread) :=
  (parse_integer_accepts s).then fun v s' => Accepts.pure (v.setWidth 32) s'

theorem EnumText.starts (h : EnumText enumerators xs ys) :
    ∃ c zs, trim xs = c :: zs ∧ (c = chr '"' ∨ c = chr '{' ∨ c = chr '-' ∨ is_digit c = true) := by
  cases h with
  | name hw _ =>
      obtain ⟨zs, hquote, -⟩ := hw
      exact ⟨_, zs, hquote, .inl rfl⟩
  | object hopen _ _ _ _ _ => exact ⟨_, _, hopen, .inr (.inl rfl)⟩
  | value h =>
      obtain ⟨c, zs, hc, hstart⟩ := h.starts
      exact ⟨c, zs, hc, .inr (.inr hstart)⟩

theorem unread_of_buffer (h : s.buffer = some c) : s.unread = c :: s.input := by
  rw [Ujson.unread, h]
  rfl

/-- What follows the brace of an enumerator's object. -/
theorem enum_object_accepts {self : u32 → Uj Unit}
    (hself : ∀ v s, Accepts (self v) s fun ys => ys = s.unread) (s : Ujson) :
    Accepts (do
      let value ← ujson_parse_qs on_stack 128
      ujson_consume (chr ':')
      if ujson_streq value RUST_ENUM_INTVALUE then do
        let v ← ujson_deserialize_uint32_t
        let r ← self v
        ujson_consume (chr '}')
        pure r
      else Proc.throw .kInvalidArgument) s fun ys =>
      ∃ w us vs ws, StringText s.unread w us ∧ trim us = chr ':' :: vs ∧
        ujson_streq (key_of w) RUST_ENUM_INTVALUE = true ∧ IntegerText vs ws ∧
        trim ws = chr '}' :: ys := by
  have hvalue : ∀ (v : u32) (s : Ujson), Accepts (do
      let r ← self v
      ujson_consume (chr '}')
      pure r) s fun ys => trim s.unread = chr '}' :: ys := by
    intro v s
    refine (Accepts.seq (U := fun us ys => trim us = chr '}' :: ys) (hself v s) fun r s' =>
      (consume_answers s' (chr '}')).then fun _ s'' => Accepts.pure r s'').congr fun _ ys => ?_
    exact ⟨fun h => ⟨_, rfl, h⟩, fun ⟨_, heq, h⟩ => heq ▸ h⟩
  refine (Answers.seq (C := fun value us _ ys => ∃ vs, trim us = chr ':' :: vs ∧
      ujson_streq value RUST_ENUM_INTVALUE = true ∧ ∃ ws, IntegerText vs ws ∧
        trim ws = chr '}' :: ys) (ujson_parse_qs_answers on_stack 128 s) fun value s₁ =>
    Accepts.seq (U := fun vs ys => ujson_streq value RUST_ENUM_INTVALUE = true ∧
        ∃ ws, IntegerText vs ws ∧ trim ws = chr '}' :: ys)
      (consume_answers s₁ (chr ':')) fun _ s₂ => ?_).congr fun _ ys => ?_
  · cases hkey : ujson_streq value RUST_ENUM_INTVALUE with
    | true =>
        rw [if_pos rfl]
        refine (Accepts.seq (U := fun ws ys => trim ws = chr '}' :: ys)
          (deserialize_uint32_accepts s₂) hvalue).congr fun _ ys => ?_
        simp
    | false => exact Answers.throw fun _ _ h => nomatch h.1
  · constructor
    · rintro ⟨w, us, vs, ws, hw, hcolon, hkey, hvalue, hclose⟩
      exact ⟨_, us, ⟨w, hw, rfl⟩, vs, hcolon, hkey, ws, hvalue, hclose⟩
    · rintro ⟨_, us, ⟨w, hw, rfl⟩, vs, hcolon, hkey, ws, hvalue, hclose⟩
      exact ⟨w, us, vs, ws, hw, hcolon, hkey, hvalue, hclose⟩

/-- A name is looked up in order, and a number goes to the type itself. -/
theorem deserialize_enum_accepts {self : u32 → Uj Unit}
    (hself : ∀ v s, Accepts (self v) s fun ys => ys = s.unread) (s : Ujson) :
    Accepts (deserialize_enum enumerators self) s (EnumText enumerators s.unread) := by
  have hend : trim s.unread = [] → ∀ ys, ¬ EnumText enumerators s.unread ys := by
    intro hnil ys h
    obtain ⟨c, zs, hc, -⟩ := h.starts
    rw [hnil] at hc
    cases hc
  refine Answers.bind (Leaves.conseq (consume_maybe_unread s (chr '"')) (fun _ _ => id)
    (fun _ _ hnil _ => hend hnil) fun _ => False.elim) ?_
  rintro (_ | _) s₁ hs₁
  · obtain ⟨hread, c, hpushed, hc⟩ := hs₁
    have hsame : trim s₁.unread = trim s.unread := by rw [← hread, trim_trim]
    refine Answers.bind (Leaves.conseq (consume_maybe_unread s₁ (chr '{')) (fun _ _ => id)
      (fun _ _ hnil _ => hend (hsame ▸ hnil)) fun _ => False.elim) ?_
    rintro (_ | _) s₂ hs₂
    · obtain ⟨hread₂, c₂, hpushed₂, hc₂⟩ := hs₂
      -- Both times the same character was put back, and it is none of the two.
      have hfirst : s₂.unread = s₁.unread := by rw [← hread₂, hsame, hread]
      have hstart : trim s.unread = c₂ :: s₂.input := by
        rw [hread, ← hfirst, unread_of_buffer hpushed₂]
      have hsame₂ : c₂ = c := by
        rw [unread_of_buffer hpushed₂, unread_of_buffer hpushed] at hfirst
        exact (List.cons.inj hfirst).1
      refine ((deserialize_uint32_accepts s₂).then fun v s' => hself v s').congr fun _ ys => ?_
      rw [enumText_other hstart (hsame₂ ▸ hc) hc₂, hfirst, ← hread, integerText_trim]
    · refine (enum_object_accepts hself s₂).congr fun _ ys => ?_
      exact enumText_brace (hsame.symm.trans hs₂.1)
  · refine Leaves.bind (Returns.leaves (ungetc_unread hs₁.2)) ?_
    rintro _ s₂ ⟨hunread, -⟩
    refine (Answers.seq (C := fun value us _ ys => ys = us ∧
        (enumerators.find? fun x => ujson_streq value x.1).isSome)
      (ujson_parse_qs_answers on_stack 128 s₂) fun value s₃ => ?_).congr fun _ ys => ?_
    · simp only [id]
      cases enumerators.find? fun x => ujson_streq value x.1 with
      | some x => exact (hself x.2 s₃).congr fun _ ys => by simp
      | none => exact Answers.throw fun _ _ h => nomatch h.2
    · rw [enumText_quote hs₁.1]
      have htext : ∀ w, StringText s₂.unread w ys ↔ StringText s.unread w ys := by
        intro w
        rw [hunread, ← hs₁.1, stringText_trim]
      constructor
      · rintro ⟨w, hw, hfind⟩
        exact ⟨_, ys, ⟨w, (htext w).mpr hw, rfl⟩, rfl, hfind⟩
      · rintro ⟨_, _, ⟨w, hw, rfl⟩, rfl, hfind⟩
        exact ⟨w, (htext w).mp hw, hfind⟩

theorem enum_deserialize_accepts (e : EnumDecl) (p : ℕ) (s : Ujson) :
    Accepts (e.deserialize p) s (EnumText e.enumerators s.unread) :=
  deserialize_enum_accepts (fun _ s => store_accepts p _ s) s

end IbexFirmware.Json
