/-
Lists in brackets, and what they add up to along a declaration.

The loops of `ujson_derive.h` over the elements of an array, over its rows and over the
members of an object differ in what a round does behind the comma, and in nothing else.
`Items` is the text of such a loop with that left open, `list_loop_accepts` its rule, and
`ElementItem`, `RowItem` and `MemberItem` are the three.
-/
import IbexFirmware.UjsonGrammar

set_option autoImplicit false

namespace IbexFirmware.Json

open Bytes PowerFail Session Recognizer

variable {s : Ujson} {xs ys zs ws : List u8} {i j m n count : ℕ} {c close : u8}

/-! ## Items and the commas between them -/

/-- Where an item begins: the first with the next token, the others behind a comma. -/
def AtItem (i : ℕ) (tokens zs : List u8) : Prop :=
  if i = 0 then zs = tokens else tokens = chr ',' :: zs

/-- What the rounds of a list read up to the closing bracket, after item number `i`. An
item `Item i zs j m ws` is read from `zs` on, with `m` departures, and the next one is
number `j`. -/
inductive Items (close : u8) (Item : ℕ → List u8 → ℕ → ℕ → List u8 → Prop) :
    ℕ → List u8 → ℕ → List u8 → Prop where
  | close {i : ℕ} {xs ys : List u8} (hclose : trim xs = close :: ys) :
      Items close Item i xs (stray xs) ys
  | item {i j m n : ℕ} {xs us zs ws ys : List u8} {c : u8} (htoken : trim xs = c :: us)
      (hc : c ≠ close) (hat : AtItem i (c :: us) zs) (hitem : Item i zs j m ws)
      (hrest : Items close Item j ws n ys) : Items close Item i xs (stray xs + m + n) ys

/-- The bracket `opening` and the items behind it. -/
def ListText (opening close : u8) (Item : ℕ → List u8 → ℕ → ℕ → List u8 → Prop)
    (xs : List u8) (n : ℕ) (ys : List u8) : Prop :=
  ∃ zs m, trim xs = opening :: zs ∧ Items close Item 0 zs m ys ∧ n = stray xs + m

/-- One round. -/
def RoundText (close : u8) (Item : ℕ → List u8 → ℕ → ℕ → List u8 → Prop) (i : ℕ) (xs : List u8)
    (r : ℕ ⊕ Unit) (ys : List u8) : Prop :=
  match r with
  | .inr () => trim xs = close :: ys
  | .inl j => ∃ c us zs m, trim xs = c :: us ∧ c ≠ close ∧ AtItem i (c :: us) zs ∧ Item i zs j m ys

variable {Item : ℕ → List u8 → ℕ → ℕ → List u8 → Prop}

/-- An item takes no characters back, and the first takes some. -/
def ItemShrinks (Item : ℕ → List u8 → ℕ → ℕ → List u8 → Prop) : Prop :=
  ∀ i zs j m ws, Item i zs j m ws → ws.length ≤ zs.length ∧ (i = 0 → ws.length < zs.length)

theorem round_shrinks (hitem : ItemShrinks Item) (h : RoundText close Item i xs (.inl j) ys) :
    ys.length < xs.length := by
  obtain ⟨c, us, zs, m, htoken, -, hat, hread⟩ := h
  have hlt := length_of_trim htoken
  obtain ⟨hle, hfirst⟩ := hitem i zs j m ys hread
  unfold AtItem at hat
  split at hat
  · next hi =>
      have := hfirst hi
      rw [hat, List.length_cons] at this
      omega
  · obtain ⟨-, rfl⟩ := List.cons.inj hat
    omega

theorem Items.length_lt (hitem : ItemShrinks Item) (h : Items close Item i xs n ys) :
    ys.length < xs.length := by
  induction h with
  | close hclose => exact length_of_trim hclose
  | item htoken hc hat hread _ ih =>
      have := round_shrinks hitem ⟨_, _, _, _, htoken, hc, hat, hread⟩
      omega

theorem ListText.length_lt {opening : u8} (hitem : ItemShrinks Item)
    (h : ListText opening close Item xs n ys) : ys.length < xs.length := by
  obtain ⟨zs, m, hopen, hitems, -⟩ := h
  have := length_of_trim hopen
  have := hitems.length_lt hitem
  omega

theorem consume_comma_accepts (i : ℕ) (htrim : trim s.unread = s.unread) :
    Accepts (consume_comma i) s (AtItem i s.unread) := by
  unfold consume_comma AtItem
  by_cases hi : i = 0
  · rw [if_neg (not_not.mpr hi)]
    simp only [if_pos hi]
    exact Accepts.pure () s
  · rw [if_pos hi]
    simp only [if_neg hi]
    have hcomma := consume_answers s (chr ',')
    rwa [htrim] at hcomma

/-- The beginning of a round is the same in all the loops. -/
theorem list_round_answers {α β : Type} {obs : α → ℕ} {rest : Uj (α ⊕ β)} (leave : β)
    (hrest : ∀ s, Answers Ujson.unread (Sum.map obs fun _ => ()) rest s
      fun r ys => ∃ j m, r = .inl j ∧ Item i s.unread j m ys) (s : Ujson) :
    Answers Ujson.unread (Sum.map obs fun _ => ())
      (do
        if ← ujson_consume_maybe close then pure (.inr leave)
        else do
          consume_comma i
          rest) s (RoundText close Item i s.unread) := by
  have hend : trim s.unread = [] → ∀ r ys, ¬ RoundText close Item i s.unread r ys := by
    intro hnil r ys h
    cases r with
    | inl j =>
        obtain ⟨c, us, _, _, htoken, -⟩ := h
        rw [hnil] at htoken
        cases htoken
    | inr _ =>
        rw [RoundText, hnil] at h
        cases h
  refine Answers.bind (Leaves.conseq (consume_maybe_unread s close) (fun _ _ => id)
    (fun _ _ hnil => hend hnil) fun _ => False.elim) ?_
  rintro (_ | _) s₁ hs₁
  · obtain ⟨hread, c, hpushed, hc⟩ := hs₁
    have htoken : trim s.unread = c :: s₁.input := hread.trans (unread_of_buffer hpushed)
    have htrim : trim s₁.unread = s₁.unread := by rw [← hread, trim_trim]
    refine (Answers.seq (C := fun _ zs r ys => ∃ j m, r = .inl j ∧ Item i zs j m ys)
      (consume_comma_accepts i htrim) fun _ s₂ => hrest s₂).congr fun r ys => ?_
    rw [unread_of_buffer hpushed]
    cases r with
    | inl j =>
        constructor
        · rintro ⟨c', us, zs, m, htoken', -, hat, hread'⟩
          rw [htoken] at htoken'
          obtain ⟨rfl, rfl⟩ := List.cons.inj htoken'
          exact ⟨(), zs, hat, j, m, rfl, hread'⟩
        · rintro ⟨_, zs, hat, _, m, ⟨⟩, hread'⟩
          exact ⟨c, _, zs, m, htoken, hc, hat, hread'⟩
    | inr _ =>
        constructor
        · intro h
          rw [RoundText, htoken] at h
          exact absurd (List.cons.inj h).1 hc
        · rintro ⟨_, _, _, _, _, hr, -⟩
          cases hr
  · refine Answers.pure fun r ys => ?_
    cases r with
    | inl j =>
        refine ⟨?_, fun h => nomatch h.1⟩
        rintro ⟨c, us, _, _, htoken, hc, -⟩
        rw [hs₁.1] at htoken
        exact absurd (List.cons.inj htoken).1.symm hc
    | inr _ =>
        rw [RoundText, hs₁.1, List.cons.injEq, @eq_comm _ ys]
        exact ⟨fun h => ⟨rfl, h.2⟩, fun h => ⟨rfl, h.2⟩⟩

theorem list_loop_accepts {α β : Type} {obs : α → ℕ} {body : α → Uj (α ⊕ β)}
    (hround : ∀ a s, Answers Ujson.unread (Sum.map obs fun _ => ()) (body a) s
      (RoundText close Item (obs a) s.unread)) (hitem : ItemShrinks Item) (k : ℕ) (a : α)
    (s : Ujson) (hk : s.unread.length < k) :
    Accepts (loop body k a) s fun ys => ∃ n, Items close Item (obs a) s.unread n ys := by
  refine Answers.loop List.length (B := RoundText close Item)
    (A := fun i xs _ ys => ∃ n, Items close Item i xs n ys) hround
    (fun h => round_shrinks hitem h) ?_ k a s hk
  intro i xs _ ys
  constructor
  · rintro ⟨n, h⟩
    cases h with
    | close hclose => exact .inl hclose
    | item htoken hc hat hread hrest =>
        exact .inr ⟨_, _, ⟨_, _, _, _, htoken, hc, hat, hread⟩, _, hrest⟩
  · rintro (hclose | ⟨j, ws, ⟨c, us, zs, m, htoken, hc, hat, hread⟩, n, hrest⟩)
    · exact ⟨_, .close hclose⟩
    · exact ⟨_, .item htoken hc hat hread hrest⟩

/-! ## Elements, rows and members -/

/-- An element of an innermost array. To a full one only the comma counts, as a departure. -/
def ElementItem (E : List u8 → List u8 → Prop) (count i : ℕ) (xs : List u8) (j m : ℕ)
    (ys : List u8) : Prop :=
  (i < count ∧ j = i + 1 ∧ m = stray xs ∧ E xs ys) ∨
    (count ≤ i ∧ i ≠ 0 ∧ j = i ∧ m = 1 ∧ ys = xs)

/-- An array within an array, and whether there was room for it. -/
def RowItem (Row : List u8 → ℕ → List u8 → Prop) (count x : ℕ) (xs : List u8) (j m : ℕ)
    (ys : List u8) : Prop :=
  j = x + 1 ∧ ∃ k, Row xs k ys ∧ m = k + if x < count then 0 else 1

/-- A key and its value. -/
def MemberItem (lines : List u8 → List u8 → List u8 → Prop) (nfield : ℕ) (xs : List u8) (j m : ℕ)
    (ys : List u8) : Prop :=
  j = nfield + 1 ∧ ∃ w us vs, StringText xs w us ∧ trim us = chr ':' :: vs ∧
    lines (key_of w) vs ys ∧ m = stray xs + stray us + stray vs

/-- The array reader's text: elements `E` in lists, as many levels deep as there are
dimensions. -/
def ArrayText (E : List u8 → List u8 → Prop) : List ℕ → List u8 → ℕ → List u8 → Prop
  | [], xs, n, ys => E xs ys ∧ n = stray xs
  | [count], xs, n, ys => ListText (chr '[') (chr ']') (ElementItem E count) xs n ys
  | count :: d :: dims, xs, n, ys =>
      ListText (chr '[') (chr ']') (RowItem (ArrayText E (d :: dims)) count) xs n ys

/-- The object reader's text. -/
def ObjectText (lines : List u8 → List u8 → List u8 → Prop) (xs : List u8) (n : ℕ)
    (ys : List u8) : Prop :=
  ListText (chr '{') (chr '}') (MemberItem lines) xs n ys

/-- A reader takes at least one character. -/
def Shrinks (T : List u8 → List u8 → Prop) : Prop := ∀ xs ys, T xs ys → ys.length < xs.length

section readers

variable {E : List u8 → List u8 → Prop} {lines : List u8 → List u8 → List u8 → Prop}

theorem elementItem_shrinks (hE : Shrinks E) : ItemShrinks (ElementItem E count) := by
  rintro i xs j m ys (⟨-, -, -, h⟩ | ⟨-, hi, -, -, rfl⟩)
  · have := hE xs ys h
    exact ⟨by omega, fun _ => this⟩
  · exact ⟨Nat.le_refl _, fun h => absurd h hi⟩

theorem rowItem_shrinks {Row : List u8 → ℕ → List u8 → Prop}
    (hRow : ∀ xs k ys, Row xs k ys → ys.length < xs.length) :
    ItemShrinks (RowItem Row count) := by
  rintro i xs j m ys ⟨-, k, h, -⟩
  have := hRow xs k ys h
  exact ⟨by omega, fun _ => this⟩

theorem CharsText.length_lt {w : List u8} (h : CharsText xs w ys) : ys.length < xs.length := by
  induction h with
  | close => simp
  | char hc _ ih => exact Nat.lt_trans ih hc.length_lt

theorem StringText.length_lt {w : List u8} (h : StringText xs w ys) : ys.length < xs.length := by
  obtain ⟨zs, hquote, hw⟩ := h
  exact Nat.lt_trans hw.length_lt (length_of_trim hquote)

theorem memberItem_shrinks (hlines : ∀ key, Shrinks (lines key)) :
    ItemShrinks (MemberItem lines) := by
  rintro i xs j m ys ⟨-, w, us, vs, hw, hcolon, hvalue, -⟩
  have h₁ := hw.length_lt
  have h₂ := length_of_trim hcolon
  have h₃ := hlines _ _ _ hvalue
  exact ⟨by omega, fun _ => by omega⟩

theorem arrayText_shrinks (hE : Shrinks E) (dims : List ℕ) (xs : List u8) (n : ℕ) (ys : List u8)
    (h : ArrayText E dims xs n ys) : ys.length < xs.length := by
  induction dims generalizing xs n ys with
  | nil => exact hE xs ys h.1
  | cons count dims ih =>
      cases dims with
      | nil => exact ListText.length_lt (elementItem_shrinks hE) h
      | cons d dims => exact ListText.length_lt (rowItem_shrinks ih) h

theorem objectText_shrinks (hlines : ∀ key, Shrinks (lines key)) (xs : List u8) (n : ℕ)
    (ys : List u8) (h : ObjectText lines xs n ys) : ys.length < xs.length :=
  ListText.length_lt (memberItem_shrinks hlines) h

/-! ## The three loops -/

variable {expr : ℕ → Uj ℕ}

theorem de_element_answers (hexpr : ∀ p s, Accepts (expr p) s (E s.unread)) (hcount : count ≠ 0)
    (a : ℕ × ℕ) (s : Ujson) :
    Answers Ujson.unread (Sum.map Prod.fst fun _ => ()) (de_element expr count a) s
      (RoundText (chr ']') (ElementItem E count) a.1 s.unread) := by
  obtain ⟨i, p⟩ := a
  refine list_round_answers _ (fun s => ?_) s
  by_cases hi : i < count
  · rw [if_pos hi]
    refine (Answers.seq (C := fun _ us r ys => r = .inl (i + 1) ∧ ys = us) (hexpr p s)
      fun p' s' => Answers.pure fun _ _ => Iff.rfl).congr fun r ys => ?_
    constructor
    · rintro ⟨j, m, rfl, ⟨-, rfl, -, hE⟩ | ⟨hfull, -⟩⟩
      · exact ⟨(), ys, hE, rfl, rfl⟩
      · omega
    · rintro ⟨_, _, hE, rfl, rfl⟩
      exact ⟨_, _, rfl, .inl ⟨hi, rfl, rfl, hE⟩⟩
  · rw [if_neg hi]
    refine Answers.pure fun r ys => ?_
    constructor
    · rintro ⟨j, m, rfl, ⟨hlt, -⟩ | ⟨-, -, rfl, -, rfl⟩⟩
      · omega
      · exact ⟨rfl, rfl⟩
    · rintro ⟨rfl, rfl⟩
      exact ⟨i, 1, rfl, .inr ⟨by omega, by omega, rfl, rfl, rfl⟩⟩

/-- An array of no elements reads the same character for ever, unless it is the bracket. -/
theorem empty_array_waits (k p : ℕ) (s : Ujson) (hs : trim s.unread = c :: xs)
    (hc : c ≠ chr ']') : Accepts (loop (de_element expr 0) k (0, p)) s fun _ => False := by
  induction k generalizing s with
  | zero => exact Leaves.stop fun _ _ => id
  | succ k ih =>
      refine Leaves.loop_succ (Leaves.bind (Leaves.conseq (consume_maybe_unread s (chr ']'))
        (fun _ _ => id) (fun _ _ _ _ _ => id) fun _ => False.elim) ?_)
      rintro (_ | _) s₁ hs₁
      · exact Leaves.pure (ih s₁ (by rw [← hs₁.1, trim_trim, hs]))
      · rw [hs₁.1] at hs
        exact absurd (List.cons.inj hs).1.symm hc

theorem empty_array_accepts (k p : ℕ) (s : Ujson) :
    Accepts (loop (de_element expr 0) (k + 1) (0, p)) s fun ys => trim s.unread = chr ']' :: ys := by
  refine Leaves.loop_succ (Leaves.bind (Leaves.conseq (consume_maybe_unread s (chr ']'))
    (fun _ _ => id) (fun _ _ hnil _ ys h => ?_) fun _ => False.elim) ?_)
  · exact nomatch hnil.symm.trans h
  rintro (_ | _) s₁ hs₁
  · obtain ⟨hread, c, hpushed, hc⟩ := hs₁
    have htoken : trim s.unread = c :: s₁.input := hread.trans (unread_of_buffer hpushed)
    have hwaits : Accepts (loop (de_element expr 0) k (0, p)) s₁ fun _ => False :=
      empty_array_waits k p s₁ (by rw [← hread, trim_trim, htoken]) hc
    refine Leaves.pure (hwaits.congr fun _ ys => ⟨fun h => ?_, False.elim⟩)
    exact hc (List.cons.inj (htoken.symm.trans h)).1
  · refine Leaves.pure fun _ ys => ⟨fun h => ⟨rfl, ?_⟩, fun h => h.2 ▸ hs₁.1⟩
    exact (List.cons.inj (hs₁.1.symm.trans h)).2.symm

theorem de_elements_accepts (hexpr : ∀ p s, Accepts (expr p) s (E s.unread)) (hE : Shrinks E)
    (k p : ℕ) (s : Ujson) (hk : s.unread.length < k) :
    Accepts (loop (de_element expr count) k (0, p)) s
      fun ys => ∃ n, Items (chr ']') (ElementItem E count) 0 s.unread n ys := by
  by_cases hcount : count = 0
  · subst hcount
    obtain ⟨k, rfl⟩ : ∃ j, k = j + 1 := ⟨k - 1, by omega⟩
    refine (empty_array_accepts k p s).congr fun _ ys => ⟨?_, fun h => ⟨_, .close h⟩⟩
    rintro ⟨n, h⟩
    cases h with
    | close hclose => exact hclose
    | item _ _ _ hitem _ =>
        rcases hitem with ⟨hlt, -⟩ | ⟨-, hne, -⟩
        · exact absurd hlt (Nat.not_lt_zero _)
        · exact absurd rfl hne
  · exact list_loop_accepts (de_element_answers hexpr hcount) (elementItem_shrinks hE) k (0, p) s hk

theorem de_row_answers {Row : List u8 → ℕ → List u8 → Prop} {row : ℕ → Uj ℕ}
    (hrow : ∀ p s, Accepts (row p) s fun ys => ∃ k, Row s.unread k ys) (a : ℕ × ℕ) (s : Ujson) :
    Answers Ujson.unread (Sum.map Prod.fst fun _ => ()) (de_row row a) s
      (RoundText (chr ']') (RowItem Row count) a.1 s.unread) := by
  obtain ⟨x, p⟩ := a
  refine list_round_answers _ (fun s => ?_) s
  refine (Answers.seq (C := fun _ us r ys => r = .inl (x + 1) ∧ ys = us) (hrow p s)
    fun p' s' => Answers.pure fun _ _ => Iff.rfl).congr fun r ys => ?_
  constructor
  · rintro ⟨j, m, rfl, rfl, k, hRow, -⟩
    exact ⟨(), ys, ⟨k, hRow⟩, rfl, rfl⟩
  · rintro ⟨_, _, ⟨k, hRow⟩, rfl, rfl⟩
    exact ⟨_, _, rfl, rfl, k, hRow, rfl⟩

theorem struct_round_answers {reader : List u8 → Uj Unit}
    (hlines : ∀ key s, Accepts (reader key) s (lines key s.unread)) (nfield : ℕ) (s : Ujson) :
    Answers Ujson.unread (Sum.map id fun _ => ()) (struct_round reader nfield) s
      (RoundText (chr '}') (MemberItem lines) nfield s.unread) := by
  refine list_round_answers _ (fun s => ?_) s
  have hvalue : ∀ key s, Answers Ujson.unread (Sum.map id fun _ => ())
      (reader key >>= fun _ => pure (.inl (nfield + 1)) : Uj (ℕ ⊕ Unit)) s
      fun r ys => r = .inl (nfield + 1) ∧ lines key s.unread ys := by
    intro key s
    refine (Answers.seq (C := fun _ us r ys => r = .inl (nfield + 1) ∧ ys = us) (hlines key s)
      fun _ s' => Answers.pure fun _ _ => Iff.rfl).congr fun r ys => ?_
    exact ⟨fun ⟨hr, h⟩ => ⟨(), ys, h, hr, rfl⟩, fun ⟨_, _, h, hr, heq⟩ => ⟨hr, heq ▸ h⟩⟩
  refine (Answers.seq (C := fun key us r ys => ∃ vs, trim us = chr ':' :: vs ∧
      r = .inl (nfield + 1) ∧ lines key vs ys) (ujson_parse_qs_answers on_stack 128 s)
    fun key s₁ => (Answers.seq (C := fun _ vs r ys => r = .inl (nfield + 1) ∧ lines key vs ys)
      (consume_answers s₁ (chr ':')) fun _ s₂ => hvalue key s₂).congr fun r ys => ?_).congr
    fun r ys => ?_
  · exact ⟨fun ⟨vs, h⟩ => ⟨(), vs, h⟩, fun ⟨_, vs, h⟩ => ⟨vs, h⟩⟩
  · constructor
    · rintro ⟨_, m, rfl, rfl, w, us, vs, hw, hcolon, hvalue, -⟩
      exact ⟨_, us, ⟨w, hw, rfl⟩, vs, hcolon, rfl, hvalue⟩
    · rintro ⟨_, us, ⟨w, hw, rfl⟩, vs, hcolon, rfl, hvalue⟩
      exact ⟨_, _, rfl, rfl, w, us, vs, hw, hcolon, hvalue, rfl⟩

/-- A bracket and the loop behind it. -/
theorem listText_iff {opening : u8} : (∃ n, ListText opening close Item xs n ys) ↔
    ∃ us, trim xs = opening :: us ∧ ∃ m, Items close Item 0 us m ys :=
  ⟨fun ⟨_, us, m, hopen, h, _⟩ => ⟨us, hopen, m, h⟩, fun ⟨us, hopen, m, h⟩ => ⟨_, us, m, hopen, h, rfl⟩⟩

theorem de_loop_accepts (hexpr : ∀ p s, Accepts (expr p) s (E s.unread)) (hE : Shrinks E)
    (mult : ℕ) (dims : List ℕ) (p : ℕ) (s : Ujson) :
    Accepts (de_loop mult expr dims p) s fun ys => ∃ n, ArrayText E dims s.unread n ys := by
  induction dims generalizing p s with
  | nil => exact (hexpr p s).congr fun _ ys => ⟨fun ⟨_, h, _⟩ => h, fun h => ⟨_, h, rfl⟩⟩
  | cons count dims ih =>
      cases dims with
      | nil =>
          refine (Accepts.seq (U := fun us ys => ∃ m, Items (chr ']') (ElementItem E count) 0 us m ys)
            (consume_answers s (chr '[')) fun _ s₁ => Leaves.get ?_).congr fun _ ys => listText_iff
          exact (de_elements_accepts hexpr hE _ p s₁ (length_unread_lt_budget s₁)).then
            fun a s' => Accepts.pure _ s'
      | cons d dims =>
          refine (Accepts.seq (U := fun us ys => ∃ m, Items (chr ']')
              (RowItem (ArrayText E (d :: dims)) count) 0 us m ys)
            (consume_answers s (chr '[')) fun _ s₁ => Leaves.get ?_).congr fun _ ys => listText_iff
          exact list_loop_accepts (de_row_answers ih) (rowItem_shrinks (arrayText_shrinks hE _)) _
            (0, p) s₁ (length_unread_lt_budget s₁)

theorem deserialize_struct_accepts {reader : List u8 → Uj Unit}
    (hlines : ∀ key s, Accepts (reader key) s (lines key s.unread))
    (hshrinks : ∀ key, Shrinks (lines key)) (s : Ujson) :
    Accepts (deserialize_struct reader) s fun ys => ∃ n, ObjectText lines s.unread n ys := by
  refine (Accepts.seq (U := fun us ys => ∃ m, Items (chr '}') (MemberItem lines) 0 us m ys)
    (consume_answers s (chr '{')) fun _ s₁ => Leaves.get ?_).congr fun _ ys => listText_iff
  exact list_loop_accepts (struct_round_answers hlines) (memberItem_shrinks hshrinks) _ 0 s₁
    (length_unread_lt_budget s₁)

end readers

/-! ## Along a declaration -/

mutual

/-- What the deserializer of the type accepts. -/
def Ty.text : Ty → List u8 → List u8 → Prop
  | .scalar type => type.text
  | .enum e => EnumText e.enumerators
  | .struct fields => fun xs ys => ∃ n, ObjectText fields.text xs n ys

/-- What the lines accept behind a key. -/
def Fields.text : Fields → List u8 → List u8 → List u8 → Prop
  | .nil, _ => fun _ _ => False
  | .field name type dims rest, key =>
      if ujson_streq key name then fun xs ys => ∃ n, ArrayText type.text dims xs n ys
      else rest.text key
  | .string name _ dims rest, key =>
      if ujson_streq key name then
        fun xs ys => ∃ n, ArrayText (fun xs ys => ∃ w, StringText xs w ys) dims xs n ys
      else rest.text key

end

theorem stringText_shrinks : Shrinks fun xs ys => ∃ w, StringText xs w ys :=
  fun _ _ ⟨_, h⟩ => h.length_lt

theorem integerText_shrinks : Shrinks IntegerText := by
  rintro xs ys ⟨neg, ds, h, -⟩
  have hle := length_trim_le xs
  have hpos := List.length_pos_of_ne_nil h.ne_nil
  rw [h.text_eq, List.length_append, List.length_append] at hle
  omega

theorem lettersText_length {cs : List u8} (h : LettersText cs xs n ys) : ys.length ≤ xs.length := by
  induction cs generalizing xs n with
  | nil => exact h.2 ▸ Nat.le_refl _
  | cons c cs ih =>
      obtain ⟨zs, m, hc, hrest, -⟩ := h
      have h₁ := length_of_trim hc
      have h₂ := ih hrest
      omega

theorem scalarText_shrinks (type : Scalar) : Shrinks type.text := by
  cases type with
  | bool =>
      rintro xs ys ⟨value, n, zs, m, -, h⟩
      cases value with
      | true => exact Nat.lt_of_le_of_lt (lettersText_length h.2) (length_of_trim h.1)
      | false => exact Nat.lt_of_le_of_lt (lettersText_length h.2) (length_of_trim h.1)
  | _ => exact integerText_shrinks

theorem enumText_shrinks (enumerators : List (List u8 × u32)) : Shrinks (EnumText enumerators) := by
  intro xs ys h
  cases h with
  | name hw _ => exact hw.length_lt
  | object hopen hw hcolon _ hvalue hclose =>
      have h₁ := length_of_trim hopen
      have h₂ := hw.length_lt
      have h₃ := length_of_trim hcolon
      have h₄ := integerText_shrinks _ _ hvalue
      have h₅ := length_of_trim hclose
      omega
  | value h => exact integerText_shrinks _ _ h

mutual

theorem Ty.text_shrinks : ∀ type : Ty, Shrinks type.text
  | .scalar type => by
      rw [Ty.text]
      exact scalarText_shrinks type
  | .enum e => by
      rw [Ty.text]
      exact enumText_shrinks e.enumerators
  | .struct fields => by
      rw [Ty.text]
      rintro xs ys ⟨n, h⟩
      exact objectText_shrinks (Fields.text_shrinks fields) xs n ys h

theorem Fields.text_shrinks : ∀ (fields : Fields) (key : List u8), Shrinks (fields.text key)
  | .nil, key => by
      rw [Fields.text]
      exact fun _ _ => False.elim
  | .field name type dims rest, key => by
      rw [Fields.text]
      split
      · rintro xs ys ⟨n, h⟩
        exact arrayText_shrinks (Ty.text_shrinks type) dims xs n ys h
      · exact Fields.text_shrinks rest key
  | .string name size dims rest, key => by
      rw [Fields.text]
      split
      · rintro xs ys ⟨n, h⟩
        exact arrayText_shrinks stringText_shrinks dims xs n ys h
      · exact Fields.text_shrinks rest key

end

/-- The line whose key was read takes the value. -/
theorem de_line_accepts {key name : List u8} {field : Extent} {value : Uj ℕ} {rest : Uj Unit}
    {T U : List u8 → List u8 → Prop} (hvalue : ∀ s, Accepts value s (T s.unread))
    (hrest : ∀ s, Accepts rest s (U s.unread)) (s : Ujson) :
    Accepts (de_line key name field value rest) s
      ((if ujson_streq key name then T else U) s.unread) := by
  rw [de_line]
  split
  · refine Leaves.modify_bind ?_
    exact (hvalue _).then fun _ s' => Accepts.pure () s'
  · exact hrest s

mutual

/-- The deserializer of a type accepts the texts of the type. -/
theorem Ty.deserialize_accepts :
    ∀ (type : Ty) (p : ℕ) (s : Ujson), Accepts (type.deserialize p) s (type.text s.unread)
  | .scalar type, p, s => by
      rw [Ty.deserialize, Ty.text]
      exact scalar_deserialize_accepts type p s
  | .enum e, p, s => by
      rw [Ty.deserialize, Ty.text]
      exact enum_deserialize_accepts e p s
  | .struct fields, p, s => by
      rw [Ty.deserialize, Ty.text]
      exact deserialize_struct_accepts (fun key s => Fields.lines_accepts fields key p 0 s)
        fields.text_shrinks s

theorem Fields.lines_accepts : ∀ (fields : Fields) (key : List u8) (self off : ℕ) (s : Ujson),
    Accepts (fields.lines key self off) s (fields.text key s.unread)
  | .nil, key, self, off, s => by
      rw [Fields.lines, Fields.text]
      exact Answers.throw fun _ _ => id
  | .field name type dims rest, key, self, off, s => by
      rw [Fields.lines, Fields.text]
      refine de_line_accepts (fun s => ?_) (fun s => Fields.lines_accepts rest key self _ s) s
      exact de_loop_accepts (fun p s => (Ty.deserialize_accepts type p s).then fun _ s' =>
        Accepts.pure _ s') type.text_shrinks _ dims _ s
  | .string name size dims rest, key, self, off, s => by
      rw [Fields.lines, Fields.text]
      refine de_line_accepts (fun s => ?_) (fun s => Fields.lines_accepts rest key self _ s) s
      refine de_loop_accepts (fun p s => ?_) stringText_shrinks _ dims _ s
      refine ((Accepts.of_answers (ujson_parse_qs_answers (at_address p) (size * dims.prod) s)).then
        fun _ s' => Accepts.pure _ s').congr fun _ ys => ?_
      exact ⟨fun ⟨w, h⟩ => ⟨_, w, h, rfl⟩, fun ⟨_, w, h, _⟩ => ⟨w, h⟩⟩

end

end IbexFirmware.Json
