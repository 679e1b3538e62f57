/-
What JSON makes of the tokens, and where the readers make the same of them.

The grammar here is that of JSON: its four characters of white space in front of a token,
a word in one piece, and lists with one comma between neighbours, of no more elements than
there is room for. What the readers accept besides carries a number of departures in its
text, and a reader is exact on a text exactly if there are none.
-/
import IbexFirmware.UjsonInteger
import IbexFirmware.UjsonLists

set_option autoImplicit false

namespace IbexFirmware.Json

open Bytes PowerFail Session Recognizer

variable {xs ys zs us ws : List u8} {i j k m n count : ℕ} {c close opening : u8}

/-! ## The grammar -/

/-- White space and then `c`. -/
def JsonToken (c : u8) (xs ys : List u8) : Prop :=
  ∃ ws, (∀ b ∈ ws, json_space b = true) ∧ xs = ws ++ c :: ys

/-- White space and then one of the words. -/
def JsonBool (xs ys : List u8) : Prop :=
  ∃ ws word, (∀ b ∈ ws, json_space b = true) ∧ (word = text "true" ∨ word = text "false") ∧
    xs = ws ++ word ++ ys

/-- Items, their commas, and the bracket that closes them. -/
inductive JsonItems (close : u8) (Item : List u8 → List u8 → Prop) :
    ℕ → List u8 → List u8 → Prop where
  | last {xs ws ys : List u8} (hitem : Item xs ws) (hclose : JsonToken close ws ys) :
      JsonItems close Item 1 xs ys
  | more {k : ℕ} {xs ws zs ys : List u8} (hitem : Item xs ws) (hcomma : JsonToken (chr ',') ws zs)
      (hrest : JsonItems close Item k zs ys) : JsonItems close Item (k + 1) xs ys

/-- A list in brackets, of a number of items for which there is room. -/
def JsonList (opening close : u8) (Item : List u8 → List u8 → Prop) (Room : ℕ → Prop)
    (xs ys : List u8) : Prop :=
  ∃ us, JsonToken opening xs us ∧
    (JsonToken close us ys ∨ ∃ k, Room k ∧ JsonItems close Item k us ys)

/-- An array of elements `E`, at most as many in each dimension as declared. -/
def JsonArray (E : List u8 → List u8 → Prop) : List ℕ → List u8 → List u8 → Prop
  | [] => fun xs ys => stray xs = 0 ∧ E xs ys
  | count :: dims => JsonList (chr '[') (chr ']') (JsonArray E dims) (· ≤ count)

/-- A key, a colon and what the lines read for that key. -/
def JsonMember (lines : List u8 → List u8 → List u8 → Prop) (xs ys : List u8) : Prop :=
  ∃ w us vs, stray xs = 0 ∧ StringText xs w us ∧ JsonToken (chr ':') us vs ∧ stray vs = 0 ∧
    lines (key_of w) vs ys

/-- An object of any number of members. -/
def JsonObject (lines : List u8 → List u8 → List u8 → Prop) : List u8 → List u8 → Prop :=
  JsonList (chr '{') (chr '}') (JsonMember lines) fun _ => True

/-! ## Texts without departures -/

theorem json_space_is_space : ∀ b : u8, json_space b = true → is_space b = true := by
  decide

theorem stray_eq_zero : stray xs = 0 ↔ ∀ b ∈ xs.takeWhile is_space, json_space b = true := by
  simp [stray, List.countP_eq_zero]

theorem jsonToken_iff (hc : is_space c = false) :
    JsonToken c xs ys ↔ trim xs = c :: ys ∧ stray xs = 0 := by
  constructor
  · rintro ⟨ws, hws, rfl⟩
    have hspace : ∀ b ∈ ws, is_space b = true := fun b hb => json_space_is_space b (hws b hb)
    refine ⟨?_, stray_eq_zero.mpr ?_⟩
    · rw [trim_append hspace, trim_of_not_space hc]
    · rw [List.takeWhile_append_of_pos hspace, List.takeWhile_cons_of_neg (by simp [hc]),
        List.append_nil]
      exact hws
  · rintro ⟨htrim, hstray⟩
    refine ⟨xs.takeWhile is_space, stray_eq_zero.mp hstray, ?_⟩
    rw [← htrim, trim, List.takeWhile_append_dropWhile]

theorem stray_trim (xs : List u8) : stray (trim xs) = 0 := by
  rw [stray_eq_zero]
  intro b hb
  cases hxs : trim xs with
  | nil =>
      rw [hxs] at hb
      cases hb
  | cons c zs =>
      rw [hxs, List.takeWhile_cons_of_neg (by simp [not_space_of_trim hxs])] at hb
      cases hb

/-- The items of a list that has no departures are those of `Strict`, for which there has
to be room. -/
structure ItemLaw (close : u8) (Item : ℕ → List u8 → ℕ → ℕ → List u8 → Prop)
    (Strict : List u8 → List u8 → Prop) (Room : ℕ → Prop) : Prop where
  item_iff : ∀ i zs j ws, Item i zs j 0 ws ↔ Room (i + 1) ∧ j = i + 1 ∧ Strict zs ws
  room_le : ∀ {m n}, Room n → m ≤ n → Room m
  stray_eq : ∀ {xs ws}, Strict xs ws → stray xs = 0
  starts : ∀ {xs ws}, Strict xs ws → ∃ c us, trim xs = c :: us ∧ c ≠ close
  trim_iff : ∀ {xs ws}, stray xs = 0 → (Strict (trim xs) ws ↔ Strict xs ws)
  not_space : is_space close = false
  not_comma : chr ',' ≠ close

section items

variable {Item : ℕ → List u8 → ℕ → ℕ → List u8 → Prop} {Strict : List u8 → List u8 → Prop}
  {Room : ℕ → Prop}

theorem comma_not_space : is_space (chr ',') = false := by
  decide

/-- Behind an item come the bracket, or a comma and more items. -/
theorem Items.strict (law : ItemLaw close Item Strict Room) (h : Items close Item i xs n ys)
    (hn : n = 0) :
    JsonToken close xs ys ∨ ∃ k zs, Room (i + k) ∧ JsonItems close Strict k zs ys ∧
      (if i = 0 then zs = xs else JsonToken (chr ',') xs zs) := by
  induction h with
  | close hclose => exact .inl ((jsonToken_iff law.not_space).mpr ⟨hclose, hn⟩)
  | @item i j m n xs us zs ws ys c htoken hc hat hitem hrest ih =>
      obtain ⟨hstray, rfl, rfl⟩ : stray xs = 0 ∧ m = 0 ∧ n = 0 := by omega
      obtain ⟨hroom, rfl, hstrict⟩ := (law.item_iff _ _ _ _).mp hitem
      have hitems : ∃ k, Room (i + k) ∧ ∀ zs', Strict zs' ws → JsonItems close Strict k zs' ys := by
        rcases ih rfl with hclose | ⟨k, zs', hroom', hitems, hcomma⟩
        · exact ⟨1, hroom, fun _ h => .last h hclose⟩
        · rw [if_neg (Nat.succ_ne_zero i)] at hcomma
          exact ⟨k + 1, by rwa [Nat.add_comm k, ← Nat.add_assoc], fun _ h => .more h hcomma hitems⟩
      obtain ⟨k, hroom', hitems⟩ := hitems
      refine .inr ?_
      unfold AtItem at hat
      by_cases hi : i = 0
      · rw [if_pos hi, ← htoken] at hat
        refine ⟨k, xs, hroom', hitems xs ?_, by rw [if_pos hi]⟩
        rwa [hat, law.trim_iff hstray] at hstrict
      · rw [if_neg hi] at hat
        refine ⟨k, zs, hroom', hitems zs hstrict, ?_⟩
        rw [if_neg hi, jsonToken_iff comma_not_space]
        exact ⟨htoken.trans hat, hstray⟩

/-- The first of the items, and the others as the loop reads them. -/
theorem JsonItems.items (law : ItemLaw close Item Strict Room)
    (h : JsonItems close Strict k xs ys) (hroom : Room (i + k)) :
    ∃ ws, Strict xs ws ∧ Room (i + 1) ∧ Items close Item (i + 1) ws 0 ys := by
  induction h generalizing i with
  | @last xs ws ys hitem hclose =>
      obtain ⟨htrim, hstray⟩ := (jsonToken_iff law.not_space).mp hclose
      refine ⟨ws, hitem, hroom, ?_⟩
      have hitems : Items close Item (i + 1) ws (stray ws) ys := .close htrim
      rwa [hstray] at hitems
  | @more k xs ws zs ys hitem hcomma hrest ih =>
      obtain ⟨htrim, hstray⟩ := (jsonToken_iff comma_not_space).mp hcomma
      rw [Nat.add_comm k, ← Nat.add_assoc] at hroom
      obtain ⟨ws', hstrict, hnext, hitems⟩ := ih hroom
      refine ⟨ws, hitem, law.room_le hnext (Nat.le_succ _), ?_⟩
      have hat : AtItem (i + 1) (chr ',' :: zs) zs := by rw [AtItem, if_neg (Nat.succ_ne_zero i)]
      have hread := (law.item_iff (i + 1) zs (i + 1 + 1) ws').mpr ⟨hnext, rfl, hstrict⟩
      have hall := Items.item htrim law.not_comma hat hread hitems
      rwa [hstray] at hall

/-- With no departure the text is a list as the grammar has it. -/
theorem listText_zero_iff (law : ItemLaw close Item Strict Room)
    (hopening : is_space opening = false) :
    ListText opening close Item xs 0 ys ↔ JsonList opening close Strict Room xs ys := by
  constructor
  · rintro ⟨us, m, htrim, hitems, hn⟩
    have hopen : JsonToken opening xs us := (jsonToken_iff hopening).mpr ⟨htrim, by omega⟩
    refine ⟨us, hopen, ?_⟩
    rcases hitems.strict law (by omega) with hclose | ⟨k, zs, hroom, hstrict, hzs⟩
    · exact .inl hclose
    · rw [if_pos rfl] at hzs
      rw [Nat.zero_add] at hroom
      exact .inr ⟨k, hroom, hzs ▸ hstrict⟩
  · rintro ⟨us, hopen, hitems⟩
    obtain ⟨htrim, hstray⟩ := (jsonToken_iff hopening).mp hopen
    refine ⟨us, 0, htrim, ?_, by omega⟩
    rcases hitems with hclose | ⟨k, hroom, hstrict⟩
    · obtain ⟨hclose, hnone⟩ := (jsonToken_iff law.not_space).mp hclose
      have hread : Items close Item 0 us (stray us) ys := .close hclose
      rwa [hnone] at hread
    · rw [← Nat.zero_add k] at hroom
      obtain ⟨ws, hfirst, hone, hrest⟩ := hstrict.items law hroom
      obtain ⟨c, vs, htoken, hc⟩ := law.starts hfirst
      have hstray := law.stray_eq hfirst
      rw [← law.trim_iff hstray, htoken] at hfirst
      have hat : AtItem 0 (c :: vs) (c :: vs) := rfl
      have hread := Items.item htoken hc hat ((law.item_iff 0 _ _ _).mpr ⟨hone, rfl, hfirst⟩) hrest
      rwa [hstray] at hread

end items

/-! ## Arrays and objects -/

/-- What is needed of the text of an element. -/
structure ElementLaw (E : List u8 → List u8 → Prop) : Prop where
  trim_iff : ∀ {xs ys}, E (trim xs) ys ↔ E xs ys
  starts : ∀ {xs ys}, E xs ys → ∃ c us, trim xs = c :: us ∧ c ≠ chr ']'
  unique : ∀ {xs ys ys'}, E xs ys → E xs ys' → ys = ys'

/-- A text has one reading, and so one number of departures. -/
def UniqueText (T : List u8 → ℕ → List u8 → Prop) : Prop :=
  ∀ xs n n' ys ys', T xs n ys → T xs n' ys' → n = n' ∧ ys = ys'

section arrays

variable {E : List u8 → List u8 → Prop} {lines : List u8 → List u8 → List u8 → Prop}

theorem element_itemLaw (hE : ElementLaw E) :
    ItemLaw (chr ']') (ElementItem E count) (JsonArray E []) (· ≤ count) where
  item_iff i zs j ws := by
    constructor
    · rintro (⟨hi, rfl, hstray, h⟩ | ⟨-, -, -, hm, -⟩)
      · exact ⟨hi, rfl, hstray.symm, h⟩
      · cases hm
    · rintro ⟨hi, rfl, hstray, h⟩
      exact .inl ⟨hi, rfl, hstray.symm, h⟩
  room_le hn hm := Nat.le_trans hm hn
  stray_eq h := h.1
  starts h := hE.starts h.2
  trim_iff hstray := by
    simp only [JsonArray, stray_trim, hE.trim_iff, hstray]
  not_space := by decide
  not_comma := by decide

/-- A row is an item of the list of the rows. -/
theorem row_itemLaw {Row : List u8 → ℕ → List u8 → Prop} {dims : List ℕ} {d : ℕ}
    (hRow : ∀ xs ys, Row xs 0 ys ↔ JsonArray E (d :: dims) xs ys) :
    ItemLaw (chr ']') (RowItem Row count) (JsonArray E (d :: dims)) (· ≤ count) where
  item_iff i zs j ws := by
    constructor
    · rintro ⟨rfl, m, h, hm⟩
      have hroom : i < count := by
        by_contra hfull
        rw [if_neg hfull] at hm
        omega
      obtain rfl : m = 0 := by omega
      exact ⟨hroom, rfl, (hRow zs ws).mp h⟩
    · rintro ⟨hi, rfl, h⟩
      exact ⟨rfl, 0, (hRow zs ws).mpr h, by rw [if_pos (show i < count from hi)]⟩
  room_le hn hm := Nat.le_trans hm hn
  stray_eq h := by
    obtain ⟨us, hopen, -⟩ := h
    exact ((jsonToken_iff (by decide)).mp hopen).2
  starts h := by
    obtain ⟨us, hopen, -⟩ := h
    exact ⟨_, us, ((jsonToken_iff (by decide)).mp hopen).1, by decide⟩
  trim_iff hstray := by
    simp only [JsonArray, JsonList, jsonToken_iff (show is_space (chr '[') = false by decide),
      stray_trim, trim_trim, hstray]
  not_space := by decide
  not_comma := by decide

theorem member_itemLaw :
    ItemLaw (chr '}') (MemberItem lines) (JsonMember lines) (fun _ => True) where
  item_iff i zs j ws := by
    have hcolon : is_space (chr ':') = false := by decide
    constructor
    · rintro ⟨rfl, w, us, vs, hw, htrim, hvalue, hm⟩
      exact ⟨trivial, rfl, w, us, vs, by omega, hw, (jsonToken_iff hcolon).mpr ⟨htrim, by omega⟩,
        by omega, hvalue⟩
    · rintro ⟨-, rfl, w, us, vs, hzs, hw, htoken, hvs, hvalue⟩
      obtain ⟨htrim, hus⟩ := (jsonToken_iff hcolon).mp htoken
      exact ⟨rfl, w, us, vs, hw, htrim, hvalue, by omega⟩
  room_le _ _ := trivial
  stray_eq h := by
    obtain ⟨_, _, _, hstray, -⟩ := h
    exact hstray
  starts h := by
    obtain ⟨_, _, _, -, ⟨us, hquote, -⟩, -⟩ := h
    exact ⟨_, us, hquote, by decide⟩
  trim_iff hstray := by
    simp only [JsonMember, stray_trim, stringText_trim, hstray]
  not_space := by decide
  not_comma := by decide

theorem arrayText_zero_iff (hE : ElementLaw E) (dims : List ℕ) (xs ys : List u8) :
    ArrayText E dims xs 0 ys ↔ JsonArray E dims xs ys := by
  induction dims generalizing xs ys with
  | nil => exact ⟨fun h => ⟨h.2.symm, h.1⟩, fun h => ⟨h.2, h.1.symm⟩⟩
  | cons count dims ih =>
      cases dims with
      | nil => exact listText_zero_iff (element_itemLaw hE) (by decide)
      | cons d dims => exact listText_zero_iff (row_itemLaw ih) (by decide)

theorem objectText_zero_iff (xs ys : List u8) :
    ObjectText lines xs 0 ys ↔ JsonObject lines xs ys :=
  listText_zero_iff member_itemLaw (by decide)

/-! ## There is one reading -/

/-- An item has one reading. -/
def UniqueItem (Item : ℕ → List u8 → ℕ → ℕ → List u8 → Prop) : Prop :=
  ∀ i zs j j' m m' ws ws', Item i zs j m ws → Item i zs j' m' ws' → j = j' ∧ m = m' ∧ ws = ws'

theorem AtItem.unique {tokens zs' : List u8} (h : AtItem i tokens zs) (h' : AtItem i tokens zs') :
    zs = zs' := by
  unfold AtItem at h h'
  split at h
  · next hi =>
      rw [if_pos hi] at h'
      exact h.trans h'.symm
  · next hi =>
      rw [if_neg hi] at h'
      exact (List.cons.inj (h.symm.trans h')).2

theorem Items.unique {Item : ℕ → List u8 → ℕ → ℕ → List u8 → Prop} (hitem : UniqueItem Item)
    {n' : ℕ} {ys' : List u8} (h : Items close Item i xs n ys) (h' : Items close Item i xs n' ys') :
    n = n' ∧ ys = ys' := by
  induction h generalizing n' ys' with
  | close hclose =>
      cases h' with
      | close hclose' => exact ⟨rfl, (List.cons.inj (hclose.symm.trans hclose')).2⟩
      | item htoken' hc' _ _ _ =>
          exact absurd (List.cons.inj (htoken'.symm.trans hclose)).1 hc'
  | item htoken hc hat hread _ ih =>
      cases h' with
      | close hclose' => exact absurd (List.cons.inj (htoken.symm.trans hclose')).1 hc
      | item htoken' _ hat' hread' hrest' =>
          obtain ⟨rfl, rfl⟩ := List.cons.inj (htoken.symm.trans htoken')
          obtain rfl := hat.unique hat'
          obtain ⟨rfl, rfl, rfl⟩ := hitem _ _ _ _ _ _ _ _ hread hread'
          obtain ⟨rfl, rfl⟩ := ih hrest'
          exact ⟨rfl, rfl⟩

theorem listText_unique {Item : ℕ → List u8 → ℕ → ℕ → List u8 → Prop} (hitem : UniqueItem Item) :
    UniqueText (ListText opening close Item) := by
  rintro xs n n' ys ys' ⟨us, m, hopen, h, rfl⟩ ⟨us', m', hopen', h', rfl⟩
  obtain ⟨-, rfl⟩ := List.cons.inj (hopen.symm.trans hopen')
  obtain ⟨rfl, rfl⟩ := h.unique hitem h'
  exact ⟨rfl, rfl⟩

theorem elementItem_unique (hE : ElementLaw E) : UniqueItem (ElementItem E count) := by
  rintro i zs j j' m m' ws ws' (⟨hi, rfl, rfl, h⟩ | ⟨hi, -, rfl, rfl, rfl⟩)
    (⟨hi', rfl, rfl, h'⟩ | ⟨hi', -, rfl, rfl, rfl⟩)
  · exact ⟨rfl, rfl, hE.unique h h'⟩
  · omega
  · omega
  · exact ⟨rfl, rfl, rfl⟩

theorem rowItem_unique {Row : List u8 → ℕ → List u8 → Prop} (hRow : UniqueText Row) :
    UniqueItem (RowItem Row count) := by
  rintro i zs j j' m m' ws ws' ⟨rfl, k, h, rfl⟩ ⟨rfl, k', h', rfl⟩
  obtain ⟨rfl, rfl⟩ := hRow _ _ _ _ _ h h'
  exact ⟨rfl, rfl, rfl⟩

theorem memberItem_unique
    (hlines : ∀ key xs ys ys', lines key xs ys → lines key xs ys' → ys = ys') :
    UniqueItem (MemberItem lines) := by
  rintro i zs j j' m m' ws ws' ⟨rfl, w, us, vs, hw, hcolon, h, rfl⟩
    ⟨rfl, w', us', vs', hw', hcolon', h', rfl⟩
  have hkey := ujson_parse_qs_answers on_stack 128 (at_console zs)
  obtain ⟨hw_eq, rfl⟩ := hkey.unique ⟨w, hw, rfl⟩ ⟨w', hw', rfl⟩
  obtain ⟨-, rfl⟩ := List.cons.inj (hcolon.symm.trans hcolon')
  have hw_key : key_of w = key_of w' := hw_eq
  rw [hw_key] at h
  exact ⟨rfl, rfl, hlines _ _ _ _ h h'⟩

theorem arrayText_unique (hE : ElementLaw E) (dims : List ℕ) : UniqueText (ArrayText E dims) := by
  induction dims with
  | nil =>
      rintro xs n n' ys ys' ⟨h, rfl⟩ ⟨h', rfl⟩
      exact ⟨rfl, hE.unique h h'⟩
  | cons count dims ih =>
      cases dims with
      | nil => exact listText_unique (elementItem_unique hE)
      | cons d dims => exact listText_unique (rowItem_unique ih)

end arrays

/-! ## The elements of the macros -/

/-- The two uses of `ujson_de_loop`: what `expr` reads, and by how much it moves `p`. -/
inductive Element where
  | field (type : Ty)
  | string (size whole : ℕ)

def Element.size : Element → ℕ
  | .field type => type.size
  | .string size _ => size

def Element.read : Element → ℕ → Uj ℕ
  | .field type, p => do
      type.deserialize p
      pure (p + type.size)
  | .string size whole, p => do
      let _ ← ujson_parse_qs (at_address p) whole
      pure (p + size)

def Element.text : Element → List u8 → List u8 → Prop
  | .field type => type.text
  | .string _ _ => fun xs ys => ∃ w, StringText xs w ys

theorem Element.read_accepts (e : Element) (p : ℕ) (s : Ujson) :
    Accepts (e.read p) s (e.text s.unread) := by
  cases e with
  | field type => exact (type.deserialize_accepts p s).then fun _ s' => Accepts.pure _ s'
  | string size whole =>
      refine ((Accepts.of_answers (ujson_parse_qs_answers (at_address p) whole s)).then
        fun _ s' => Accepts.pure _ s').congr fun _ ys => ?_
      exact ⟨fun ⟨w, h⟩ => ⟨_, w, h, rfl⟩, fun ⟨_, w, h, _⟩ => ⟨w, h⟩⟩

theorem Element.shrinks (e : Element) : Shrinks e.text := by
  cases e with
  | field type => exact type.text_shrinks
  | string size whole => exact stringText_shrinks

theorem digit_no_bracket : ∀ c : u8, c = chr '-' ∨ is_digit c = true → c ≠ chr ']' := by
  decide

/-- A value begins with a character of its own, and not with a closing bracket. -/
theorem Ty.text_starts {type : Ty} (h : type.text xs ys) :
    ∃ c us, trim xs = c :: us ∧ c ≠ chr ']' := by
  have hinteger : IntegerText xs ys → ∃ c us, trim xs = c :: us ∧ c ≠ chr ']' := by
    intro hxs
    obtain ⟨c, us, hc, hstart⟩ := hxs.starts
    exact ⟨c, us, hc, digit_no_bracket c hstart⟩
  cases type with
  | scalar type =>
      rw [Ty.text] at h
      cases type with
      | bool =>
          obtain ⟨value, n, us, m, -, h⟩ := h
          cases value with
          | true => exact ⟨_, us, h.1, by decide⟩
          | false => exact ⟨_, us, h.1, by decide⟩
      | _ => exact hinteger h
  | enum e =>
      rw [Ty.text] at h
      obtain ⟨c, us, hc, rfl | rfl | hstart⟩ := h.starts
      · exact ⟨_, us, hc, by decide⟩
      · exact ⟨_, us, hc, by decide⟩
      · exact ⟨c, us, hc, digit_no_bracket c hstart⟩
  | struct fields =>
      rw [Ty.text] at h
      obtain ⟨n, us, m, hopen, -⟩ := h
      exact ⟨_, us, hopen, by decide⟩

theorem enumText_trim {enumerators : List (List u8 × u32)} :
    EnumText enumerators (trim xs) ys ↔ EnumText enumerators xs ys := by
  constructor
  · intro h
    cases h with
    | name hw hfind => exact .name (stringText_trim.mp hw) hfind
    | object hopen hw hcolon hkey hvalue hclose =>
        exact .object (by rwa [trim_trim] at hopen) hw hcolon hkey hvalue hclose
    | value h => exact .value (integerText_trim.mp h)
  · intro h
    cases h with
    | name hw hfind => exact .name (stringText_trim.mpr hw) hfind
    | object hopen hw hcolon hkey hvalue hclose =>
        exact .object (by rwa [trim_trim]) hw hcolon hkey hvalue hclose
    | value h => exact .value (integerText_trim.mpr h)

theorem Ty.text_trim {type : Ty} : type.text (trim xs) ys ↔ type.text xs ys := by
  cases type with
  | scalar type =>
      rw [Ty.text]
      cases type with
      | bool =>
          constructor
          · rintro ⟨value, n, us, m, -, h⟩
            rw [trim_trim] at h
            exact ⟨value, _, us, m, rfl, h⟩
          · rintro ⟨value, n, us, m, -, h⟩
            rw [← trim_trim] at h
            exact ⟨value, _, us, m, rfl, h⟩
      | _ => exact integerText_trim
  | enum e =>
      rw [Ty.text]
      exact enumText_trim
  | struct fields =>
      rw [Ty.text]
      simp only [ObjectText, listText_iff, trim_trim]

theorem Element.law (e : Element) : ElementLaw e.text where
  trim_iff := by
    intro xs ys
    cases e with
    | field type => exact Ty.text_trim
    | string size whole => simp only [Element.text, stringText_trim]
  starts := by
    intro xs ys h
    cases e with
    | field type => exact Ty.text_starts h
    | string size whole =>
        obtain ⟨w, us, hquote, -⟩ := h
        exact ⟨_, us, hquote, by decide⟩
  unique := by
    intro xs ys ys' h h'
    exact (e.read_accepts 0 (at_console xs)).unique h h'

/-! ## Exactness -/

/-- Over the text `xs` the program returns where the grammar has a reading, and leaves what
the grammar leaves. -/
def ReadsExactly {α : Type} (p : Uj α) (J : List u8 → List u8 → Prop) (xs : List u8) : Prop :=
  ∀ m : Machine Ujson, m.mem.unread = xs →
    ∀ ys, (∃ a, (p m).1 = .ret a ∧ (p m).2.mem.unread = ys) ↔ J xs ys

/-- The text, as far as it is read, has no departures. -/
def Regular (T : List u8 → ℕ → List u8 → Prop) (xs : List u8) : Prop :=
  ∀ n ys, T xs n ys → n = 0

/-- A reader of texts with departures is exact where there are none. -/
theorem readsExactly_iff {α : Type} {p : Uj α} {T : List u8 → ℕ → List u8 → Prop}
    {J : List u8 → List u8 → Prop} (hp : ∀ s, Accepts p s fun ys => ∃ n, T s.unread n ys)
    (hunique : UniqueText T) (hzero : ∀ xs ys, T xs 0 ys ↔ J xs ys) (xs : List u8) :
    ReadsExactly p J xs ↔ Regular T xs := by
  have hruns : ∀ m : Machine Ujson, m.mem.unread = xs → ∀ ys,
      (∃ a, (p m).1 = .ret a ∧ (p m).2.mem.unread = ys) ↔ ∃ n, T xs n ys := by
    intro m hm ys
    have hiff := (hp m.mem).returns_iff (m := m) rfl () ys
    rw [hm] at hiff
    exact ⟨fun ⟨a, ha, hys⟩ => hiff.mp ⟨a, ha, rfl, hys⟩,
      fun h => let ⟨a, ha, _, hys⟩ := hiff.mpr h; ⟨a, ha, hys⟩⟩
  constructor
  · intro hexact n ys hT
    let m : Machine Ujson := Machine.on (at_console xs) fun _ => .done
    have hread := (hexact m rfl ys).mp ((hruns m rfl ys).mpr ⟨n, hT⟩)
    exact (hunique _ _ _ _ _ hT ((hzero xs ys).mpr hread)).1
  · intro hregular m hm ys
    rw [hruns m hm, ← hzero]
    refine ⟨?_, fun h => ⟨0, h⟩⟩
    rintro ⟨n, hT⟩
    rwa [hregular n ys hT] at hT

/-! ### The words -/

theorem lettersText_unique {cs ys' : List u8} {n' : ℕ} (h : LettersText cs xs n ys)
    (h' : LettersText cs xs n' ys') : n = n' ∧ ys = ys' := by
  induction cs generalizing xs n n' with
  | nil => exact ⟨h.1.trans h'.1.symm, h.2.trans h'.2.symm⟩
  | cons c cs ih =>
      obtain ⟨zs, m, hc, hrest, rfl⟩ := h
      obtain ⟨zs', m', hc', hrest', rfl⟩ := h'
      obtain ⟨-, rfl⟩ := List.cons.inj (hc.symm.trans hc')
      obtain ⟨rfl, rfl⟩ := ih hrest hrest'
      exact ⟨rfl, rfl⟩

theorem boolText_unique : UniqueText fun xs n ys => ∃ value, BoolText xs value n ys := by
  rintro xs n n' ys ys' ⟨value, us, m, rfl, h⟩ ⟨value', us', m', rfl, h'⟩
  cases value with
  | true =>
      cases value' with
      | true =>
          obtain ⟨-, rfl⟩ := List.cons.inj (h.1.symm.trans h'.1)
          obtain ⟨rfl, rfl⟩ := lettersText_unique h.2 h'.2
          exact ⟨rfl, rfl⟩
      | false => exact absurd (List.cons.inj (h.1.symm.trans h'.1)).1 (by decide)
  | false =>
      cases value' with
      | true => exact absurd (List.cons.inj (h.1.symm.trans h'.1)).1 (by decide)
      | false =>
          obtain ⟨-, rfl⟩ := List.cons.inj (h.1.symm.trans h'.1)
          obtain ⟨rfl, rfl⟩ := lettersText_unique h.2 h'.2
          exact ⟨rfl, rfl⟩

/-- Letters with nothing between them. -/
theorem lettersText_zero_iff {cs : List u8} (hcs : ∀ c ∈ cs, is_space c = false) :
    LettersText cs xs 0 ys ↔ xs = cs ++ ys := by
  induction cs generalizing xs with
  | nil => exact ⟨fun h => h.2.symm, fun h => ⟨rfl, h.symm⟩⟩
  | cons c cs ih =>
      have hc := hcs c List.mem_cons_self
      have hrest : ∀ zs, LettersText cs zs 0 ys ↔ zs = cs ++ ys :=
        fun zs => ih fun d hd => hcs d (List.mem_cons_of_mem c hd)
      constructor
      · rintro ⟨zs, m, htrim, hletters, hm⟩
        have hnone : xs.takeWhile is_space = [] := List.eq_nil_of_length_eq_zero (by omega)
        obtain rfl : m = 0 := by omega
        rw [(hrest zs).mp hletters] at htrim
        rw [← List.takeWhile_append_dropWhile (p := is_space) (l := xs), hnone]
        exact htrim
      · rintro rfl
        refine ⟨cs ++ ys, 0, trim_of_not_space hc _, (hrest _).mpr rfl, ?_⟩
        rw [List.cons_append, List.takeWhile_cons_of_neg (by simp [hc])]
        rfl

theorem boolText_zero_iff (xs ys : List u8) :
    (∃ value, BoolText xs value 0 ys) ↔ JsonBool xs ys := by
  have htrue : ∀ c ∈ [chr 'r', chr 'u', chr 'e'], is_space c = false := by decide
  have hfalse : ∀ c ∈ [chr 'a', chr 'l', chr 's', chr 'e'], is_space c = false := by decide
  have htokens : JsonBool xs ys ↔
      JsonToken (chr 't') xs ([chr 'r', chr 'u', chr 'e'] ++ ys) ∨
      JsonToken (chr 'f') xs ([chr 'a', chr 'l', chr 's', chr 'e'] ++ ys) := by
    constructor
    · rintro ⟨ws, word, hws, rfl | rfl, rfl⟩
      · exact .inl ⟨ws, hws, by rw [List.append_assoc]; rfl⟩
      · exact .inr ⟨ws, hws, by rw [List.append_assoc]; rfl⟩
    · rintro (⟨ws, hws, rfl⟩ | ⟨ws, hws, rfl⟩)
      · exact ⟨ws, _, hws, .inl rfl, by rw [List.append_assoc]; rfl⟩
      · exact ⟨ws, _, hws, .inr rfl, by rw [List.append_assoc]; rfl⟩
  rw [htokens, jsonToken_iff (by decide), jsonToken_iff (by decide)]
  constructor
  · rintro ⟨value, us, m, hn, h⟩
    obtain ⟨hstray, rfl⟩ : stray xs = 0 ∧ m = 0 := by omega
    cases value with
    | true => exact .inl ⟨(lettersText_zero_iff htrue).mp h.2 ▸ h.1, hstray⟩
    | false => exact .inr ⟨(lettersText_zero_iff hfalse).mp h.2 ▸ h.1, hstray⟩
  · rintro (⟨htrim, hstray⟩ | ⟨htrim, hstray⟩)
    · exact ⟨true, _, 0, by omega, htrim, (lettersText_zero_iff htrue).mpr rfl⟩
    · exact ⟨false, _, 0, by omega, htrim, (lettersText_zero_iff hfalse).mpr rfl⟩

/-! ### What a word that is none leaves -/

section target

variable {t : Target}

theorem getc_keeps_target : Maintains (fun s : Ujson => s.target = t) ujson_getc := by
  refine Maintains.get fun s => ?_
  cases s.buffer with
  | some ch => exact Maintains.bind (Maintains.modify fun _ h => h) fun _ => Maintains.pure ch
  | none =>
      cases s.input with
      | nil => exact Maintains.throw _
      | cons ch rest =>
          exact Maintains.bind (Maintains.modify fun _ h => h) fun _ => Maintains.pure ch

theorem ungetc_keeps_target (ch : u8) :
    Maintains (fun s : Ujson => s.target = t) (ujson_ungetc ch) :=
  Maintains.get fun _ => Maintains.ite (fun _ => Maintains.throw _)
    fun _ => Maintains.modify fun _ h => h

theorem consume_whitespace_keeps_target :
    Maintains (fun s : Ujson => s.target = t) consume_whitespace :=
  Maintains.get fun _ => Maintains.loop
    (fun _ => Maintains.bind getc_keeps_target fun _ => Maintains.pure _) _ _

theorem consume_keeps_target (ch : u8) :
    Maintains (fun s : Ujson => s.target = t) (ujson_consume ch) :=
  Maintains.bind consume_whitespace_keeps_target fun _ =>
    Maintains.ite (fun _ => Maintains.throw _) fun _ => Maintains.pure ()

theorem deserialize_bool_keeps_target :
    Maintains (fun s : Ujson => s.target = t) ujson_deserialize_bool := by
  refine Maintains.bind consume_whitespace_keeps_target fun got => Maintains.ite (fun _ => ?_)
    fun _ => Maintains.ite (fun _ => ?_) fun _ => ?_
  · exact Maintains.bind (consume_keeps_target _) fun _ => Maintains.bind (consume_keeps_target _)
      fun _ => Maintains.bind (consume_keeps_target _) fun _ => Maintains.pure true
  · exact Maintains.bind (consume_keeps_target _) fun _ => Maintains.bind (consume_keeps_target _)
      fun _ => Maintains.bind (consume_keeps_target _) fun _ =>
        Maintains.bind (consume_keeps_target _) fun _ => Maintains.pure false
  · exact Maintains.bind (Maintains.attempt (ungetc_keeps_target got)) fun _ => Maintains.throw _

theorem failed_bool_keeps_target (p : ℕ) (m : Machine Ujson)
    (hret : (Scalar.bool.deserialize p m).1 ≠ .ret ()) :
    (Scalar.bool.deserialize p m).2.mem.target = m.mem.target := by
  have hleaves : Leaves (Scalar.bool.deserialize p) m.mem (fun _ _ => True)
      (fun _ s' => s'.target = m.mem.target) fun s' => s'.target = m.mem.target :=
    Leaves.bind (Leaves.conseq (deserialize_bool_keeps_target m.mem rfl) (fun _ _ _ => trivial)
      (fun _ _ => id) fun _ => id) fun _ _ _ => Leaves.modify trivial
  have hends := hleaves m rfl
  generalize Scalar.bool.deserialize p m = run at hends hret ⊢
  obtain ⟨outcome, m'⟩ := run
  cases outcome with
  | ret _ => exact absurd rfl hret
  | error e => exact hends
  | trap => exact hends
  | lost => exact hends

end target

theorem bool_exact_iff (p : ℕ) (xs : List u8) :
    ReadsExactly (Scalar.bool.deserialize p) JsonBool xs ↔
      Regular (fun xs n ys => ∃ value, BoolText xs value n ys) xs := by
  refine readsExactly_iff (fun s => ?_) boolText_unique boolText_zero_iff xs
  refine (scalar_deserialize_accepts .bool p s).congr fun _ ys => ?_
  exact ⟨fun ⟨n, value, h⟩ => ⟨value, n, h⟩, fun ⟨value, n, h⟩ => ⟨n, value, h⟩⟩

theorem array_exact_iff (e : Element) (dims : List ℕ) (p : ℕ) (xs : List u8) :
    ReadsExactly (de_loop e.size e.read dims p) (JsonArray e.text dims) xs ↔
      Regular (ArrayText e.text dims) xs :=
  readsExactly_iff (de_loop_accepts e.read_accepts e.shrinks e.size dims p)
    (arrayText_unique e.law _) (arrayText_zero_iff e.law _) xs

theorem object_exact_iff (fields : Fields) (p : ℕ) (xs : List u8) :
    ReadsExactly ((Ty.struct fields).deserialize p) (JsonObject fields.text) xs ↔
      Regular (ObjectText fields.text) xs := by
  have hlines : ∀ key xs ys ys', fields.text key xs ys → fields.text key xs ys' → ys = ys' := by
    intro key xs ys ys' h h'
    exact (fields.lines_accepts key 0 0 (at_console xs)).unique h h'
  refine readsExactly_iff (fun s => ?_) (listText_unique (memberItem_unique hlines))
    objectText_zero_iff xs
  have haccepts := Ty.deserialize_accepts (.struct fields) p s
  rwa [Ty.text] at haccepts

/-- What the readers of words, arrays and objects accept is JSON's of every text in which
they read no departure from it: no white space but JSON's in front of a token, none between
the letters of a word, no comma behind a full array and no row for which there is no room. -/
theorem token_grammar_exact_iff (p : ℕ) (xs : List u8) :
    ((ReadsExactly (Scalar.bool.deserialize p) JsonBool xs ∧
        ∀ m : Machine Ujson, m.mem.unread = xs → (Scalar.bool.deserialize p m).1 ≠ .ret () →
          (Scalar.bool.deserialize p m).2.mem.target = m.mem.target) ↔
      Regular (fun xs n ys => ∃ value, BoolText xs value n ys) xs) ∧
    (∀ (e : Element) (count : ℕ) (dims : List ℕ),
      ReadsExactly (de_loop e.size e.read (count :: dims) p) (JsonArray e.text (count :: dims)) xs ↔
        Regular (ArrayText e.text (count :: dims)) xs) ∧
    (∀ fields : Fields,
      ReadsExactly ((Ty.struct fields).deserialize p) (JsonObject fields.text) xs ↔
        Regular (ObjectText fields.text) xs) := by
  refine ⟨?_, fun e count dims => array_exact_iff e _ p xs, fun fields => object_exact_iff fields p xs⟩
  rw [and_iff_left fun m _ => failed_bool_keeps_target p m]
  exact bool_exact_iff p xs

/-- A word with a space in it, a comma behind the only element of an array that is full, and
a second row for an array of one are all accepted. -/
theorem departures_accepted :
    ¬ ReadsExactly (Scalar.bool.deserialize 0x100) JsonBool (text "t rue") ∧
    ¬ ReadsExactly (de_loop 1 (Element.read (.field (.scalar .uint8_t))) [1] 0x100)
      (JsonArray (Element.text (.field (.scalar .uint8_t))) [1]) (text "[7,]") ∧
    ¬ ReadsExactly (de_loop 1 (Element.read (.field (.scalar .uint8_t))) [1, 1] 0x100)
      (JsonArray (Element.text (.field (.scalar .uint8_t))) [1, 1]) (text "[[7],[7]]") := by
  have hseven : ∀ ys, (∀ c ∈ ys.head?, is_digit c = false) →
      Element.text (.field (.scalar .uint8_t)) (chr '7' :: ys) ys := by
    intro ys hys
    refine ⟨false, [chr '7'], ⟨trim_of_not_space (by decide) ys, nofun, by decide, hys⟩, ?_, nofun⟩
    decide
  have hrow : ∀ ys, ListText (chr '[') (chr ']')
      (ElementItem (Element.text (.field (.scalar .uint8_t))) 1)
      ([chr '[', chr '7', chr ']'] ++ ys) 0 ys := by
    intro ys
    refine ⟨[chr '7', chr ']'] ++ ys, _, rfl, .item rfl (by decide) rfl
      (.inl ⟨Nat.zero_lt_one, rfl, rfl, hseven _ ?_⟩) (.close rfl), rfl⟩
    rintro c ⟨⟩
    decide
  refine ⟨fun h => ?_, fun h => ?_, fun h => ?_⟩
  · rw [bool_exact_iff] at h
    have hone := h 1 [] ⟨true, text " rue", 1, by decide, by decide, text "ue", 0, by decide,
      ⟨text "e", 0, by decide, ⟨[], 0, by decide, ⟨rfl, rfl⟩, by decide⟩, by decide⟩, by decide⟩
    exact absurd hone (by decide)
  · have hregular := (array_exact_iff (.field (.scalar .uint8_t)) [1] 0x100 _).mp h
    have hcomma : Items (chr ']') (ElementItem (Element.text (.field (.scalar .uint8_t))) 1) 1
        (text ",]") (0 + 1 + 0) [] :=
      .item rfl (by decide) (show AtItem 1 (text ",]") (text "]") from rfl)
        (.inr ⟨Nat.le_refl 1, nofun, rfl, rfl, rfl⟩)
        (.close rfl)
    have hitems : Items (chr ']') (ElementItem (Element.text (.field (.scalar .uint8_t))) 1) 0
        (text "7,]") (0 + 0 + (0 + 1 + 0)) [] :=
      .item rfl (by decide) (show AtItem 0 (text "7,]") (text "7,]") from rfl)
        (.inl ⟨Nat.zero_lt_one, rfl, rfl, hseven (text ",]") (by rintro c ⟨⟩; decide)⟩) hcomma
    exact absurd (hregular 1 [] ⟨text "7,]", 1, rfl, hitems, rfl⟩) (by decide)
  · have hregular := (array_exact_iff (.field (.scalar .uint8_t)) [1, 1] 0x100 _).mp h
    have hsecond : Items (chr ']') (RowItem (ArrayText (Element.text (.field (.scalar .uint8_t))) [1]) 1)
        1 (text ",[7]]") (0 + 1 + 0) [] :=
      .item rfl (by decide) (show AtItem 1 (text ",[7]]") (text "[7]]") from rfl)
        ⟨rfl, 0, hrow (text "]"), rfl⟩ (.close rfl)
    have hitems : Items (chr ']') (RowItem (ArrayText (Element.text (.field (.scalar .uint8_t))) [1]) 1)
        0 (text "[7],[7]]") (0 + 0 + (0 + 1 + 0)) [] :=
      .item rfl (by decide) (show AtItem 0 (text "[7],[7]]") (text "[7],[7]]") from rfl)
        ⟨rfl, 0, hrow (text ",[7]]"), rfl⟩ hsecond
    exact absurd (hregular 1 [] ⟨text "[7],[7]]", 1, rfl, hitems, rfl⟩) (by decide)

end IbexFirmware.Json
