/-
What the search for the active page finds.

Each loop is given a meaning that no longer mentions operations: the forward loop
finds the first blank entry (`FirstEmpty`), the backward loop the last accepted one
below it (`LastValid`), and an entry is accepted when its identifier survives the
mask with `is_valid` and its digest checks. Every operation of the search is a read,
so all specifications here have one shape, `Reads`: the memory stays as it is,
whatever becomes of the reads.

The search never looks behind the first blank entry of a page. That it still finds
the newest entry is a fact about the pages, not about the search: `Active` says what
the pages have to be like, and `active_page_find_of_active` that this is enough.
-/
import IbexFirmware.BootDataStore
import Mathlib.Data.List.GetD

set_option autoImplicit false

namespace IbexFirmware.BootDataStore

open Bytes PowerFail

variable {F : Fate → Prop} {α β : Type}

/-! ## Programs that only read -/

/-- `p` leaves the pages `s` alone and what it returns satisfies `R`. -/
def Reads (F : Fate → Prop) (p : Flash α) (s : Pages) (R : α → Prop) : Prop :=
  Spec F p s (fun a s' => s' = s ∧ R a) (fun _ s' => F .failed ∧ s' = s)
    (fun s' => F .lost ∧ s' = s)

theorem Reads.pure {s : Pages} {R : α → Prop} {a : α} (h : R a) :
    Reads F (Pure.pure a) s R := Spec.pure ⟨rfl, h⟩

theorem Reads.bind {s : Pages} {R : α → Prop} {R' : β → Prop} {p : Flash α} {f : α → Flash β}
    (hp : Reads F p s R) (hf : ∀ a, R a → Reads F (f a) s R') : Reads F (p >>= f) s R' := by
  refine Spec.bind hp ?_
  rintro a s' ⟨rfl, ha⟩
  exact hf a ha

/-- A read in front of a program that does more. -/
theorem Reads.then {s : Pages} {R : α → Prop} {p : Flash α} {f : α → Flash β}
    {Q : β → Pages → Prop} {E : RomError → Pages → Prop} {L : Pages → Prop}
    (hp : Reads F p s R) (hE : ∀ e, F .failed → E e s) (hL : F .lost → L s)
    (hf : ∀ a, R a → Spec F (f a) s Q E L) : Spec F (p >>= f) s Q E L := by
  refine Spec.bind (Spec.conseq hp (fun _ _ h => h) ?_ ?_) ?_
  · rintro e _ ⟨hF, rfl⟩
    exact hE e hF
  · rintro _ ⟨hF, rfl⟩
    exact hL hF
  · rintro a _ ⟨rfl, ha⟩
    exact hf a ha

theorem info_read_reads (page : Fin 2) (offset n : ℕ) (s : Pages) :
    Reads F (flash_ctrl_info_read page offset n) s
      (· = (List.range n).map fun i => s page (offset + i)) :=
  Spec.step ⟨rfl, rfl⟩ (fun hF => ⟨hF, rfl⟩) (fun hF => ⟨hF, rfl⟩)

/-! ## Entries -/

/-- The words of an entry. -/
def entry (s : Pages) (page : Fin 2) (i : ℕ) : List u32 :=
  (List.range kBootDataNumWords).map fun j => s page (i * kBootDataNumWords + j)

theorem length_entry (s : Pages) (page : Fin 2) (i : ℕ) : (entry s page i).length = 32 := by
  simp [entry, kBootDataNumWords]

theorem getD_entry (s : Pages) (page : Fin 2) (i j : ℕ) (hj : j < 32) :
    (entry s page i).getD j 0 = s page (i * kBootDataNumWords + j) := by
  simp [entry, kBootDataNumWords, List.getD_eq_getElem?_getD, hj]

def Blank (ws : List u32) : Prop := ∀ w ∈ ws, w = kFlashCtrlErasedWord

/-- The identifier masked with the two words of `is_valid`. -/
def sniffed (ws : List u32) : u32 := ws.getD 8 0 &&& ws.getD 9 0 &&& ws.getD 10 0

def Accepted (hmac_sha256 : List u8 → Vector u32 8) (ws : List u32) : Prop :=
  sniffed ws = kBootDataIdentifier ∧ boot_data_check hmac_sha256 (.ofWords ws) = .kErrorOk

theorem boot_data_is_empty_iff (ws : List u32) : boot_data_is_empty ws = true ↔ Blank ws := by
  have hfold : ∀ (ws : List u32) (acc : u32), ws.foldl (· &&& ·) acc = BitVec.allOnes 32 ↔
      acc = BitVec.allOnes 32 ∧ Blank ws := by
    intro ws
    induction ws with
    | nil => intro acc; simp [Blank]
    | cons w ws ih =>
        intro acc
        rw [List.foldl_cons, ih, BitVec.and_eq_allOnes_iff]
        simp only [Blank, List.mem_cons, forall_eq_or_imp]
        exact and_assoc
  have hones : kFlashCtrlErasedWord = BitVec.allOnes 32 := rfl
  rw [boot_data_is_empty, decide_eq_true_iff, hones, hfold]
  simp

theorem sniffed_of_blank {ws : List u32} (hlen : ws.length = 32) (h : Blank ws) :
    sniffed ws = kFlashCtrlErasedWord := by
  have hget : ∀ j < 32, ws.getD j 0 = kFlashCtrlErasedWord := by
    intro j hj
    rw [List.getD_eq_getElem _ _ (by omega)]
    exact h _ (List.getElem_mem _)
  rw [sniffed, hget 8 (by omega), hget 9 (by omega), hget 10 (by omega)]
  rfl

section

variable {hmac_sha256 : List u8 → Vector u32 8}

theorem Accepted.not_blank {ws : List u32} (hlen : ws.length = 32)
    (h : Accepted hmac_sha256 ws) : ¬ Blank ws := by
  intro hblank
  have heq := (sniffed_of_blank hlen hblank).symm.trans h.1
  exact absurd heq (by decide)

theorem sniff_reads (page : Fin 2) (i : ℕ) (s : Pages) :
    Reads F (boot_data_sniff page i) s (· = sniffed (entry s page i)) := by
  refine (info_read_reads page _ 3 s).bind ?_
  rintro buf rfl
  refine Reads.pure ?_
  rw [sniffed, getD_entry _ _ _ _ (by omega), getD_entry _ _ _ _ (by omega),
    getD_entry _ _ _ _ (by omega)]
  rfl

theorem entry_read_reads (page : Fin 2) (i : ℕ) (s : Pages) :
    Reads F (boot_data_entry_read page i) s (· = entry s page i) :=
  info_read_reads page _ _ s

/-! ## The two loops -/

/-- `f` is the index of the first blank entry of the page, or the number of entries. -/
structure FirstEmpty (s : Pages) (page : Fin 2) (f : ℕ) (has_empty : Bool) : Prop where
  used : ∀ j < f, ¬ Blank (entry s page j)
  stop : if has_empty then f < kBootDataEntriesPerPage ∧ Blank (entry s page f)
    else f = kBootDataEntriesPerPage

/-- The last accepted entry below `f`, and the record in it. -/
def LastValid (hmac_sha256 : List u8 → Vector u32 8) (s : Pages) (page : Fin 2) (f : ℕ) :
    Option (ℕ × BootData) → Prop
  | none => ∀ j < f, ¬ Accepted hmac_sha256 (entry s page j)
  | some (i, b) => i < f ∧ Accepted hmac_sha256 (entry s page i) ∧
      b = .ofWords (entry s page i) ∧ ∀ j < f, i < j → ¬ Accepted hmac_sha256 (entry s page j)

/-- The cache of sniffed identifiers is right for the first `i` entries. -/
def SniffsTo (s : Pages) (page : Fin 2) (i : ℕ) (sniffs : List u32) : Prop :=
  i ≤ sniffs.length ∧ ∀ j < i, sniffs.getD j 0 = sniffed (entry s page j)

theorem SniffsTo.snoc {s : Pages} {page : Fin 2} {i : ℕ} {sniffs : List u32}
    (h : SniffsTo s page i sniffs) (hlen : sniffs.length = i) :
    SniffsTo s page (i + 1) (sniffs ++ [sniffed (entry s page i)]) := by
  refine ⟨by simp [hlen], fun j hj => ?_⟩
  rcases Nat.lt_succ_iff_lt_or_eq.mp hj with hlt | rfl
  · rw [← h.2 j hlt, List.getD_append _ _ _ _ (by omega)]
  · simp [List.getD_eq_getElem?_getD, ← hlen]

/-- The forward loop. It runs over the entries still to come, and has the sniffed
identifiers of those it has passed, none of which is blank. -/
theorem find_first_empty_reads (page : Fin 2) (s : Pages) :
    ∀ (n i : ℕ) (sniffs : List u32), i + n = kBootDataEntriesPerPage → sniffs.length = i →
      SniffsTo s page i sniffs → (∀ j < i, ¬ Blank (entry s page j)) →
      Reads F (find_first_empty page i sniffs n) s
        (fun r => SniffsTo s page r.2.1 r.1 ∧ FirstEmpty s page r.2.1 r.2.2) := by
  intro n
  induction n with
  | zero =>
      intro i sniffs hi _ hsniffs hused
      exact Reads.pure ⟨hsniffs, hused, by simpa using hi⟩
  | succ n ih =>
      intro i sniffs hi hlen hsniffs hused
      refine (sniff_reads page i s).bind ?_
      rintro sniff rfl
      have hempty : Reads F (if sniffed (entry s page i) = kFlashCtrlErasedWord then do
          let buf ← boot_data_entry_read page i
          return boot_data_is_empty buf
        else return false : Flash Bool) s (fun b => b = true ↔ Blank (entry s page i)) := by
        by_cases hsniff : sniffed (entry s page i) = kFlashCtrlErasedWord
        · rw [if_pos hsniff]
          refine (entry_read_reads page i s).bind ?_
          rintro buf rfl
          exact Reads.pure (boot_data_is_empty_iff _)
        · rw [if_neg hsniff]
          refine Reads.pure (iff_of_false (by simp) fun hblank => hsniff ?_)
          exact sniffed_of_blank (length_entry s page i) hblank
      refine hempty.bind ?_
      intro b hb
      cases b with
      | true =>
          have hblank := hb.mp rfl
          have hlt : i < kBootDataEntriesPerPage := by omega
          have hle : i ≤ (sniffs ++ [sniffed (entry s page i)]).length := by simp [hlen]
          exact Reads.pure ⟨⟨hle, fun j hj => (hsniffs.snoc hlen).2 j (Nat.lt_succ_of_lt hj)⟩,
            hused, hlt, hblank⟩
      | false =>
          have hnot : ¬ Blank (entry s page i) := fun h => by simpa using hb.mpr h
          refine ih (i + 1) _ (by omega) (by simp [hlen]) (hsniffs.snoc hlen) ?_
          intro j hj
          rcases Nat.lt_succ_iff_lt_or_eq.mp hj with hlt | rfl
          · exact hused j hlt
          · exact hnot

variable (hmac_sha256) in
/-- The backward loop, started below `i` with everything from `i` to `f` rejected. -/
theorem find_last_valid_reads (page : Fin 2) (s : Pages) (f : ℕ) (sniffs : List u32)
    (hsniffs : SniffsTo s page f sniffs) :
    ∀ i ≤ f, (∀ j < f, i ≤ j → ¬ Accepted hmac_sha256 (entry s page j)) →
      Reads F (find_last_valid hmac_sha256 page sniffs i) s (LastValid hmac_sha256 s page f) := by
  intro i
  induction i with
  | zero =>
      intro _ hrest
      exact Reads.pure fun j hj => hrest j hj (Nat.zero_le j)
  | succ i ih =>
      intro hi hrest
      have hdown : ¬ Accepted hmac_sha256 (entry s page i) →
          Reads F (find_last_valid hmac_sha256 page sniffs i) s
            (LastValid hmac_sha256 s page f) := by
        intro hnot
        refine ih (by omega) fun j hj hij => ?_
        rcases Nat.eq_or_lt_of_le hij with rfl | hlt
        · exact hnot
        · exact hrest j hj hlt
      rw [find_last_valid, hsniffs.2 i (by omega)]
      by_cases hsniff : sniffed (entry s page i) = kBootDataIdentifier
      · rw [if_pos hsniff]
        refine (entry_read_reads page i s).bind ?_
        rintro buf rfl
        by_cases hcheck : boot_data_check hmac_sha256 (.ofWords (entry s page i)) = .kErrorOk
        · rw [if_pos hcheck]
          exact Reads.pure ⟨by omega, ⟨hsniff, hcheck⟩, rfl, fun j hj hij => hrest j hj hij⟩
        · rw [if_neg hcheck]
          exact hdown fun h => hcheck h.2
      · rw [if_neg hsniff]
        exact hdown fun h => hsniff h.1

theorem FirstEmpty.le {s : Pages} {page : Fin 2} {f : ℕ} {has_empty : Bool}
    (h : FirstEmpty s page f has_empty) : f ≤ kBootDataEntriesPerPage := by
  have hstop := h.stop
  cases has_empty with
  | true => exact Nat.le_of_lt hstop.1
  | false => exact Nat.le_of_eq hstop

/-- Both loops over one page, whatever is then made of their results. -/
theorem page_info_update_reads (page : Fin 2) (s : Pages) (info : ActivePageInfo × BootData)
    {R : ActivePageInfo × BootData → Prop}
    (h : ∀ f has_empty r, FirstEmpty s page f has_empty → LastValid hmac_sha256 s page f r →
      Reads F (page_info_select page f has_empty info r) s R) :
    Reads F (boot_data_page_info_update hmac_sha256 page info) s R := by
  have hforward := find_first_empty_reads (F := F) page s kBootDataEntriesPerPage 0 []
    (Nat.zero_add _) rfl ⟨Nat.zero_le _, fun j hj => absurd hj (by omega)⟩
    (fun j hj => absurd hj (by omega))
  refine hforward.bind ?_
  rintro ⟨sniffs, f, has_empty⟩ ⟨hsniffs, hfirst⟩
  have hbackward := find_last_valid_reads (F := F) hmac_sha256 page s f sniffs
    hsniffs f (Nat.le_refl f) (fun j hj hle => absurd hj (by omega))
  exact hbackward.bind fun r hr => h f has_empty r hfirst hr

/-! ## The active page -/

/-- No entry of either page is accepted. -/
def Empty (hmac_sha256 : List u8 → Vector u32 8) (s : Pages) : Prop :=
  ∀ page, ∀ j < kBootDataEntriesPerPage, ¬ Accepted hmac_sha256 (entry s page j)

/-- Entry `l` of page `a`, holding `b`, is the newest accepted entry, and the search
can see it: no blank entry of its page comes before it. -/
structure Active (hmac_sha256 : List u8 → Vector u32 8) (s : Pages) (a : Fin 2) (l : ℕ)
    (b : BootData) : Prop where
  index_lt : l < kBootDataEntriesPerPage
  used : ∀ j < l, ¬ Blank (entry s a j)
  accepted : Accepted hmac_sha256 (entry s a l)
  record : .ofWords (entry s a l) = b
  last : ∀ j < kBootDataEntriesPerPage, l < j → ¬ Accepted hmac_sha256 (entry s a j)
  newest : ∀ page, ∀ j < kBootDataEntriesPerPage, (page, j) ≠ (a, l) →
    Accepted hmac_sha256 (entry s page j) →
    (BootData.ofWords (entry s page j)).counter < b.counter

/-- What the search returns for the active entry. -/
structure Found (s : Pages) (a : Fin 2) (l : ℕ) (b : BootData)
    (r : ActivePageInfo × BootData) : Prop where
  page : r.1.page = some a
  valid : r.1.has_valid_entry = true
  index : r.1.last_valid_index = l
  first_empty : FirstEmpty s a r.1.first_empty_index r.1.has_empty_entry
  record : r.2 = b

section active

variable {s : Pages} {a : Fin 2} {l : ℕ} {b : BootData}

/-- The first blank entry of the active page comes after the active entry. -/
theorem Active.lt_first_empty (h : Active hmac_sha256 s a l b) {f : ℕ} {has_empty : Bool}
    (hfirst : FirstEmpty s a f has_empty) : l < f := by
  have hstop := hfirst.stop
  cases has_empty with
  | false =>
      have hlt := h.index_lt
      rw [if_neg (by simp)] at hstop
      omega
  | true =>
      obtain ⟨-, hblank⟩ := hstop
      rcases Nat.lt_trichotomy l f with hlt | rfl | hgt
      · exact hlt
      · exact absurd hblank (h.accepted.not_blank (length_entry _ _ _))
      · exact absurd hblank (h.used f hgt)

theorem Active.last_valid (h : Active hmac_sha256 s a l b) {f : ℕ} {has_empty : Bool}
    {r : Option (ℕ × BootData)} (hfirst : FirstEmpty s a f has_empty)
    (hr : LastValid hmac_sha256 s a f r) : r = some (l, b) := by
  have hlf := h.lt_first_empty hfirst
  have hle := hfirst.le
  cases r with
  | none => exact absurd h.accepted (hr l hlf)
  | some found =>
      obtain ⟨i, b'⟩ := found
      obtain ⟨hif, hacc, hrec, hmax⟩ := hr
      rcases Nat.lt_trichotomy i l with hlt | rfl | hgt
      · exact absurd h.accepted (hmax l hlf hlt)
      · rw [hrec, h.record]
      · exact absurd hacc (h.last i (by omega) hgt)

theorem Active.older (h : Active hmac_sha256 s a l b) {page : Fin 2} (hpage : page ≠ a) {f : ℕ}
    (hf : f ≤ kBootDataEntriesPerPage) {i : ℕ} {b' : BootData}
    (hr : LastValid hmac_sha256 s page f (some (i, b'))) : b'.counter < b.counter := by
  obtain ⟨hif, hacc, rfl, -⟩ := hr
  exact h.newest page i (by omega) (fun heq => hpage (Prod.mk.inj heq).1) hacc

/-- The active page replaces whatever older entry was found before it. -/
theorem Active.update_self (h : Active hmac_sha256 s a l b) (info : ActivePageInfo × BootData)
    (hinfo : info.1.has_valid_entry = false ∨ info.2.counter < b.counter) :
    Reads F (boot_data_page_info_update hmac_sha256 a info) s (Found s a l b) := by
  refine page_info_update_reads a s info fun f has_empty r hfirst hr => ?_
  rw [h.last_valid hfirst hr, page_info_select, if_pos hinfo]
  exact Reads.pure ⟨rfl, rfl, rfl, hfirst, rfl⟩

/-- The other page, searched first, leaves at most an older entry. -/
theorem Active.update_other_first (h : Active hmac_sha256 s a l b) {page : Fin 2}
    (hpage : page ≠ a) (info : ActivePageInfo × BootData)
    (hinfo : info.1.has_valid_entry = false) :
    Reads F (boot_data_page_info_update hmac_sha256 page info) s
      (fun r => r.1.has_valid_entry = false ∨ r.2.counter < b.counter) := by
  refine page_info_update_reads page s info fun f has_empty r hfirst hr => ?_
  cases r with
  | none => exact Reads.pure (.inl hinfo)
  | some found =>
      obtain ⟨i, b'⟩ := found
      rw [page_info_select, if_pos (.inl hinfo)]
      exact Reads.pure (.inr (h.older hpage hfirst.le hr))

/-- The other page, searched second, changes nothing. -/
theorem Active.update_other_second (h : Active hmac_sha256 s a l b) {page : Fin 2}
    (hpage : page ≠ a) (info : ActivePageInfo × BootData) (hinfo : Found s a l b info) :
    Reads F (boot_data_page_info_update hmac_sha256 page info) s (Found s a l b) := by
  refine page_info_update_reads page s info fun f has_empty r hfirst hr => ?_
  cases r with
  | none => exact Reads.pure hinfo
  | some found =>
      obtain ⟨i, b'⟩ := found
      have holder : b'.counter < info.2.counter := by
        rw [hinfo.record]
        exact h.older hpage hfirst.le hr
      have hnot : ¬ (info.1.has_valid_entry = false ∨ b'.counter > info.2.counter) := by
        rw [hinfo.valid]
        simp only [Bool.true_eq_false, false_or, gt_iff_lt, BitVec.lt_def] at holder ⊢
        omega
      rw [page_info_select, if_neg hnot, if_pos holder]
      exact Reads.pure hinfo

theorem active_page_find_of_active (h : Active hmac_sha256 s a l b) :
    Reads F (boot_data_active_page_find hmac_sha256) s (Found s a l b) := by
  by_cases ha : a = 0
  · subst ha
    exact (h.update_self _ (.inl rfl)).bind fun info hinfo =>
      h.update_other_second (by decide) info hinfo
  · have ha1 : a = 1 := by omega
    subst ha1
    exact (h.update_other_first (by decide) _ rfl).bind fun info hinfo => h.update_self info hinfo

theorem active_page_find_of_empty (h : Empty hmac_sha256 s) :
    Reads F (boot_data_active_page_find hmac_sha256) s (fun r => r.1.has_valid_entry = false) := by
  have hupdate : ∀ page info, info.1.has_valid_entry = false →
      Reads F (boot_data_page_info_update hmac_sha256 page info) s
        (fun r => r.1.has_valid_entry = false) := by
    intro page info hinfo
    refine page_info_update_reads page s info fun f has_empty r hfirst hr => ?_
    cases r with
    | none => exact Reads.pure hinfo
    | some found =>
        obtain ⟨hif, hacc, -⟩ := hr
        have hle := hfirst.le
        exact absurd hacc (h page _ (by omega))
  exact (hupdate 0 _ rfl).bind fun info hinfo => hupdate 1 info hinfo

end active

end

end IbexFirmware.BootDataStore
