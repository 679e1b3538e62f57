/-
Boot data writes are crash-atomic.

One write makes up to seventeen changes to the flash: the erase of a page, fifteen
flash words of the new entry, the invalidation of the old one. The argument that
cutting it anywhere is harmless has three parts.

First, where the new entry goes (`Ready`): the place is blank, everything before it
on the page is used, nothing behind it is accepted, and every accepted entry is
older. Second, what an interrupted entry looks like (`torn`), and that writing k
words of it leaves exactly that and changes no other entry (`Leaves`). Third, the
case split on whether the torn entry is accepted. If it is not, the old entry is
still the active one (`Active.of_leaves`); if it is, it is the whole entry, and
that is now the active one (`Ready.complete`). The digest decides which, and that a
torn entry passes it only when nothing is missing is the assumption `TornRejected`.

The invariant `Holds` then says that the pages hold no entry, or one active entry
with the payload last written and a counter that has not wrapped.
-/
import IbexFirmware.BootDataScan
import IbexFirmware.Lib.Sha256

set_option autoImplicit false

namespace IbexFirmware.BootDataStore

open Bytes PowerFail

variable {F : Fate → Prop} {hmac_sha256 : List u8 → Vector u32 8}

/-! ## Programming -/

theorem program_apply (s : Pages) (page : Fin 2) (offset : ℕ) (data : List u32) (p : Fin 2)
    (w : ℕ) : program s page offset data p w =
      if p = page ∧ offset ≤ w ∧ w < offset + data.length
      then s p w &&& data.getD (w - offset) 0 else s p w := by
  by_cases hp : p = page
  · subst hp
    simp [program]
  · simp [program, hp]

theorem program_nil (s : Pages) (page : Fin 2) (offset : ℕ) : program s page offset [] = s := by
  funext p w
  rw [program_apply, if_neg]
  simp only [List.length_nil]
  omega

/-- One flash word, then the rest. -/
theorem program_program (s : Pages) (page : Fin 2) (offset : ℕ) (w0 w1 : u32) (data : List u32) :
    program (program s page offset [w0, w1]) page (offset + 2) data
      = program s page offset (w0 :: w1 :: data) := by
  funext p w
  simp only [program_apply, List.length_cons, List.length_nil]
  by_cases hp : p = page
  · subst hp
    rcases Nat.lt_or_ge w offset with hlow | hge
    · simp [show ¬ offset ≤ w by omega, show ¬ offset + 2 ≤ w by omega]
    · obtain ⟨k, rfl⟩ := Nat.exists_eq_add_of_le hge
      match k with
      | 0 => simp
      | 1 => simp
      | k + 2 =>
          simp [show ¬ offset + (k + 2) < offset + (0 + 1 + 1) by omega,
            show offset + 2 ≤ offset + (k + 2) by omega,
            show offset + (k + 2) - (offset + 2) = k by omega,
            show (offset + (k + 2) < offset + 2 + data.length)
              ↔ (offset + (k + 2) < offset + (data.length + 1 + 1)) by omega]
  · simp [hp]

/-- A programming run that stops has programmed a whole number of flash words. -/
theorem info_write_spec (page : Fin 2) : ∀ (m offset : ℕ) (data : List u32) (s : Pages),
    data.length = 2 * m →
    Spec F (flash_ctrl_info_write page offset data) s
      (fun _ s' => s' = program s page offset data)
      (fun _ s' => F .failed ∧ ∃ k < m, s' = program s page offset (data.take (2 * k)))
      (fun s' => F .lost ∧ ∃ k < m, s' = program s page offset (data.take (2 * k))) := by
  intro m
  induction m with
  | zero =>
      intro offset data s hlen
      obtain rfl := List.eq_nil_of_length_eq_zero hlen
      exact Spec.pure (program_nil s page offset).symm
  | succ m ih =>
      intro offset data s hlen
      match data, hlen with
      | w0 :: w1 :: data, hlen =>
        have hlen' : data.length = 2 * m := by simpa [Nat.mul_succ] using hlen
        have hnone : s = program s page offset ((w0 :: w1 :: data).take (2 * 0)) :=
          (program_nil s page offset).symm
        have hmore : ∀ k, program (program s page offset [w0, w1]) page (offset + 2)
            (data.take (2 * k)) = program s page offset ((w0 :: w1 :: data).take (2 * (k + 1))) := by
          intro k
          rw [program_program, Nat.mul_succ]
          rfl
        refine Spec.bind (R := fun _ s' => s' = program s page offset [w0, w1])
          (Spec.step rfl (fun hF => ⟨hF, 0, by omega, hnone⟩)
            (fun hF => ⟨hF, 0, by omega, hnone⟩)) ?_
        rintro _ s' rfl
        refine Spec.conseq (ih (offset + 2) data _ hlen') ?_ ?_ ?_
        · rintro _ s' rfl
          exact program_program s page offset w0 w1 data
        · rintro _ s' ⟨hF, k, hk, rfl⟩
          exact ⟨hF, k + 1, by omega, hmore k⟩
        · rintro s' ⟨hF, k, hk, rfl⟩
          exact ⟨hF, k + 1, by omega, hmore k⟩

/-! ## Torn entries -/

/-- Word `j` of an entry is among those the first `k` flash words carry: the digest
first, then everything from the identifier on. -/
def Written (k j : ℕ) : Prop := j < 8 ∧ j < 2 * k ∨ 10 ≤ j ∧ j < 2 * k + 2

instance (k j : ℕ) : Decidable (Written k j) := inferInstanceAs (Decidable (_ ∨ _))

/-- The words of an entry of which `k` flash words have been written. -/
def torn (e : BootData) (k : ℕ) : List u32 :=
  (List.range kBootDataNumWords).map fun j =>
    if Written k j then e.words.getD j 0 else kFlashCtrlErasedWord

/-- A torn entry is accepted only when nothing is missing from it. -/
def TornRejected (hmac_sha256 : List u8 → Vector u32 8) (e : BootData) : Prop :=
  ∀ k < 15, Accepted hmac_sha256 (torn e k) → torn e k = e.words

instance (h : List u8 → Vector u32 8) (ws : List u32) : Decidable (Accepted h ws) :=
  inferInstanceAs (Decidable (_ ∧ _))

instance (h : List u8 → Vector u32 8) (e : BootData) : Decidable (TornRejected h e) :=
  inferInstanceAs (Decidable (∀ k < 15, _ → _))

theorem getD_torn (e : BootData) (k j : ℕ) (hj : j < 32) :
    (torn e k).getD j 0 = if Written k j then e.words.getD j 0 else kFlashCtrlErasedWord := by
  simp [torn, kBootDataNumWords, List.getD_eq_getElem?_getD, hj]

@[simp] theorem length_torn (e : BootData) (k : ℕ) : (torn e k).length = 32 := by
  simp [torn, kBootDataNumWords]

/-- Two lists of 32 words with the same words are the same. -/
theorem words_ext {xs ys : List u32} (hx : xs.length = 32) (hy : ys.length = 32)
    (h : ∀ j < 32, xs.getD j 0 = ys.getD j 0) : xs = ys := by
  refine List.ext_getElem (hx.trans hy.symm) fun j hj hj' => ?_
  have hget := h j (by omega)
  rwa [List.getD_eq_getElem _ _ hj, List.getD_eq_getElem _ _ hj'] at hget

theorem getD_words_is_valid (e : BootData) :
    e.words.getD 8 0 = lo32 e.is_valid ∧ e.words.getD 9 0 = hi32 e.is_valid ∧
      e.words.getD 10 0 = e.identifier := by
  simp [BootData.words, List.getD_eq_getElem?_getD]

/-- All fifteen flash words make the whole entry: `is_valid` is skipped, and erased
words are its value. -/
theorem torn_all (e : BootData) (he : e.is_valid = kBootDataValidEntry) :
    torn e 15 = e.words := by
  obtain ⟨h8, h9, -⟩ := getD_words_is_valid e
  refine words_ext (length_torn e 15) e.length_words fun j hj => ?_
  rw [getD_torn e 15 j hj]
  by_cases hw : Written 15 j
  · rw [if_pos hw]
  · rw [if_neg hw]
    have hj89 : j = 8 ∨ j = 9 := by
      unfold Written at hw
      omega
    rcases hj89 with rfl | rfl
    · rw [h8, he]
      rfl
    · rw [h9, he]
      rfl

/-! ## What a change of one entry leaves -/

/-- Entry `i` of `page` now has the words `ws`, and every other entry is as it was. -/
structure Leaves (s s' : Pages) (page : Fin 2) (i : ℕ) (ws : List u32) : Prop where
  here : entry s' page i = ws
  others : ∀ page' i', (page', i') ≠ (page, i) → entry s' page' i' = entry s page' i'

theorem Leaves.refl (s : Pages) (page : Fin 2) (i : ℕ) : Leaves s s page i (entry s page i) :=
  ⟨rfl, fun _ _ _ => rfl⟩

/-- Programming inside one entry touches that entry only, and there the words from
`offset` on. -/
theorem Leaves.program {s s' : Pages} {page : Fin 2} {i : ℕ} {ws : List u32}
    (h : Leaves s s' page i ws) (offset : ℕ) (data : List u32)
    (hfit : offset + data.length ≤ 32) {ws' : List u32} (hws' : ws'.length = 32)
    (hdata : ∀ j < 32, ws'.getD j 0 = if offset ≤ j ∧ j < offset + data.length
      then ws.getD j 0 &&& data.getD (j - offset) 0 else ws.getD j 0) :
    Leaves s (program s' page (i * kBootDataNumWords + offset) data) page i ws' := by
  constructor
  · refine words_ext (length_entry _ _ _) hws' fun j hj => ?_
    have hold : s' page (i * kBootDataNumWords + j) = ws.getD j 0 := by
      rw [← h.here, getD_entry _ _ _ _ hj]
    rw [getD_entry _ _ _ _ hj, program_apply, hdata j hj, hold]
    have hiff : (page = page ∧ i * kBootDataNumWords + offset ≤ i * kBootDataNumWords + j ∧
        i * kBootDataNumWords + j < i * kBootDataNumWords + offset + data.length)
        ↔ (offset ≤ j ∧ j < offset + data.length) := by
      constructor
      · rintro ⟨-, hle, hlt⟩
        omega
      · rintro ⟨hle, hlt⟩
        exact ⟨rfl, by omega, by omega⟩
    rw [Nat.add_sub_add_left]
    exact if_congr hiff rfl rfl
  · intro page' i' hne
    rw [← h.others page' i' hne]
    refine words_ext (length_entry _ _ _) (length_entry _ _ _) fun j hj => ?_
    rw [getD_entry _ _ _ _ hj, getD_entry _ _ _ _ hj, program_apply, if_neg]
    rintro ⟨rfl, hle, hlt⟩
    refine hne (Prod.ext rfl ?_)
    simp only [kBootDataNumWords] at hle hlt
    show i' = i
    omega

theorem erasePage_entry (s : Pages) (page : Fin 2) (i : ℕ) :
    Blank (entry (erasePage s page) page i) := by
  intro w hw
  obtain ⟨j, -, rfl⟩ := List.mem_map.mp hw
  simp [erasePage]

theorem erasePage_entry_other (s : Pages) (page page' : Fin 2) (h : page' ≠ page) (i : ℕ) :
    entry (erasePage s page) page' i = entry s page' i := by
  simp [entry, erasePage, h]

/-- The digest, as far as it has been written. -/
theorem leaves_digest (s : Pages) (page : Fin 2) (i : ℕ) (e : BootData)
    (hblank : Blank (entry s page i)) (k : ℕ) (hk : k ≤ 4) :
    Leaves s (program s page (i * kBootDataNumWords + 0) ((e.words.take 8).take (2 * k))) page i
      (torn e k) := by
  refine (Leaves.refl s page i).program 0 _ ?_ (length_torn e k) ?_
  · simp only [List.length_take]
    omega
  · intro j hj
    have herased : (entry s page i).getD j 0 = kFlashCtrlErasedWord := by
      rw [List.getD_eq_getElem _ _ (by rw [length_entry]; omega)]
      exact hblank _ (List.getElem_mem _)
    have hlen : ((e.words.take 8).take (2 * k)).length = 2 * k := by
      simp [kBootDataNumWords]
      omega
    have hones : ∀ w : u32, kFlashCtrlErasedWord &&& w = w := fun w => BitVec.allOnes_and
    rw [getD_torn e k j hj, herased, hlen, hones]
    by_cases hlt : j < 2 * k
    · rw [if_pos (by unfold Written; omega), if_pos (by omega)]
      simp [List.getD_eq_getElem?_getD, hlt, show j < 8 by omega]
    · rw [if_neg (by unfold Written; omega), if_neg (by omega)]

/-- The rest of the entry behind a complete digest. -/
theorem leaves_rest (s s' : Pages) (page : Fin 2) (i : ℕ) (e : BootData)
    (h : Leaves s s' page i (torn e 4)) (k : ℕ) (hk : k ≤ 11) :
    Leaves s (program s' page (i * kBootDataNumWords + kIdentifierOffset)
      ((e.words.drop kIdentifierOffset).take (2 * k))) page i (torn e (4 + k)) := by
  refine h.program kIdentifierOffset _ ?_ (length_torn e (4 + k)) ?_
  · simp only [List.length_take, List.length_drop, kIdentifierOffset, BootData.length_words,
      kBootDataNumWords]
    omega
  · intro j hj
    have hlen : ((e.words.drop kIdentifierOffset).take (2 * k)).length = 2 * k := by
      simp [kBootDataNumWords, kIdentifierOffset]
      omega
    have hones : ∀ w : u32, kFlashCtrlErasedWord &&& w = w := fun w => BitVec.allOnes_and
    rw [getD_torn e (4 + k) j hj, getD_torn e 4 j hj, hlen]
    by_cases hin : kIdentifierOffset ≤ j ∧ j < kIdentifierOffset + 2 * k
    · have hget : ((e.words.drop kIdentifierOffset).take (2 * k)).getD (j - kIdentifierOffset) 0
          = e.words.getD j 0 := by
        simp [List.getD_eq_getElem?_getD,
          show j - kIdentifierOffset < 2 * k by omega,
          show kIdentifierOffset + (j - kIdentifierOffset) = j by omega]
      have hnew : Written (4 + k) j := by
        unfold Written
        simp only [kIdentifierOffset] at hin
        omega
      have hold : ¬ Written 4 j := by
        unfold Written
        simp only [kIdentifierOffset] at hin
        omega
      rw [if_pos hnew, if_pos hin, if_neg hold, hones, hget]
    · rw [if_neg hin]
      simp only [kIdentifierOffset] at hin
      refine if_congr ?_ rfl rfl
      unfold Written
      omega

/-- Writing an entry: cut anywhere, it leaves the page before the erase, or the
entry torn and nothing else changed. -/
theorem entry_write_spec (s : Pages) (page : Fin 2) (i : ℕ) (e : BootData) (erase : Bool)
    (he : e.is_valid = kBootDataValidEntry)
    (hblank : Blank (entry (if erase then erasePage s page else s) page i)) :
    Spec F (boot_data_entry_write page i e erase) s
      (fun _ s' => Leaves (if erase then erasePage s page else s) s' page i e.words)
      (fun _ s' => F .failed ∧ (s' = s ∨
        ∃ k ≤ 15, Leaves (if erase then erasePage s page else s) s' page i (torn e k)))
      (fun s' => F .lost ∧ (s' = s ∨
        ∃ k ≤ 15, Leaves (if erase then erasePage s page else s) s' page i (torn e k))) := by
  have herase : Spec F (if erase then flash_ctrl_info_erase page else pure () : Flash Unit) s
      (fun _ s' => s' = if erase then erasePage s page else s)
      (fun _ s' => F .failed ∧ s' = s) (fun s' => F .lost ∧ s' = s) := by
    cases erase with
    | true =>
        show Spec F (flash_ctrl_info_erase page) s _ _ _
        exact Spec.step rfl (fun hF => ⟨hF, rfl⟩) (fun hF => ⟨hF, rfl⟩)
    | false => exact Spec.pure rfl
  generalize (if erase then erasePage s page else s) = s0 at hblank herase ⊢
  refine Spec.bind (herase.conseq (fun _ _ h => h) (fun _ _ h => ⟨h.1, .inl h.2⟩)
    (fun _ h => ⟨h.1, .inl h.2⟩)) ?_
  rintro _ s0 rfl
  have hdigest := leaves_digest s0 page i e hblank
  have htake : (e.words.take 8).take (2 * 4) = e.words.take 8 := by simp
  refine Spec.bind (R := fun _ s' => Leaves s0 s' page i (torn e 4))
    (Spec.conseq (info_write_spec page 4 _ (e.words.take 8) s0 (by simp [kBootDataNumWords]))
      ?_ ?_ ?_) ?_
  · rintro _ s' rfl
    have h4 := hdigest 4 (by omega)
    rwa [htake] at h4
  · rintro _ s' ⟨hF, k, hk, rfl⟩
    exact ⟨hF, .inr ⟨k, by omega, hdigest k (by omega)⟩⟩
  · rintro s' ⟨hF, k, hk, rfl⟩
    exact ⟨hF, .inr ⟨k, by omega, hdigest k (by omega)⟩⟩
  rintro _ s1 h1
  have hrest := leaves_rest s0 s1 page i e h1
  have hall := torn_all e he
  refine Spec.bind (R := fun _ s' => Leaves s0 s' page i e.words)
    (Spec.conseq (info_write_spec page 11 _ (e.words.drop kIdentifierOffset) s1
      (by simp [kBootDataNumWords, kIdentifierOffset])) ?_ ?_ ?_) ?_
  · rintro _ s' rfl
    have h15 := hrest 11 (by omega)
    rwa [hall, List.take_of_length_le (by simp [kBootDataNumWords, kIdentifierOffset])] at h15
  · rintro _ s' ⟨hF, k, hk, rfl⟩
    exact ⟨hF, .inr ⟨4 + k, by omega, hrest k (by omega)⟩⟩
  · rintro s' ⟨hF, k, hk, rfl⟩
    exact ⟨hF, .inr ⟨4 + k, by omega, hrest k (by omega)⟩⟩
  rintro _ s2 h2
  refine (entry_read_reads page i s2).then (fun _ hF => ⟨hF, .inr ⟨15, by omega, ?_⟩⟩)
    (fun hF => ⟨hF, .inr ⟨15, by omega, ?_⟩⟩) ?_
  · rwa [hall]
  · rwa [hall]
  · rintro written rfl
    rw [if_neg (not_not.mpr h2.here)]
    exact Spec.pure h2

/-! ## A written entry is accepted -/

theorem digest_compute_digest (e : BootData) (d : Vector u32 8) :
    boot_data_digest_compute hmac_sha256 { e with digest := d }
      = boot_data_digest_compute hmac_sha256 e := by
  have hdrop : ∀ e : BootData, e.words.drop 8
      = ([lo32 e.is_valid, hi32 e.is_valid, e.identifier, e.version, e.counter,
        e.min_security_version_rom_ext, e.min_security_version_bl0, e.primary_bl0_slot]
        ++ e.next_owner.toList ++ e.nonce.value.toList
        ++ [e.ownership_state, e.ownership_transfers] ++ e.padding.toList) := by
    intro e
    simp only [BootData.words, List.append_assoc]
    exact List.drop_left' e.digest.length_toList
  rw [boot_data_digest_compute, boot_data_digest_compute, hdrop, hdrop]

/-- The nine shares make up for the difference of the two codes when the digest and
the identifier are right. -/
theorem boot_data_check_ok (e : BootData) (hid : e.identifier = kBootDataIdentifier)
    (hdigest : e.digest = boot_data_digest_compute hmac_sha256 e) :
    boot_data_check hmac_sha256 e = .kErrorOk := by
  have hzero : ∀ x y : u32, x ^^^ x ^^^ y = y := by
    intro x y
    rw [BitVec.xor_self, BitVec.zero_xor]
  simp only [boot_data_check, ← hdigest, hid, hzero]
  rw [if_pos (by decide)]

variable (hmac_sha256) in
theorem accepted_new_entry (d : BootData) (c : u32) :
    Accepted hmac_sha256 (new_entry hmac_sha256 d c).words := by
  obtain ⟨h8, h9, h10⟩ := getD_words_is_valid (new_entry hmac_sha256 d c)
  refine ⟨?_, ?_⟩
  · rw [sniffed, h8, h9, h10]
    show lo32 kBootDataValidEntry &&& hi32 kBootDataValidEntry &&& kBootDataIdentifier = _
    decide
  · rw [BootData.ofWords_words]
    exact boot_data_check_ok _ rfl (digest_compute_digest _ _).symm

/-! ## Where the next entry goes -/

/-- Entry `i` of `page` can take an entry with counter `c`. -/
structure Ready (hmac_sha256 : List u8 → Vector u32 8) (s : Pages) (page : Fin 2) (i : ℕ)
    (c : u32) : Prop where
  index_lt : i < kBootDataEntriesPerPage
  blank : Blank (entry s page i)
  used : ∀ j < i, ¬ Blank (entry s page j)
  last : ∀ j < kBootDataEntriesPerPage, i < j → ¬ Accepted hmac_sha256 (entry s page j)
  newer : ∀ page', ∀ j < kBootDataEntriesPerPage, Accepted hmac_sha256 (entry s page' j) →
    (BootData.ofWords (entry s page' j)).counter < c

/-- The whole entry in its place is the active one. -/
theorem Ready.complete {s s' : Pages} {page : Fin 2} {i : ℕ} {e : BootData}
    (h : Ready hmac_sha256 s page i e.counter) (he : Accepted hmac_sha256 e.words)
    (hs' : Leaves s s' page i e.words) : Active hmac_sha256 s' page i e where
  index_lt := h.index_lt
  used j hj := by
    rw [hs'.others page j (fun heq => by simp only [Prod.mk.injEq] at heq; omega)]
    exact h.used j hj
  accepted := by rwa [hs'.here]
  record := by rw [hs'.here, e.ofWords_words]
  last j hj hij := by
    rw [hs'.others page j (fun heq => by simp only [Prod.mk.injEq] at heq; omega)]
    exact h.last j hj hij
  newest page' j hj hne hacc := by
    rw [hs'.others page' j hne] at hacc ⊢
    exact h.newer page' j hj hacc

section place

variable {s s' : Pages} {a : Fin 2} {l : ℕ} {b : BootData}

/-- Every accepted entry is older than what follows the active one. -/
theorem Active.older_than (h : Active hmac_sha256 s a l b) {c : u32} (hc : b.counter < c)
    (page : Fin 2) (j : ℕ) (hj : j < kBootDataEntriesPerPage)
    (hacc : Accepted hmac_sha256 (entry s page j)) :
    (BootData.ofWords (entry s page j)).counter < c := by
  by_cases heq : (page, j) = (a, l)
  · obtain ⟨rfl, rfl⟩ := Prod.mk.inj heq
    rwa [h.record]
  · have hlt := h.newest page j hj heq hacc
    rw [BitVec.lt_def] at hlt hc ⊢
    omega

/-- Behind the active entry, at the first blank one. -/
theorem Active.ready_here (h : Active hmac_sha256 s a l b) {f : ℕ} {c : u32}
    (hfirst : FirstEmpty s a f true) (hc : b.counter < c) : Ready hmac_sha256 s a f c where
  index_lt := hfirst.stop.1
  blank := hfirst.stop.2
  used := hfirst.used
  last j hj hfj := h.last j hj (Nat.lt_trans (h.lt_first_empty hfirst) hfj)
  newer page j hj hacc := h.older_than hc page j hj hacc

theorem not_accepted_of_erased (page : Fin 2) (j : ℕ) :
    ¬ Accepted hmac_sha256 (entry (erasePage s page) page j) :=
  fun hacc => hacc.not_blank (length_entry _ _ _) (erasePage_entry s page j)

/-- At the start of an erased page, when every accepted entry of the other is older. -/
theorem ready_erased {page : Fin 2} {c : u32}
    (hnewer : ∀ page' ≠ page, ∀ j < kBootDataEntriesPerPage,
      Accepted hmac_sha256 (entry s page' j) → (BootData.ofWords (entry s page' j)).counter < c) :
    Ready hmac_sha256 (erasePage s page) page 0 c where
  index_lt := by decide
  blank := erasePage_entry s page 0
  used j hj := absurd hj (Nat.not_lt_zero j)
  last j _ _ := not_accepted_of_erased page j
  newer page' j hj hacc := by
    by_cases hpage : page' = page
    · subst hpage
      exact absurd hacc (not_accepted_of_erased page' j)
    · rw [erasePage_entry_other _ _ _ hpage] at hacc ⊢
      exact hnewer page' hpage j hj hacc

/-- Erasing the other page leaves the active entry active. -/
theorem Active.erase_other (h : Active hmac_sha256 s a l b) {page : Fin 2} (hpage : a ≠ page) :
    Active hmac_sha256 (erasePage s page) a l b where
  index_lt := h.index_lt
  used j hj := by
    rw [erasePage_entry_other _ _ _ hpage]
    exact h.used j hj
  accepted := by
    rw [erasePage_entry_other _ _ _ hpage]
    exact h.accepted
  record := by
    rw [erasePage_entry_other _ _ _ hpage]
    exact h.record
  last j hj hlj := by
    rw [erasePage_entry_other _ _ _ hpage]
    exact h.last j hj hlj
  newest page' j hj hne hacc := by
    by_cases hpage' : page' = page
    · subst hpage'
      exact absurd hacc (not_accepted_of_erased page' j)
    · rw [erasePage_entry_other _ _ _ hpage'] at hacc ⊢
      exact h.newest page' j hj hne hacc

/-- A change of another entry into something that is not accepted leaves the active
entry active, unless it makes a blank one before it. -/
theorem Active.of_leaves (h : Active hmac_sha256 s a l b) {page : Fin 2} {i : ℕ} {ws : List u32}
    (hs' : Leaves s s' page i ws) (hne : (page, i) ≠ (a, l)) (hws : ¬ Accepted hmac_sha256 ws)
    (hblank : page = a → i < l → ¬ Blank ws) : Active hmac_sha256 s' a l b where
  index_lt := h.index_lt
  used j hj := by
    by_cases heq : (a, j) = (page, i)
    · obtain ⟨rfl, rfl⟩ := Prod.mk.inj heq
      rw [hs'.here]
      exact hblank rfl hj
    · rw [hs'.others a j heq]
      exact h.used j hj
  accepted := by
    rw [hs'.others a l (Ne.symm hne)]
    exact h.accepted
  record := by
    rw [hs'.others a l (Ne.symm hne)]
    exact h.record
  last j hj hlj := by
    by_cases heq : (a, j) = (page, i)
    · obtain ⟨rfl, rfl⟩ := Prod.mk.inj heq
      rwa [hs'.here]
    · rw [hs'.others a j heq]
      exact h.last j hj hlj
  newest page' j hj hne' hacc := by
    by_cases heq : (page', j) = (page, i)
    · obtain ⟨rfl, rfl⟩ := Prod.mk.inj heq
      rw [hs'.here] at hacc
      exact absurd hacc hws
    · rw [hs'.others page' j heq] at hacc ⊢
      exact h.newest page' j hj hne' hacc

theorem Empty.erase (h : Empty hmac_sha256 s) (page : Fin 2) :
    Empty hmac_sha256 (erasePage s page) := by
  intro page' j hj
  by_cases hpage : page' = page
  · subst hpage
    exact not_accepted_of_erased page' j
  · rw [erasePage_entry_other _ _ _ hpage]
    exact h page' j hj

theorem Empty.of_leaves (h : Empty hmac_sha256 s) {page : Fin 2} {i : ℕ} {ws : List u32}
    (hs' : Leaves s s' page i ws) (hws : ¬ Accepted hmac_sha256 ws) : Empty hmac_sha256 s' := by
  intro page' j hj
  by_cases heq : (page', j) = (page, i)
  · obtain ⟨rfl, rfl⟩ := Prod.mk.inj heq
    rwa [hs'.here]
  · rw [hs'.others page' j heq]
    exact h page' j hj

variable (hmac_sha256) in
/-- Invalidating an entry: it is no longer accepted, and not blank. -/
theorem entry_invalidate_spec (page : Fin 2) (i : ℕ) (s : Pages) :
    Spec F (boot_data_entry_invalidate page i) s
      (fun _ s' => ∃ ws, Leaves s s' page i ws ∧ ¬ Accepted hmac_sha256 ws ∧ ¬ Blank ws)
      (fun _ s' => F .failed ∧ s' = s) (fun s' => F .lost ∧ s' = s) := by
  refine Spec.conseq (info_write_spec page 1 _ [0, 0] s rfl) ?_ ?_ ?_
  · rintro _ s' rfl
    set ws : List u32 := (List.range 32).map fun j =>
      if 8 ≤ j ∧ j < 10 then (entry s page i).getD j 0 &&& [(0 : u32), 0].getD (j - 8) 0
      else (entry s page i).getD j 0 with hws
    have hget : ∀ j < 32, ws.getD j 0 = if 8 ≤ j ∧ j < 10
        then (entry s page i).getD j 0 &&& [(0 : u32), 0].getD (j - 8) 0
        else (entry s page i).getD j 0 := by
      intro j hj
      simp [hws, List.getD_eq_getElem?_getD, hj]
    have hlen : ws.length = 32 := by simp [hws]
    have hsniff : sniffed ws = 0 := by
      rw [sniffed, hget 8 (by omega), if_pos (by omega)]
      simp
    refine ⟨ws, (Leaves.refl s page i).program 8 [0, 0] (by decide) hlen hget, ?_, ?_⟩
    · rintro ⟨hid, -⟩
      exact absurd (hsniff.symm.trans hid) (by decide)
    · intro hblank
      exact absurd (hsniff.symm.trans (sniffed_of_blank hlen hblank)) (by decide)
  · rintro _ s' ⟨hF, k, hk, rfl⟩
    obtain rfl : k = 0 := by omega
    exact ⟨hF, program_nil s page _⟩
  · rintro s' ⟨hF, k, hk, rfl⟩
    obtain rfl : k = 0 := by omega
    exact ⟨hF, program_nil s page _⟩

end place

/-! ## One write -/

/-- After `n` writes, the pages hold no entry, or one active entry with the payload of
`d` and a counter that has counted no more than the writes. -/
def Holds (hmac_sha256 : List u8 → Vector u32 8) (n : ℕ) : Option BootData → Pages → Prop
  | none, s => Empty hmac_sha256 s
  | some d, s => ∃ a l c, (5 < c.toNat ∧ c.toNat ≤ 5 + n) ∧
      Active hmac_sha256 s a l (new_entry hmac_sha256 d c)

theorem Holds.succ {n : ℕ} {v : Option BootData} {s : Pages} (h : Holds hmac_sha256 n v s) :
    Holds hmac_sha256 (n + 1) v s := by
  cases v with
  | none => exact h
  | some d =>
      obtain ⟨a, l, c, hc, hactive⟩ := h
      exact ⟨a, l, c, ⟨hc.1, by omega⟩, hactive⟩

/-- What a cut write may leave: the old value or the new one. -/
def Either (hmac_sha256 : List u8 → Vector u32 8) (n : ℕ) (old : Option BootData) (d : BootData)
    (s : Pages) : Prop :=
  Holds hmac_sha256 (n + 1) old s ∨ Holds hmac_sha256 (n + 1) (some d) s

section write

variable {s : Pages} {n : ℕ} {old : Option BootData} {d : BootData} {c : u32}

/-- Putting the new entry in its place. `s0` is the memory after the erase, if there
is one; that an entry which is not accepted changes nothing is `hkeep`. -/
theorem entry_write_holds {page : Fin 2} {i : ℕ} (erase : Bool) {s0 : Pages}
    (hs0 : s0 = if erase then erasePage s page else s)
    (hold : Holds hmac_sha256 n old s) (hc : 5 < c.toNat ∧ c.toNat ≤ 5 + (n + 1))
    (htorn : TornRejected hmac_sha256 (new_entry hmac_sha256 d c))
    (hready : Ready hmac_sha256 s0 page i c)
    (hkeep : ∀ t ws, Leaves s0 t page i ws → ¬ Accepted hmac_sha256 ws →
      Holds hmac_sha256 (n + 1) old t) :
    Spec F (boot_data_entry_write page i (new_entry hmac_sha256 d c) erase) s
      (fun _ t => Active hmac_sha256 t page i (new_entry hmac_sha256 d c))
      (fun _ t => F .failed ∧ Either hmac_sha256 n old d t)
      (fun t => F .lost ∧ Either hmac_sha256 n old d t) := by
  have haccepted := accepted_new_entry hmac_sha256 d c
  have hall := torn_all (new_entry hmac_sha256 d c) rfl
  have hcut : ∀ t, (t = s ∨ ∃ k ≤ 15, Leaves s0 t page i (torn (new_entry hmac_sha256 d c) k)) →
      Either hmac_sha256 n old d t := by
    rintro t (rfl | ⟨k, hk, hleaves⟩)
    · exact .inl hold.succ
    · by_cases hacc : Accepted hmac_sha256 (torn (new_entry hmac_sha256 d c) k)
      · have hwhole : torn (new_entry hmac_sha256 d c) k = (new_entry hmac_sha256 d c).words := by
          rcases Nat.lt_or_eq_of_le hk with hlt | rfl
          · exact htorn k hlt hacc
          · exact hall
        rw [hwhole] at hleaves
        exact .inr ⟨page, i, c, hc, Ready.complete hready haccepted hleaves⟩
      · exact .inl (hkeep t _ hleaves hacc)
  subst hs0
  refine Spec.conseq (entry_write_spec s page i _ erase rfl hready.blank) ?_ ?_ ?_
  · rintro _ t hleaves
    exact Ready.complete hready haccepted hleaves
  · rintro _ t ⟨hF, ht⟩
    exact ⟨hF, hcut t ht⟩
  · rintro t ⟨hF, ht⟩
    exact ⟨hF, hcut t ht⟩

/-- Invalidating the replaced entry, once the new one is active. -/
theorem invalidate_holds {page a : Fin 2} {i l : ℕ} {t : Pages}
    (hc : 5 < c.toNat ∧ c.toNat ≤ 5 + (n + 1))
    (hactive : Active hmac_sha256 t page i (new_entry hmac_sha256 d c)) (hne : (a, l) ≠ (page, i)) :
    Spec F (boot_data_entry_invalidate a l) t (fun _ => Holds hmac_sha256 (n + 1) (some d))
      (fun _ t' => F .failed ∧ Either hmac_sha256 n old d t')
      (fun t' => F .lost ∧ Either hmac_sha256 n old d t') := by
  refine Spec.conseq (entry_invalidate_spec hmac_sha256 a l t) ?_ ?_ ?_
  · rintro _ t' ⟨ws, hleaves, hacc, hblank⟩
    exact ⟨page, i, c, hc, hactive.of_leaves hleaves hne hacc fun _ _ => hblank⟩
  · rintro _ t' ⟨hF, rfl⟩
    exact ⟨hF, .inr ⟨page, i, c, hc, hactive⟩⟩
  · rintro t' ⟨hF, rfl⟩
    exact ⟨hF, .inr ⟨page, i, c, hc, hactive⟩⟩

theorem other_page_ne (page : Fin 2) : page ≠ other_page page := by
  revert page
  decide

/-- One write, from pages that hold `old`: the new value when it returns, one of the
two when it does not. -/
theorem boot_data_write_spec (hn : 5 + (n + 1) < 2 ^ 32) (hold : Holds hmac_sha256 n old s)
    (htorn : ∀ c : u32, 5 < c.toNat → c.toNat ≤ 5 + (n + 1) →
      TornRejected hmac_sha256 (new_entry hmac_sha256 d c)) :
    Spec F (boot_data_write hmac_sha256 d) s (fun _ => Holds hmac_sha256 (n + 1) (some d))
      (fun _ t => F .failed ∧ Either hmac_sha256 n old d t)
      (fun t => F .lost ∧ Either hmac_sha256 n old d t) := by
  cases old with
  | none =>
      refine (active_page_find_of_empty hold).then (fun _ hF => ⟨hF, .inl hold.succ⟩)
        (fun hF => ⟨hF, .inl hold.succ⟩) ?_
      rintro ⟨info, last_entry⟩ hinfo
      have hready : Ready hmac_sha256 (erasePage s 0) 0 0 (kBootDataDefaultCounterVal + 1) :=
        ready_erased fun page' _ j hj hacc => absurd hacc (hold page' j hj)
      have hc : 5 < (kBootDataDefaultCounterVal + 1).toNat ∧
          (kBootDataDefaultCounterVal + 1).toNat ≤ 5 + (n + 1) := by
        show 5 < 6 ∧ 6 ≤ 5 + (n + 1)
        omega
      dsimp only at hinfo ⊢
      rw [hinfo, if_neg (by simp)]
      refine Spec.conseq (entry_write_holds true rfl hold hc (htorn _ hc.1 hc.2) hready ?_)
        ?_ ?_ ?_
      · intro t ws hleaves hacc
        exact (Empty.erase hold 0).of_leaves hleaves hacc
      · intro _ t hactive
        exact ⟨0, 0, _, hc, hactive⟩
      · exact fun _ _ h => h
      · exact fun _ h => h
  | some d0 =>
      obtain ⟨a, l, c0, hc0, hactive⟩ := id hold
      refine (active_page_find_of_active hactive).then (fun _ hF => ⟨hF, .inl hold.succ⟩)
        (fun hF => ⟨hF, .inl hold.succ⟩) ?_
      rintro ⟨⟨page, has_empty, f, has_valid, l⟩, last_entry⟩ ⟨rfl, rfl, rfl, hfirst, rfl⟩
      have hcounter : (c0 + 1).toNat = c0.toNat + 1 := by
        rw [BitVec.toNat_add]
        show (c0.toNat + 1) % 2 ^ 32 = c0.toNat + 1
        omega
      have hc : 5 < (c0 + 1).toNat ∧ (c0 + 1).toNat ≤ 5 + (n + 1) := by omega
      have hlt : (new_entry hmac_sha256 d0 c0).counter < c0 + 1 := by
        rw [BitVec.lt_def, hcounter]
        exact Nat.lt_succ_self _
      dsimp only
      rw [if_pos rfl]
      cases has_empty with
      | true =>
          rw [if_pos rfl]
          have hlf : l < f := hactive.lt_first_empty hfirst
          have hne : (a, l) ≠ (a, f) := by
            intro heq
            obtain ⟨-, hlf'⟩ := Prod.mk.inj heq
            omega
          refine Spec.bind (entry_write_holds false rfl hold hc (htorn _ hc.1 hc.2)
            (hactive.ready_here hfirst hlt) ?_) fun _ t ht => invalidate_holds hc ht hne
          intro t ws hleaves hacc
          exact ⟨a, l, c0, ⟨hc0.1, by omega⟩, hactive.of_leaves hleaves (Ne.symm hne) hacc
            fun _ hfl => absurd (Nat.lt_trans hfl hlf) (Nat.lt_irrefl f)⟩
      | false =>
          rw [if_neg (by simp)]
          have hother := other_page_ne a
          have hne : (a, l) ≠ (other_page a, 0) := fun heq => hother (Prod.mk.inj heq).1
          have hready : Ready hmac_sha256 (erasePage s (other_page a)) (other_page a) 0 (c0 + 1) :=
            ready_erased fun page' _ j hj hacc => hactive.older_than hlt page' j hj hacc
          refine Spec.bind (entry_write_holds true rfl hold hc (htorn _ hc.1 hc.2) hready ?_)
            fun _ t ht => invalidate_holds hc ht hne
          intro t ws hleaves hacc
          exact ⟨a, l, c0, ⟨hc0.1, by omega⟩, (hactive.erase_other hother).of_leaves hleaves (Ne.symm hne)
            hacc fun heq => absurd heq.symm hother⟩

end write

/-! ## Reading back -/

/-- The payload a read reports for a register value: the one written last, and the
default entry's, where that is allowed, before the first write. -/
def expected (hmac_sha256 : List u8 → Vector u32 8) (otp : Otp) (lc_state : LcState) :
    Option BootData → Except RomError BootDataPayload
  | some d => .ok d.payload
  | none => (boot_data_default_get hmac_sha256 otp lc_state).map BootData.payload

/-- A read returns the newest entry or the default, or an error that was there to be met. -/
theorem boot_data_read_spec {s : Pages} {n : ℕ} {v : Option BootData} (otp : Otp)
    (lc_state : LcState) (hv : Holds hmac_sha256 n v s)
    (hversion : ∀ d, v = some d → d.version = kBootDataVersion2) :
    Spec F (boot_data_read hmac_sha256 otp lc_state) s
      (fun b _ => expected hmac_sha256 otp lc_state v = .ok b.payload)
      (fun e _ => F .failed ∨ expected hmac_sha256 otp lc_state v = .error e)
      (fun _ => F .lost) := by
  cases v with
  | none =>
      refine (active_page_find_of_empty hv).then (fun _ hF => .inl hF) id ?_
      rintro ⟨info, b⟩ hinfo
      dsimp only at hinfo ⊢
      rw [hinfo, if_neg (by simp), expected]
      refine Spec.ofExcept (fun b hb => ?_) (fun e he => .inr ?_)
      · rw [hb]
        rfl
      · rw [he]
        rfl
  | some d =>
      obtain ⟨a, l, c, -, hactive⟩ := hv
      refine (active_page_find_of_active hactive).then (fun _ hF => .inl hF) id ?_
      rintro ⟨info, b⟩ hfound
      obtain rfl : b = new_entry hmac_sha256 d c := hfound.record
      have h2 : (new_entry hmac_sha256 d c).version = kBootDataVersion2 := hversion d rfl
      have h1 : (new_entry hmac_sha256 d c).version ≠ kBootDataVersion1 := by
        rw [h2]
        decide
      have hvalid : info.has_valid_entry = true := hfound.valid
      dsimp only
      rw [if_pos hvalid, boot_data_as_v2, if_neg h1, if_pos h2]
      exact Spec.pure rfl

/-- What `boot_data_read` reports on an undisturbed machine. -/
theorem boot_data_read_outcome {s : Pages} {n : ℕ} {v : Option BootData} (otp : Otp)
    (lc_state : LcState) (hv : Holds hmac_sha256 n v s)
    (hversion : ∀ d, v = some d → d.version = kBootDataVersion2) :
    (boot_data_read hmac_sha256 otp lc_state (Machine.on s fun _ => .done)).1.map BootData.payload
      = .ofExcept (expected hmac_sha256 otp lc_state v) := by
  obtain ⟨hmeets, -⟩ := boot_data_read_spec (F := (· = .done)) otp lc_state hv hversion
    (Machine.on s fun _ => .done) rfl (fun _ => rfl)
  generalize boot_data_read hmac_sha256 otp lc_state (Machine.on s fun _ => .done) = run at hmeets ⊢
  obtain ⟨outcome, m⟩ := run
  cases outcome with
  | ret b => exact (congrArg Outcome.ofExcept hmeets).symm
  | error e =>
      rcases hmeets with hfailed | he
      · exact absurd hfailed (by decide)
      · exact (congrArg Outcome.ofExcept he).symm
  | trap => exact hmeets.elim
  | lost =>
      have hlost : Fate.lost = Fate.done := hmeets
      cases hlost

/-! ## Any number of writes -/

theorem holds_erased : Holds hmac_sha256 0 none erasedPages := by
  intro page j _ hacc
  refine hacc.not_blank (length_entry _ _ _) fun w hw => ?_
  obtain ⟨_, -, rfl⟩ := List.mem_map.mp hw
  rfl

/-- Writes of current-version records from erased pages, each cut or failing at any
operation or not at all, behave like writes to a crash-atomic register. A read reports
the register's value, and after a write that returned that is what it wrote. -/
theorem boot_data_crash_atomic (hmac_sha256 : List u8 → Vector u32 8) (otp : Otp)
    (ss : List (Register.Session BootData)) (hlen : ss.length < 2 ^ 32 - 6)
    (hversion : ∀ session ∈ ss, session.value.version = kBootDataVersion2)
    (htorn : ∀ session ∈ ss, ∀ c : u32, 5 < c.toNat → c.toNat ≤ 5 + ss.length →
      TornRejected hmac_sha256 (new_entry hmac_sha256 session.value c)) :
    ∃ v, Register.Run none (Register.sessions (boot_data_write hmac_sha256) erasedPages ss).1 v ∧
      (∀ events d, (Register.sessions (boot_data_write hmac_sha256) erasedPages ss).1
        = events ++ [.wrote d] → v = some d) ∧
      ∀ lc_state,
        (boot_data_read hmac_sha256 otp lc_state
          (Machine.on (Register.sessions (boot_data_write hmac_sha256) erasedPages ss).2
            fun _ => .done)).1.map BootData.payload
          = .ofExcept (expected hmac_sha256 otp lc_state v) := by
  set Inv : ℕ → Option BootData → Pages → Prop := fun n v s =>
    Holds hmac_sha256 n v s ∧ ∀ d, v = some d → d.version = kBootDataVersion2 with hInv
  have hwrite : ∀ n < ss.length, ∀ session ∈ ss, ∀ old s, Inv n old s →
      Spec (fun _ => True) (boot_data_write hmac_sha256 session.value) s
        (fun _ => Inv (n + 1) (some session.value))
        (fun _ t => Inv (n + 1) old t ∨ Inv (n + 1) (some session.value) t)
        (fun t => Inv (n + 1) old t ∨ Inv (n + 1) (some session.value) t) := by
    rintro n hn session hmem old s ⟨hold, hv⟩
    have hnew : ∀ d, some session.value = some d → d.version = kBootDataVersion2 := by
      rintro d ⟨⟩
      exact hversion session hmem
    have heither : ∀ t, Either hmac_sha256 n old session.value t →
        Inv (n + 1) old t ∨ Inv (n + 1) (some session.value) t := by
      rintro t (hkept | hput)
      · exact .inl ⟨hkept, hv⟩
      · exact .inr ⟨hput, hnew⟩
    have hspec := boot_data_write_spec (F := fun _ => True) (d := session.value)
      (by omega) hold fun c hlow hc => htorn session hmem c hlow (by omega)
    exact hspec.conseq (fun _ t ht => ⟨ht, hnew⟩) (fun _ t ht => heither t ht.2)
      (fun t ht => heither t ht.2)
  obtain ⟨v, hrun, hholds, hv⟩ := Register.sessions_refine (boot_data_write hmac_sha256) Inv ss
    erasedPages ⟨holds_erased, fun d hd => by cases hd⟩ hwrite
  refine ⟨v, hrun, fun events d hevents => ?_,
    fun lc_state => boot_data_read_outcome otp lc_state hholds hv⟩
  rw [hevents] at hrun
  exact hrun.last_wrote

/-- A record in the given format version, with the other BL0 slot than the default's. -/
def record_of_version (version : u32) : BootData :=
  { BootData.ofWords [] with version := version, primary_bl0_slot := kBootSlotB }

/-- The hash of the device. The block's digest registers are read from the last one down. -/
def device_sha256 (data : List u8) : Vector u32 8 := (Sha256.sha256 data).reverse

/-- A first write that loses power in the middle of the entry. -/
theorem boot_data_crash_atomic_first_write :
    ∃ v, Register.Run none (Register.sessions (boot_data_write device_sha256) erasedPages
        [⟨record_of_version kBootDataVersion2, lostAt 16⟩]).1 v ∧
      (∀ events d, (Register.sessions (boot_data_write device_sha256) erasedPages
        [⟨record_of_version kBootDataVersion2, lostAt 16⟩]).1
        = events ++ [.wrote d] → v = some d) ∧
      ∀ lc_state,
        (boot_data_read device_sha256 ⟨0, 0, 0⟩ lc_state
          (Machine.on (Register.sessions (boot_data_write device_sha256) erasedPages
            [⟨record_of_version kBootDataVersion2, lostAt 16⟩]).2
            fun _ => .done)).1.map BootData.payload
          = .ofExcept (expected device_sha256 ⟨0, 0, 0⟩ lc_state v) := by
  refine boot_data_crash_atomic device_sha256 ⟨0, 0, 0⟩
    [⟨record_of_version kBootDataVersion2, lostAt 16⟩] (by decide) ?_ ?_
  · intro session hmem
    rw [List.mem_singleton.mp hmem]
    rfl
  · intro session hmem c hlow hhigh
    have hc : c = 6 := by
      apply BitVec.eq_of_toNat_eq
      have hlen : 5 + [(⟨record_of_version kBootDataVersion2, lostAt 16⟩ :
        Register.Session BootData)].length = 6 := rfl
      show c.toNat = 6
      omega
    rw [List.mem_singleton.mp hmem, hc]
    show TornRejected device_sha256
      (new_entry device_sha256 (record_of_version kBootDataVersion2) 6)
    intro k hk
    interval_cases k <;> decide +kernel

/-- A write and a read after it, on pages that start erased. -/
def write_then_read (hmac_sha256 : List u8 → Vector u32 8) (d : BootData) (fate : ℕ → Fate) :
    List (Register.Event BootData) × Outcome RomError BootDataPayload :=
  let written := Register.sessions (boot_data_write hmac_sha256) erasedPages [⟨d, fate⟩]
  (written.1, (boot_data_read hmac_sha256 ⟨0, 0, 0⟩ .kLcStateTest
    (Machine.on written.2 fun _ => .done)).1.map BootData.payload)

/-- What the general statement has to leave out. A first write cut at its first
operation leaves the default entry, which is nobody's payload. Without any cut, and
so whatever the hash, a record of version 1 is read back with its BL0 slot
overwritten, and one of any other version makes the read trap. -/
theorem read_is_not_last_payload :
    write_then_read device_sha256 (record_of_version kBootDataVersion2) (lostAt 0)
        = ([.interrupted (record_of_version kBootDataVersion2)],
          .ret { (record_of_version kBootDataVersion2).payload with primary_bl0_slot := kBootSlotA }) ∧
      write_then_read (fun _ => Vector.replicate 8 0) (record_of_version kBootDataVersion1)
          (fun _ => .done)
        = ([.wrote (record_of_version kBootDataVersion1)],
          .ret { (record_of_version kBootDataVersion1).payload with primary_bl0_slot := kBootSlotA }) ∧
      write_then_read (fun _ => Vector.replicate 8 0) (record_of_version 0) (fun _ => .done)
        = ([.wrote (record_of_version 0)], .trap) := by
  decide +kernel

end IbexFirmware.BootDataStore
