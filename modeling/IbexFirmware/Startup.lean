/-
The start-up code (`boot.S`): registers, stack pointer, bss, and the call of `main`.

`zero_loop` has two tests. The one in front of it leaves when `_bss_start` has reached
`_bss_end`, the one at its end goes round once more while the pointer is at `_bss_end`. So an
empty bss is left alone, and any other is cleared together with the word at `_bss_end`
(`start_clears_one_more`). Where that word is the last one below the sign bit, the pointer turns
negative behind it and the loop does not end at all (`zero_loop_ends_iff`).

`Clearing` says what holds at each line once the bss is not empty. It is kept by every step, so
whenever the loop is left the word at `_bss_end` has been written (`Clearing.left_of_reaches`).
-/
import IbexFirmware.Lib.Rv32
import Mathlib.Tactic

set_option autoImplicit false

namespace IbexFirmware.Startup

open Bytes Rv32

/-! ## The code -/

inductive Label where
  | reset_handler
  | _start
  | zero_loop
  | zero_loop_end
  | main_entry
  deriving DecidableEq

/-- What the linker script supplies. -/
structure Symbols where
  _stack_start : u32
  _bss_start : u32
  _bss_end : u32

section code

variable (sym : Symbols)

/-- `x1` from `x0`, and the registers from `x2` to `x31` from `x1`. -/
def reset_handler : List Op :=
  .mv 1 0 :: (List.range' 2 30).map (fun k => .mv (Fin.ofNat 32 k) 1) ++ [.la 2 sym._stack_start]

def _start : List Op := [.la 26 sym._bss_start, .la 27 sym._bss_end]

def zero_loop : List Op := [.sw 0 0 26, .addi 26 26 4]

/-- `argc` and `argv`. -/
def main_entry : List Op := [.addi 10 0 0, .addi 11 0 0]

/-- The text behind `zero_loop_end`, up to the call of `main`. -/
def text_end : Text Label := .label .main_entry :: main_entry.map .op

/-- The text behind `zero_loop`. -/
def text_loop : Text Label :=
  zero_loop.map .op ++ .ble 26 27 .zero_loop :: .label .zero_loop_end :: text_end

/-- The text behind `_start`. -/
def text_start : Text Label :=
  (_start sym).map .op ++ .bge 26 27 .zero_loop_end :: .label .zero_loop :: text_loop

def boot : Text Label :=
  .label .reset_handler :: (reset_handler sym).map .op ++ .label ._start :: text_start sym

theorem behind_start : (boot sym).behind ._start = text_start sym := rfl

theorem behind_zero_loop_end : (boot sym).behind .zero_loop_end = text_end := rfl

end code

/-! ## One round -/

/-- `s'` is `s` with `k` words from `a` on zeroed, and `x26` behind them. -/
structure Zeroed (s s' : State) (a : u32) (k : ℕ) : Prop where
  pointer : s'.get 26 = a + BitVec.ofNat 32 (4 * k)
  others : ∀ r ≠ 26, s'.get r = s.get r
  mem : ∀ x, s'.mem x = if (x - a).toNat < 4 * k then 0 else s.mem x
  written : ∀ x, x ∈ s'.written ↔ x ∈ s.written ∨ (x - a).toNat < 4 * k

theorem Zeroed.start {s : State} : Zeroed s s (s.get 26) 0 where
  pointer := by simp
  others := fun _ _ => rfl
  mem := by simp
  written := by simp

theorem Zeroed.toNat_pointer {s s' : State} {a : u32} {k : ℕ} (h : Zeroed s s' a k)
    (hk : a.toNat + 4 * k < 2 ^ 32) : (s'.get 26).toNat = a.toNat + 4 * k := by
  rw [h.pointer, BitVec.toNat_add, BitVec.toNat_ofNat]
  omega

/-- The bytes of a word, by their distance from its first one. -/
theorem mem_word_iff {x a : u32} : x ∈ [a, a + 1, a + 2, a + 3] ↔ (x - a).toNat < 4 := by
  simp only [List.mem_cons, List.not_mem_nil, or_false]
  constructor
  · rintro (rfl | rfl | rfl | rfl) <;> bv_omega
  · intro h
    bv_omega

/-- `k` words and the one behind them are `k + 1` words. -/
theorem behind_words {x a : u32} {k : ℕ} (hk : 4 * (k + 1) ≤ 2 ^ 32) :
    (x - (a + BitVec.ofNat 32 (4 * k))).toNat < 4 ∨ (x - a).toNat < 4 * k ↔
      (x - a).toNat < 4 * (k + 1) := by
  have hx := (x - a).isLt
  rw [← BitVec.sub_sub, BitVec.toNat_sub, BitVec.toNat_ofNat]
  omega

theorem byteOf_zero (i : ℕ) : byteOf 0 i = 0 := by simp [byteOf]

theorem store_run (s : State) : Op.run (.sw 0 0 26) s = s.store (s.get 26) 0 := by
  simp [Op.run]

theorem Zeroed.round {s s' : State} {a : u32} {k : ℕ} (h : Zeroed s s' a k)
    (hk : 4 * (k + 1) ≤ 2 ^ 32) :
    Zeroed s (zero_loop.foldl (fun s i => i.run s) s') a (k + 1) := by
  have hrun : zero_loop.foldl (fun s i => i.run s) s' =
      (s'.store (s'.get 26) 0).set 26 (s'.get 26 + 4) := by
    simp [zero_loop, Op.run]
  rw [hrun]
  refine ⟨?_, ?_, ?_, ?_⟩
  · rw [State.get_set_self _ _ (by decide), h.pointer, BitVec.add_assoc, Nat.mul_succ,
      BitVec.ofNat_add]
    rfl
  · intro r hr
    rw [State.get_set_of_ne _ _ hr, State.get_store, h.others r hr]
  · intro x
    rw [State.mem_set, State.store]
    dsimp only
    rw [h.pointer, h.mem x, byteOf_zero]
    simp only [← behind_words hk]
    split_ifs <;> tauto
  · intro x
    rw [State.written_set, State.store, List.mem_append, mem_word_iff, h.pointer, h.written x,
      ← behind_words hk]
    tauto

/-! ## The loop -/

section loop

variable (sym : Symbols)

/-- A round, and the test at its end. -/
theorem turn (s s' : State) (h : s' = zero_loop.foldl (fun s i => i.run s) s) :
    Reaches (boot sym) (s, text_loop)
      (s', if (s'.get 26).sle (s'.get 27) then text_loop else .label .zero_loop_end :: text_end) := by
  subst h
  have hops := reaches_ops (boot sym) zero_loop s
    (.ble 26 27 .zero_loop :: .label .zero_loop_end :: text_end)
  exact hops.trans (Reaches.of_step rfl)

/-- The loop goes on while the pointer is not past `_bss_end`. -/
theorem zero_loop_goes_on (s : State) (k : ℕ) (he : (s.get 27).toNat < 2 ^ 31)
    (hk : (s.get 26).toNat + 4 * k ≤ (s.get 27).toNat) :
    ∃ s', Reaches (boot sym) (s, text_loop) (s', text_loop) ∧ Zeroed s s' (s.get 26) k := by
  induction k with
  | zero => exact ⟨s, Reaches.refl, Zeroed.start⟩
  | succ k ih =>
      obtain ⟨s', hreach, hzeroed⟩ := ih (by omega)
      have hround := hzeroed.round (by omega)
      have hpointer := hround.toNat_pointer (by omega)
      have hturn := turn sym s' _ rfl
      rw [hround.others 27 (by decide), if_pos] at hturn
      · exact ⟨_, hreach.trans hturn, hround⟩
      · rw [sle_iff_of_lt (by omega) he, hpointer]
        exact hk

/-- It is left when the pointer is past `_bss_end`, which has then been written to. -/
theorem zero_loop_clears (s : State) (hle : (s.get 26).toNat ≤ (s.get 27).toNat)
    (he : (s.get 27).toNat + 4 < 2 ^ 31) :
    ∃ s', Reaches (boot sym) (s, text_loop) (s', text_end) ∧
      Zeroed s s' (s.get 26) (((s.get 27).toNat - (s.get 26).toNat) / 4 + 1) := by
  generalize hk : ((s.get 27).toNat - (s.get 26).toNat) / 4 = k
  obtain ⟨s', hreach, hzeroed⟩ :=
    zero_loop_goes_on sym s k (by omega) (by omega)
  have hround := hzeroed.round (by omega)
  have hpointer := hround.toNat_pointer (by omega)
  have hturn := turn sym s' _ rfl
  rw [hround.others 27 (by decide), if_neg] at hturn
  · exact ⟨_, (hreach.trans hturn).trans (Reaches.of_step rfl), hround⟩
  · rw [sle_iff_of_lt (by omega) (by omega), hpointer]
    omega

end loop

/-! ## A bss that is not empty -/

theorem toNat_next (a : u32) : (a + 4).toNat = (a.toNat + 4) % 2 ^ 32 := BitVec.toNat_add a 4

/-- Of the pointers up to `_bss_end` only `_bss_end` itself is followed by one that the loop
leaves with. -/
theorem last_word {a e : u32} (ha : a.toNat % 4 = 0) (he : e.toNat % 4 = 0)
    (hlt : e.toNat < 2 ^ 31) (hle : a.sle e = true) (hgt : ¬ (a + 4).sle e = true) :
    a = e ∧ e.toNat + 4 < 2 ^ 31 := by
  rw [BitVec.sle_iff_toInt_le, BitVec.toInt_eq_toNat_cond, BitVec.toInt_eq_toNat_cond] at hle hgt
  rw [toNat_next] at hgt
  have ha32 := a.isLt
  -- past `e` for the first time, or past the largest positive number, which `e` is next to
  have heq : a.toNat = e.toNat := by
    split_ifs at hle hgt <;> omega
  refine ⟨BitVec.eq_of_toNat_eq heq, ?_⟩
  split_ifs at hle hgt <;> omega

variable {sym : Symbols}

/-- What holds at each line, with a bss that is not empty, and once the loop is left. -/
inductive Clearing (sym : Symbols) : State × Text Label → Prop
  | start (s : State) : Clearing sym (s, text_start sym)
  | first (s : State) (h26 : s.get 26 = sym._bss_start) :
      Clearing sym (s, (text_start sym).drop 1)
  | entry (s : State) (h26 : s.get 26 = sym._bss_start) (h27 : s.get 27 = sym._bss_end) :
      Clearing sym (s, (text_start sym).drop 2)
  | label (s : State) (h26 : s.get 26 = sym._bss_start) (h27 : s.get 27 = sym._bss_end) :
      Clearing sym (s, (text_start sym).drop 3)
  | loop (s : State) (h27 : s.get 27 = sym._bss_end) (halign : (s.get 26).toNat % 4 = 0)
      (hle : (s.get 26).sle sym._bss_end = true) :
      Clearing sym (s, text_loop)
  | stored (s : State) (h27 : s.get 27 = sym._bss_end) (halign : (s.get 26).toNat % 4 = 0)
      (hle : (s.get 26).sle sym._bss_end = true) (hwritten : s.get 26 ∈ s.written) :
      Clearing sym (s, text_loop.drop 1)
  | moved (s : State) (a : u32) (h27 : s.get 27 = sym._bss_end) (halign : a.toNat % 4 = 0)
      (hle : a.sle sym._bss_end = true) (hwritten : a ∈ s.written) (h26 : s.get 26 = a + 4) :
      Clearing sym (s, text_loop.drop 2)
  | left (s : State) (code : Text Label) (hwritten : sym._bss_end ∈ s.written)
      (hend : sym._bss_end.toNat + 4 < 2 ^ 31) : Clearing sym (s, code)

section clearing

variable (hstart : sym._bss_start.toNat % 4 = 0) (hend : sym._bss_end.toNat % 4 = 0)
  (hlt : sym._bss_start.toNat < sym._bss_end.toNat) (hsign : sym._bss_end.toNat < 2 ^ 31)
include hstart hend hlt hsign

/-- Every instruction of the loop keeps it, whichever is the next. -/
theorem Clearing.step {c c' : State × Text Label} (h : Clearing sym c)
    (hstep : Rv32.step (boot sym) c = some c') : Clearing sym c' := by
  have hle : sym._bss_start.sle sym._bss_end = true :=
    (sle_iff_of_lt (by omega) hsign).mpr (by omega)
  have hnot : ¬ sym._bss_end.sle sym._bss_start = true := by
    rw [sle_iff_of_lt hsign (by omega)]
    omega
  cases h with
  | start s =>
      obtain rfl := Option.some.inj hstep
      exact .first _ (s.get_set_self _ (by decide))
  | first s h26 =>
      obtain rfl := Option.some.inj hstep
      refine .entry _ ?_ ?_
      · exact (s.get_set_of_ne _ (by decide)).trans h26
      · exact s.get_set_self _ (by decide)
  | entry s h26 h27 =>
      obtain rfl := Option.some.inj hstep
      rw [h26, h27, if_neg hnot]
      exact .label s h26 h27
  | label s h26 h27 =>
      obtain rfl := Option.some.inj hstep
      exact .loop s h27 (h26 ▸ hstart) (h26 ▸ hle)
  | loop s h27 halign hle =>
      obtain rfl := Option.some.inj hstep
      refine .stored _ h27 halign hle ?_
      rw [store_run]
      exact List.mem_append_right _ List.mem_cons_self
  | stored s h27 halign hle hwritten =>
      obtain rfl := Option.some.inj hstep
      refine .moved _ (s.get 26) ?_ halign hle hwritten ?_
      · exact (s.get_set_of_ne _ (by decide)).trans h27
      · exact s.get_set_self _ (by decide)
  | moved s a h27 halign hle hwritten h26 =>
      obtain rfl := Option.some.inj hstep
      rw [h26, h27]
      -- the test at the end also goes round for a pointer that is at `_bss_end`
      split_ifs with hagain
      · refine .loop s h27 ?_ (h26 ▸ hagain)
        rw [h26, toNat_next]
        omega
      · obtain ⟨rfl, hroom⟩ := last_word halign hend hsign hle hagain
        exact .left s _ hwritten hroom
  | left s code hwritten hroom => exact .left _ _ (step_written hwritten hstep) hroom

/-- Whenever the loop is left, the word at `_bss_end` has been written. -/
theorem Clearing.left_of_reaches {s s' : State}
    (h : Reaches (boot sym) (s, text_start sym) (s', text_end)) :
    sym._bss_end ∈ s'.written ∧ sym._bss_end.toNat + 4 < 2 ^ 31 := by
  have hclearing : Clearing sym (s', text_end) :=
    reaches_invariant (Clearing sym) (fun _ _ => Clearing.step hstart hend hlt hsign) h (.start s)
  generalize hcode : text_end = code at hclearing
  have hlength := congrArg List.length hcode
  cases hclearing with
  | left _ _ hwritten hroom => exact ⟨hwritten, hroom⟩
  -- the other lines have more of the text in front of them
  | _ => cases hlength

end clearing

/-! ## From `_start` to `zero_loop_end` -/

theorem empty_or_lt (h : sym._bss_start ≤ sym._bss_end) :
    sym._bss_start = sym._bss_end ∨ sym._bss_start.toNat < sym._bss_end.toNat := by
  rw [BitVec.toNat_eq]
  exact eq_or_lt_of_le h

/-- The pointers are loaded. -/
def started (sym : Symbols) (s : State) : State := (_start sym).foldl (fun s i => i.run s) s

variable (sym) in
theorem get_started_26 (s : State) : (started sym s).get 26 = sym._bss_start :=
  (State.get_set_of_ne _ _ (by decide)).trans (State.get_set_self _ _ (by decide))

variable (sym) in
theorem get_started_27 (s : State) : (started sym s).get 27 = sym._bss_end :=
  State.get_set_self _ _ (by decide)

variable (sym) in
theorem start_tests (s : State) :
    Reaches (boot sym) (s, text_start sym)
      (started sym s, if sym._bss_end.sle sym._bss_start then text_end
        else .label .zero_loop :: text_loop) := by
  have hops := reaches_ops (boot sym) (_start sym) s
    (.bge 26 27 .zero_loop_end :: .label .zero_loop :: text_loop)
  refine hops.trans (Reaches.of_step ?_)
  rw [step, ← started, get_started_26, get_started_27, behind_zero_loop_end]

/-- An empty bss is left alone. -/
theorem start_leaves_empty (h : sym._bss_start = sym._bss_end) (s : State) :
    Reaches (boot sym) (s, text_start sym) (started sym s, text_end) := by
  have htest := start_tests sym s
  rwa [h, if_pos (by simp [BitVec.sle_iff_toInt_le])] at htest

/-- Any other is cleared, and the word at `_bss_end` with it. -/
theorem start_clears_one_more (hlt : sym._bss_start.toNat < sym._bss_end.toNat)
    (hend : sym._bss_end.toNat + 4 < 2 ^ 31) (s : State) :
    ∃ s', Reaches (boot sym) (s, text_start sym) (s', text_end) ∧
      Zeroed (started sym s) s' sym._bss_start
        ((sym._bss_end.toNat - sym._bss_start.toNat) / 4 + 1) := by
  have htest := start_tests sym s
  rw [if_neg] at htest
  · have hclears := zero_loop_clears sym (started sym s)
    rw [get_started_26, get_started_27] at hclears
    obtain ⟨s', hreach, hzeroed⟩ := hclears (by omega) hend
    exact ⟨s', (htest.trans (Reaches.of_step rfl)).trans hreach, hzeroed⟩
  · rw [sle_iff_of_lt (by omega) (by omega)]
    omega

/-- The words that are cleared. -/
def cleared (sym : Symbols) : ℕ :=
  if sym._bss_start = sym._bss_end then 0
  else (sym._bss_end.toNat - sym._bss_start.toNat) / 4 + 1

theorem start_clears (hle : sym._bss_start ≤ sym._bss_end)
    (hends : sym._bss_start = sym._bss_end ∨ sym._bss_end.toNat + 4 < 2 ^ 31) (s : State) :
    ∃ s', Reaches (boot sym) (s, text_start sym) (s', text_end) ∧
      Zeroed (started sym s) s' sym._bss_start (cleared sym) := by
  by_cases heq : sym._bss_start = sym._bss_end
  · refine ⟨_, start_leaves_empty heq s, ?_⟩
    rw [cleared, if_pos heq]
    exact get_started_26 sym s ▸ Zeroed.start
  · rw [cleared, if_neg heq]
    exact start_clears_one_more ((empty_or_lt hle).resolve_left heq) (hends.resolve_left heq) s

/-- The loop ends unless it has to clear the last word below the sign bit. -/
theorem zero_loop_ends_iff (hstart : sym._bss_start.toNat % 4 = 0)
    (hend : sym._bss_end.toNat % 4 = 0) (hle : sym._bss_start ≤ sym._bss_end)
    (hsign : sym._bss_end.toNat < 2 ^ 31) (s : State) :
    (∃ s', Reaches (boot sym) (s, text_start sym) (s', text_end)) ↔
      sym._bss_start = sym._bss_end ∨ sym._bss_end.toNat + 4 < 2 ^ 31 := by
  constructor
  · rintro ⟨s', hreach⟩
    exact (empty_or_lt hle).imp_right fun hlt =>
      (Clearing.left_of_reaches hstart hend hlt hsign hreach).2
  · intro hends
    obtain ⟨s', hreach, -⟩ := start_clears hle hends s
    exact ⟨s', hreach⟩

/-- What `_start` is for: it comes to `zero_loop_end` with every word of the bss zero, and has
written nowhere else. -/
def ClearsBss (sym : Symbols) (s : State) : Prop :=
  ∃ s', Reaches (boot sym) ({ s with written := [] }, (boot sym).behind ._start)
      (s', (boot sym).behind .zero_loop_end) ∧
    (∀ x, sym._bss_start ≤ x → x < sym._bss_end → s'.mem x = 0) ∧
    ∀ x ∈ s'.written, sym._bss_start ≤ x ∧ x < sym._bss_end

/-- It does so for an empty bss only. -/
theorem clears_bss_iff (sym : Symbols) (hstart : sym._bss_start.toNat % 4 = 0)
    (hend : sym._bss_end.toNat % 4 = 0) (hle : sym._bss_start ≤ sym._bss_end)
    (hsign : sym._bss_end.toNat < 2 ^ 31) (s : State) :
    ClearsBss sym s ↔ sym._bss_start = sym._bss_end := by
  rw [ClearsBss, behind_start, behind_zero_loop_end]
  constructor
  · rintro ⟨s', hreach, -, hframe⟩
    refine (empty_or_lt hle).resolve_right fun hlt => ?_
    have hwritten := (Clearing.left_of_reaches hstart hend hlt hsign hreach).1
    exact BitVec.lt_irrefl _ (hframe _ hwritten).2
  · intro heq
    refine ⟨_, start_leaves_empty heq _, ?_, nofun⟩
    intro x hx hx'
    rw [heq] at hx
    exact absurd hx' (BitVec.not_lt.mpr hx)

/-- A bss of one word in front of memory that is all ones. -/
def one_word : Symbols := ⟨0x120000, 0x100800, 0x100804⟩

def all_ones : State := ⟨fun _ => 0, fun _ => 0xff, []⟩

theorem clears_bss_iff_one_word :
    ClearsBss { one_word with _bss_end := 0x100800 } all_ones ∧ ¬ ClearsBss one_word all_ones :=
  ⟨(clears_bss_iff _ rfl rfl (by decide) (by decide) all_ones).mpr rfl,
    (clears_bss_iff one_word rfl rfl (by decide) (by decide) all_ones).not.mpr (by decide)⟩

/-- The word behind its one word is cleared too. -/
theorem one_word_overwritten :
    ¬ ClearsBss one_word all_ones ∧
      ∃ s', Reaches (boot one_word) (all_ones, text_start one_word) (s', text_end) ∧
        s'.mem 0x100804 ≠ all_ones.mem 0x100804 := by
  constructor
  · rintro ⟨s', hreach, -, hframe⟩
    have hwritten :=
      (Clearing.left_of_reaches rfl rfl (by decide) (by decide) hreach).1
    exact absurd (hframe _ hwritten).2 (by decide)
  · have hlt : one_word._bss_start.toNat < one_word._bss_end.toNat := by decide
    obtain ⟨s', hreach, hzeroed⟩ := start_clears_one_more hlt (by decide) all_ones
    refine ⟨s', hreach, ?_⟩
    rw [hzeroed.mem, if_pos (by decide)]
    decide

/-! ## From reset to `main` -/

/-- Registers that are zeroed one after the other from `x1` are zero. -/
theorem zero_registers (ks : List Reg) {s : State} (h1 : s.get 1 = 0) {r : Reg}
    (h : r ∈ ks ∨ s.get r = 0) :
    ((ks.map fun k => Op.mv k 1).foldl (fun s i => i.run s) s).get r = 0 := by
  induction ks generalizing s with
  | nil => exact h.resolve_left List.not_mem_nil
  | cons k ks ih =>
      have hmoved : ∀ r, r = k ∨ s.get r = 0 → (Op.run (.mv k 1) s).get r = 0 := by
        intro r hr
        rw [Op.run, h1]
        exact s.get_set_zero hr
      refine ih (hmoved 1 (.inr h1)) ?_
      rcases h with hmem | hzero
      · exact (List.mem_cons.mp hmem).symm.imp_right fun hk => hmoved r (.inl hk)
      · exact .inr (hmoved r (.inr hzero))

theorem mem_zero_registers (ks : List Reg) (s : State) :
    ((ks.map fun k => Op.mv k 1).foldl (fun s i => i.run s) s).mem = s.mem := by
  induction ks generalizing s with
  | nil => rfl
  | cons k ks ih => exact ih _

variable (sym) in
/-- `reset_handler` leaves the stack pointer, and zero in every other register. -/
theorem reset_handler_registers (s : State) :
    let s' := (reset_handler sym).foldl (fun s i => i.run s) s
    s'.get 2 = sym._stack_start ∧ (∀ r ≠ 2, s'.get r = 0) ∧ s'.mem = s.mem := by
  have hsplit : (reset_handler sym).foldl (fun s i => i.run s) s =
      ((((List.range' 2 30).map (Fin.ofNat 32)).map fun k => Op.mv k 1).foldl
        (fun s i => i.run s) (s.set 1 0)).set 2 sym._stack_start := by
    simp only [reset_handler, List.foldl_append, List.foldl_cons, List.foldl_nil, List.foldl_map,
      Op.run, State.get_x0]
  have hall : ∀ r : Reg, r ∈ (List.range' 2 30).map (Fin.ofNat 32) ∨ (s.set 1 0).get r = 0 := by
    intro r
    have hr : r ∈ (List.range' 2 30).map (Fin.ofNat 32) ∨ r = 0 ∨ r = 1 := by
      revert r
      decide
    rcases hr with hr | rfl | rfl
    · exact .inl hr
    · exact .inr (State.get_x0 _)
    · exact .inr (s.get_set_zero (.inl rfl))
  rw [hsplit]
  refine ⟨State.get_set_self _ _ (by decide), fun r hr => ?_, ?_⟩
  · rw [State.get_set_of_ne _ _ hr]
    exact zero_registers _ (s.get_set_zero (.inl rfl)) (hall r)
  · rw [State.mem_set, mem_zero_registers, State.mem_set]

/-- At the call of `main`: the stack pointer, no arguments, and the bss cleared with the word at
`_bss_end`. -/
theorem reset_reaches_main (hle : sym._bss_start ≤ sym._bss_end)
    (hends : sym._bss_start = sym._bss_end ∨ sym._bss_end.toNat + 4 < 2 ^ 31) (s : State) :
    ∃ s', Reaches (boot sym) (s, boot sym) (s', []) ∧ s'.get 2 = sym._stack_start ∧
      (∀ r, r ≠ 2 → r ≠ 26 → r ≠ 27 → s'.get r = 0) ∧
      ∀ x, s'.mem x = if (x - sym._bss_start).toNat < 4 * cleared sym then 0 else s.mem x := by
  obtain ⟨hstack, hzero, hmem⟩ := reset_handler_registers sym s
  have hreset := reaches_ops (boot sym) (reset_handler sym) s
    (.label ._start :: text_start sym)
  generalize (reset_handler sym).foldl (fun s i => i.run s) s = s₁ at hstack hzero hmem hreset
  obtain ⟨s₂, hstart, hzeroed⟩ := start_clears hle hends s₁
  have hmain := reaches_ops (boot sym) main_entry s₂ []
  have hothers : ∀ r, r ≠ 26 → r ≠ 27 → s₂.get r = s₁.get r := by
    intro r h26 h27
    rw [hzeroed.others r h26]
    exact (State.get_set_of_ne _ _ h27).trans (State.get_set_of_ne _ _ h26)
  have hrun : main_entry.foldl (fun s i => i.run s) s₂ = (s₂.set 10 0).set 11 0 := by
    simp [main_entry, Op.run]
  rw [hrun] at hmain
  refine ⟨(s₂.set 10 0).set 11 0, ?_, ?_, fun r h2 h26 h27 => ?_, fun x => ?_⟩
  · exact (((Reaches.of_step rfl).trans hreset).trans (Reaches.of_step rfl)).trans
      (hstart.trans ((Reaches.of_step rfl).trans hmain))
  · rw [State.get_set_of_ne _ _ (by decide), State.get_set_of_ne _ _ (by decide),
      hothers 2 (by decide) (by decide), hstack]
  · have hr : s₂.get r = 0 := (hothers r h26 h27).trans (hzero r h2)
    exact State.get_set_zero _ (.inr (State.get_set_zero _ (.inr hr)))
  · rw [State.mem_set, State.mem_set, hzeroed.mem]
    rw [show (started sym s₁).mem = s₁.mem from rfl, hmem]

theorem reset_reaches_main_one_word :
    ∃ s', Reaches (boot one_word) (all_ones, boot one_word) (s', []) ∧ s'.get 2 = 0x120000 ∧
      s'.mem 0x100807 = 0 ∧ s'.mem 0x100808 = 0xff := by
  obtain ⟨s', hreach, hstack, -, hmem⟩ :=
    @reset_reaches_main one_word (by decide) (.inr (by decide)) all_ones
  exact ⟨s', hreach, hstack, (hmem _).trans (by decide), (hmem _).trans (by decide)⟩

end IbexFirmware.Startup
