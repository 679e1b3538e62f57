/-
The key wrap of SP 800-38F, and key wrapping with padding (RFC 5649).

A wrap goes over a row of registers with a permutation of pairs and mixes the number of the step into
what it carries along. The standard has the registers move by one place with every step
(`shift_steps`). A program leaves them where they are and goes round with an index (`steps`); after
whole rounds both come to the same (`shift_steps_eq`). A permutation and a sum can be undone, so the
steps are a permutation too (`unsteps_steps`, `steps_unsteps`).
-/
import Mathlib.Tactic
import Mathlib.Data.List.Rotate
import IbexFirmware.Lib.Gcm

set_option autoImplicit false

namespace IbexFirmware.KeyWrap

open Bytes

/-! ## The steps -/

section steps

variable {α : Type} (E : Equiv.Perm (α × α)) (mix : ℕ → α → α)

/-- Step `t`: the first register leaves the row, and what becomes of it comes in at the end. -/
def shift_step (t : ℕ) : α × List α → α × List α
  | (a, []) => (a, [])
  | (a, r :: rs) => (mix t (E (a, r)).1, rs ++ [(E (a, r)).2])

def shift_steps : ℕ → α × List α → α × List α
  | 0, x => x
  | t + 1, x => shift_step E mix (t + 1) (shift_steps t x)

/-- Step `t`, at register `i`. -/
def step (i t : ℕ) (x : α × List α) : α × List α :=
  match x.2[i]? with
  | none => x
  | some r => (mix t (E (x.1, r)).1, x.2.set i (E (x.1, r)).2)

def unstep (i t : ℕ) (x : α × List α) : α × List α :=
  match x.2[i]? with
  | none => x
  | some r => ((E.symm (mix t x.1, r)).1, x.2.set i (E.symm (mix t x.1, r)).2)

/-- The steps up to `t`, round and round `n` registers. -/
def steps (n : ℕ) : ℕ → α × List α → α × List α
  | 0, x => x
  | t + 1, x => step E mix (t % n) (t + 1) (steps n t x)

/-- The steps from `t` down to the first one taken back. -/
def unsteps (n : ℕ) : ℕ → α × List α → α × List α
  | 0, x => x
  | t + 1, x => unsteps n t (unstep E mix (t % n) (t + 1) x)

variable {E mix} {n i t : ℕ} {x : α × List α}

theorem step_of_lt (h : i < x.2.length) :
    step E mix i t x = (mix t (E (x.1, x.2[i])).1, x.2.set i (E (x.1, x.2[i])).2) := by
  rw [step, List.getElem?_eq_getElem h]

theorem unstep_of_lt (h : i < x.2.length) :
    unstep E mix i t x =
      ((E.symm (mix t x.1, x.2[i])).1, x.2.set i (E.symm (mix t x.1, x.2[i])).2) := by
  rw [unstep, List.getElem?_eq_getElem h]

theorem step_of_le (h : x.2.length ≤ i) : step E mix i t x = x := by
  rw [step, List.getElem?_eq_none h]

theorem unstep_of_le (h : x.2.length ≤ i) : unstep E mix i t x = x := by
  rw [unstep, List.getElem?_eq_none h]

@[simp] theorem length_step : (step E mix i t x).2.length = x.2.length := by
  obtain h | h := lt_or_ge i x.2.length
  · rw [step_of_lt h, List.length_set]
  · rw [step_of_le h]

@[simp] theorem length_steps : (steps E mix n t x).2.length = x.2.length := by
  induction t with
  | zero => rfl
  | succ t ih => rw [steps, length_step, ih]

theorem unstep_step (hmix : ∀ t, Function.Involutive (mix t)) :
    unstep E mix i t (step E mix i t x) = x := by
  obtain h | h := lt_or_ge i x.2.length
  · rw [step_of_lt h, unstep, List.getElem?_set_self h]
    simp only [hmix t _, Prod.mk.eta, Equiv.symm_apply_apply, List.set_set, List.set_getElem_self]
  · rw [step_of_le h, unstep_of_le h]

theorem step_unstep (hmix : ∀ t, Function.Involutive (mix t)) :
    step E mix i t (unstep E mix i t x) = x := by
  obtain h | h := lt_or_ge i x.2.length
  · rw [unstep_of_lt h, step, List.getElem?_set_self h]
    simp only [hmix t _, Prod.mk.eta, Equiv.apply_symm_apply, List.set_set, List.set_getElem_self]
  · rw [unstep_of_le h, step_of_le h]

theorem unsteps_steps (hmix : ∀ t, Function.Involutive (mix t)) :
    unsteps E mix n t (steps E mix n t x) = x := by
  induction t with
  | zero => rfl
  | succ t ih => rw [steps, unsteps, unstep_step hmix, ih]

theorem steps_unsteps (hmix : ∀ t, Function.Involutive (mix t)) :
    steps E mix n t (unsteps E mix n t x) = x := by
  induction t generalizing x with
  | zero => rfl
  | succ t ih => rw [unsteps, steps, ih, step_unstep hmix]

/-- A row that starts at the register behind the one that is set. -/
theorem rotate_set {xs : List α} (h : i < xs.length) (c : α) :
    (xs.set i c).rotate (i + 1) = (xs.rotate i).tail ++ [c] := by
  have hlen : i < (xs.set i c).length := by rwa [List.length_set]
  rw [List.rotate_eq_drop_append_take hlen, List.rotate_eq_drop_append_take h.le,
    List.drop_set_of_lt (Nat.lt_succ_self i), List.drop_eq_getElem_cons h, List.cons_append,
    List.tail_cons, List.append_assoc, List.take_succ_eq_append_getElem hlen,
    List.getElem_set_self, List.take_set_of_le le_rfl]

theorem rotate_eq_cons {xs : List α} (h : i < xs.length) :
    xs.rotate i = xs[i] :: (xs.rotate i).tail := by
  rw [List.rotate_eq_drop_append_take h.le, List.drop_eq_getElem_cons h]
  rfl

/-- The registers that have moved are those that have not, from the next one on. -/
theorem shift_steps_eq (hn : 0 < n) (hlen : x.2.length = n) :
    shift_steps E mix t x = ((steps E mix n t x).1, (steps E mix n t x).2.rotate (t % n)) := by
  induction t with
  | zero =>
      rw [Nat.zero_mod, List.rotate_zero]
      rfl
  | succ t ih =>
      have hy : (steps E mix n t x).2.length = n := by rw [length_steps, hlen]
      have hi : t % n < (steps E mix n t x).2.length := by
        rw [hy]
        exact Nat.mod_lt t hn
      have hmod (ys : List α) (h : ys.length = n) (k : ℕ) : ys.rotate (k % n) = ys.rotate k := by
        rw [← h, List.rotate_mod]
      -- The index goes back to the first register after the last one.
      have hnext : ((steps E mix n t x).2.set (t % n)
          (E ((steps E mix n t x).1, (steps E mix n t x).2[t % n])).2).rotate ((t + 1) % n) =
          ((steps E mix n t x).2.rotate (t % n)).tail ++
            [(E ((steps E mix n t x).1, (steps E mix n t x).2[t % n])).2] := by
        have hset := (List.length_set (i := t % n)
          (a := (E ((steps E mix n t x).1, (steps E mix n t x).2[t % n])).2)).trans hy
        rw [← rotate_set hi, ← Nat.mod_add_mod, hmod _ hset]
      rw [shift_steps, ih, rotate_eq_cons hi, shift_step, steps, step_of_lt hi, hnext]

/-- After whole rounds the registers are where they were. -/
theorem shift_steps_rounds {rounds : ℕ} (hlen : x.2.length = n) :
    shift_steps E mix (rounds * n) x = steps E mix n (rounds * n) x := by
  obtain rfl | hn := Nat.eq_zero_or_pos n
  · rfl
  · rw [shift_steps_eq hn hlen, Nat.mul_mod_left, List.rotate_zero]

end steps

/-! ## Semiblocks -/

/-- The bytes of a semiblock, the most significant one first. -/
def semiblock (b0 b1 b2 b3 b4 b5 b6 b7 : u8) : BitVec 64 :=
  Gcm.quad b0 b1 b2 b3 ++ Gcm.quad b4 b5 b6 b7

/-- The full semiblocks of a text. -/
def semiblocks : List u8 → List (BitVec 64)
  | b0 :: b1 :: b2 :: b3 :: b4 :: b5 :: b6 :: b7 :: bs =>
      semiblock b0 b1 b2 b3 b4 b5 b6 b7 :: semiblocks bs
  | _ => []

def quad_bytes (w : u32) : List u8 := (List.range 4).map fun i => w.extractLsb' (8 * (3 - i)) 8

def semiblock_bytes (v : BitVec 64) : List u8 :=
  quad_bytes (v.extractLsb' 32 32) ++ quad_bytes (v.extractLsb' 0 32)

/-- A block is two semiblocks. -/
def halves : BitVec 128 ≃ BitVec 64 × BitVec 64 where
  toFun v := (v.extractLsb' 64 64, v.extractLsb' 0 64)
  invFun p := p.1 ++ p.2
  left_inv _ := BitVec.extractLsb'_append_extractLsb'
  right_inv _ := Prod.ext BitVec.extractLsb'_append_eq_left BitVec.extractLsb'_append_eq_right

/-- A block cipher on two semiblocks. -/
def paired (E : Equiv.Perm (BitVec 128)) : Equiv.Perm (BitVec 64 × BitVec 64) :=
  (halves.symm.trans E).trans halves

theorem paired_symm_apply (E : Equiv.Perm (BitVec 128)) (p : BitVec 64 × BitVec 64) :
    (paired E).symm p = paired E.symm p := rfl

/-- The number of a step is added to a semiblock. -/
def mix (t : ℕ) (a : BitVec 64) : BitVec 64 := a ^^^ BitVec.ofNat 64 t

theorem mix_involutive (t : ℕ) : Function.Involutive (mix t) := by
  intro a
  rw [mix, mix, BitVec.xor_assoc, BitVec.xor_self, BitVec.xor_zero]

/-- The alternative initial value for a message of `len` bytes. -/
def aiv (len : ℕ) : BitVec 64 := 0xa65959a6#32 ++ BitVec.ofNat 32 len

/-- A message with zeros up to a whole number of semiblocks. -/
def padded (msg : List u8) : List u8 := msg ++ List.replicate ((8 - msg.length % 8) % 8) 0

/-- Key wrapping with padding, for a message of more than one semiblock. -/
def rfc5649_wrap (E : Equiv.Perm (BitVec 128)) (msg : List u8) : List u8 :=
  let regs := semiblocks (padded msg)
  let wrapped := shift_steps (paired E) mix (6 * regs.length) (aiv msg.length, regs)
  (wrapped.1 :: wrapped.2).flatMap semiblock_bytes

theorem quad_bytes_quad (b0 b1 b2 b3 : u8) : quad_bytes (Gcm.quad b0 b1 b2 b3) = [b0, b1, b2, b3] := by
  have hbyte := Gcm.extractLsb'_quad b0 b1 b2 b3
  have hrange : List.range 4 = [0, 1, 2, 3] := rfl
  rw [quad_bytes, hrange]
  simp only [List.map_cons, List.map_nil]
  rw [hbyte 0 (by decide), hbyte 1 (by decide), hbyte 2 (by decide), hbyte 3 (by decide)]
  rfl

theorem exists_quad (w : u32) : ∃ b0 b1 b2 b3, w = Gcm.quad b0 b1 b2 b3 := by
  refine ⟨w.extractLsb' 24 8, w.extractLsb' 16 8, w.extractLsb' 8 8, w.extractLsb' 0 8, ?_⟩
  rw [Gcm.quad, BitVec.extractLsb'_append_extractLsb'_eq_extractLsb' (show 24 = 16 + 8 from rfl),
    BitVec.extractLsb'_append_extractLsb'_eq_extractLsb' (show 16 = 8 + 8 from rfl),
    BitVec.extractLsb'_append_extractLsb'_eq_extractLsb' (show 8 = 0 + 8 from rfl)]
  exact BitVec.extractLsb'_eq_self.symm

theorem length_semiblock_bytes (v : BitVec 64) : (semiblock_bytes v).length = 8 := rfl

theorem semiblock_bytes_semiblock (b0 b1 b2 b3 b4 b5 b6 b7 : u8) :
    semiblock_bytes (semiblock b0 b1 b2 b3 b4 b5 b6 b7) = [b0, b1, b2, b3, b4, b5, b6, b7] := by
  rw [semiblock_bytes, semiblock, BitVec.extractLsb'_append_eq_left,
    BitVec.extractLsb'_append_eq_right, quad_bytes_quad, quad_bytes_quad]
  rfl

theorem semiblocks_semiblock_bytes (v : BitVec 64) (bs : List u8) :
    semiblocks (semiblock_bytes v ++ bs) = v :: semiblocks bs := by
  obtain ⟨b0, b1, b2, b3, hhigh⟩ := exists_quad (v.extractLsb' 32 32)
  obtain ⟨b4, b5, b6, b7, hlow⟩ := exists_quad (v.extractLsb' 0 32)
  have hboth : v.extractLsb' 32 32 ++ v.extractLsb' 0 32 = (v : BitVec (32 + 32)) :=
    BitVec.extractLsb'_append_extractLsb'
  have hv : v = semiblock b0 b1 b2 b3 b4 b5 b6 b7 := by
    rw [semiblock, ← hhigh, ← hlow]
    exact hboth.symm
  rw [hv, semiblock_bytes_semiblock]
  rfl

/-- Semiblocks are known by their bytes. -/
theorem semiblocks_flatMap (vs : List (BitVec 64)) : semiblocks (vs.flatMap semiblock_bytes) = vs := by
  induction vs with
  | nil => rfl
  | cons v vs ih => rw [List.flatMap_cons, semiblocks_semiblock_bytes, ih]

theorem exists_semiblock {bs : List u8} (h : 8 ≤ bs.length) : ∃ b0 b1 b2 b3 b4 b5 b6 b7 bs',
    bs = b0 :: b1 :: b2 :: b3 :: b4 :: b5 :: b6 :: b7 :: bs' := by
  rcases bs with _ | ⟨b0, _ | ⟨b1, _ | ⟨b2, _ | ⟨b3, _ | ⟨b4, _ | ⟨b5, _ | ⟨b6, _ | ⟨b7, bs⟩⟩⟩⟩⟩⟩⟩⟩
  case cons.cons.cons.cons.cons.cons.cons.cons => exact ⟨b0, b1, b2, b3, b4, b5, b6, b7, bs, rfl⟩
  all_goals exact absurd h (by simp)

/-- Whole semiblocks lose nothing. -/
theorem flatMap_semiblocks {k : ℕ} {bs : List u8} (h : bs.length = 8 * k) :
    (semiblocks bs).flatMap semiblock_bytes = bs := by
  induction k generalizing bs with
  | zero =>
      obtain rfl := List.eq_nil_of_length_eq_zero h
      rfl
  | succ k ih =>
      obtain ⟨b0, b1, b2, b3, b4, b5, b6, b7, bs, rfl⟩ := exists_semiblock (show 8 ≤ bs.length by omega)
      simp only [List.length_cons] at h
      rw [semiblocks, List.flatMap_cons, semiblock_bytes_semiblock, ih (by omega)]
      rfl

theorem length_semiblocks {k : ℕ} {bs : List u8} (h : bs.length = 8 * k) :
    (semiblocks bs).length = k := by
  have hlen := congrArg List.length (flatMap_semiblocks h)
  simp only [List.length_flatMap, length_semiblock_bytes, List.map_const', List.sum_replicate, h,
    smul_eq_mul] at hlen
  omega

theorem length_padded (msg : List u8) : (padded msg).length = 8 * ((msg.length + 7) / 8) := by
  rw [padded, List.length_append, List.length_replicate]
  omega

end IbexFirmware.KeyWrap
