/-
Assembly text of RV32I, as far as start-up code uses it.

A program is its text, line by line, labels included. What a processor has still to carry out is
a text too: the lines from where it is, so that a branch to a label goes on with what stands
behind the label. `Reaches` is any number of steps. For a block without branches `reaches_ops`
gives the run at once, as the fold of its instructions, and for a loop `reaches_invariant` asks
for what one step keeps.

Every byte that is stored to is noted in `written`, whether or not the store changes it. The
notes never get fewer (`step_written`).
-/
import IbexFirmware.Lib.Bytes
import Mathlib.Logic.Relation

set_option autoImplicit false

namespace IbexFirmware.Rv32

open Bytes Relation

/-! ## States -/

abbrev Reg := Fin 32

structure State where
  reg : Reg → u32
  mem : u32 → u8
  written : List u32

namespace State

variable (s : State)

/-- `x0` is zero whatever is written to it. -/
def get (r : Reg) : u32 := if r = 0 then 0 else s.reg r

def set (rd : Reg) (v : u32) : State := { s with reg := Function.update s.reg rd v }

/-- A stored word, the least significant byte first. Addresses wrap around. -/
def store (a w : u32) : State :=
  { s with
    mem := fun x => if (x - a).toNat < 4 then byteOf w (x - a).toNat else s.mem x
    written := s.written ++ [a, a + 1, a + 2, a + 3] }

@[simp] theorem get_x0 : s.get 0 = 0 := rfl

@[simp] theorem get_set_self {rd : Reg} (v : u32) (h : rd ≠ 0) : (s.set rd v).get rd = v := by
  simp [get, set, h]

@[simp] theorem get_set_of_ne {r rd : Reg} (v : u32) (h : r ≠ rd) :
    (s.set rd v).get r = s.get r := by
  simp [get, set, h]

/-- A zeroed register is zero, and so are those that were. -/
theorem get_set_zero {r rd : Reg} (h : r = rd ∨ s.get r = 0) : (s.set rd 0).get r = 0 := by
  by_cases hrd : r = rd
  · subst hrd
    simp [get, set]
  · rw [get_set_of_ne s 0 hrd]
    exact h.resolve_left hrd

@[simp] theorem mem_set (rd : Reg) (v : u32) : (s.set rd v).mem = s.mem := rfl

@[simp] theorem written_set (rd : Reg) (v : u32) : (s.set rd v).written = s.written := rfl

@[simp] theorem get_store (r : Reg) (a w : u32) : (s.store a w).get r = s.get r := rfl

end State

/-! ## Text -/

/-- The instructions that go on with the next line. -/
inductive Op where
  | mv (rd rs : Reg)
  | la (rd : Reg) (symbol : u32)
  | addi (rd rs : Reg) (imm : BitVec 12)
  | sw (rs2 : Reg) (offset : BitVec 12) (rs1 : Reg)
  deriving DecidableEq

def Op.run : Op → State → State
  | .mv rd rs, s => s.set rd (s.get rs)
  | .la rd symbol, s => s.set rd symbol
  | .addi rd rs imm, s => s.set rd (s.get rs + imm.signExtend 32)
  | .sw rs2 offset rs1, s => s.store (s.get rs1 + offset.signExtend 32) (s.get rs2)

variable {ι : Type}

inductive Line (ι : Type) where
  | label (l : ι)
  | op (i : Op)
  | bge (rs1 rs2 : Reg) (l : ι)
  | ble (rs1 rs2 : Reg) (l : ι)
  deriving DecidableEq

abbrev Text (ι : Type) := List (Line ι)

variable [DecidableEq ι]

/-- What stands behind a label. -/
def Text.behind (text : Text ι) (l : ι) : Text ι :=
  (text.dropWhile fun line => decide (line ≠ .label l)).tail

/-- One line. The text ends where no line is left. -/
def step (text : Text ι) : State × Text ι → Option (State × Text ι)
  | (_, []) => none
  | (s, .label _ :: rest) => some (s, rest)
  | (s, .op i :: rest) => some (i.run s, rest)
  | (s, .bge rs1 rs2 l :: rest) =>
      some (s, if (s.get rs2).sle (s.get rs1) then text.behind l else rest)
  | (s, .ble rs1 rs2 l :: rest) =>
      some (s, if (s.get rs1).sle (s.get rs2) then text.behind l else rest)

/-! ## Runs -/

def Reaches (text : Text ι) : State × Text ι → State × Text ι → Prop :=
  ReflTransGen fun c c' => step text c = some c'

section runs

variable {text : Text ι} {c c' c'' : State × Text ι}

theorem Reaches.refl : Reaches text c c := ReflTransGen.refl

theorem Reaches.trans (h : Reaches text c c') (h' : Reaches text c' c'') : Reaches text c c'' :=
  ReflTransGen.trans h h'

theorem Reaches.of_step (h : step text c = some c') : Reaches text c c' := ReflTransGen.single h

/-- What every step keeps, a run keeps. -/
theorem reaches_invariant (I : State × Text ι → Prop)
    (hstep : ∀ c c', I c → step text c = some c' → I c') (h : Reaches text c c') (hc : I c) :
    I c' := by
  induction h with
  | refl => exact hc
  | tail _ hlast ih => exact hstep _ _ ih hlast

/-- A block without branches is run from its first line to its last. -/
theorem reaches_ops (text : Text ι) (ops : List Op) (s : State) (rest : Text ι) :
    Reaches text (s, ops.map .op ++ rest) (ops.foldl (fun s i => i.run s) s, rest) := by
  induction ops generalizing s with
  | nil => exact Reaches.refl
  | cons i ops ih => exact (Reaches.of_step rfl).trans (ih (i.run s))

theorem Op.written_mono (i : Op) (s : State) : ∀ x ∈ s.written, x ∈ (i.run s).written := by
  intro x hx
  cases i with
  | mv rd rs => exact hx
  | la rd symbol => exact hx
  | addi rd rs imm => exact hx
  | sw rs2 offset rs1 => exact List.mem_append_left _ hx

/-- A note stays. -/
theorem step_written {x : u32} (hx : x ∈ c.1.written) (h : step text c = some c') :
    x ∈ c'.1.written := by
  obtain ⟨s, code⟩ := c
  cases code with
  | nil => cases h
  | cons line rest =>
      cases line <;> obtain rfl := Option.some.inj h
      case op i => exact i.written_mono s x hx
      all_goals exact hx

end runs

/-! ## Signed comparison -/

/-- Below the sign bit the signed order is the order of the numbers. -/
theorem sle_iff_of_lt {a b : u32} (ha : a.toNat < 2 ^ 31) (hb : b.toNat < 2 ^ 31) :
    a.sle b = true ↔ a.toNat ≤ b.toNat := by
  rw [BitVec.sle_iff_toInt_le, BitVec.toInt_eq_toNat_of_lt (by omega),
    BitVec.toInt_eq_toNat_of_lt (by omega)]
  exact Int.ofNat_le

end IbexFirmware.Rv32
