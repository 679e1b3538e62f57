/-
The physical memory protection registers of the core (`ibex_cs_registers.sv`) and the
addresses that an entry matches (`ibex_pmp.sv`), with sixteen entries and granularity 0.

A write of a configuration register is a write of four entries. Each of them takes it or
not: a locked entry does not while rule locking bypass is off, and with machine mode
lockdown an entry that machine mode could execute from does not. What an entry takes is
not always what was written. The two reserved bits read as zero, and W without R is kept
as neither while lockdown is off: `holds` is the bytes that read back as written, and the
field `held` of the registers is that no entry has such a pair.
-/
import IbexFirmware.Lib.Bits

set_option autoImplicit false

namespace IbexFirmware.Pmp

open Bytes Bits

/-! ## The registers -/

inductive PmpCfgMode
  | off
  | tor
  | na4
  | napot
  deriving DecidableEq

/-- `pmp_cfg_t`. -/
structure PmpCfg where
  lock : Bool
  mode : PmpCfgMode
  exec : Bool
  write : Bool
  read : Bool
  deriving DecidableEq

/-- `pmp_mseccfg_t`. -/
structure PmpMseccfg where
  rlb : Bool
  mmwp : Bool
  mml : Bool
  deriving DecidableEq

structure PmpRegs where
  pmp_cfg : Fin 16 → PmpCfg
  pmp_addr : Fin 16 → u32
  pmp_mseccfg : PmpMseccfg
  held : pmp_mseccfg.mml = false → ∀ i, (pmp_cfg i).write = true → (pmp_cfg i).read = true

inductive CsrReg
  | pmpcfg (k : Fin 4)
  | pmpaddr (i : Fin 16)
  | mseccfg
  | mseccfgh

def CSR_MSECCFG_MML_BIT : ℕ := 0
def CSR_MSECCFG_MMWP_BIT : ℕ := 1
def CSR_MSECCFG_RLB_BIT : ℕ := 2

def PmpCfgMode.bits : PmpCfgMode → BitVec 2
  | off => 0b00
  | tor => 0b01
  | na4 => 0b10
  | napot => 0b11

def PmpCfgMode.ofBits (b : BitVec 2) : PmpCfgMode :=
  if b = 0b00 then off else if b = 0b01 then tor else if b = 0b10 then na4 else napot

/-- An entry as it reads, with zero padding for the reserved fields. -/
def pmp_cfg_rdata (c : PmpCfg) : u8 :=
  BitVec.ofBool c.lock ++ (0b00 : BitVec 2) ++ c.mode.bits ++ BitVec.ofBool c.exec ++
    BitVec.ofBool c.write ++ BitVec.ofBool c.read

/-- An entry as it is written. -/
def pmp_cfg_wdata (mml : Bool) (b : u8) : PmpCfg where
  lock := b.getLsbD 7
  mode := PmpCfgMode.ofBits (b.extractLsb' 3 2)
  exec := b.getLsbD 2
  -- W without R is a reserved combination unless MML is set
  write := if mml then b.getLsbD 1 else b.getLsbD 1 && b.getLsbD 0
  read := b.getLsbD 0

def mseccfg_rdata (m : PmpMseccfg) : u32 :=
  (BitVec.ofBool m.rlb ++ BitVec.ofBool m.mmwp ++ BitVec.ofBool m.mml).setWidth 32

/-- The configurations that allow machine mode to execute. -/
def is_mml_m_exec_cfg (c : PmpCfg) : Bool :=
  c.lock && (match c.read, c.write, c.exec with
    | false, false, true => true
    | false, true, false => true
    | false, true, true => true
    | true, false, true => true
    | _, _, _ => false)

namespace PmpRegs

variable (p : PmpRegs)

def pmp_cfg_locked (i : Fin 16) : Bool := (p.pmp_cfg i).lock && !p.pmp_mseccfg.rlb

def any_pmp_entry_locked : Bool := (List.finRange 16).any p.pmp_cfg_locked

def pmp_cfg_wr_suppress (wdata : PmpCfg) : Bool :=
  p.pmp_mseccfg.mml && !p.pmp_mseccfg.rlb && is_mml_m_exec_cfg wdata

/-- An address is also locked by the entry that it is the start of. -/
def pmp_addr_we (i : Fin 16) : Bool :=
  if h : i.val < 15 then
    !p.pmp_cfg_locked i && (!p.pmp_cfg_locked ⟨i + 1, by omega⟩ ||
      (p.pmp_cfg ⟨i + 1, by omega⟩).mode ≠ .tor)
  else !p.pmp_cfg_locked i

/-- Entry `i` after a write of `w` to its register. -/
def pmp_cfg_next (i : Fin 16) (w : u32) : PmpCfg :=
  let wdata := pmp_cfg_wdata p.pmp_mseccfg.mml (byteOf w (i % 4))
  if !p.pmp_cfg_locked i && !p.pmp_cfg_wr_suppress wdata then wdata else p.pmp_cfg i

/-- MML and MMWP cannot be unset once set, and RLB not be set with an entry locked. -/
def pmp_mseccfg_next (w : u32) : PmpMseccfg where
  rlb := if p.any_pmp_entry_locked then false else w.getLsbD CSR_MSECCFG_RLB_BIT
  mmwp := if p.pmp_mseccfg.mmwp then true else w.getLsbD CSR_MSECCFG_MMWP_BIT
  mml := if p.pmp_mseccfg.mml then true else w.getLsbD CSR_MSECCFG_MML_BIT

theorem pmp_cfg_next_held (i : Fin 16) (w : u32) (hmml : p.pmp_mseccfg.mml = false) :
    (p.pmp_cfg_next i w).write = true → (p.pmp_cfg_next i w).read = true := by
  simp only [pmp_cfg_next]
  split_ifs
  · simp [pmp_cfg_wdata, hmml]
  · exact p.held hmml i

def csr_write : CsrReg → u32 → PmpRegs
  | .pmpcfg k, w =>
      { p with
        pmp_cfg := fun i => if i.val / 4 = k then p.pmp_cfg_next i w else p.pmp_cfg i
        held := fun hmml i => by
          split_ifs
          · exact p.pmp_cfg_next_held i w hmml
          · exact p.held hmml i }
  | .pmpaddr i, w =>
      { p with pmp_addr := if p.pmp_addr_we i then Function.update p.pmp_addr i w else p.pmp_addr }
  | .mseccfg, w =>
      { p with
        pmp_mseccfg := p.pmp_mseccfg_next w
        held := fun hmml => p.held (by
          cases hold : p.pmp_mseccfg.mml with
          | false => rfl
          | true => simp [pmp_mseccfg_next, hold] at hmml) }
  | .mseccfgh, _ => p

/-- Entry `j` of register `k`. -/
def entry (k : Fin 4) (j : Fin 4) : Fin 16 := ⟨4 * k + j, by omega⟩

def csr_read : CsrReg → u32
  | .pmpcfg k =>
      word (pmp_cfg_rdata (p.pmp_cfg (entry k 0))) (pmp_cfg_rdata (p.pmp_cfg (entry k 1)))
        (pmp_cfg_rdata (p.pmp_cfg (entry k 2))) (pmp_cfg_rdata (p.pmp_cfg (entry k 3)))
  | .pmpaddr i => p.pmp_addr i
  | .mseccfg => mseccfg_rdata p.pmp_mseccfg
  | .mseccfgh => 0

def csr_set_bits (reg : CsrReg) (mask : u32) : PmpRegs :=
  p.csr_write reg (mask ||| p.csr_read reg)

def csr_clear_bits (reg : CsrReg) (mask : u32) : PmpRegs :=
  p.csr_write reg (~~~mask &&& p.csr_read reg)

/-! ## The addresses of an entry

The comparators are on bits 33 to 2 of 34-bit addresses, which for an address of the core
are those of `x >>> 2`, and for an address register all 32. -/

def region_start_addr (r : Fin 16) : u32 :=
  if (p.pmp_cfg r).mode = .tor then
    if h : 0 < r.val then p.pmp_addr ⟨r - 1, by omega⟩ else 0
  else p.pmp_addr r

/-- Address mask for NA matching. -/
def region_addr_mask (r : Fin 16) (b : ℕ) : Bool :=
  (p.pmp_cfg r).mode ≠ .napot || block_mask (p.pmp_addr r) b

def region_match_eq (r : Fin 16) (x : u32) : Bool :=
  (List.range 32).all fun b =>
    !p.region_addr_mask r b || (x >>> 2).getLsbD b == (p.region_start_addr r).getLsbD b

def region_match_gt (r : Fin 16) (x : u32) : Bool := x >>> 2 > p.region_start_addr r

def region_match_lt (r : Fin 16) (x : u32) : Bool := x >>> 2 < p.pmp_addr r

def region_match_all (r : Fin 16) (x : u32) : Bool :=
  match (p.pmp_cfg r).mode with
  | .off => false
  | .na4 => p.region_match_eq r x
  | .napot => p.region_match_eq r x
  | .tor => (p.region_match_eq r x || p.region_match_gt r x) && p.region_match_lt r x

end PmpRegs

/-! ## What an entry holds -/

/-- The bytes that an entry reads as after they were written to it. -/
def holds (mml : Bool) (b : u8) : Prop :=
  b.getLsbD 5 = false ∧ b.getLsbD 6 = false ∧
    (mml = false → b.getLsbD 1 = true → b.getLsbD 0 = true)

instance (mml : Bool) (b : u8) : Decidable (holds mml b) :=
  inferInstanceAs (Decidable (_ ∧ _ ∧ _))

theorem rdata_wdata_iff (mml : Bool) (b : u8) :
    pmp_cfg_rdata (pmp_cfg_wdata mml b) = b ↔ holds mml b := by
  revert b
  cases mml <;> decide +kernel

theorem wdata_rdata (mml : Bool) (c : PmpCfg)
    (h : mml = false → c.write = true → c.read = true) :
    pmp_cfg_wdata mml (pmp_cfg_rdata c) = c := by
  obtain ⟨lock, mode, exec, write, read⟩ := c
  revert h
  cases mml <;> cases lock <;> cases mode <;> cases exec <;> cases write <;> cases read <;>
    decide

theorem rdata_holds (mml : Bool) (c : PmpCfg)
    (h : mml = false → c.write = true → c.read = true) : holds mml (pmp_cfg_rdata c) := by
  rw [← rdata_wdata_iff, wdata_rdata mml c h]

theorem rdata_lock (c : PmpCfg) : (pmp_cfg_rdata c).getLsbD 7 = c.lock := by
  obtain ⟨lock, mode, exec, write, read⟩ := c
  cases lock <;> cases mode <;> cases exec <;> cases write <;> cases read <;> decide

namespace PmpRegs

variable {p : PmpRegs}

theorem wdata_pmp_cfg (i : Fin 16) :
    pmp_cfg_wdata p.pmp_mseccfg.mml (pmp_cfg_rdata (p.pmp_cfg i)) = p.pmp_cfg i :=
  wdata_rdata _ _ fun hmml => p.held hmml i

theorem byteOf_csr_read (i : Fin 16) (k : Fin 4) (hk : i.val / 4 = k) :
    byteOf (p.csr_read (.pmpcfg k)) (i % 4) = pmp_cfg_rdata (p.pmp_cfg i) := by
  rw [csr_read, byteOf_word _ _ _ _ _ (by omega)]
  split_ifs with h0 h1 h2
  all_goals
    refine congrArg (fun j => pmp_cfg_rdata (p.pmp_cfg j)) (Fin.ext ?_)
    simp only [entry]
    omega

/-- Entry `i` takes a byte that it can hold, with rule locking bypass. -/
theorem pmp_cfg_next_of_rlb {i : Fin 16} {w : u32} (hrlb : p.pmp_mseccfg.rlb = true) :
    p.pmp_cfg_next i w = pmp_cfg_wdata p.pmp_mseccfg.mml (byteOf w (i % 4)) := by
  simp [pmp_cfg_next, pmp_cfg_locked, pmp_cfg_wr_suppress, hrlb]

/-- Writing an entry what it reads as changes nothing. -/
theorem pmp_cfg_next_of_same {i : Fin 16} {w : u32}
    (h : byteOf w (i % 4) = pmp_cfg_rdata (p.pmp_cfg i)) : p.pmp_cfg_next i w = p.pmp_cfg i := by
  unfold pmp_cfg_next
  rw [h, wdata_pmp_cfg]
  exact ite_self _

/-- A locked entry takes nothing without rule locking bypass. -/
theorem pmp_cfg_next_of_locked {i : Fin 16} {w : u32} (hrlb : p.pmp_mseccfg.rlb = false)
    (hlock : (p.pmp_cfg i).lock = true) : p.pmp_cfg_next i w = p.pmp_cfg i := by
  simp [pmp_cfg_next, pmp_cfg_locked, hrlb, hlock]

/-- An entry that is not locked takes what is not locked. -/
theorem pmp_cfg_next_of_unlocked {i : Fin 16} {w : u32} (hlock : (p.pmp_cfg i).lock = false)
    (hbyte : (byteOf w (i % 4)).getLsbD 7 = false) :
    p.pmp_cfg_next i w = pmp_cfg_wdata p.pmp_mseccfg.mml (byteOf w (i % 4)) := by
  have hexec : is_mml_m_exec_cfg (pmp_cfg_wdata p.pmp_mseccfg.mml (byteOf w (i % 4))) = false := by
    rw [is_mml_m_exec_cfg]
    simp only [pmp_cfg_wdata, hbyte, Bool.false_and]
  simp [pmp_cfg_next, pmp_cfg_locked, pmp_cfg_wr_suppress, hlock, hexec]

end PmpRegs

end IbexFirmware.Pmp
