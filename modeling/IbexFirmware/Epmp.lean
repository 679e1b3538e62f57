/-
The ePMP driver and its copy of the registers (`drivers/epmp.c`, `epmp_state.c`).

Each function changes the registers and `epmp_state` side by side. Both hold sixteen
entries of a configuration byte and an address: `entries` reads them out of the copy,
`csr_entries` out of the registers, and a function is described by what it does to
them. The traps are part of the model: a function is `none` where the source traps.
-/
import IbexFirmware.Pmp
import IbexFirmware.RomError

set_option autoImplicit false

namespace IbexFirmware.Epmp

open Bytes Bits Pmp

/-! ## The state -/

def EPMP_MSECCFG_RLB : u32 := (1 : u32) <<< 2

def EPMP_CFG_L : u32 := (1 : u32) <<< 7
def EPMP_CFG_X : u32 := (1 : u32) <<< 2
def EPMP_CFG_W : u32 := (1 : u32) <<< 1
def EPMP_CFG_R : u32 := (1 : u32) <<< 0

/-- `epmp_perm_t`. -/
inductive EpmpPerm
  | kEpmpPermUnlocked
  | kEpmpPermLockedNoAccess
  | kEpmpPermLockedReadOnly
  | kEpmpPermLockedReadWrite
  | kEpmpPermLockedReadExecute
  | kEpmpPermLockedReadWriteExecute
  | kEpmpPermReadOnly
  | kEpmpPermReadWrite
  | kEpmpPermReadExecute
  | kEpmpPermReadWriteExecute

def EpmpPerm.val : EpmpPerm → u32
  | kEpmpPermUnlocked => 0
  | kEpmpPermLockedNoAccess => EPMP_CFG_L
  | kEpmpPermLockedReadOnly => EPMP_CFG_L ||| EPMP_CFG_R
  | kEpmpPermLockedReadWrite => EPMP_CFG_L ||| EPMP_CFG_R ||| EPMP_CFG_W
  | kEpmpPermLockedReadExecute => EPMP_CFG_L ||| EPMP_CFG_R ||| EPMP_CFG_X
  | kEpmpPermLockedReadWriteExecute => EPMP_CFG_L ||| EPMP_CFG_R ||| EPMP_CFG_W ||| EPMP_CFG_X
  | kEpmpPermReadOnly => EPMP_CFG_R
  | kEpmpPermReadWrite => EPMP_CFG_R ||| EPMP_CFG_W
  | kEpmpPermReadExecute => EPMP_CFG_R ||| EPMP_CFG_X
  | kEpmpPermReadWriteExecute => EPMP_CFG_R ||| EPMP_CFG_W ||| EPMP_CFG_X

/-- `epmp_mode_t`. -/
inductive EpmpMode
  | kEpmpModeOff
  | kEpmpModeTor
  | kEpmpModeNa4
  | kEpmpModeNapot

def EpmpMode.val : EpmpMode → u32
  | kEpmpModeOff => (0 : u32) <<< 3
  | kEpmpModeTor => (1 : u32) <<< 3
  | kEpmpModeNa4 => (2 : u32) <<< 3
  | kEpmpModeNapot => (3 : u32) <<< 3

/-- `epmp_region_t`: `start` is inclusive and `end_` is exclusive. -/
structure EpmpRegion where
  start : u32
  end_ : u32

/-- `epmp_state_t`. -/
structure EpmpState where
  pmpcfg : Vector u32 4
  pmpaddr : Vector u32 16
  mseccfg : u32

structure State where
  epmp_state : EpmpState
  csr : PmpRegs

/-! ## The driver -/

def EPMP_SET (cfg_reg : Fin 4) (addr_reg : Fin 16) (mask cfg pmpaddr : u32) (csr : PmpRegs) :
    PmpRegs :=
  let csr := csr.csr_clear_bits (.pmpcfg cfg_reg) mask
  let csr := csr.csr_write (.pmpaddr addr_reg) pmpaddr
  csr.csr_set_bits (.pmpcfg cfg_reg) cfg

/-- The cases of the source are one for each entry, with its two registers. -/
def epmp_set (entry : u8) (pmpcfg pmpaddr : u32) (s : State) : Option State :=
  let shift := 8 * (entry.toNat % 4)
  let mask := (0xff : u32) <<< shift
  let cfg := (pmpcfg &&& 0xff) <<< shift
  if h : entry.toNat < 16 then
    let cfgent : Fin 4 := ⟨entry.toNat / 4, by omega⟩
    some
      { epmp_state := { s.epmp_state with
          pmpcfg := s.epmp_state.pmpcfg.set cfgent (s.epmp_state.pmpcfg[cfgent] &&& ~~~mask ||| cfg)
          pmpaddr := s.epmp_state.pmpaddr.set entry.toNat pmpaddr }
        csr := EPMP_SET cfgent ⟨entry.toNat, h⟩ mask cfg pmpaddr s.csr }
  else none

def epmp_clear (entry : u8) (s : State) : Option State :=
  epmp_set entry EpmpMode.kEpmpModeOff.val 0 s

/-- The lock bits of a configuration register. -/
def lock_mask : u32 :=
  EPMP_CFG_L <<< (0 * 8) ||| EPMP_CFG_L <<< (1 * 8) ||| EPMP_CFG_L <<< (2 * 8) |||
    EPMP_CFG_L <<< (3 * 8)

def epmp_clear_lock_bits (s : State) : State :=
  let csr := s.csr.csr_clear_bits (.pmpcfg 0) lock_mask
  let csr := csr.csr_clear_bits (.pmpcfg 1) lock_mask
  let csr := csr.csr_clear_bits (.pmpcfg 2) lock_mask
  let csr := csr.csr_clear_bits (.pmpcfg 3) lock_mask
  { epmp_state := { s.epmp_state with
      pmpcfg := s.epmp_state.pmpcfg.map fun w => w &&& ~~~lock_mask }
    csr }

def epmp_set_lock_bits (s : State) : State :=
  let csr := s.csr.csr_set_bits (.pmpcfg 0) lock_mask
  let csr := csr.csr_set_bits (.pmpcfg 1) lock_mask
  let csr := csr.csr_set_bits (.pmpcfg 2) lock_mask
  let csr := csr.csr_set_bits (.pmpcfg 3) lock_mask
  { epmp_state := { s.epmp_state with
      pmpcfg := s.epmp_state.pmpcfg.map fun w => w ||| lock_mask }
    csr }

def epmp_encode_napot (region : EpmpRegion) : Option u32 := do
  let length := region.end_ - region.start
  hardened_check (length ≥ 4)
  -- the length must be a power of 2
  hardened_check (length.cpop.toNat = 1)
  -- the start address must be naturally aligned with length
  hardened_check (region.start &&& (length - 1) = 0)
  return region.start >>> 2 ||| (length - 1) >>> 3

def epmp_set_napot (entry : u8) (region : EpmpRegion) (perm : EpmpPerm) (s : State) :
    Option State := do
  let addr ← epmp_encode_napot region
  let mode : EpmpMode := if region.end_ - region.start = 4 then .kEpmpModeNa4 else .kEpmpModeNapot
  epmp_set entry (mode.val ||| perm.val) addr s

def epmp_set_tor (entry : u8) (region : EpmpRegion) (perm : EpmpPerm) (s : State) :
    Option State := do
  let start := region.start >>> 2
  let end_ := ((region.end_ + 3) &&& ~~~3) >>> 2
  let s ← epmp_set entry EpmpMode.kEpmpModeOff.val start s
  epmp_set (entry + 1) (EpmpMode.kEpmpModeTor.val ||| perm.val) end_ s

def epmp_clear_rlb (s : State) : State :=
  { epmp_state := { s.epmp_state with mseccfg := s.epmp_state.mseccfg &&& ~~~EPMP_MSECCFG_RLB }
    csr := s.csr.csr_clear_bits .mseccfg EPMP_MSECCFG_RLB }

/-! ## The check -/

/-- The register reads as its copy. -/
def check_csr (csr : PmpRegs) (reg : CsrReg) (value : u32) : ℕ :=
  if csr.csr_read reg = value then 1 else 0

def kTotalChecks : ℕ := 22

/-- How many of the checks hold. -/
def epmp_checks (s : State) : ℕ :=
  ((List.finRange 16).map fun i => check_csr s.csr (.pmpaddr i) s.epmp_state.pmpaddr[i]).sum +
    ((List.finRange 4).map fun k => check_csr s.csr (.pmpcfg k) (s.epmp_state.pmpcfg.get k)).sum +
    check_csr s.csr .mseccfg s.epmp_state.mseccfg + check_csr s.csr .mseccfgh 0

def epmp_state_check (s : State) : Option u32 :=
  let checks := epmp_checks s
  let error := RomError.kErrorOk.code ^^^ BitVec.ofNat 32 kTotalChecks
  if checks = kTotalChecks then do
    hardened_check (checks = kTotalChecks)
    let error := error ^^^ BitVec.ofNat 32 checks
    hardened_check (error = RomError.kErrorOk.code)
    return error
  else return RomError.kErrorEpmpBadCheck.code

/-! ## Entries -/

/-- The configuration byte and the address of an entry. -/
structure Entry where
  cfg : u8
  addr : u32
  deriving DecidableEq

def entries (st : EpmpState) (i : Fin 16) : Entry :=
  ⟨byteOf (st.pmpcfg[i.val / 4]) (i % 4), st.pmpaddr[i]⟩

def csr_entries (p : PmpRegs) (i : Fin 16) : Entry := ⟨pmp_cfg_rdata (p.pmp_cfg i), p.pmp_addr i⟩

/-- The copy equals the registers. -/
structure Matches (s : State) : Prop where
  pmpaddr : ∀ i : Fin 16, s.epmp_state.pmpaddr[i] = s.csr.csr_read (.pmpaddr i)
  pmpcfg : ∀ k : Fin 4, s.epmp_state.pmpcfg.get k = s.csr.csr_read (.pmpcfg k)
  mseccfg : s.epmp_state.mseccfg = s.csr.csr_read .mseccfg

/-- Registers match when their entries do. -/
theorem matches_iff (s : State) : Matches s ↔
    entries s.epmp_state = csr_entries s.csr ∧
      s.epmp_state.mseccfg = s.csr.csr_read .mseccfg := by
  constructor
  · intro h
    refine ⟨funext fun i => ?_, h.mseccfg⟩
    have hcfg := h.pmpcfg ⟨i.val / 4, by omega⟩
    have hbyte := PmpRegs.byteOf_csr_read (p := s.csr) i ⟨i.val / 4, by omega⟩ rfl
    rw [← hcfg] at hbyte
    exact congrArg₂ Entry.mk hbyte (h.pmpaddr i)
  · rintro ⟨hentries, hmseccfg⟩
    refine ⟨fun i => congrArg Entry.addr (congrFun hentries i), fun k => ?_, hmseccfg⟩
    refine word_ext fun j hj => ?_
    have hcfg := congrArg Entry.cfg (congrFun hentries ⟨4 * k.val + j, by omega⟩)
    have hk : (4 * k.val + j) / 4 = k.val := by omega
    have hj' : (4 * k.val + j) % 4 = j := by omega
    have hread := PmpRegs.byteOf_csr_read (p := s.csr) ⟨4 * k.val + j, by omega⟩ k hk
    simp only [entries, csr_entries, hk, hj'] at hcfg hread
    exact hcfg.trans hread.symm

/-- The check succeeds exactly where the copy matches. -/
theorem epmp_state_check_of_matches {s : State} (h : Matches s) :
    epmp_state_check s = some RomError.kErrorOk.code := by
  have haddr : ∀ i : Fin 16, check_csr s.csr (.pmpaddr i) s.epmp_state.pmpaddr[i] = 1 :=
    fun i => if_pos (h.pmpaddr i).symm
  have hcfg : ∀ k : Fin 4, check_csr s.csr (.pmpcfg k) (s.epmp_state.pmpcfg.get k) = 1 :=
    fun k => if_pos (h.pmpcfg k).symm
  have hmseccfg : check_csr s.csr .mseccfg s.epmp_state.mseccfg = 1 := if_pos h.mseccfg.symm
  have hchecks : epmp_checks s = kTotalChecks := by
    simp only [epmp_checks, haddr, hcfg, hmseccfg]
    rfl
  simp only [epmp_state_check, hchecks]
  decide

/-! ## One entry -/

theorem and_not_zero (b : u8) : b &&& ~~~0 = b := by
  have hones : ~~~(0 : u8) = BitVec.allOnes 8 := by decide
  rw [hones, BitVec.and_allOnes]

theorem low_byte (c : u32) : c &&& 0xff = (byteOf c 0).setWidth 32 := by
  apply BitVec.eq_of_getLsbD_eq
  intro j hj
  have hff : (0xff : u32).getLsbD j = decide (j < 8) := by
    interval_cases j <;> rfl
  rw [BitVec.getLsbD_and, hff, BitVec.getLsbD_setWidth, byteOf, BitVec.getLsbD_extractLsb']
  by_cases h8 : j < 8 <;> simp [h8, hj]

theorem byteOf_mask {i : ℕ} (m : ℕ) (hi : i < 4) :
    byteOf ((0xff : u32) <<< (8 * m)) i = if i = m then BitVec.allOnes 8 else 0 :=
  byteOf_shiftLeft 0xff hi

theorem byteOf_cfg (c : u32) {i : ℕ} (m : ℕ) (hi : i < 4) :
    byteOf ((c &&& 0xff) <<< (8 * m)) i = if i = m then byteOf c 0 else 0 := by
  rw [low_byte]
  exact byteOf_shiftLeft _ hi

/-- The copy of one entry's byte. -/
theorem byteOf_update (w c : u32) {i m : ℕ} (hi : i < 4) :
    byteOf (w &&& ~~~((0xff : u32) <<< (8 * m)) ||| (c &&& 0xff) <<< (8 * m)) i =
      if i = m then byteOf c 0 else byteOf w i := by
  rw [byteOf_or, byteOf_and, byteOf_not _ hi, byteOf_mask m hi, byteOf_cfg c m hi]
  by_cases him : i = m
  · simp only [if_pos him]
    simp
  · simp only [if_neg him]
    rw [and_not_zero]
    exact BitVec.or_zero

theorem entries_set (st : EpmpState) (e : Fin 16) (w addr : u32) (cfg : u8)
    (hw : ∀ j < 4, byteOf w j =
      if j = e.val % 4 then cfg else byteOf (st.pmpcfg[e.val / 4]) j) :
    entries { st with
      pmpcfg := st.pmpcfg.set (e.val / 4) w (by omega)
      pmpaddr := st.pmpaddr.set e.val addr } = Function.update (entries st) e ⟨cfg, addr⟩ := by
  funext i
  by_cases hie : i = e
  · subst hie
    rw [Function.update_self]
    simp [entries, hw _ (Nat.mod_lt _ (by omega))]
  · rw [Function.update_of_ne hie]
    have hval : e.val ≠ i.val := fun h => hie (Fin.ext h.symm)
    have haddr : (st.pmpaddr.set e.val addr)[i] = st.pmpaddr[i] :=
      Vector.getElem_set_ne _ _ hval
    by_cases hreg : e.val / 4 = i.val / 4
    · have hne : i.val % 4 ≠ e.val % 4 := by omega
      simp [entries, hreg, hw _ (Nat.mod_lt _ (by omega)), hne, haddr]
    · have hcfg : (st.pmpcfg.set (e.val / 4) w (by omega))[i.val / 4] =
          st.pmpcfg[i.val / 4] := Vector.getElem_set_ne _ _ hreg
      simp only [entries, haddr, hcfg]

/-- What `epmp_set` does, and when it traps. -/
theorem epmp_set_spec {entry : u8} {pmpcfg pmpaddr : u32} {s s' : State}
    (hrun : epmp_set entry pmpcfg pmpaddr s = some s') :
    ∃ h : entry.toNat < 16,
      entries s'.epmp_state =
        Function.update (entries s.epmp_state) ⟨entry.toNat, h⟩ ⟨byteOf pmpcfg 0, pmpaddr⟩ ∧
      s'.epmp_state.mseccfg = s.epmp_state.mseccfg ∧
      s'.csr = EPMP_SET ⟨entry.toNat / 4, by omega⟩ ⟨entry.toNat, h⟩
        ((0xff : u32) <<< (8 * (entry.toNat % 4))) ((pmpcfg &&& 0xff) <<< (8 * (entry.toNat % 4)))
        pmpaddr s.csr := by
  unfold epmp_set at hrun
  by_cases h : entry.toNat < 16
  · simp only [dif_pos h, Option.some.injEq] at hrun
    subst hrun
    refine ⟨h, ?_, rfl, rfl⟩
    exact entries_set s.epmp_state ⟨entry.toNat, h⟩ _ pmpaddr (byteOf pmpcfg 0)
      fun j hj => byteOf_update _ _ hj
  · simp [dif_neg h] at hrun

section registers

variable {p : PmpRegs}

theorem pmp_cfg_write (k : Fin 4) (w : u32) (i : Fin 16) :
    (p.csr_write (.pmpcfg k) w).pmp_cfg i = if i.val / 4 = k then p.pmp_cfg_next i w
      else p.pmp_cfg i := rfl

theorem pmp_addr_write (e : Fin 16) (w : u32) :
    (p.csr_write (.pmpaddr e) w).pmp_addr =
      if p.pmp_addr_we e then Function.update p.pmp_addr e w else p.pmp_addr := rfl

/-- A byte of a configuration register whose bits are cleared. -/
theorem byteOf_clear (mask : u32) (k : Fin 4) (i : Fin 16) (hk : i.val / 4 = k) :
    byteOf (~~~mask &&& p.csr_read (.pmpcfg k)) (i % 4) =
      ~~~byteOf mask (i % 4) &&& pmp_cfg_rdata (p.pmp_cfg i) := by
  rw [byteOf_and, byteOf_not _ (Nat.mod_lt _ (by omega)), PmpRegs.byteOf_csr_read i k hk]

theorem byteOf_set (mask : u32) (k : Fin 4) (i : Fin 16) (hk : i.val / 4 = k) :
    byteOf (mask ||| p.csr_read (.pmpcfg k)) (i % 4) =
      byteOf mask (i % 4) ||| pmp_cfg_rdata (p.pmp_cfg i) := by
  rw [byteOf_or, PmpRegs.byteOf_csr_read i k hk]

variable (e : Fin 16) (c : u32)

/-- The other entries of the register are written with what they read as. -/
theorem clear_bits_other {i : Fin 16} (hie : i ≠ e) :
    (p.csr_clear_bits (.pmpcfg ⟨e / 4, by omega⟩) ((0xff : u32) <<< (8 * (e.val % 4)))).pmp_cfg i =
      p.pmp_cfg i := by
  rw [PmpRegs.csr_clear_bits, pmp_cfg_write]
  split_ifs with hreg
  · have hreg' : i.val / 4 = e.val / 4 := hreg
    refine PmpRegs.pmp_cfg_next_of_same ?_
    rw [byteOf_clear _ _ _ hreg, byteOf_mask _ (Nat.mod_lt _ (by omega)), if_neg (by omega),
      BitVec.and_comm, and_not_zero]
  · rfl

theorem set_bits_other {i : Fin 16} (hie : i ≠ e) :
    (p.csr_set_bits (.pmpcfg ⟨e / 4, by omega⟩)
      ((c &&& 0xff) <<< (8 * (e.val % 4)))).pmp_cfg i = p.pmp_cfg i := by
  rw [PmpRegs.csr_set_bits, pmp_cfg_write]
  split_ifs with hreg
  · have hreg' : i.val / 4 = e.val / 4 := hreg
    refine PmpRegs.pmp_cfg_next_of_same ?_
    rw [byteOf_set _ _ _ hreg, byteOf_cfg _ _ (Nat.mod_lt _ (by omega)), if_neg (by omega)]
    exact BitVec.zero_or
  · rfl

/-- The byte that clears an entry. -/
theorem byteOf_clear_self :
    byteOf (~~~((0xff : u32) <<< (8 * (e.val % 4))) &&&
      p.csr_read (.pmpcfg ⟨e / 4, by omega⟩)) (e % 4) = 0 := by
  rw [byteOf_clear _ _ _ rfl, byteOf_mask _ (Nat.mod_lt _ (by omega)), if_pos rfl]
  simp

/-- The byte that sets an entry that was cleared. -/
theorem byteOf_set_self (hclear : pmp_cfg_rdata (p.pmp_cfg e) = 0) :
    byteOf ((c &&& 0xff) <<< (8 * (e.val % 4)) |||
      p.csr_read (.pmpcfg ⟨e / 4, by omega⟩)) (e % 4) = byteOf c 0 := by
  rw [byteOf_set _ _ _ rfl, byteOf_cfg _ _ (Nat.mod_lt _ (by omega)), if_pos rfl, hclear]
  simp

theorem rdata_wdata {mml : Bool} {b : u8} (h : holds mml b) :
    pmp_cfg_rdata (pmp_cfg_wdata mml b) = b := (rdata_wdata_iff mml b).mpr h

/-- Zero can always be held. -/
theorem holds_zero (mml : Bool) : holds mml 0 := by
  cases mml <;> decide

/-- The registers when entry `e` is cleared, gets an address, and then its bits. -/
theorem EPMP_SET_other (mask cfg a : u32) {i : Fin 16} (hie : i ≠ e)
    (hmask : mask = (0xff : u32) <<< (8 * (e.val % 4)))
    (hcfg : cfg = (c &&& 0xff) <<< (8 * (e.val % 4))) :
    csr_entries (EPMP_SET ⟨e / 4, by omega⟩ e mask cfg a p) i = csr_entries p i := by
  subst hmask hcfg
  have haddr : (EPMP_SET ⟨e / 4, by omega⟩ e ((0xff : u32) <<< (8 * (e.val % 4)))
      ((c &&& 0xff) <<< (8 * (e.val % 4))) a p).pmp_addr i = p.pmp_addr i := by
    show ((p.csr_clear_bits _ _).csr_write (.pmpaddr e) a).pmp_addr i = p.pmp_addr i
    rw [pmp_addr_write]
    split_ifs
    · exact Function.update_of_ne hie _ _
    · rfl
  rw [csr_entries, haddr, EPMP_SET, set_bits_other e c hie]
  exact congrArg (fun x => Entry.mk (pmp_cfg_rdata x) (p.pmp_addr i)) (clear_bits_other e hie)

/-- With rule locking bypass, or if it is what the entry has, entry `e` gets the byte and
the address. -/
theorem EPMP_SET_self (mask cfg a : u32) (hmask : mask = (0xff : u32) <<< (8 * (e.val % 4)))
    (hcfg : cfg = (c &&& 0xff) <<< (8 * (e.val % 4)))
    (h : p.pmp_mseccfg.rlb = true ∧ holds p.pmp_mseccfg.mml (byteOf c 0) ∨
      csr_entries p e = ⟨byteOf c 0, a⟩) :
    csr_entries (EPMP_SET ⟨e / 4, by omega⟩ e mask cfg a p) e = ⟨byteOf c 0, a⟩ := by
  subst hmask hcfg
  set p₁ := p.csr_clear_bits (.pmpcfg ⟨e / 4, by omega⟩) ((0xff : u32) <<< (8 * (e.val % 4)))
    with hp₁
  set p₂ := p₁.csr_write (.pmpaddr e) a with hp₂
  have hcfg₁ : p₁.pmp_cfg e = p.pmp_cfg_next e (~~~((0xff : u32) <<< (8 * (e.val % 4))) &&&
      p.csr_read (.pmpcfg ⟨e / 4, by omega⟩)) := if_pos rfl
  have hcfg₃ : (EPMP_SET ⟨e / 4, by omega⟩ e ((0xff : u32) <<< (8 * (e.val % 4)))
      ((c &&& 0xff) <<< (8 * (e.val % 4))) a p).pmp_cfg e =
      p₂.pmp_cfg_next e ((c &&& 0xff) <<< (8 * (e.val % 4)) |||
        p₂.csr_read (.pmpcfg ⟨e / 4, by omega⟩)) := if_pos rfl
  have haddr : p₂.pmp_addr e = a := by
    have hwe : p₂.pmp_addr = if p₁.pmp_addr_we e then Function.update p.pmp_addr e a
        else p.pmp_addr := rfl
    rw [hwe]
    rcases h with ⟨hrlb, -⟩ | hsame
    · have hlocked : ∀ i, p₁.pmp_cfg_locked i = false := fun i => by
        have : p₁.pmp_mseccfg.rlb = true := hrlb
        simp [PmpRegs.pmp_cfg_locked, this]
      have hwe₁ : p₁.pmp_addr_we e = true := by
        simp [PmpRegs.pmp_addr_we, hlocked]
      rw [if_pos hwe₁, Function.update_self]
    · have ha : p.pmp_addr e = a := congrArg Entry.addr hsame
      split_ifs
      · exact Function.update_self _ _ _
      · exact ha
  -- the byte after it was taken, if the entry was cleared before
  have htaken : holds p.pmp_mseccfg.mml (byteOf c 0) →
      pmp_cfg_rdata (pmp_cfg_wdata p₂.pmp_mseccfg.mml (byteOf c 0)) = byteOf c 0 :=
    fun hholds => rdata_wdata hholds
  have hzero : pmp_cfg_rdata (pmp_cfg_wdata p.pmp_mseccfg.mml 0) = 0 := rdata_wdata (holds_zero _)
  refine congrArg₂ Entry.mk ?_ haddr
  rw [hcfg₃]
  by_cases hbypass : p.pmp_mseccfg.rlb = true
  · have hholds : holds p.pmp_mseccfg.mml (byteOf c 0) := by
      rcases h with ⟨-, hholds⟩ | hsame
      · exact hholds
      · have hc : pmp_cfg_rdata (p.pmp_cfg e) = byteOf c 0 := congrArg Entry.cfg hsame
        rw [← hc]
        exact rdata_holds _ _ fun hmml => p.held hmml e
    have hcleared : pmp_cfg_rdata (p₂.pmp_cfg e) = 0 := by
      show pmp_cfg_rdata (p₁.pmp_cfg e) = 0
      rw [hcfg₁, PmpRegs.pmp_cfg_next_of_rlb hbypass, byteOf_clear_self, hzero]
    rw [PmpRegs.pmp_cfg_next_of_rlb (p := p₂) hbypass, byteOf_set_self e c hcleared]
    exact htaken hholds
  · have hsame : csr_entries p e = ⟨byteOf c 0, a⟩ := h.resolve_left fun hr => hbypass hr.1
    have hrlb : p.pmp_mseccfg.rlb = false := Bool.eq_false_iff.mpr hbypass
    have hc : pmp_cfg_rdata (p.pmp_cfg e) = byteOf c 0 := congrArg Entry.cfg hsame
    cases hlock : (p.pmp_cfg e).lock with
    | true =>
        -- locked: none of the three writes is taken
        have hkept : p₂.pmp_cfg e = p.pmp_cfg e := by
          show p₁.pmp_cfg e = p.pmp_cfg e
          rw [hcfg₁, PmpRegs.pmp_cfg_next_of_locked hrlb hlock]
        have hlock₂ : (p₂.pmp_cfg e).lock = true := by rw [hkept, hlock]
        rw [PmpRegs.pmp_cfg_next_of_locked (p := p₂) hrlb hlock₂, hkept, hc]
    | false =>
        have hclear : p₂.pmp_cfg e = pmp_cfg_wdata p.pmp_mseccfg.mml 0 := by
          show p₁.pmp_cfg e = _
          rw [hcfg₁, PmpRegs.pmp_cfg_next_of_unlocked hlock] <;> rw [byteOf_clear_self]
          rfl
        have hbyte := byteOf_set_self (p := p₂) e c (by rw [hclear, hzero])
        have hlock₂ : (p₂.pmp_cfg e).lock = false := by rw [hclear]; rfl
        have hbit : (byteOf c 0).getLsbD 7 = false := by rw [← hc, rdata_lock, hlock]
        rw [PmpRegs.pmp_cfg_next_of_unlocked (p := p₂) hlock₂ (by rw [hbyte]; exact hbit), hbyte]
        refine htaken ?_
        rw [← hc]
        exact rdata_holds _ _ fun hmml => p.held hmml e

end registers

theorem epmp_set_matches {entry : u8} {pmpcfg pmpaddr : u32} {s s' : State} (h : Matches s)
    (hrun : epmp_set entry pmpcfg pmpaddr s = some s')
    (hok : s.csr.pmp_mseccfg.rlb = true ∧ holds s.csr.pmp_mseccfg.mml (byteOf pmpcfg 0) ∨
      entries s'.epmp_state = entries s.epmp_state) : Matches s' := by
  obtain ⟨hentries, hmseccfg⟩ := (matches_iff s).mp h
  obtain ⟨hlt, hset, hmseccfg', hcsr⟩ := epmp_set_spec hrun
  have hself : csr_entries s'.csr ⟨entry.toNat, hlt⟩ = ⟨byteOf pmpcfg 0, pmpaddr⟩ := by
    rw [hcsr]
    refine EPMP_SET_self ⟨entry.toNat, hlt⟩ pmpcfg _ _ pmpaddr rfl rfl (hok.imp_right fun hsame => ?_)
    rw [← hentries, ← hsame, hset, Function.update_self]
  refine (matches_iff s').mpr ⟨?_, ?_⟩
  · rw [hset, hentries]
    funext i
    by_cases hie : i = ⟨entry.toNat, hlt⟩
    · subst hie
      rw [Function.update_self, hself]
    · rw [Function.update_of_ne hie, hcsr]
      exact (EPMP_SET_other ⟨entry.toNat, hlt⟩ pmpcfg _ _ pmpaddr hie rfl rfl).symm
  · rw [hmseccfg', hmseccfg, hcsr]
    rfl

/-! ## The lock bits -/

section lock_bits

/-- The four configuration registers, one after the other. -/
def each_cfg (f : PmpRegs → Fin 4 → PmpRegs) (p : PmpRegs) : PmpRegs := f (f (f (f p 0) 1) 2) 3

/-- What is done to the byte of one entry is done to all. -/
theorem each_cfg_spec {f : PmpRegs → Fin 4 → PmpRegs} {g : u8 → u8}
    (hmseccfg : ∀ p k, (f p k).pmp_mseccfg = p.pmp_mseccfg)
    (hf : ∀ p k i, p.pmp_mseccfg.rlb = true ∨
        g (pmp_cfg_rdata (p.pmp_cfg i)) = pmp_cfg_rdata (p.pmp_cfg i) →
      pmp_cfg_rdata ((f p k).pmp_cfg i) = if i.val / 4 = k then g (pmp_cfg_rdata (p.pmp_cfg i))
        else pmp_cfg_rdata (p.pmp_cfg i))
    {p : PmpRegs} {i : Fin 16} (h : p.pmp_mseccfg.rlb = true ∨
      g (pmp_cfg_rdata (p.pmp_cfg i)) = pmp_cfg_rdata (p.pmp_cfg i)) :
    pmp_cfg_rdata ((each_cfg f p).pmp_cfg i) = g (pmp_cfg_rdata (p.pmp_cfg i)) := by
  unfold each_cfg
  rcases h with hrlb | hsame
  · -- every register takes its bytes, and entry `i` is in one of them
    have hrlb₁ : (f p 0).pmp_mseccfg.rlb = true := by rw [hmseccfg, hrlb]
    have hrlb₂ : (f (f p 0) 1).pmp_mseccfg.rlb = true := by rw [hmseccfg, hrlb₁]
    have hrlb₃ : (f (f (f p 0) 1) 2).pmp_mseccfg.rlb = true := by rw [hmseccfg, hrlb₂]
    rw [hf _ 3 i (.inl hrlb₃), hf _ 2 i (.inl hrlb₂), hf _ 1 i (.inl hrlb₁), hf _ 0 i (.inl hrlb)]
    have hreg : i.val / 4 = 0 ∨ i.val / 4 = 1 ∨ i.val / 4 = 2 ∨ i.val / 4 = 3 := by omega
    rcases hreg with hreg | hreg | hreg | hreg <;> simp [hreg]
  · have hstep : ∀ q k, pmp_cfg_rdata (q.pmp_cfg i) = pmp_cfg_rdata (p.pmp_cfg i) →
        pmp_cfg_rdata ((f q k).pmp_cfg i) = pmp_cfg_rdata (p.pmp_cfg i) := by
      intro q k hq
      rw [hf q k i (.inr (by rw [hq, hsame])), hq, hsame, ite_self]
    rw [hstep _ 3 (hstep _ 2 (hstep _ 1 (hstep _ 0 rfl))), hsame]

variable {p : PmpRegs} {i : Fin 16}

theorem rdata_next {w : u32} {b : u8} (hb : byteOf w (i % 4) = b)
    (hholds : holds p.pmp_mseccfg.mml b)
    (h : p.pmp_mseccfg.rlb = true ∨ b = pmp_cfg_rdata (p.pmp_cfg i)) :
    pmp_cfg_rdata (p.pmp_cfg_next i w) = b := by
  rcases h with hrlb | hsame
  · rw [PmpRegs.pmp_cfg_next_of_rlb hrlb, hb, rdata_wdata hholds]
  · rw [PmpRegs.pmp_cfg_next_of_same (hb.trans hsame), hsame]

theorem byteOf_lock_mask {j : ℕ} (hj : j < 4) : byteOf lock_mask j = 0x80 := by
  interval_cases j <;> decide

theorem holds_rdata : holds p.pmp_mseccfg.mml (pmp_cfg_rdata (p.pmp_cfg i)) :=
  rdata_holds _ _ fun hmml => p.held hmml i

theorem holds_lock {mml : Bool} {b : u8} (h : holds mml b) : holds mml (0x80 ||| b) := by
  revert b
  cases mml <;> decide

theorem holds_unlock {mml : Bool} {b : u8} (h : holds mml b) : holds mml (~~~0x80 &&& b) := by
  revert b
  cases mml <;> decide

theorem csr_entries_set_lock (h : p.pmp_mseccfg.rlb = true ∨
      0x80 ||| (csr_entries p i).cfg = (csr_entries p i).cfg) :
    (csr_entries (each_cfg (fun p k => p.csr_set_bits (.pmpcfg k) lock_mask) p) i).cfg =
      0x80 ||| (csr_entries p i).cfg := by
  refine each_cfg_spec (f := fun p k => p.csr_set_bits (.pmpcfg k) lock_mask)
    (g := fun b => 0x80 ||| b) (fun _ _ => rfl) (fun p k i hp => ?_) h
  rw [PmpRegs.csr_set_bits, pmp_cfg_write]
  split_ifs with hreg
  · refine rdata_next ?_ (holds_lock holds_rdata) hp
    rw [byteOf_set _ _ _ hreg, byteOf_lock_mask (Nat.mod_lt _ (by omega))]
  · rfl

theorem csr_entries_clear_lock (h : p.pmp_mseccfg.rlb = true ∨
      ~~~0x80 &&& (csr_entries p i).cfg = (csr_entries p i).cfg) :
    (csr_entries (each_cfg (fun p k => p.csr_clear_bits (.pmpcfg k) lock_mask) p) i).cfg =
      ~~~0x80 &&& (csr_entries p i).cfg := by
  refine each_cfg_spec (f := fun p k => p.csr_clear_bits (.pmpcfg k) lock_mask)
    (g := fun b => ~~~0x80 &&& b) (fun _ _ => rfl) (fun p k i hp => ?_) h
  rw [PmpRegs.csr_clear_bits, pmp_cfg_write]
  split_ifs with hreg
  · refine rdata_next ?_ (holds_unlock holds_rdata) hp
    rw [byteOf_clear _ _ _ hreg, byteOf_lock_mask (Nat.mod_lt _ (by omega))]
  · rfl

end lock_bits

/-- The copy's entries when a mask goes over its four registers. -/
theorem entries_map (st : EpmpState) (f : u32 → u32) (i : Fin 16) :
    entries { st with pmpcfg := st.pmpcfg.map f } i =
      ⟨byteOf (f (st.pmpcfg[i.val / 4])) (i % 4), st.pmpaddr[i]⟩ := by
  simp [entries]

theorem entries_set_lock (s : State) (i : Fin 16) :
    entries (epmp_set_lock_bits s).epmp_state i =
      ⟨0x80 ||| (entries s.epmp_state i).cfg, (entries s.epmp_state i).addr⟩ := by
  rw [epmp_set_lock_bits]
  simp only [entries_map]
  rw [byteOf_or, byteOf_lock_mask (Nat.mod_lt _ (by omega)), BitVec.or_comm]
  rfl

theorem entries_clear_lock (s : State) (i : Fin 16) :
    entries (epmp_clear_lock_bits s).epmp_state i =
      ⟨~~~0x80 &&& (entries s.epmp_state i).cfg, (entries s.epmp_state i).addr⟩ := by
  rw [epmp_clear_lock_bits]
  simp only [entries_map]
  rw [byteOf_and, byteOf_not _ (Nat.mod_lt _ (by omega)),
    byteOf_lock_mask (Nat.mod_lt _ (by omega)), BitVec.and_comm]
  rfl

theorem epmp_set_lock_bits_matches {s : State} (h : Matches s)
    (hok : s.csr.pmp_mseccfg.rlb = true ∨
      entries (epmp_set_lock_bits s).epmp_state = entries s.epmp_state) :
    Matches (epmp_set_lock_bits s) := by
  obtain ⟨hentries, hmseccfg⟩ := (matches_iff s).mp h
  refine (matches_iff _).mpr ⟨funext fun i => ?_, hmseccfg⟩
  rw [entries_set_lock, hentries]
  refine congrArg₂ Entry.mk (csr_entries_set_lock (hok.imp_right fun hsame => ?_)).symm rfl
  have hi := congrArg Entry.cfg (congrFun hsame i)
  rwa [entries_set_lock, hentries] at hi

theorem epmp_clear_lock_bits_matches {s : State} (h : Matches s)
    (hok : s.csr.pmp_mseccfg.rlb = true ∨
      entries (epmp_clear_lock_bits s).epmp_state = entries s.epmp_state) :
    Matches (epmp_clear_lock_bits s) := by
  obtain ⟨hentries, hmseccfg⟩ := (matches_iff s).mp h
  refine (matches_iff _).mpr ⟨funext fun i => ?_, hmseccfg⟩
  rw [entries_clear_lock, hentries]
  refine congrArg₂ Entry.mk (csr_entries_clear_lock (hok.imp_right fun hsame => ?_)).symm rfl
  have hi := congrArg Entry.cfg (congrFun hsame i)
  rwa [entries_clear_lock, hentries] at hi

/-! ## Rule locking bypass -/

theorem pmp_mseccfg_clear_rlb (p : PmpRegs) :
    (p.csr_clear_bits .mseccfg EPMP_MSECCFG_RLB).pmp_mseccfg =
      { p.pmp_mseccfg with rlb := false } := by
  show p.pmp_mseccfg_next (~~~EPMP_MSECCFG_RLB &&& mseccfg_rdata p.pmp_mseccfg) = _
  unfold PmpRegs.pmp_mseccfg_next
  generalize p.any_pmp_entry_locked = locked
  obtain ⟨rlb, mmwp, mml⟩ := p.pmp_mseccfg
  cases locked <;> cases rlb <;> cases mmwp <;> cases mml <;> decide

theorem epmp_clear_rlb_matches {s : State} (h : Matches s) : Matches (epmp_clear_rlb s) := by
  obtain ⟨hentries, hmseccfg⟩ := (matches_iff s).mp h
  refine (matches_iff _).mpr ⟨hentries, ?_⟩
  show s.epmp_state.mseccfg &&& ~~~EPMP_MSECCFG_RLB =
    (s.csr.csr_clear_bits .mseccfg EPMP_MSECCFG_RLB).csr_read .mseccfg
  simp only [hmseccfg, PmpRegs.csr_read, pmp_mseccfg_clear_rlb]
  obtain ⟨rlb, mmwp, mml⟩ := s.csr.pmp_mseccfg
  cases rlb <;> cases mmwp <;> cases mml <;> decide

/-! ## The regions -/

section regions

variable {p : PmpRegs} {r : Fin 16} {x start len a : u32} {n : ℕ}

/-- The comparison under a mask, over the bits of the whole address. -/
theorem region_match_eq_iff {m : ℕ} (hstart : p.region_start_addr r = a)
    (hmask : ∀ b, p.region_addr_mask r b = decide (m ≤ b)) :
    p.region_match_eq r x = true ↔
      ∀ k, m + 2 ≤ k → x.toNat.testBit k = (a.toNat <<< 2).testBit k := by
  have hshift : ∀ b, (x >>> 2).getLsbD b = x.toNat.testBit (b + 2) := fun b => by
    rw [BitVec.getLsbD_ushiftRight, BitVec.getLsbD, Nat.add_comm]
  have haddr : ∀ b, a.getLsbD b = (a.toNat <<< 2).testBit (b + 2) := fun b => by
    rw [Nat.testBit_shiftLeft, BitVec.getLsbD]
    simp
  rw [PmpRegs.region_match_eq, List.all_eq_true, hstart]
  simp only [List.mem_range, hmask, Bool.or_eq_true, Bool.not_eq_true', decide_eq_false_iff_not,
    beq_iff_eq, hshift, haddr]
  constructor
  · intro h k hk
    by_cases hk32 : k - 2 < 32
    · have hb := (h (k - 2) hk32).resolve_left (by omega)
      rwa [Nat.sub_add_cancel (by omega)] at hb
    · -- bits behind the last one
      have hx : x.toNat.testBit k = false := BitVec.getLsbD_of_ge x k (by omega)
      have ha : a.toNat.testBit (k - 2) = false := BitVec.getLsbD_of_ge a (k - 2) (by omega)
      rw [hx, Nat.testBit_shiftLeft, ha, Bool.and_false]
  · intro h b _
    by_cases hmb : m ≤ b
    · exact .inr (h (b + 2) (by omega))
    · exact .inl hmb

/-- The start of a region that is aligned with its length. -/
theorem aligned_of_and (hlen : len.toNat = 2 ^ n) (halign : start &&& (len - 1) = 0) :
    start.toNat % 2 ^ n = 0 := by
  have hpos : 0 < 2 ^ n := Nat.two_pow_pos n
  have hpred : (len - 1).toNat = 2 ^ n - 1 := by bv_omega
  have hand : (start &&& (len - 1)).toNat = start.toNat % 2 ^ n := by
    rw [BitVec.toNat_and, hpred, Nat.and_two_pow_sub_one_eq_mod]
  rw [← hand, halign]
  rfl

/-- The bits of a NAPOT address: ones below, then a zero, then the start. -/
theorem getLsbD_napot (hlen : len.toNat = 2 ^ n) (halign : start &&& (len - 1) = 0) (b : ℕ) :
    (start >>> 2 ||| (len - 1) >>> 3).getLsbD b =
      if b + 3 < n then true else if b + 3 = n then false else start.getLsbD (b + 2) := by
  have hpos : 0 < 2 ^ n := Nat.two_pow_pos n
  have hpred : (len - 1).toNat = 2 ^ n - 1 := by bv_omega
  have hlow : (len - 1).getLsbD (3 + b) = decide (3 + b < n) := by
    rw [BitVec.getLsbD, hpred, Nat.testBit_two_pow_sub_one]
  have hstart : ∀ k < n, start.getLsbD k = false := by
    intro k hk
    have hmod := Nat.testBit_mod_two_pow start.toNat n k
    rw [aligned_of_and hlen halign, Nat.zero_testBit] at hmod
    simpa [BitVec.getLsbD, hk] using hmod.symm
  rw [BitVec.getLsbD_or, BitVec.getLsbD_ushiftRight, BitVec.getLsbD_ushiftRight, hlow]
  split_ifs with hlt heq
  · rw [decide_eq_true (by omega), Bool.or_true]
  · rw [hstart _ (by omega), decide_eq_false (by omega)]
    rfl
  · rw [decide_eq_false (by omega), Bool.or_false, Nat.add_comm]

/-- An entry with the encoding of a region matches the region. -/
theorem napot_match {region : EpmpRegion} {addr : u32}
    (hencode : epmp_encode_napot region = some addr) (haddr : p.pmp_addr r = addr)
    (hmode : (p.pmp_cfg r).mode = if region.end_ - region.start = 4 then .na4 else .napot)
    (x : u32) : p.region_match_all r x = true ↔ region.start.toNat ≤ x.toNat ∧
      x.toNat < region.start.toNat + (region.end_ - region.start).toNat := by
  simp only [epmp_encode_napot, Option.bind_eq_bind, Option.pure_def, Option.bind_eq_some_iff,
    hardened_check_eq_some, Option.some.injEq] at hencode
  obtain ⟨-, hge, -, hpop, -, halign, rfl⟩ := hencode
  generalize region.end_ - region.start = len at *
  generalize region.start = start at *
  obtain ⟨n, hn, hlen⟩ := eq_two_pow_of_cpop hpop
  have hge4 : 4 ≤ len.toNat := hge
  have hn2 : 2 ≤ n := by
    by_contra hlt
    have : n = 0 ∨ n = 1 := by omega
    rcases this with rfl | rfl <;> omega
  have haligned := aligned_of_and hlen halign
  rw [hlen, ← mem_block_iff haligned, div_two_pow_eq_iff]
  have hbits := getLsbD_napot hlen halign
  generalize hencoded : start >>> 2 ||| (len - 1) >>> 3 = addr at *
  have hne : (p.pmp_cfg r).mode ≠ .tor := by
    rw [hmode]
    split_ifs <;> decide
  have hstart : p.region_start_addr r = addr := by
    rw [PmpRegs.region_start_addr, if_neg hne, haddr]
  -- the encoded bits behind the mask are the bits of the start
  have hcompare : (∀ k, n ≤ k → x.toNat.testBit k = (addr.toNat <<< 2).testBit k) ↔
      ∀ k, n ≤ k → x.toNat.testBit k = start.toNat.testBit k := by
    refine forall_congr' fun k => imp_congr_right fun hk => ?_
    have hk2 : (addr.toNat <<< 2).testBit k = start.toNat.testBit k := by
      have hb := hbits (k - 2)
      rw [if_neg (by omega), if_neg (by omega), Nat.sub_add_cancel (by omega)] at hb
      rw [Nat.testBit_shiftLeft, decide_eq_true (by omega), Bool.true_and]
      exact hb
    rw [hk2]
  by_cases h4 : len = 4
  · have hn4 : n = 2 := by
      rw [h4] at hlen
      exact (Nat.pow_right_injective (le_refl 2) (hlen.symm.trans rfl : 2 ^ n = 2 ^ 2))
    rw [if_pos h4] at hmode
    have hmask : ∀ b, p.region_addr_mask r b = decide (0 ≤ b) := fun b => by
      simp [PmpRegs.region_addr_mask, hmode]
    have hall : p.region_match_all r x = p.region_match_eq r x := by
      rw [PmpRegs.region_match_all, hmode]
    rw [hall, region_match_eq_iff hstart hmask, ← hcompare, hn4]
  · have hn3 : 3 ≤ n := by
      by_contra hlt
      have h2 : n = 2 := by omega
      exact h4 (BitVec.eq_of_toNat_eq (by rw [hlen, h2]; rfl))
    rw [if_neg h4] at hmode
    have hmask : ∀ b, p.region_addr_mask r b = decide (n - 2 ≤ b) := fun b => by
      have hones : ∀ j < n - 3, addr.getLsbD j = true := fun j hj => by
        rw [hbits j, if_pos (by omega)]
      have hzero : addr.getLsbD (n - 3) = false := by
        rw [hbits (n - 3), if_neg (by omega), if_pos (by omega)]
      rw [PmpRegs.region_addr_mask, haddr, block_mask_eq hones hzero b]
      simp only [hmode, ne_eq, not_true_eq_false, decide_false, Bool.false_or]
      exact decide_eq_decide.mpr (by omega)
    have hall : p.region_match_all r x = p.region_match_eq r x := by
      rw [PmpRegs.region_match_all, hmode]
    rw [hall, region_match_eq_iff hstart hmask, ← hcompare, Nat.sub_add_cancel hn2]

/-- Rounding up to a word leaves a word aligned address. -/
theorem round_up_aligned {y : u32} (h : y.toNat % 4 = 0) :
    (((y + 3) &&& ~~~3) >>> 2).toNat = y.toNat / 4 := by
  have hsum : (y + 3).toNat = y.toNat + 3 := by
    bv_omega
  have hmask : ~~~(3 : u32) = ~~~BitVec.ofNat 32 (2 ^ 2 - 1) := rfl
  rw [BitVec.toNat_ushiftRight, hmask, toNat_and_not_mask _ (by decide), hsum,
    Nat.shiftRight_eq_div_pow]
  omega

/-- A pair of entries with the encoding of a word aligned region matches the region. -/
theorem tor_match {e : Fin 16} {region : EpmpRegion} (hr : r.val = e.val + 1)
    (hoff : (p.pmp_cfg e).mode = .off) (htor : (p.pmp_cfg r).mode = .tor)
    (hstart : p.pmp_addr e = region.start >>> 2)
    (hend : p.pmp_addr r = ((region.end_ + 3) &&& ~~~3) >>> 2)
    (hs : region.start.toNat % 4 = 0) (he : region.end_.toNat % 4 = 0) (x : u32) :
    p.region_match_all e x = true ∨ p.region_match_all r x = true ↔
      region.start.toNat ≤ x.toNat ∧ x.toNat < region.end_.toNat := by
  have hnone : p.region_match_all e x = false := by
    rw [PmpRegs.region_match_all, hoff]
  have hprev : (⟨r.val - 1, by omega⟩ : Fin 16) = e := Fin.ext (by simp [hr])
  have hfrom : p.region_start_addr r = region.start >>> 2 := by
    rw [PmpRegs.region_start_addr, if_pos htor, dif_pos (by omega), hprev, hstart]
  have hmask : ∀ b, p.region_addr_mask r b = decide (0 ≤ b) := fun b => by
    simp [PmpRegs.region_addr_mask, htor]
  have hword : ∀ y : u32, (y >>> 2).toNat = y.toNat / 4 := fun y => by
    rw [BitVec.toNat_ushiftRight, Nat.shiftRight_eq_div_pow]
  have heq : p.region_match_eq r x = true ↔ x.toNat / 4 = region.start.toNat / 4 := by
    rw [region_match_eq_iff hfrom hmask]
    have hdiv := div_two_pow_eq_iff (x := x.toNat) (s := (region.start >>> 2).toNat <<< 2) (n := 2)
    rw [← hdiv, hword, Nat.shiftLeft_eq, Nat.mul_div_cancel _ (by decide)]
    exact Iff.rfl
  have hgt : p.region_match_gt r x = true ↔ region.start.toNat / 4 < x.toNat / 4 := by
    rw [PmpRegs.region_match_gt, hfrom, decide_eq_true_eq, gt_iff_lt, BitVec.lt_def, hword, hword]
  have hlt : p.region_match_lt r x = true ↔ x.toNat / 4 < region.end_.toNat / 4 := by
    rw [PmpRegs.region_match_lt, hend, decide_eq_true_eq, BitVec.lt_def, hword,
      round_up_aligned he]
  have hall : p.region_match_all r x =
      ((p.region_match_eq r x || p.region_match_gt r x) && p.region_match_lt r x) := by
    rw [PmpRegs.region_match_all, htor]
  rw [hnone, hall, Bool.and_eq_true, Bool.or_eq_true, heq, hgt, hlt]
  simp only [Bool.false_eq_true, false_or]
  omega

end regions

/-! ## Runs -/

inductive Call
  | epmp_set (entry : u8) (pmpcfg pmpaddr : u32)
  | epmp_clear (entry : u8)
  | epmp_set_napot (entry : u8) (region : EpmpRegion) (perm : EpmpPerm)
  | epmp_set_tor (entry : u8) (region : EpmpRegion) (perm : EpmpPerm)
  | epmp_set_lock_bits
  | epmp_clear_lock_bits
  | epmp_clear_rlb

namespace Call

def run : Call → State → Option State
  | epmp_set entry pmpcfg pmpaddr, s => Epmp.epmp_set entry pmpcfg pmpaddr s
  | epmp_clear entry, s => Epmp.epmp_clear entry s
  | epmp_set_napot entry region perm, s => Epmp.epmp_set_napot entry region perm s
  | epmp_set_tor entry region perm, s => Epmp.epmp_set_tor entry region perm s
  | epmp_set_lock_bits, s => some (Epmp.epmp_set_lock_bits s)
  | epmp_clear_lock_bits, s => some (Epmp.epmp_clear_lock_bits s)
  | epmp_clear_rlb, s => some (Epmp.epmp_clear_rlb s)

/-- The configuration byte that is given to `epmp_set` is one that an entry can hold. -/
def cfg_holds (mml : Bool) : Call → Prop
  | epmp_set _ pmpcfg _ => holds mml (byteOf pmpcfg 0)
  | _ => True

/-- The entries that a call names. -/
def names : Call → Fin 16 → Prop
  | epmp_set entry _ _, i => i.val = entry.toNat
  | epmp_clear entry, i => i.val = entry.toNat
  | epmp_set_napot entry _ _, i => i.val = entry.toNat
  | epmp_set_tor entry _ _, i => i.val = entry.toNat ∨ i.val = entry.toNat + 1
  | _, _ => False

/-- What a call does to the byte of an entry that it does not name: the lock bit of every
entry is set or cleared by the functions for it. -/
def other_cfg : Call → u8 → u8
  | epmp_set_lock_bits, cfg => 0x80 ||| cfg
  | epmp_clear_lock_bits, cfg => ~~~0x80 &&& cfg
  | _, cfg => cfg

def next_mseccfg : Call → u32 → u32
  | epmp_clear_rlb, mseccfg => mseccfg &&& ~~~EPMP_MSECCFG_RLB
  | _, mseccfg => mseccfg

/-- The addresses that the entries of a region match, after the call that sets them, are
those of the region. An end of 0 is 2^32 for `epmp_set_napot`. -/
def region_exact : Call → PmpRegs → Prop
  | epmp_set_napot entry region _, p => ∀ (e : Fin 16) (x : u32), e.val = entry.toNat →
      (p.region_match_all e x = true ↔ region.start.toNat ≤ x.toNat ∧
        x.toNat < region.start.toNat + (region.end_ - region.start).toNat)
  | epmp_set_tor entry region _, p =>
      region.start.toNat % 4 = 0 → region.end_.toNat % 4 = 0 →
      ∀ (e r : Fin 16) (x : u32), e.val = entry.toNat → r.val = entry.toNat + 1 →
        (p.region_match_all e x = true ∨ p.region_match_all r x = true ↔
          region.start.toNat ≤ x.toNat ∧ x.toNat < region.end_.toNat)
  | _, _ => True

end Call

/-- A call that may come next: with rule locking bypass off it changes no entry. -/
structure Step (s : State) (call : Call) (s' : State) : Prop where
  run : call.run s = some s'
  cfg_holds : call.cfg_holds s.csr.pmp_mseccfg.mml
  unchanged : s.csr.pmp_mseccfg.rlb = false → entries s'.epmp_state = entries s.epmp_state

/-- The states that a sequence of calls reaches. -/
inductive Run (s₀ : State) : State → Prop
  | start : Run s₀ s₀
  | call {s s' : State} {call : Call} (h : Run s₀ s) (hstep : Step s call s') : Run s₀ s'

section calls

variable {s s' : State}

theorem holds_perm (mml : Bool) (mode : EpmpMode) (perm : EpmpPerm) :
    holds mml (byteOf (mode.val ||| perm.val) 0) := by
  cases mml <;> cases mode <;> cases perm <;> decide

theorem epmp_set_ok {entry : u8} {pmpcfg pmpaddr : u32} (hholds : holds s.csr.pmp_mseccfg.mml
      (byteOf pmpcfg 0)) (h : Matches s) (hrun : epmp_set entry pmpcfg pmpaddr s = some s')
    (hsame : s.csr.pmp_mseccfg.rlb = false → entries s'.epmp_state = entries s.epmp_state) :
    Matches s' := by
  refine epmp_set_matches h hrun ?_
  cases hrlb : s.csr.pmp_mseccfg.rlb with
  | true => exact .inl ⟨rfl, hholds⟩
  | false => exact .inr (hsame hrlb)

/-- Setting entries never changes `mseccfg`. -/
theorem epmp_set_mseccfg {entry : u8} {pmpcfg pmpaddr : u32}
    (hrun : epmp_set entry pmpcfg pmpaddr s = some s') :
    s'.csr.pmp_mseccfg = s.csr.pmp_mseccfg := by
  obtain ⟨_, -, -, hcsr⟩ := epmp_set_spec hrun
  rw [hcsr]
  rfl

theorem epmp_set_tor_spec {entry : u8} {region : EpmpRegion} {perm : EpmpPerm}
    (hrun : epmp_set_tor entry region perm s = some s') :
    ∃ s₁, epmp_set entry EpmpMode.kEpmpModeOff.val (region.start >>> 2) s = some s₁ ∧
      epmp_set (entry + 1) (EpmpMode.kEpmpModeTor.val ||| perm.val)
        (((region.end_ + 3) &&& ~~~3) >>> 2) s₁ = some s' ∧
      (entry + 1).toNat = entry.toNat + 1 := by
  simp only [epmp_set_tor, Option.bind_eq_bind, Option.bind_eq_some_iff] at hrun
  obtain ⟨s₁, hfirst, hsecond⟩ := hrun
  obtain ⟨hlt, -⟩ := epmp_set_spec hfirst
  exact ⟨s₁, hfirst, hsecond, by bv_omega⟩

theorem epmp_set_tor_matches {entry : u8} {region : EpmpRegion} {perm : EpmpPerm}
    (h : Matches s) (hrun : epmp_set_tor entry region perm s = some s')
    (hsame : s.csr.pmp_mseccfg.rlb = false → entries s'.epmp_state = entries s.epmp_state) :
    Matches s' := by
  obtain ⟨s₁, hfirst, hsecond, hnext⟩ := epmp_set_tor_spec hrun
  have hmseccfg := epmp_set_mseccfg hfirst
  obtain ⟨hlt₁, hset₁, -⟩ := epmp_set_spec hfirst
  obtain ⟨hlt₂, hset₂, -⟩ := epmp_set_spec hsecond
  have hne : (⟨entry.toNat, hlt₁⟩ : Fin 16) ≠ ⟨(entry + 1).toNat, hlt₂⟩ := by
    intro heq
    have := congrArg Fin.val heq
    simp only at this
    omega
  -- if both calls together change no entry, neither of them does
  have hsame₁ : s.csr.pmp_mseccfg.rlb = false → entries s₁.epmp_state = entries s.epmp_state := by
    intro hrlb
    funext i
    by_cases hi : i = ⟨entry.toNat, hlt₁⟩
    · rw [← congrFun (hsame hrlb) i, hset₂, hi, Function.update_of_ne hne]
    · rw [hset₁, Function.update_of_ne hi]
  refine epmp_set_ok (holds_perm _ _ _) (epmp_set_ok ?_ h hfirst hsame₁) hsecond fun hrlb => ?_
  · exact holds_perm _ .kEpmpModeOff .kEpmpPermUnlocked
  · rw [hmseccfg] at hrlb
    rw [hsame hrlb, hsame₁ hrlb]

/-- A call keeps the copy equal to the registers. -/
theorem Step.matches {call : Call} (hstep : Step s call s') (h : Matches s) : Matches s' := by
  obtain ⟨hrun, hholds, hsame⟩ := hstep
  cases call with
  | epmp_set entry pmpcfg pmpaddr => exact epmp_set_ok hholds h hrun hsame
  | epmp_clear entry =>
      exact epmp_set_ok (holds_perm _ .kEpmpModeOff .kEpmpPermUnlocked) h hrun hsame
  | epmp_set_napot entry region perm =>
      simp only [Call.run, epmp_set_napot, Option.bind_eq_bind, Option.bind_eq_some_iff] at hrun
      obtain ⟨addr, -, hrun⟩ := hrun
      exact epmp_set_ok (holds_perm _ _ _) h hrun hsame
  | epmp_set_tor entry region perm => exact epmp_set_tor_matches h hrun hsame
  | epmp_set_lock_bits =>
      obtain rfl := Option.some.inj hrun
      cases hrlb : s.csr.pmp_mseccfg.rlb with
      | true => exact epmp_set_lock_bits_matches h (.inl hrlb)
      | false => exact epmp_set_lock_bits_matches h (.inr (hsame hrlb))
  | epmp_clear_lock_bits =>
      obtain rfl := Option.some.inj hrun
      cases hrlb : s.csr.pmp_mseccfg.rlb with
      | true => exact epmp_clear_lock_bits_matches h (.inl hrlb)
      | false => exact epmp_clear_lock_bits_matches h (.inr (hsame hrlb))
  | epmp_clear_rlb =>
      obtain rfl := Option.some.inj hrun
      exact epmp_clear_rlb_matches h

theorem Run.matches (hrun : Run s s') (h : Matches s) : Matches s' := by
  induction hrun with
  | start => exact h
  | call _ hstep ih => exact hstep.matches ih

/-! ### What a call leaves as it is -/

theorem epmp_set_other {entry : u8} {pmpcfg pmpaddr : u32} {i : Fin 16}
    (hrun : epmp_set entry pmpcfg pmpaddr s = some s') (hi : i.val ≠ entry.toNat) :
    entries s'.epmp_state i = entries s.epmp_state i := by
  obtain ⟨hlt, hset, -⟩ := epmp_set_spec hrun
  rw [hset]
  exact Function.update_of_ne (fun heq => hi (congrArg Fin.val heq)) _ _

theorem Step.other {call : Call} (hstep : Step s call s') {i : Fin 16} (hi : ¬call.names i) :
    entries s'.epmp_state i =
      ⟨call.other_cfg (entries s.epmp_state i).cfg, (entries s.epmp_state i).addr⟩ := by
  have hrun := hstep.run
  cases call with
  | epmp_set entry pmpcfg pmpaddr => exact epmp_set_other hrun hi
  | epmp_clear entry => exact epmp_set_other hrun hi
  | epmp_set_napot entry region perm =>
      simp only [Call.run, epmp_set_napot, Option.bind_eq_bind, Option.bind_eq_some_iff] at hrun
      obtain ⟨addr, -, hrun⟩ := hrun
      exact epmp_set_other hrun hi
  | epmp_set_tor entry region perm =>
      obtain ⟨s₁, hfirst, hsecond, hnext⟩ := epmp_set_tor_spec hrun
      have hi₁ : i.val ≠ entry.toNat := fun h => hi (.inl h)
      have hi₂ : i.val ≠ (entry + 1).toNat := fun h => hi (.inr (h.trans hnext))
      exact (epmp_set_other hsecond hi₂).trans (epmp_set_other hfirst hi₁)
  | epmp_set_lock_bits =>
      obtain rfl := Option.some.inj hrun
      exact entries_set_lock s i
  | epmp_clear_lock_bits =>
      obtain rfl := Option.some.inj hrun
      exact entries_clear_lock s i
  | epmp_clear_rlb =>
      obtain rfl := Option.some.inj hrun
      rfl

theorem epmp_set_copy_mseccfg {entry : u8} {pmpcfg pmpaddr : u32}
    (hrun : epmp_set entry pmpcfg pmpaddr s = some s') :
    s'.epmp_state.mseccfg = s.epmp_state.mseccfg := by
  obtain ⟨_, -, hmseccfg, -⟩ := epmp_set_spec hrun
  exact hmseccfg

theorem Step.mseccfg {call : Call} (hstep : Step s call s') :
    s'.epmp_state.mseccfg = call.next_mseccfg s.epmp_state.mseccfg := by
  have hrun := hstep.run
  cases call with
  | epmp_set entry pmpcfg pmpaddr => exact epmp_set_copy_mseccfg hrun
  | epmp_clear entry => exact epmp_set_copy_mseccfg hrun
  | epmp_set_napot entry region perm =>
      simp only [Call.run, epmp_set_napot, Option.bind_eq_bind, Option.bind_eq_some_iff] at hrun
      obtain ⟨addr, -, hrun⟩ := hrun
      exact epmp_set_copy_mseccfg hrun
  | epmp_set_tor entry region perm =>
      obtain ⟨s₁, hfirst, hsecond, -⟩ := epmp_set_tor_spec hrun
      exact (epmp_set_copy_mseccfg hsecond).trans (epmp_set_copy_mseccfg hfirst)
  | epmp_set_lock_bits =>
      obtain rfl := Option.some.inj hrun
      rfl
  | epmp_clear_lock_bits =>
      obtain rfl := Option.some.inj hrun
      rfl
  | epmp_clear_rlb =>
      obtain rfl := Option.some.inj hrun
      rfl

/-! ### The regions that are set -/

theorem rdata_mode (c : PmpCfg) :
    PmpCfgMode.ofBits ((pmp_cfg_rdata c).extractLsb' 3 2) = c.mode := by
  obtain ⟨lock, mode, exec, write, read⟩ := c
  cases lock <;> cases mode <;> cases exec <;> cases write <;> cases read <;> decide

/-- The mode of the register field for a mode of the driver. -/
def EpmpMode.field : EpmpMode → PmpCfgMode
  | kEpmpModeOff => .off
  | kEpmpModeTor => .tor
  | kEpmpModeNa4 => .na4
  | kEpmpModeNapot => .napot

theorem mode_of_cfg (mode : EpmpMode) (perm : EpmpPerm) :
    PmpCfgMode.ofBits ((byteOf (mode.val ||| perm.val) 0).extractLsb' 3 2) = mode.field := by
  cases mode <;> cases perm <;> decide

/-- The registers of an entry that the copy has a mode and an address for. -/
theorem csr_of_entry {e : Fin 16} {mode : EpmpMode} {perm : EpmpPerm} {addr : u32}
    (h : Matches s)
    (hentry : entries s.epmp_state e = ⟨byteOf (mode.val ||| perm.val) 0, addr⟩) :
    (s.csr.pmp_cfg e).mode = mode.field ∧ s.csr.pmp_addr e = addr := by
  have hcsr : csr_entries s.csr e = ⟨byteOf (mode.val ||| perm.val) 0, addr⟩ := by
    rw [← ((matches_iff s).mp h).1, hentry]
  have hcfg : pmp_cfg_rdata (s.csr.pmp_cfg e) = byteOf (mode.val ||| perm.val) 0 :=
    congrArg Entry.cfg hcsr
  refine ⟨?_, congrArg Entry.addr hcsr⟩
  rw [← rdata_mode, hcfg, mode_of_cfg]

theorem epmp_set_self {entry : u8} {pmpcfg pmpaddr : u32} {e : Fin 16}
    (hrun : epmp_set entry pmpcfg pmpaddr s = some s') (he : e.val = entry.toNat) :
    entries s'.epmp_state e = ⟨byteOf pmpcfg 0, pmpaddr⟩ := by
  obtain ⟨hlt, hset, -⟩ := epmp_set_spec hrun
  obtain rfl : e = ⟨entry.toNat, hlt⟩ := Fin.ext he
  rw [hset, Function.update_self]

theorem Step.region {call : Call} (hstep : Step s call s') (h : Matches s') :
    call.region_exact s'.csr := by
  have hrun := hstep.run
  cases call with
  | epmp_set_napot entry region perm =>
      simp only [Call.run, epmp_set_napot, Option.bind_eq_bind, Option.bind_eq_some_iff] at hrun
      obtain ⟨addr, hencode, hrun⟩ := hrun
      intro e x he
      obtain ⟨hmode, haddr⟩ := csr_of_entry h (epmp_set_self hrun he)
      refine napot_match hencode haddr ?_ x
      rw [hmode]
      split_ifs <;> rfl
  | epmp_set_tor entry region perm =>
      obtain ⟨s₁, hfirst, hsecond, hnext⟩ := epmp_set_tor_spec hrun
      intro hstart hend e r x he hr
      -- the second call leaves the first entry
      have hfrom : entries s'.epmp_state e =
          ⟨byteOf (EpmpMode.kEpmpModeOff.val ||| EpmpPerm.kEpmpPermUnlocked.val) 0,
            region.start >>> 2⟩ := by
        rw [epmp_set_other hsecond (by omega), epmp_set_self hfirst he]
        rfl
      obtain ⟨hoff, hstart'⟩ := csr_of_entry h hfrom
      obtain ⟨htor, hend'⟩ := csr_of_entry (e := r) h (epmp_set_self hsecond (by omega))
      exact tor_match (e := e) (by omega) hoff htor hstart' hend' hstart hend x
  | _ => exact trivial

/-! ### The copy and the registers -/

/-- In every run in which `epmp_set` is given bytes that an entry can hold, and in which no
entry changes while rule locking bypass is off: the copy equals the registers, a call
changes only what it names, and the regions that are set are the regions given. -/
theorem epmp_state_matches_csr {s₀ : State} (hmatch : Matches s₀) (hrun : Run s₀ s) :
    Matches s ∧ epmp_state_check s = some RomError.kErrorOk.code ∧
      ∀ call s', Step s call s' →
        (∀ i, ¬call.names i → entries s'.epmp_state i =
          ⟨call.other_cfg (entries s.epmp_state i).cfg, (entries s.epmp_state i).addr⟩) ∧
        s'.epmp_state.mseccfg = call.next_mseccfg s.epmp_state.mseccfg ∧
        call.region_exact s'.csr := by
  have h := hrun.matches hmatch
  exact ⟨h, epmp_state_check_of_matches h, fun call s' hstep =>
    ⟨fun _ => hstep.other, hstep.mseccfg, hstep.region (hstep.matches h)⟩⟩

end calls

/-- All entries off, with rule locking bypass. -/
def unlocked : State where
  epmp_state := { pmpcfg := Vector.replicate 4 0, pmpaddr := Vector.replicate 16 0, mseccfg := 4 }
  csr :=
    { pmp_cfg := fun _ => ⟨false, .off, false, false, false⟩
      pmp_addr := fun _ => 0
      pmp_mseccfg := { rlb := true, mmwp := false, mml := false }
      held := fun _ _ => nofun }

theorem unlocked_matches : Matches unlocked := ⟨by decide, by decide, by decide⟩

theorem epmp_state_matches_csr_napot :
    ∃ s, epmp_set_napot 3 ⟨0x20000000, 0x20100000⟩ .kEpmpPermLockedReadOnly unlocked = some s ∧
      epmp_state_check s = some RomError.kErrorOk.code ∧
      ∀ x, s.csr.region_match_all 3 x = true ↔
        0x20000000 ≤ x.toNat ∧ x.toNat < 0x20000000 + 0x100000 := by
  have hstep : Step unlocked
      (.epmp_set_napot 3 ⟨0x20000000, 0x20100000⟩ .kEpmpPermLockedReadOnly) _ :=
    { run := rfl, cfg_holds := trivial, unchanged := nofun }
  have hafter := epmp_state_matches_csr unlocked_matches (Run.start.call hstep)
  have hregion := (epmp_state_matches_csr unlocked_matches Run.start).2.2 _ _ hstep
  exact ⟨_, rfl, hafter.2.1, fun x => hregion.2.2 3 x rfl⟩

/-- The reserved bits are kept in the copy and not in the register. -/
theorem epmp_set_reserved_bits :
    Matches unlocked ∧ unlocked.csr.pmp_mseccfg.rlb = true ∧
      ∃ s, epmp_set 0 0x60 0 unlocked = some s ∧ ¬Matches s ∧
        epmp_state_check s = some RomError.kErrorEpmpBadCheck.code := by
  refine ⟨unlocked_matches, rfl, _, rfl, fun h => ?_, by decide⟩
  exact absurd (h.pmpcfg 0) (by decide)

end IbexFirmware.Epmp
