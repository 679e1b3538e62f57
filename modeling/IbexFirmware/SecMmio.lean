/-
Tracked registers (`sec_mmio.c`).

The context is a table of addresses with the value that was last read or written there,
masked, filled from the front. Each loop of the source has a second counter that runs the
other way, as a check against glitches, and a trap behind it. The traps are part of the
model: a function is `none` where the source traps.

The device is a state with a read and a write, so that reads may have effects. `Run` is
the sequences of calls, with the value that each address was last read or written with.
`Tracks` is the invariant: the filled part of the table is that record, no address twice.
-/
import IbexFirmware.Lib.Bits
import IbexFirmware.Lib.Cyclic
import IbexFirmware.RomError

set_option autoImplicit false

namespace IbexFirmware.SecMmio

open Bytes Cyclic

/-! ## The context -/

def kSecMmioMaskVal : u32 := 0x21692436
def kSecMmioValZero : u32 := 0x3ca5965a
def kSecMmioRegFileSize : ℕ := 1000
def kEntryCount : u32 := 1000

def UINT32_MAX : u32 := 0xffffffff

/-- `sec_mmio_ctx_t`. -/
structure SecMmioCtx where
  last_index : u32
  write_count : u32
  expected_write_count : u32
  check_count : u32
  values : Vector u32 kSecMmioRegFileSize
  addrs : Vector u32 kSecMmioRegFileSize

/-- The registers behind `abs_mmio_read32` and `abs_mmio_write32`. -/
structure Mmio (σ : Type) where
  read : u32 → σ → u32 × σ
  write : u32 → u32 → σ → σ

structure State (σ : Type) where
  ctx : SecMmioCtx
  dev : σ

namespace SecMmioCtx

/-- An entry behind the end of the table is not there. -/
def addr (ctx : SecMmioCtx) (i : u32) : Option u32 := ctx.addrs[i.toNat]?

def value (ctx : SecMmioCtx) (i : u32) : Option u32 := ctx.values[i.toNat]?

def set_value (ctx : SecMmioCtx) (i : u32) (value : u32) : SecMmioCtx :=
  { ctx with values := ctx.values.setIfInBounds i.toNat value }

def set_entry (ctx : SecMmioCtx) (i : u32) (addr value : u32) : SecMmioCtx :=
  { ctx with
    addrs := ctx.addrs.setIfInBounds i.toNat addr
    values := ctx.values.setIfInBounds i.toNat value }

end SecMmioCtx

/-! ## The functions -/

/-- The loop of `upsert_register`. Each round takes `i` one entry on, so that `last_index`
rounds are as many as there are. -/
def upsert_loop (addr value last_index : u32) :
    (fuel : ℕ) → (i j : u32) → SecMmioCtx → u32 × u32 × SecMmioCtx
  | 0, i, j, ctx => (i, j, ctx)
  | fuel + 1, i, j, ctx =>
      if i < last_index ∧ j < last_index then
        if ctx.addr i = some addr then (i, j, ctx.set_value i value)
        else upsert_loop addr value last_index fuel (i + 1) (j - 1) ctx
      else (i, j, ctx)

def upsert_register (addr value : u32) (ctx : SecMmioCtx) : Option SecMmioCtx := do
  let last_index := ctx.last_index
  let (i, j, ctx) := upsert_loop addr value last_index last_index.toNat 0 (last_index - 1) ctx
  let ctx ←
    if i = last_index ∧ i < kEntryCount then do
      hardened_check (j = UINT32_MAX)
      pure { ctx.set_entry i addr value with last_index := ctx.last_index + 1 }
    else pure ctx
  hardened_check (ctx.addr i = some addr)
  hardened_check (i < kEntryCount)
  return ctx

/-- The loop that empties the table from `i` on. -/
def clear_loop : (fuel : ℕ) → (i r : u32) → SecMmioCtx → u32 × u32 × SecMmioCtx
  | 0, i, r, ctx => (i, r, ctx)
  | fuel + 1, i, r, ctx =>
      if i < kEntryCount ∧ r < kEntryCount then
        clear_loop fuel (i + 1) (r - 1) (ctx.set_entry i UINT32_MAX UINT32_MAX)
      else (i, r, ctx)

def sec_mmio_init (ctx : SecMmioCtx) : Option SecMmioCtx := do
  let ctx := { ctx with
    last_index := 0, write_count := 0, check_count := 0, expected_write_count := 0 }
  let (i, r, ctx) := clear_loop kSecMmioRegFileSize 0 (kEntryCount - 1) ctx
  hardened_check (i = kEntryCount)
  hardened_check (r = UINT32_MAX)
  hardened_check (kSecMmioValZero ^^^ ctx.last_index ^^^ ctx.write_count ^^^ ctx.check_count ^^^
    ctx.expected_write_count = kSecMmioValZero)
  return ctx

def sec_mmio_next_stage_init (ctx : SecMmioCtx) : Option SecMmioCtx := do
  let ctx := { ctx with check_count := 0 }
  let (i, r, ctx) := clear_loop kSecMmioRegFileSize ctx.last_index
    (kEntryCount - ctx.last_index - 1) ctx
  hardened_check (i = kEntryCount)
  hardened_check (r = UINT32_MAX)
  hardened_check (ctx.check_count = 0)
  return ctx

section device

variable {σ : Type} (mmio : Mmio σ)

/-- The end of an access: record the value and read the register again. -/
def record_access (addr value : u32) (s : State σ) : Option (State σ) := do
  let masked_value := value ^^^ kSecMmioMaskVal
  let ctx ← upsert_register addr masked_value s.ctx
  let (read_back, dev) := mmio.read addr s.dev
  hardened_check (read_back ^^^ kSecMmioMaskVal = masked_value)
  return { ctx, dev }

def sec_mmio_read32 (addr : u32) (s : State σ) : Option (u32 × State σ) := do
  let (value, dev) := mmio.read addr s.dev
  let s ← record_access mmio addr value { s with dev }
  return (value, s)

/-- Count a write. -/
def count_write (s : State σ) : State σ :=
  { s with ctx := { s.ctx with write_count := s.ctx.write_count + 1 } }

def sec_mmio_write32 (addr value : u32) (s : State σ) : Option (State σ) := do
  let s ← record_access mmio addr value { s with dev := mmio.write addr value s.dev }
  return count_write s

/-- Shadowed registers require two writes. -/
def sec_mmio_write32_shadowed (addr value : u32) (s : State σ) : Option (State σ) := do
  let dev := mmio.write addr value (mmio.write addr value s.dev)
  let s ← record_access mmio addr value { s with dev }
  return count_write s

/-! ## The checks -/

/-- The random offset into a table of `last_index` entries. -/
def start_offset (rnd_offset last_index : u32) : u32 :=
  (((rnd_offset.setWidth 64 * last_index.setWidth 64 : u64)) >>> 32).setWidth 32

def next_offset (offset last_index : u32) : u32 :=
  if offset + 1 ≥ last_index then offset + 1 - last_index else offset + 1

/-- The loop of the two checks, with what is done for one entry. -/
def check_loop (check : u32 → u32 → σ → Option σ) (ctx : SecMmioCtx) :
    (fuel : ℕ) → (i r offset : u32) → σ → Option (u32 × u32 × σ)
  | 0, i, r, _, dev => some (i, r, dev)
  | fuel + 1, i, r, offset, dev =>
      if i < ctx.last_index ∧ r < ctx.last_index then do
        let dev ← check (← ctx.addr offset) (← ctx.value offset) dev
        check_loop check ctx fuel (i + 1) (r - 1) (next_offset offset ctx.last_index) dev
      else some (i, r, dev)

/-- What the checks have in common. -/
def check_entries (check : u32 → u32 → σ → Option σ) (rnd_offset : u32) (s : State σ) :
    Option (State σ) := do
  let last_index := s.ctx.last_index
  let (i, r, dev) ← check_loop check s.ctx last_index.toNat 0 (last_index - 1)
    (start_offset rnd_offset last_index) s.dev
  hardened_check (i = last_index)
  hardened_check (r = UINT32_MAX)
  return { ctx := { s.ctx with check_count := s.ctx.check_count + 1 }, dev }

/-- Compare a register with its entry. -/
def check_value (addr value : u32) (dev : σ) : Option σ := do
  let (read_value, dev) := mmio.read addr dev
  hardened_check (read_value ^^^ kSecMmioMaskVal = value)
  return dev

def sec_mmio_check_values (rnd_offset : u32) (s : State σ) : Option (State σ) :=
  check_entries (check_value mmio) rnd_offset s

/-- Avoid the 64K aligned and 64K sized region at `otp_base`. -/
def check_value_except_otp (otp_base addr value : u32) (dev : σ) : Option σ :=
  if addr &&& 0xffff0000 ≠ otp_base then check_value mmio addr value dev else some dev

def sec_mmio_check_values_except_otp (rnd_offset otp_base : u32) (s : State σ) :
    Option (State σ) := do
  hardened_check (otp_base &&& 0x0000ffff = 0)
  hardened_check (otp_base &&& 0xffff0000 ≠ 0)
  check_entries (check_value_except_otp mmio otp_base) rnd_offset s

end device

/-! ## The table -/

/-- The filled part of the table is the record, and no address is in it twice. -/
structure Tracks (ctx : SecMmioCtx) (record : u32 → Option u32) : Prop where
  size : ctx.last_index.toNat ≤ kSecMmioRegFileSize
  once : ∀ i j, i < ctx.last_index.toNat → j < ctx.last_index.toNat →
    ctx.addrs[i]? = ctx.addrs[j]? → i = j
  entry : ∀ a v, record a = some v ↔ ∃ i < ctx.last_index.toNat,
    ctx.addrs[i]? = some a ∧ ctx.values[i]? = some (v ^^^ kSecMmioMaskVal)

/-- The record after an access. -/
def accessed (record : u32 → Option u32) (addr value : u32) : u32 → Option u32 :=
  Function.update record addr (some value)

section table

variable {ctx : SecMmioCtx} {record : u32 → Option u32}

theorem kSecMmioRegFileSize_eq : kSecMmioRegFileSize = 1000 := rfl

/-- The loop stops at the entry of the address, or behind the last one with the second
counter below zero. -/
theorem upsert_loop_spec (addr value : u32) {fuel : ℕ} {i j : u32}
    (hsize : ctx.last_index.toNat ≤ kSecMmioRegFileSize)
    (hfuel : i.toNat + fuel = ctx.last_index.toNat) (hj : j = ctx.last_index - 1 - i)
    (hbefore : ∀ k < i.toNat, ctx.addrs[k]? ≠ some addr) :
    (∃ k j', k.toNat < ctx.last_index.toNat ∧ ctx.addrs[k.toNat]? = some addr ∧
        upsert_loop addr value ctx.last_index fuel i j ctx = (k, j', ctx.set_value k value)) ∨
      (∀ k < ctx.last_index.toNat, ctx.addrs[k]? ≠ some addr) ∧
        upsert_loop addr value ctx.last_index fuel i j ctx = (ctx.last_index, UINT32_MAX, ctx) := by
  rw [kSecMmioRegFileSize_eq] at hsize
  induction fuel generalizing i j with
  | zero =>
      have hi : i = ctx.last_index := BitVec.eq_of_toNat_eq (by omega)
      subst hi
      have hend : j = UINT32_MAX := by
        rw [hj, UINT32_MAX]
        bv_omega
      exact .inr ⟨hbefore, by rw [upsert_loop, hend]⟩
  | succ fuel ih =>
      have hbounds : i < ctx.last_index ∧ j < ctx.last_index := by
        subst hj
        constructor <;> bv_omega
      rw [upsert_loop, if_pos hbounds]
      by_cases hfound : ctx.addr i = some addr
      · rw [if_pos hfound]
        exact .inl ⟨i, j, by omega, hfound, rfl⟩
      · rw [if_neg hfound]
        have hnext : (i + 1).toNat = i.toNat + 1 := by bv_omega
        refine ih (by omega) ?_ ?_
        · rw [hj]
          bv_omega
        · intro k hk
          by_cases hki : k = i.toNat
          · rw [hki]
            exact hfound
          · exact hbefore k (by omega)

theorem unmask_inj {v w : u32} (h : v ^^^ kSecMmioMaskVal = w ^^^ kSecMmioMaskVal) : v = w := by
  have hcancel : ∀ x : u32, x ^^^ kSecMmioMaskVal ^^^ kSecMmioMaskVal = x := fun x => by
    rw [BitVec.xor_assoc, BitVec.xor_self, BitVec.xor_zero]
  rw [← hcancel v, h, hcancel]

/-- A value is replaced where the address is. -/
theorem Tracks.set_value {addr value k : u32} (h : Tracks ctx record)
    (hk : k.toNat < ctx.last_index.toNat) (haddr : ctx.addrs[k.toNat]? = some addr) :
    Tracks (ctx.set_value k (value ^^^ kSecMmioMaskVal)) (accessed record addr value) := by
  have hlt : k.toNat < kSecMmioRegFileSize := by
    have := h.size
    omega
  refine ⟨h.size, h.once, fun a v => ?_⟩
  have hvalue : ∀ i, (ctx.set_value k (value ^^^ kSecMmioMaskVal)).values[i]? =
      if k.toNat = i then some (value ^^^ kSecMmioMaskVal) else ctx.values[i]? := by
    intro i
    rw [SecMmioCtx.set_value, Vector.getElem?_setIfInBounds, if_pos hlt]
  simp only [hvalue]
  show accessed record addr value a = some v ↔ ∃ i < ctx.last_index.toNat,
    ctx.addrs[i]? = some a ∧ _
  by_cases ha : a = addr
  · subst ha
    rw [accessed, Function.update_self]
    constructor
    · intro hv
      obtain rfl := Option.some.inj hv
      exact ⟨k.toNat, hk, haddr, if_pos rfl⟩
    · rintro ⟨i, hi, hai, hvi⟩
      have hki : k.toNat = i := h.once _ _ hk hi (haddr.trans hai.symm)
      rw [if_pos hki] at hvi
      exact congrArg some (unmask_inj (Option.some.inj hvi))
  · rw [accessed, Function.update_of_ne ha, h.entry]
    constructor
    · rintro ⟨i, hi, hai, hvi⟩
      have hki : k.toNat ≠ i := by
        rintro rfl
        exact ha (Option.some.inj (hai.symm.trans haddr))
      exact ⟨i, hi, hai, by rw [if_neg hki]; exact hvi⟩
    · rintro ⟨i, hi, hai, hvi⟩
      have hki : k.toNat ≠ i := by
        rintro rfl
        exact ha (Option.some.inj (hai.symm.trans haddr))
      rw [if_neg hki] at hvi
      exact ⟨i, hi, hai, hvi⟩

/-- A new address goes behind the others. -/
theorem Tracks.append {addr value : u32} (h : Tracks ctx record)
    (hlt : ctx.last_index.toNat < kSecMmioRegFileSize)
    (hnew : ∀ k < ctx.last_index.toNat, ctx.addrs[k]? ≠ some addr) :
    Tracks { ctx.set_entry ctx.last_index addr (value ^^^ kSecMmioMaskVal) with
      last_index := ctx.last_index + 1 } (accessed record addr value) := by
  have hlast : (ctx.last_index + 1).toNat = ctx.last_index.toNat + 1 := by
    rw [kSecMmioRegFileSize_eq] at hlt
    bv_omega
  have haddr : ∀ i, (ctx.set_entry ctx.last_index addr (value ^^^ kSecMmioMaskVal)).addrs[i]? =
      if ctx.last_index.toNat = i then some addr else ctx.addrs[i]? := by
    intro i
    rw [SecMmioCtx.set_entry, Vector.getElem?_setIfInBounds, if_pos hlt]
  have hvalue : ∀ i, (ctx.set_entry ctx.last_index addr (value ^^^ kSecMmioMaskVal)).values[i]? =
      if ctx.last_index.toNat = i then some (value ^^^ kSecMmioMaskVal) else ctx.values[i]? := by
    intro i
    rw [SecMmioCtx.set_entry, Vector.getElem?_setIfInBounds, if_pos hlt]
  refine ⟨by rw [hlast]; exact hlt, fun i j hi hj hij => ?_, fun a v => ?_⟩
  · rw [hlast] at hi hj
    rw [haddr, haddr] at hij
    by_cases hil : ctx.last_index.toNat = i
    · by_cases hjl : ctx.last_index.toNat = j
      · exact hil.symm.trans hjl
      · rw [if_pos hil, if_neg hjl] at hij
        exact absurd hij.symm (hnew j (by omega))
    · by_cases hjl : ctx.last_index.toNat = j
      · rw [if_neg hil, if_pos hjl] at hij
        exact absurd hij (hnew i (by omega))
      · rw [if_neg hil, if_neg hjl] at hij
        exact h.once i j (by omega) (by omega) hij
  · simp only [haddr, hvalue, hlast]
    by_cases ha : a = addr
    · subst ha
      rw [accessed, Function.update_self]
      constructor
      · intro hv
        obtain rfl := Option.some.inj hv
        exact ⟨ctx.last_index.toNat, by omega, if_pos rfl, if_pos rfl⟩
      · rintro ⟨i, hi, hai, hvi⟩
        by_cases hil : ctx.last_index.toNat = i
        · rw [if_pos hil] at hvi
          exact congrArg some (unmask_inj (Option.some.inj hvi))
        · rw [if_neg hil] at hai
          exact absurd hai (hnew i (by omega))
    · rw [accessed, Function.update_of_ne ha, h.entry]
      constructor
      · rintro ⟨i, hi, hai, hvi⟩
        exact ⟨i, by omega, by rw [if_neg (by omega)]; exact hai, by rw [if_neg (by omega)]; exact hvi⟩
      · rintro ⟨i, hi, hai, hvi⟩
        by_cases hil : ctx.last_index.toNat = i
        · rw [if_pos hil] at hai
          exact absurd (Option.some.inj hai).symm ha
        · rw [if_neg hil] at hai hvi
          exact ⟨i, by omega, hai, hvi⟩

/-- An access that does not trap is recorded. -/
theorem Tracks.upsert {ctx' : SecMmioCtx} {addr value : u32} (h : Tracks ctx record)
    (hrun : upsert_register addr (value ^^^ kSecMmioMaskVal) ctx = some ctx') :
    Tracks ctx' (accessed record addr value) := by
  have hloop := upsert_loop_spec addr (value ^^^ kSecMmioMaskVal) (i := 0)
    (j := ctx.last_index - 1) h.size (Nat.zero_add _) (BitVec.sub_zero _).symm
    fun k hk => absurd hk (Nat.not_lt_zero k)
  have hsize := h.size
  rw [kSecMmioRegFileSize_eq] at hsize
  rcases hloop with ⟨k, j', hk, haddr, hloop⟩ | ⟨hnew, hloop⟩
  · -- found: the entry is not behind the last one, so nothing is appended
    have hlast : ¬(k = ctx.last_index ∧ k < kEntryCount) := by
      rintro ⟨rfl, -⟩
      exact absurd hk (Nat.lt_irrefl _)
    simp only [upsert_register, hloop, if_neg hlast, Option.bind_eq_bind, Option.pure_def,
      Option.bind_some, Option.bind_eq_some_iff, Option.some.injEq] at hrun
    obtain ⟨-, -, -, -, rfl⟩ := hrun
    exact h.set_value hk haddr
  · by_cases hroom : ctx.last_index < kEntryCount
    · have hlt : ctx.last_index.toNat < kSecMmioRegFileSize := by
        have : ctx.last_index.toNat < (1000 : u32).toNat := hroom
        exact this
      simp only [upsert_register, hloop, hroom, and_self, if_true, Option.bind_eq_bind,
        Option.pure_def, Option.bind_some, Option.bind_eq_some_iff, Option.some.injEq] at hrun
      obtain ⟨-, -, -, -, -, -, rfl⟩ := hrun
      exact h.append hlt hnew
    · -- full: the last check traps
      simp only [upsert_register, hloop, hroom, and_false, if_false, Option.bind_eq_bind,
        Option.pure_def, Option.bind_some, Option.bind_eq_some_iff, hardened_check_eq_some] at hrun
      obtain ⟨-, -, -, hlt, -⟩ := hrun
      exact hlt.elim

/-- A table with its filled part as it was tracks what it did. -/
theorem Tracks.of_same {ctx' : SecMmioCtx} (h : Tracks ctx record)
    (hlast : ctx'.last_index = ctx.last_index)
    (haddr : ∀ k < ctx.last_index.toNat, ctx'.addrs[k]? = ctx.addrs[k]?)
    (hvalue : ∀ k < ctx.last_index.toNat, ctx'.values[k]? = ctx.values[k]?) :
    Tracks ctx' record := by
  refine ⟨by rw [hlast]; exact h.size, fun i j hi hj hij => ?_, fun a v => ?_⟩
  · rw [hlast] at hi hj
    rw [haddr i hi, haddr j hj] at hij
    exact h.once i j hi hj hij
  · rw [h.entry, hlast]
    constructor
    · rintro ⟨i, hi, hai, hvi⟩
      exact ⟨i, hi, by rw [haddr i hi]; exact hai, by rw [hvalue i hi]; exact hvi⟩
    · rintro ⟨i, hi, hai, hvi⟩
      rw [haddr i hi] at hai
      rw [hvalue i hi] at hvi
      exact ⟨i, hi, hai, hvi⟩

theorem Tracks.empty (hlast : ctx.last_index = 0) : Tracks ctx fun _ => none := by
  have hzero : ctx.last_index.toNat = 0 := by
    rw [hlast]
    rfl
  refine ⟨by rw [hzero]; exact Nat.zero_le _, fun i j hi => ?_, fun a v => ?_⟩
  · exact absurd hi (by omega)
  · constructor
    · nofun
    · rintro ⟨i, hi, -⟩
      exact absurd hi (by omega)

/-- The entries that are emptied are those from `i` on. -/
theorem clear_loop_spec (fuel : ℕ) (i r : u32) (ctx : SecMmioCtx) :
    (clear_loop fuel i r ctx).2.2.last_index = ctx.last_index ∧
      ∀ k < i.toNat, (clear_loop fuel i r ctx).2.2.addrs[k]? = ctx.addrs[k]? ∧
        (clear_loop fuel i r ctx).2.2.values[k]? = ctx.values[k]? := by
  induction fuel generalizing i r ctx with
  | zero => exact ⟨rfl, fun k _ => ⟨rfl, rfl⟩⟩
  | succ fuel ih =>
      rw [clear_loop]
      split_ifs with hbounds
      · obtain ⟨hlast, hsame⟩ := ih (i + 1) (r - 1) (ctx.set_entry i UINT32_MAX UINT32_MAX)
        refine ⟨hlast, fun k hk => ?_⟩
        have hnext : (i + 1).toNat = i.toNat + 1 := by
          bv_omega
        obtain ⟨haddr, hvalue⟩ := hsame k (by omega)
        have hne : i.toNat ≠ k := by omega
        rw [haddr, hvalue]
        exact ⟨Vector.getElem?_setIfInBounds_ne hne, Vector.getElem?_setIfInBounds_ne hne⟩
      · exact ⟨rfl, fun k _ => ⟨rfl, rfl⟩⟩

theorem Tracks.init {ctx' : SecMmioCtx} (hrun : sec_mmio_init ctx = some ctx') :
    Tracks ctx' fun _ => none := by
  have hclear := clear_loop_spec kSecMmioRegFileSize 0 (kEntryCount - 1) { ctx with
    last_index := 0, write_count := 0, check_count := 0, expected_write_count := 0 }
  simp only [sec_mmio_init, Option.bind_eq_bind, Option.pure_def, Option.bind_eq_some_iff,
    Option.some.injEq] at hrun
  generalize clear_loop kSecMmioRegFileSize _ _ _ = cleared at hclear hrun
  obtain ⟨-, -, -, -, -, -, rfl⟩ := hrun
  exact Tracks.empty hclear.1

theorem Tracks.next_stage_init {ctx' : SecMmioCtx} (h : Tracks ctx record)
    (hrun : sec_mmio_next_stage_init ctx = some ctx') : Tracks ctx' record := by
  have hclear := clear_loop_spec kSecMmioRegFileSize ctx.last_index
    (kEntryCount - ctx.last_index - 1) { ctx with check_count := 0 }
  simp only [sec_mmio_next_stage_init, Option.bind_eq_bind, Option.pure_def,
    Option.bind_eq_some_iff, Option.some.injEq] at hrun
  generalize clear_loop kSecMmioRegFileSize _ _ _ = cleared at hclear hrun
  obtain ⟨-, -, -, -, -, -, rfl⟩ := hrun
  obtain ⟨hlast, hsame⟩ := hclear
  exact h.of_same hlast (fun k hk => (hsame k hk).1) fun k hk => (hsame k hk).2

end table

/-! ## Runs -/

section runs

variable {σ : Type} (mmio : Mmio σ)

/-- The states after a sequence of calls, with the value that each address was last read or
written with since `sec_mmio_init`. Between two calls the registers may change. -/
inductive Run : State σ → (u32 → Option u32) → Prop
  | init {s : State σ} {ctx : SecMmioCtx} (hrun : sec_mmio_init s.ctx = some ctx) :
      Run { s with ctx } fun _ => none
  | next_stage {s : State σ} {record : u32 → Option u32} {ctx : SecMmioCtx} (h : Run s record)
      (hrun : sec_mmio_next_stage_init s.ctx = some ctx) : Run { s with ctx } record
  | read {s s' : State σ} {record : u32 → Option u32} {addr value : u32} (h : Run s record)
      (hrun : sec_mmio_read32 mmio addr s = some (value, s')) : Run s' (accessed record addr value)
  | write {s s' : State σ} {record : u32 → Option u32} {addr value : u32} (h : Run s record)
      (hrun : sec_mmio_write32 mmio addr value s = some s') : Run s' (accessed record addr value)
  | write_shadowed {s s' : State σ} {record : u32 → Option u32} {addr value : u32}
      (h : Run s record) (hrun : sec_mmio_write32_shadowed mmio addr value s = some s') :
      Run s' (accessed record addr value)
  | device {s : State σ} {record : u32 → Option u32} (h : Run s record) (dev : σ) :
      Run { s with dev } record

variable {mmio} {s s' : State σ} {record : u32 → Option u32}

theorem record_access_tracks {ctx : SecMmioCtx} {dev : σ} {addr value : u32}
    (h : Tracks ctx record) (hrun : record_access mmio addr value { ctx, dev } = some s') :
    Tracks s'.ctx (accessed record addr value) := by
  simp only [record_access, Option.bind_eq_bind, Option.pure_def, Option.bind_eq_some_iff,
    Option.some.injEq] at hrun
  obtain ⟨ctx, hctx, -, -, rfl⟩ := hrun
  exact h.upsert hctx

/-- Counting a write leaves the table as it is. -/
theorem count_write_tracks (h : Tracks s.ctx record) : Tracks (count_write s).ctx record :=
  h.of_same rfl (fun _ _ => rfl) fun _ _ => rfl

theorem Run.tracks (h : Run mmio s record) : Tracks s.ctx record := by
  induction h with
  | init hrun => exact Tracks.init hrun
  | next_stage _ hrun ih => exact ih.next_stage_init hrun
  | read _ hrun ih =>
      simp only [sec_mmio_read32, Option.bind_eq_bind, Option.pure_def, Option.bind_eq_some_iff,
        Option.some.injEq, Prod.mk.injEq] at hrun
      obtain ⟨s₁, hrecord, rfl, rfl⟩ := hrun
      exact record_access_tracks ih hrecord
  | write _ hrun ih =>
      simp only [sec_mmio_write32, Option.bind_eq_bind, Option.pure_def, Option.bind_eq_some_iff,
        Option.some.injEq] at hrun
      obtain ⟨s₁, hrecord, rfl⟩ := hrun
      exact count_write_tracks (record_access_tracks ih hrecord)
  | write_shadowed _ hrun ih =>
      simp only [sec_mmio_write32_shadowed, Option.bind_eq_bind, Option.pure_def,
        Option.bind_eq_some_iff, Option.some.injEq] at hrun
      obtain ⟨s₁, hrecord, rfl⟩ := hrun
      exact count_write_tracks (record_access_tracks ih hrecord)
  | device _ _ ih => exact ih

end runs

/-! ## The tracked registers -/

namespace SecMmioCtx

/-- An entry, with the value unmasked. -/
def entry (ctx : SecMmioCtx) (i : ℕ) : Option (u32 × u32) := do
  let addr ← ctx.addrs[i]?
  let value ← ctx.values[i]?
  return (addr, value ^^^ kSecMmioMaskVal)

/-- The filled part of the table. -/
def tracked (ctx : SecMmioCtx) : List (u32 × u32) :=
  (List.range ctx.last_index.toNat).filterMap ctx.entry

theorem entry_eq_some {ctx : SecMmioCtx} {i : ℕ} {a v : u32} :
    ctx.entry i = some (a, v) ↔
      ctx.addrs[i]? = some a ∧ ctx.values[i]? = some (v ^^^ kSecMmioMaskVal) := by
  simp only [entry, Option.bind_eq_bind, Option.pure_def, Option.bind_eq_some_iff,
    Option.some.injEq, Prod.mk.injEq]
  constructor
  · rintro ⟨_, haddr, w, hvalue, rfl, rfl⟩
    refine ⟨haddr, ?_⟩
    rw [BitVec.xor_assoc, BitVec.xor_self, BitVec.xor_zero]
    exact hvalue
  · rintro ⟨haddr, hvalue⟩
    refine ⟨a, haddr, _, hvalue, rfl, ?_⟩
    rw [BitVec.xor_assoc, BitVec.xor_self, BitVec.xor_zero]

end SecMmioCtx

theorem Tracks.mem_tracked {ctx : SecMmioCtx} {record : u32 → Option u32}
    (h : Tracks ctx record) (a v : u32) : (a, v) ∈ ctx.tracked ↔ record a = some v := by
  rw [h.entry, SecMmioCtx.tracked, List.mem_filterMap]
  constructor
  · rintro ⟨i, hi, he⟩
    exact ⟨i, List.mem_range.mp hi, SecMmioCtx.entry_eq_some.mp he⟩
  · rintro ⟨i, hi, he⟩
    exact ⟨i, List.mem_range.mpr hi, SecMmioCtx.entry_eq_some.mpr he⟩

theorem Tracks.tracked_nodup {ctx : SecMmioCtx} {record : u32 → Option u32}
    (h : Tracks ctx record) : (ctx.tracked.map Prod.fst).Nodup := by
  unfold SecMmioCtx.tracked List.Nodup
  rw [List.pairwise_map, List.pairwise_filterMap]
  refine List.Pairwise.imp_of_mem (fun {i j} hi hj hij => ?_) (List.pairwise_lt_range)
  rintro ⟨a, v⟩ ha ⟨b, w⟩ hb hab
  obtain rfl : a = b := hab
  have hai := (SecMmioCtx.entry_eq_some.mp ha).1
  have hbj := (SecMmioCtx.entry_eq_some.mp hb).1
  have := h.once i j (List.mem_range.mp hi) (List.mem_range.mp hj) (hai.trans hbj.symm)
  omega

/-! ## The checks and the tracked registers -/

section checks

variable {σ : Type}

/-- Read registers one after the other. -/
def read_all (mmio : Mmio σ) : List u32 → σ → List u32 × σ
  | [], dev => ([], dev)
  | addr :: addrs, dev =>
      let (value, dev) := mmio.read addr dev
      let (values, dev) := read_all mmio addrs dev
      (value :: values, dev)

/-- Do the check of one entry for each of `entries`. -/
def check_all (check : u32 → u32 → σ → Option σ) (entries : List (u32 × u32)) (dev : σ) :
    Option σ :=
  entries.foldlM (fun dev e => check e.1 (e.2 ^^^ kSecMmioMaskVal) dev) dev

theorem check_all_cons (check : u32 → u32 → σ → Option σ) (a v : u32)
    (entries : List (u32 × u32)) (dev : σ) :
    check_all check ((a, v) :: entries) dev =
      (check a (v ^^^ kSecMmioMaskVal) dev).bind (check_all check entries) := rfl

variable (mmio : Mmio σ)

/-- The check of a list of entries reads each register and traps at the first difference. -/
theorem check_all_check_value (entries : List (u32 × u32)) (dev : σ) :
    check_all (check_value mmio) entries dev =
      if (read_all mmio (entries.map Prod.fst) dev).1 = entries.map Prod.snd then
        some (read_all mmio (entries.map Prod.fst) dev).2
      else none := by
  induction entries generalizing dev with
  | nil => rfl
  | cons e entries ih =>
      obtain ⟨a, v⟩ := e
      rw [check_all_cons]
      simp only [check_value, hardened_check, List.map_cons, read_all, List.cons.injEq]
      by_cases hv : (mmio.read a dev).1 = v
      · simp only [hv, if_true, true_and, Option.bind_eq_bind, Option.bind_some, Option.pure_def]
        exact ih _
      · have hmasked : ¬(mmio.read a dev).1 ^^^ kSecMmioMaskVal = v ^^^ kSecMmioMaskVal :=
          fun h => hv (unmask_inj h)
        simp [hv, hmasked]

/-- Outside the region at `otp_base`. -/
def outside_otp (otp_base : u32) (e : u32 × u32) : Bool :=
  ¬(otp_base.toNat ≤ e.1.toNat ∧ e.1.toNat < otp_base.toNat + 65536)

/-- The high half of an address is the start of its 64K aligned region. -/
theorem toNat_high_half (x : u32) :
    (x &&& (0xffff0000 : u32)).toNat = x.toNat / 65536 * 65536 := by
  have hmask : (0xffff0000 : u32) = ~~~BitVec.ofNat 32 (2 ^ 16 - 1) := rfl
  rw [hmask]
  exact Bits.toNat_and_not_mask x (by decide)

/-- A region starts at a multiple of its size. -/
theorem aligned_of_low_half {x : u32} (h : x &&& 0x0000ffff = 0) : x.toNat % 65536 = 0 := by
  have hlow : (x &&& (0x0000ffff : u32)).toNat = x.toNat % 65536 := by
    rw [BitVec.toNat_and]
    exact Nat.and_two_pow_sub_one_eq_mod x.toNat 16
  rw [← hlow, h]
  rfl

theorem outside_otp_iff {otp_base : u32} (hbase : otp_base &&& 0x0000ffff = 0)
    (e : u32 × u32) : outside_otp otp_base e = true ↔ e.1 &&& 0xffff0000 ≠ otp_base := by
  have haligned := aligned_of_low_half hbase
  rw [outside_otp, decide_eq_true_eq, ne_eq, ← BitVec.toNat_inj, toNat_high_half]
  omega

theorem check_all_except_otp {otp_base : u32} (hbase : otp_base &&& 0x0000ffff = 0)
    (entries : List (u32 × u32)) (dev : σ) :
    check_all (check_value_except_otp mmio otp_base) entries dev =
      check_all (check_value mmio) (entries.filter (outside_otp otp_base)) dev := by
  induction entries generalizing dev with
  | nil => rfl
  | cons e entries ih =>
      obtain ⟨a, v⟩ := e
      rw [check_all_cons, check_value_except_otp]
      by_cases hout : outside_otp otp_base (a, v) = true
      · have ha : a &&& 0xffff0000 ≠ otp_base := (outside_otp_iff hbase (a, v)).mp hout
        rw [if_pos ha, List.filter_cons_of_pos hout, check_all_cons]
        exact congrArg (Option.bind _) (funext ih)
      · have ha : ¬(a &&& 0xffff0000 ≠ otp_base) := fun h =>
          hout ((outside_otp_iff hbase (a, v)).mpr h)
        rw [if_neg ha, List.filter_cons_of_neg hout, Option.bind_some]
        exact ih dev

theorem next_offset_toNat {offset last_index : u32} (h : offset.toNat < last_index.toNat)
    (hsize : last_index.toNat ≤ kSecMmioRegFileSize) :
    (next_offset offset last_index).toNat = next last_index.toNat offset.toNat := by
  rw [kSecMmioRegFileSize_eq] at hsize
  have hsucc : (offset + 1).toNat = offset.toNat + 1 := by bv_omega
  unfold next_offset next
  by_cases hend : offset + 1 ≥ last_index
  · have hge : last_index.toNat ≤ (offset + 1).toNat := hend
    rw [if_pos hend, if_neg (by omega)]
    bv_omega
  · have hlt : ¬last_index.toNat ≤ (offset + 1).toNat := hend
    rw [if_neg hend, if_pos (by omega), hsucc]

/-- The loop visits the entries in a cycle. -/
theorem check_loop_eq (check : u32 → u32 → σ → Option σ) {ctx : SecMmioCtx} {fuel : ℕ}
    {i r offset : u32} (hsize : ctx.last_index.toNat ≤ kSecMmioRegFileSize)
    (hfuel : i.toNat + fuel = ctx.last_index.toNat) (hr : r = ctx.last_index - 1 - i)
    (hoffset : offset.toNat < ctx.last_index.toNat ∨ fuel = 0) (dev : σ) :
    check_loop check ctx fuel i r offset dev =
      (check_all check ((cycle ctx.last_index.toNat fuel offset.toNat).filterMap ctx.entry)
        dev).map fun dev => (ctx.last_index, UINT32_MAX, dev) := by
  have hsize' := hsize
  rw [kSecMmioRegFileSize_eq] at hsize'
  induction fuel generalizing i r offset dev with
  | zero =>
      have hi : i = ctx.last_index := BitVec.eq_of_toNat_eq (by omega)
      have hend : r = UINT32_MAX := by
        rw [hr, hi, UINT32_MAX]
        bv_omega
      rw [check_loop, hi, hend]
      rfl
  | succ fuel ih =>
      have hbounds : i < ctx.last_index ∧ r < ctx.last_index := by
        subst hr
        constructor <;> bv_omega
      have hlt : offset.toNat < ctx.last_index.toNat := by omega
      obtain ⟨a, ha⟩ : ∃ a, ctx.addrs[offset.toNat]? = some a :=
        ⟨_, Vector.getElem?_eq_getElem (by omega)⟩
      obtain ⟨w, hw⟩ : ∃ w, ctx.values[offset.toNat]? = some w :=
        ⟨_, Vector.getElem?_eq_getElem (by omega)⟩
      have hmask : w ^^^ kSecMmioMaskVal ^^^ kSecMmioMaskVal = w := by
        rw [BitVec.xor_assoc, BitVec.xor_self, BitVec.xor_zero]
      have hentry : ctx.entry offset.toNat = some (a, w ^^^ kSecMmioMaskVal) :=
        SecMmioCtx.entry_eq_some.mpr ⟨ha, by rw [hmask]; exact hw⟩
      have hnext : (i + 1).toNat = i.toNat + 1 := by bv_omega
      have hoffset' := next_offset_toNat hlt hsize
      rw [check_loop, if_pos hbounds, SecMmioCtx.addr, SecMmioCtx.value, ha, hw, cycle,
        List.filterMap_cons_some hentry, check_all_cons, hmask]
      simp only [Option.bind_eq_bind, Option.bind_some, Option.map_bind]
      refine congrArg (Option.bind _) (funext fun dev => ?_)
      rw [ih (by omega) (by rw [hr]; bv_omega) (.inl ?_) dev, hoffset']
      · rfl
      · rw [hoffset']
        exact next_lt (by omega)

theorem start_offset_lt {last_index : u32} (rnd_offset : u32) (h : 0 < last_index.toNat) :
    (start_offset rnd_offset last_index).toNat < last_index.toNat := by
  have hrnd := rnd_offset.isLt
  have hprod : rnd_offset.toNat * last_index.toNat < 4294967296 * last_index.toNat :=
    Nat.mul_lt_mul_of_pos_right hrnd h
  have hquot : rnd_offset.toNat * last_index.toNat / 4294967296 < last_index.toNat :=
    Nat.div_lt_of_lt_mul hprod
  have hnat : (start_offset rnd_offset last_index).toNat =
      rnd_offset.toNat * last_index.toNat / 4294967296 := by
    rw [start_offset, BitVec.toNat_setWidth, BitVec.toNat_ushiftRight, BitVec.toNat_mul,
      BitVec.toNat_setWidth, BitVec.toNat_setWidth, Nat.shiftRight_eq_div_pow,
      Nat.mod_eq_of_lt (by omega : rnd_offset.toNat < 2 ^ 64),
      Nat.mod_eq_of_lt (by omega : last_index.toNat < 2 ^ 64),
      Nat.mod_eq_of_lt (by omega : rnd_offset.toNat * last_index.toNat < 2 ^ 64)]
    exact Nat.mod_eq_of_lt (by omega)
  rw [hnat]
  exact hquot

/-- The entries in the order of a check. -/
def check_order (ctx : SecMmioCtx) (rnd_offset : u32) : List (u32 × u32) :=
  (cycle ctx.last_index.toNat ctx.last_index.toNat
    (start_offset rnd_offset ctx.last_index).toNat).filterMap ctx.entry

theorem check_order_perm (ctx : SecMmioCtx) (rnd_offset : u32) :
    (check_order ctx rnd_offset).Perm ctx.tracked := by
  refine List.Perm.filterMap _ ?_
  rcases Nat.eq_zero_or_pos ctx.last_index.toNat with hzero | hpos
  · rw [hzero]
    exact List.Perm.refl _
  · exact cycle_perm (start_offset_lt rnd_offset hpos)

theorem check_entries_eq {s : State σ} (check : u32 → u32 → σ → Option σ) (rnd_offset : u32)
    (hsize : s.ctx.last_index.toNat ≤ kSecMmioRegFileSize) :
    check_entries check rnd_offset s =
      (check_all check (check_order s.ctx rnd_offset) s.dev).map fun dev =>
        { ctx := { s.ctx with check_count := s.ctx.check_count + 1 }, dev } := by
  have hstart : (start_offset rnd_offset s.ctx.last_index).toNat < s.ctx.last_index.toNat ∨
      s.ctx.last_index.toNat = 0 := by
    rcases Nat.eq_zero_or_pos s.ctx.last_index.toNat with hzero | hpos
    · exact .inr hzero
    · exact .inl (start_offset_lt rnd_offset hpos)
  have hloop := check_loop_eq check (i := 0) (r := s.ctx.last_index - 1) hsize
    (Nat.zero_add _) (BitVec.sub_zero _).symm hstart s.dev
  simp only [check_entries, hloop, check_order]
  rcases check_all check _ s.dev with - | dev
  · rfl
  · simp [hardened_check]

variable {mmio} {s : State σ} {record : u32 → Option u32}

/-- For every run: the table holds the record, each address once. Each check goes through
the table in some order, reads each register it is about once, and traps when and only when
a value read is not the recorded one. -/
theorem tracked_registers_checked (hrun : Run mmio s record) :
    (s.ctx.tracked.map Prod.fst).Nodup ∧
      (∀ a v, (a, v) ∈ s.ctx.tracked ↔ record a = some v) ∧
      ∀ rnd_offset, ∃ order : List (u32 × u32), order.Perm s.ctx.tracked ∧
        (sec_mmio_check_values mmio rnd_offset s =
          if (read_all mmio (order.map Prod.fst) s.dev).1 = order.map Prod.snd then
            some { ctx := { s.ctx with check_count := s.ctx.check_count + 1 }
                   dev := (read_all mmio (order.map Prod.fst) s.dev).2 }
          else none) ∧
        ∀ otp_base : u32, otp_base &&& 0x0000ffff = 0 → otp_base ≠ 0 →
          sec_mmio_check_values_except_otp mmio rnd_offset otp_base s =
            let checked := order.filter (outside_otp otp_base)
            if (read_all mmio (checked.map Prod.fst) s.dev).1 = checked.map Prod.snd then
              some { ctx := { s.ctx with check_count := s.ctx.check_count + 1 }
                     dev := (read_all mmio (checked.map Prod.fst) s.dev).2 }
            else none := by
  have htracks := hrun.tracks
  refine ⟨htracks.tracked_nodup, htracks.mem_tracked, fun rnd_offset =>
    ⟨check_order s.ctx rnd_offset, check_order_perm s.ctx rnd_offset, ?_, ?_⟩⟩
  · rw [sec_mmio_check_values, check_entries_eq _ _ htracks.size, check_all_check_value]
    split_ifs <;> rfl
  · intro otp_base haligned hzero
    have hhigh : otp_base &&& (0xffff0000 : u32) ≠ 0 := by
      intro hhigh
      have hnat := toNat_high_half otp_base
      have hlow := aligned_of_low_half haligned
      rw [hhigh] at hnat
      have hdiv : otp_base.toNat / 65536 * 65536 = 0 := hnat.symm
      have hnull : otp_base.toNat = (0 : u32).toNat := by
        show otp_base.toNat = 0
        omega
      exact hzero (BitVec.eq_of_toNat_eq hnull)
    simp only [sec_mmio_check_values_except_otp, hardened_check, haligned, hhigh, if_true,
      Option.bind_eq_bind, Option.bind_some, ne_eq, not_false_eq_true]
    rw [check_entries_eq _ _ htracks.size, check_all_except_otp mmio haligned,
      check_all_check_value]
    split_ifs <;> rfl

end checks

/-- Plain memory. -/
def memory : Mmio (u32 → u32) where
  read addr dev := (dev addr, dev)
  write addr value dev := Function.update dev addr value

/-- The context after `sec_mmio_init`. -/
def fresh : SecMmioCtx where
  last_index := 0
  write_count := 0
  expected_write_count := 0
  check_count := 0
  values := Vector.replicate _ UINT32_MAX
  addrs := Vector.replicate _ UINT32_MAX

theorem clear_loop_fresh (fuel : ℕ) (i r : u32) : (clear_loop fuel i r fresh).2.2 = fresh := by
  induction fuel generalizing i r with
  | zero => rfl
  | succ fuel ih =>
      have hset : fresh.set_entry i UINT32_MAX UINT32_MAX = fresh := by
        simp [fresh, SecMmioCtx.set_entry]
      rw [clear_loop]
      split_ifs
      · rw [hset]
        exact ih _ _
      · rfl

theorem sec_mmio_init_fresh : sec_mmio_init fresh = some fresh := by
  have hi : (clear_loop kSecMmioRegFileSize 0 (kEntryCount - 1) fresh).1 = kEntryCount := by
    decide +kernel
  have hr : (clear_loop kSecMmioRegFileSize 0 (kEntryCount - 1) fresh).2.1 = UINT32_MAX := by
    decide +kernel
  have hctx := clear_loop_fresh kSecMmioRegFileSize 0 (kEntryCount - 1)
  have hzeroed : SecMmioCtx.mk 0 0 0 0 fresh.values fresh.addrs = fresh := rfl
  simp only [sec_mmio_init, hzeroed]
  rw [hi, hr, hctx]
  rfl

def fresh_memory : State (u32 → u32) := { ctx := fresh, dev := fun _ => 0 }

/-- Two writes of one register with a read of another between them. -/
def accesses : Option (State (u32 → u32) × u32 × State (u32 → u32) × State (u32 → u32)) := do
  let s₁ ← sec_mmio_write32 memory 0x40000000 5 fresh_memory
  let (value, s₂) ← sec_mmio_read32 memory 0x40000004 s₁
  let s₃ ← sec_mmio_write32_shadowed memory 0x40000000 6 s₂
  return (s₁, value, s₂, s₃)

theorem tracked_registers_checked_accesses :
    ∃ s₁ value s₂ s₃, accesses = some (s₁, value, s₂, s₃) ∧ (s₃.ctx.tracked.map Prod.fst).Nodup ∧
      ∀ a v, (a, v) ∈ s₃.ctx.tracked ↔ accessed (accessed (accessed (fun _ => none)
        0x40000000 5) 0x40000004 value) 0x40000000 6 a = some v := by
  have hsome : accesses.isSome := by decide +kernel
  obtain ⟨⟨s₁, value, s₂, s₃⟩, hrun⟩ := Option.isSome_iff_exists.mp hsome
  have hsteps := hrun
  simp only [accesses, Option.bind_eq_bind, Option.pure_def, Option.bind_eq_some_iff,
    Option.some.injEq, Prod.mk.injEq] at hsteps
  obtain ⟨_, h₁, _, h₂, _, h₃, rfl, rfl, rfl, rfl⟩ := hsteps
  have hinit : Run memory fresh_memory fun _ => none := Run.init (s := fresh_memory) sec_mmio_init_fresh
  have htracked := tracked_registers_checked (((hinit.write h₁).read h₂).write_shadowed h₃)
  exact ⟨_, _, _, _, hrun, htracked.1, htracked.2.1⟩

end IbexFirmware.SecMmio
