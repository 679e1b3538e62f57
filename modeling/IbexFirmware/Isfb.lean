/-
Binding firmware to its integrator (`ownership/isfb.c`).

A manifest may ask for an info page of the owner to hold what it names: words that have to
be erased still, one for each bit of the strike mask, and words that have to have given
values under masks. `isfb_boot_request_process` counts the good and the bad ones in two
loops and checks the counts against each other. `counts_spec` is what such a loop
guarantees, and `Bound` is what the function is to find out.

The info page is read through the flash controller, which reports an error where the page
cannot be read. A bank or a page that the flash does not have traps.
-/
import IbexFirmware.OwnerBlockParse

set_option autoImplicit false

namespace IbexFirmware.Isfb

open Bytes RomError OwnerBlock

/-! ## The flash controller -/

/-- The first kind of info pages and the parameters of the generated register header.
`read_error` says which transactions, by address and number of words, end with the error
bit set. -/
structure InfoFlash where
  num_banks : ℕ
  num_infos0 : ℕ
  bytes_per_bank : ℕ
  bytes_per_page : ℕ
  word_at : ℕ → u32
  read_error : ℕ → ℕ → Bool

/-- `flash_ctrl_info_page_t`, without the offsets of the configuration registers. -/
structure InfoPage where
  base_addr : ℕ

/-- It traps on a bank or a page that there is not. -/
def flash_ctrl_info_type0_params_build (flash : InfoFlash) (bank page : u8) : Option InfoPage := do
  hardened_check (bank.toNat < flash.num_banks)
  hardened_check (page.toNat < flash.num_infos0)
  hardened_check (bank = 0 ∨ bank = 1)
  return ⟨bank.toNat * flash.bytes_per_bank + page.toNat * flash.bytes_per_page⟩

def flash_ctrl_info_read (flash : InfoFlash) (info_page : InfoPage) (offset word_count : ℕ) :
    Except RomError (List u32) :=
  let addr := info_page.base_addr + offset
  if flash.read_error addr word_count then .error .kErrorFlashCtrlInfoRead
  else .ok ((List.range word_count).map fun i => flash.word_at (addr + 4 * i))

/-! ## The extension -/

/-- `manifest_ext_product_expr_t`. -/
structure ManifestExtProductExpr where
  mask : u32
  value : u32

/-- `manifest_ext_isfb_t`. The arrays are what lies in memory from their addresses on. -/
structure ManifestExtIsfb where
  name : u32
  strike_mask : ℕ → u32
  product_expr_count : u32
  product_expr : ℕ → ManifestExtProductExpr

def kManifestExtIdIsfb : u32 := 0x42465349
abbrev kProductExprMaxCount : ℕ := 256
abbrev kExpectedStrikeBitCount : ℕ := 128
def UINT32_MAX : u32 := 0xffffffff

/-- `owner_isfb_config_t` in the block. -/
def isfb_bank (isfb : Item) : u8 := isfb.u8At 8
def isfb_page (isfb : Item) : u8 := isfb.u8At 9
def isfb_product_words (isfb : Item) : u32 := isfb.u32At 40

/-! ## The two loops -/

/-- The good and the bad ones. -/
structure Counts where
  ok : ℕ
  bad : ℕ

/-- `ext->strike_mask[i >> 5] & (1 << (i & 31))`. -/
def strike_bit (ext : ManifestExtIsfb) (i : ℕ) : u32 :=
  ext.strike_mask (i >>> 5) &&& (1#32 <<< (i &&& 31))

/-- One iteration over the strike words. The last branch is for a fault. -/
def strike_step (ext : ManifestExtIsfb) (strikes : List u32) (c : Counts) (i : ℕ) : Counts :=
  if strike_bit ext i ≠ 0 ∧ strikes.getD i 0 ≠ UINT32_MAX then { c with bad := c.bad + 1 }
  else if strike_bit ext i = 0 ∨ strikes.getD i 0 = UINT32_MAX then { c with ok := c.ok + 1 }
  else { c with bad := c.bad + 1 }

/-- One iteration over the product expressions. -/
def product_step (ext : ManifestExtIsfb) (product_expr : List u32) (c : Counts) (i : ℕ) : Counts :=
  if product_expr.getD i 0 &&& (ext.product_expr i).mask = (ext.product_expr i).value then
    { c with ok := c.ok + 1 }
  else { c with bad := c.bad + 1 }

/-- `n` iterations. -/
def count (step : Counts → ℕ → Counts) (n : ℕ) : Counts := (List.range n).foldl step ⟨0, 0⟩

/-! ## The check -/

/-- What the function returns and what it leaves in `checks_performed_count`. `none` is a
trap. -/
abbrev Result := Option (RomError × u32)

/-- From the product expressions on. -/
def isfb_product_expr_check (flash : InfoFlash) (ext : ManifestExtIsfb) (info_page : InfoPage)
    (strike : Counts) : Result :=
  match flash_ctrl_info_read flash info_page 1024 kProductExprMaxCount with
  | .error error => some (error, UINT32_MAX)
  | .ok product_expr => do
      let n := ext.product_expr_count.toNat
      let product := count (product_step ext product_expr) n
      hardened_check (product.ok + product.bad + n = 2 * n)
      if 0 < product.bad then return (.kErrorOwnershipISFBProductExp, UINT32_MAX)
      else if strike.ok = kExpectedStrikeBitCount ∧ strike.bad = 0 ∧ product.ok = n ∧
          product.bad = 0 then
        return (.kErrorOk, BitVec.ofNat 32 kExpectedStrikeBitCount + ext.product_expr_count)
      else return (.kErrorOwnershipISFBFailed, UINT32_MAX)

/-- From the strike words on. -/
def isfb_strike_check (flash : InfoFlash) (ext : ManifestExtIsfb) (info_page : InfoPage) : Result :=
  match flash_ctrl_info_read flash info_page 0 kExpectedStrikeBitCount with
  | .error error => some (error, UINT32_MAX)
  | .ok strikes => do
      let strike := count (strike_step ext strikes) kExpectedStrikeBitCount
      hardened_check (strike.ok + strike.bad + kExpectedStrikeBitCount = kExpectedStrikeBitCount * 2)
      if 0 < strike.bad then return (.kErrorOwnershipISFBStrikeMask, UINT32_MAX)
      else isfb_product_expr_check flash ext info_page strike

def isfb_boot_request_process (flash : InfoFlash) (ext : ManifestExtIsfb)
    (owner_config : OwnerConfig) : Result :=
  match owner_config.isfb with
  | none => some (.kErrorOwnershipISFBNotPresent, UINT32_MAX)
  | some isfb => do
      if ext.name ≠ kManifestExtIdIsfb then return (.kErrorOwnershipISFBNotPresent, UINT32_MAX)
      -- The product of two words may wrap around, and then the count is too large.
      else if ext.product_expr_count * 2 > isfb_product_words isfb ∨
          ext.product_expr_count.toNat > kProductExprMaxCount then
        return (.kErrorOwnershipISFBProductExpCnt, UINT32_MAX)
      else
        let info_page ← flash_ctrl_info_type0_params_build flash (isfb_bank isfb) (isfb_page isfb)
        isfb_strike_check flash ext info_page

/-! ## What a loop has counted -/

theorem count_succ (step : Counts → ℕ → Counts) (n : ℕ) :
    count step (n + 1) = step (count step n) n := by
  rw [count, List.range_succ, List.foldl_append]
  rfl

/-- A loop that counts every index once, as good where `p` holds. -/
theorem counts_spec (step : Counts → ℕ → Counts) (p : ℕ → Prop) [DecidablePred p]
    (hstep : ∀ c i, step c i = if p i then { c with ok := c.ok + 1 } else { c with bad := c.bad + 1 })
    (n : ℕ) :
    (count step n).ok + (count step n).bad = n ∧ ((count step n).bad = 0 ↔ ∀ i < n, p i) := by
  induction n with
  | zero => exact ⟨rfl, iff_of_true rfl nofun⟩
  | succ n ih =>
      obtain ⟨htotal, hbad⟩ := ih
      rw [count_succ, hstep]
      split_ifs with hp
      · refine ⟨by simp only; omega, hbad.trans ?_⟩
        simp only [Nat.lt_succ_iff_lt_or_eq, or_imp, forall_and, forall_eq, hp, and_true]
      · refine ⟨by simp only; omega, ?_⟩
        exact iff_of_false (by simp) fun hall => hp (hall n n.lt_succ_self)

/-- The bit of the strike mask for word `i`. -/
def struck (ext : ManifestExtIsfb) (i : ℕ) : Bool := (ext.strike_mask (i / 32)).getLsbD (i % 32)

theorem strike_bit_ne_zero (ext : ManifestExtIsfb) (i : ℕ) :
    strike_bit ext i ≠ 0 ↔ struck ext i = true := by
  have hword : i >>> 5 = i / 32 := Nat.shiftRight_eq_div_pow i 5
  have hbit : i &&& 31 = i % 32 := Nat.and_two_pow_sub_one_eq_mod i 5
  have hlt : i % 32 < 32 := Nat.mod_lt i (by decide)
  unfold strike_bit struck
  rw [hword, hbit]
  constructor
  · intro hne
    by_contra hclear
    apply hne
    apply BitVec.eq_of_getLsbD_eq
    intro j hj
    by_cases hji : j = i % 32
    · subst hji
      simp [hclear]
    · simp only [BitVec.getLsbD_and, BitVec.getLsbD_shiftLeft, BitVec.getLsbD_one]
      simp
      omega
  · intro hset hzero
    have hone := congrArg (fun w : u32 => w.getLsbD (i % 32)) hzero
    rw [BitVec.getLsbD_eq_getElem hlt] at hset
    simp [hset, hlt] at hone

theorem strike_step_eq (ext : ManifestExtIsfb) (strikes : List u32) (c : Counts) (i : ℕ) :
    strike_step ext strikes c i =
      if struck ext i = true → strikes.getD i 0 = UINT32_MAX then { c with ok := c.ok + 1 }
      else { c with bad := c.bad + 1 } := by
  unfold strike_step
  have hbit := strike_bit_ne_zero ext i
  by_cases hstruck : struck ext i = true
  · have hset := hbit.mpr hstruck
    by_cases herased : strikes.getD i 0 = UINT32_MAX
    · rw [if_neg (fun h => h.2 herased), if_pos (.inr herased), if_pos (fun _ => herased)]
    · rw [if_pos ⟨hset, herased⟩, if_neg (fun h => herased (h hstruck))]
  · have hclear : strike_bit ext i = 0 := not_not.mp (mt hbit.mp hstruck)
    rw [if_neg (fun h => h.1 hclear), if_pos (.inl hclear), if_pos (fun h => absurd h hstruck)]

/-! ## The firmware is bound to the device -/

/-- Word `i` of the info page that the configuration names. -/
def info_word (flash : InfoFlash) (isfb : Item) (i : ℕ) : u32 :=
  flash.word_at ((isfb_bank isfb).toNat * flash.bytes_per_bank +
    (isfb_page isfb).toNat * flash.bytes_per_page + 4 * i)

/-- What the extension asks of the configuration and of the info page, where the product
words start at 1024 bytes. -/
structure Bound (flash : InfoFlash) (ext : ManifestExtIsfb) (isfb : Item) : Prop where
  words : 2 * ext.product_expr_count.toNat ≤ (isfb_product_words isfb).toNat
  max_count : ext.product_expr_count.toNat ≤ kProductExprMaxCount
  strikes : ∀ i < kExpectedStrikeBitCount, struck ext i = true → info_word flash isfb i = UINT32_MAX
  products : ∀ i < ext.product_expr_count.toNat,
    info_word flash isfb (256 + i) &&& (ext.product_expr i).mask = (ext.product_expr i).value

/-- There is such a page, and both transactions on it end without an error. -/
structure Readable (flash : InfoFlash) (isfb : Item) : Prop where
  bank : (isfb_bank isfb).toNat < flash.num_banks ∧ (isfb_bank isfb = 0 ∨ isfb_bank isfb = 1)
  page : (isfb_page isfb).toNat < flash.num_infos0
  strikes : flash.read_error ((isfb_bank isfb).toNat * flash.bytes_per_bank +
    (isfb_page isfb).toNat * flash.bytes_per_page) kExpectedStrikeBitCount = false
  products : flash.read_error ((isfb_bank isfb).toNat * flash.bytes_per_bank +
    (isfb_page isfb).toNat * flash.bytes_per_page + 1024) kProductExprMaxCount = false

/-- Whether a result is a success. -/
def Succeeds (r : Result) : Prop := ∃ n, r = some (.kErrorOk, n)

/-- What `checks_performed_count` is left with. -/
def CountIs (ext : ManifestExtIsfb) (r : Result) : Prop :=
  ∀ error n, r = some (error, n) →
    n = if error = .kErrorOk then 128 + ext.product_expr_count else UINT32_MAX

theorem not_succeeds {error : RomError} {n : u32} (h : error ≠ .kErrorOk) :
    ¬ Succeeds (some (error, n)) := by
  rintro ⟨m, heq⟩
  simp only [Option.some.injEq, Prod.mk.injEq] at heq
  exact h heq.1

theorem countIs_failed (ext : ManifestExtIsfb) {error : RomError} (h : error ≠ .kErrorOk) :
    CountIs ext (some (error, UINT32_MAX)) := by
  intro error' n heq
  obtain ⟨rfl, rfl⟩ := heq
  rw [if_neg h]

/-- The words of a transaction that has no error. -/
theorem info_read_getD (flash : InfoFlash) (info_page : InfoPage) (offset : ℕ) {n i : ℕ}
    (hi : i < n) : ((List.range n).map fun i => flash.word_at (info_page.base_addr + offset + 4 * i)).getD i 0 =
      flash.word_at (info_page.base_addr + offset + 4 * i) := by
  rw [List.getD_eq_getElem _ _ (by simpa using hi), List.getElem_map, List.getElem_range]

section

variable (flash : InfoFlash) (ext : ManifestExtIsfb) (info_page : InfoPage)

/-- The second half of the check, behind good strike words. -/
theorem product_expr_check_spec (strike : Counts) (hmax : ext.product_expr_count.toNat ≤ 256)
    (hok : strike.ok = kExpectedStrikeBitCount) (hbad : strike.bad = 0) :
    (Succeeds (isfb_product_expr_check flash ext info_page strike) ↔
      flash.read_error (info_page.base_addr + 1024) kProductExprMaxCount = false ∧
        ∀ i < ext.product_expr_count.toNat, flash.word_at (info_page.base_addr + 1024 + 4 * i) &&&
          (ext.product_expr i).mask = (ext.product_expr i).value) ∧
      CountIs ext (isfb_product_expr_check flash ext info_page strike) := by
  unfold isfb_product_expr_check flash_ctrl_info_read
  dsimp only
  cases hread : flash.read_error (info_page.base_addr + 1024) kProductExprMaxCount with
  | true =>
      rw [if_pos rfl]
      exact ⟨iff_of_false (not_succeeds (by decide)) (by simp), countIs_failed ext (by decide)⟩
  | false =>
      rw [if_neg (by decide)]
      dsimp only
      generalize hwords : (List.range kProductExprMaxCount).map
        (fun i => flash.word_at (info_page.base_addr + 1024 + 4 * i)) = product_expr
      obtain ⟨htotal, hnone⟩ := counts_spec (product_step ext product_expr)
        (fun i => product_expr.getD i 0 &&& (ext.product_expr i).mask =
          (ext.product_expr i).value) (fun _ _ => rfl) ext.product_expr_count.toNat
      have hall : (∀ i < ext.product_expr_count.toNat, product_expr.getD i 0 &&&
          (ext.product_expr i).mask = (ext.product_expr i).value) ↔
          ∀ i < ext.product_expr_count.toNat, flash.word_at (info_page.base_addr + 1024 + 4 * i) &&&
            (ext.product_expr i).mask = (ext.product_expr i).value := by
        refine forall₂_congr fun i hi => ?_
        rw [← hwords, info_read_getD flash info_page 1024 (lt_of_lt_of_le hi hmax)]
      -- The counts of the loop agree, so that the check on them does not trap.
      have hcheck : hardened_check
          ((count (product_step ext product_expr) ext.product_expr_count.toNat).ok +
            (count (product_step ext product_expr) ext.product_expr_count.toNat).bad +
            ext.product_expr_count.toNat = 2 * ext.product_expr_count.toNat) = some () :=
        hardened_check_eq_some.mpr (by omega)
      rw [hcheck, ← hall, ← hnone]
      simp only [Option.bind_eq_bind, Option.bind_some, true_and]
      by_cases hzero : (count (product_step ext product_expr) ext.product_expr_count.toNat).bad = 0
      · rw [if_neg (by omega), if_pos ⟨hok, hbad, by omega, hzero⟩]
        refine ⟨iff_of_true ⟨_, rfl⟩ hzero, ?_⟩
        intro error n heq
        cases heq
        rfl
      · rw [if_pos (by omega)]
        exact ⟨iff_of_false (not_succeeds (by decide)) hzero, countIs_failed ext (by decide)⟩

/-- Both halves. -/
theorem strike_check_spec (hmax : ext.product_expr_count.toNat ≤ 256) :
    (Succeeds (isfb_strike_check flash ext info_page) ↔
      (flash.read_error info_page.base_addr kExpectedStrikeBitCount = false ∧
        ∀ i < kExpectedStrikeBitCount, struck ext i = true →
          flash.word_at (info_page.base_addr + 4 * i) = UINT32_MAX) ∧
      flash.read_error (info_page.base_addr + 1024) kProductExprMaxCount = false ∧
        ∀ i < ext.product_expr_count.toNat, flash.word_at (info_page.base_addr + 1024 + 4 * i) &&&
          (ext.product_expr i).mask = (ext.product_expr i).value) ∧
      CountIs ext (isfb_strike_check flash ext info_page) := by
  unfold isfb_strike_check flash_ctrl_info_read
  simp only [Nat.add_zero]
  cases hread : flash.read_error info_page.base_addr kExpectedStrikeBitCount with
  | true =>
      rw [if_pos rfl]
      exact ⟨iff_of_false (not_succeeds (by decide)) (by simp), countIs_failed ext (by decide)⟩
  | false =>
      rw [if_neg (by decide)]
      dsimp only
      generalize hwords : (List.range kExpectedStrikeBitCount).map
        (fun i => flash.word_at (info_page.base_addr + 4 * i)) = strikes
      obtain ⟨htotal, hnone⟩ := counts_spec (strike_step ext strikes)
        (fun i => struck ext i = true → strikes.getD i 0 = UINT32_MAX) (strike_step_eq ext strikes)
        kExpectedStrikeBitCount
      have hall : (∀ i < kExpectedStrikeBitCount, struck ext i = true →
          strikes.getD i 0 = UINT32_MAX) ↔ ∀ i < kExpectedStrikeBitCount, struck ext i = true →
            flash.word_at (info_page.base_addr + 4 * i) = UINT32_MAX := by
        refine forall₂_congr fun i hi => ?_
        rw [← hwords]
        exact iff_of_eq (congrArg (fun w => struck ext i = true → w = UINT32_MAX)
          (info_read_getD flash info_page 0 hi))
      have hcheck : hardened_check ((count (strike_step ext strikes) kExpectedStrikeBitCount).ok +
          (count (strike_step ext strikes) kExpectedStrikeBitCount).bad + kExpectedStrikeBitCount =
            kExpectedStrikeBitCount * 2) = some () := hardened_check_eq_some.mpr (by omega)
      rw [hcheck, ← hall, ← hnone]
      simp only [Option.bind_eq_bind, Option.bind_some, true_and]
      by_cases hzero : (count (strike_step ext strikes) kExpectedStrikeBitCount).bad = 0
      · obtain ⟨hiff, hcount⟩ := product_expr_check_spec flash ext info_page
          (count (strike_step ext strikes) kExpectedStrikeBitCount) hmax (by omega) hzero
        rw [if_neg (by omega)]
        exact ⟨hiff.trans (iff_and_self.mpr fun _ => hzero), hcount⟩
      · rw [if_pos (by omega)]
        exact ⟨iff_of_false (not_succeeds (by decide)) fun h => hzero h.1,
          countIs_failed ext (by decide)⟩

end

/-- `2 * count` may wrap around, but not for a count that is small enough. -/
theorem count_fits (count words : u32) :
    ¬ (count * 2 > words ∨ count.toNat > kProductExprMaxCount) ↔
      2 * count.toNat ≤ words.toNat ∧ count.toNat ≤ kProductExprMaxCount := by
  have hmul : count.toNat ≤ kProductExprMaxCount → (count * 2).toNat = 2 * count.toNat := by
    intro hle
    have hle : count.toNat ≤ 256 := hle
    rw [BitVec.toNat_mul, show (2 : u32).toNat = 2 from rfl]
    omega
  rw [not_or, gt_iff_lt, BitVec.lt_def, not_lt, not_lt]
  constructor
  · rintro ⟨hwords, hmax⟩
    exact ⟨hmul hmax ▸ hwords, hmax⟩
  · rintro ⟨hwords, hmax⟩
    exact ⟨(hmul hmax).symm ▸ hwords, hmax⟩

/-- The page is built unless the flash does not have it. -/
theorem params_build_eq (flash : InfoFlash) (bank page : u8) :
    flash_ctrl_info_type0_params_build flash bank page =
      if (bank.toNat < flash.num_banks ∧ (bank = 0 ∨ bank = 1)) ∧ page.toNat < flash.num_infos0 then
        some ⟨bank.toNat * flash.bytes_per_bank + page.toNat * flash.bytes_per_page⟩
      else none := by
  unfold flash_ctrl_info_type0_params_build
  by_cases hbanks : bank.toNat < flash.num_banks
  · rw [hardened_check_eq_some (u := ()).mpr hbanks]
    by_cases hpages : page.toNat < flash.num_infos0
    · rw [hardened_check_eq_some (u := ()).mpr hpages]
      by_cases hbank : bank = 0 ∨ bank = 1
      · rw [hardened_check_eq_some (u := ()).mpr hbank, if_pos ⟨⟨hbanks, hbank⟩, hpages⟩]
        rfl
      · have hnone : hardened_check (bank = 0 ∨ bank = 1) = none := if_neg hbank
        rw [hnone, if_neg fun h => hbank h.1.2]
        rfl
    · have hnone : hardened_check (page.toNat < flash.num_infos0) = none := if_neg hpages
      rw [hnone, if_neg fun h => hpages h.2]
      rfl
  · have hnone : hardened_check (bank.toNat < flash.num_banks) = none := if_neg hbanks
    rw [hnone, if_neg fun h => hbanks h.1.1]
    rfl

/-- The check succeeds exactly on firmware that is bound to a device whose info page can
be read, and `checks_performed_count` says so. -/
theorem isfb_boot_request_process_spec (flash : InfoFlash) (ext : ManifestExtIsfb)
    (owner_config : OwnerConfig) :
    (Succeeds (isfb_boot_request_process flash ext owner_config) ↔
      ext.name = kManifestExtIdIsfb ∧ ∃ isfb, owner_config.isfb = some isfb ∧
        Bound flash ext isfb ∧ Readable flash isfb) ∧
      CountIs ext (isfb_boot_request_process flash ext owner_config) := by
  unfold isfb_boot_request_process
  cases hisfb : owner_config.isfb with
  | none => exact ⟨iff_of_false (not_succeeds (by decide)) (by simp), countIs_failed ext (by decide)⟩
  | some isfb =>
      dsimp only
      by_cases hname : ext.name ≠ kManifestExtIdIsfb
      · rw [if_pos hname]
        exact ⟨iff_of_false (not_succeeds (by decide)) fun h => hname h.1,
          countIs_failed ext (by decide)⟩
      rw [if_neg hname]
      have hfits := count_fits ext.product_expr_count (isfb_product_words isfb)
      by_cases hexceeds : ext.product_expr_count * 2 > isfb_product_words isfb ∨
          ext.product_expr_count.toNat > kProductExprMaxCount
      · rw [if_pos hexceeds]
        refine ⟨iff_of_false (not_succeeds (by decide)) ?_, countIs_failed ext (by decide)⟩
        rintro ⟨-, isfb', heq, hbound, -⟩
        cases heq
        exact hfits.mpr ⟨hbound.words, hbound.max_count⟩ hexceeds
      rw [if_neg hexceeds]
      obtain ⟨hwords, hmax⟩ := hfits.mp hexceeds
      rw [params_build_eq]
      split_ifs with hpage
      · obtain ⟨hiff, hcount⟩ := strike_check_spec flash ext
          ⟨(isfb_bank isfb).toNat * flash.bytes_per_bank +
            (isfb_page isfb).toNat * flash.bytes_per_page⟩ hmax
        refine ⟨hiff.trans ⟨?_, ?_⟩, hcount⟩
        · rintro ⟨⟨hstrikes, herased⟩, hproducts, hequal⟩
          refine ⟨not_not.mp hname, isfb, rfl, ⟨hwords, hmax, herased, ?_⟩,
            ⟨hpage.1, hpage.2, hstrikes, hproducts⟩⟩
          intro i hi
          have haddr : 4 * (256 + i) = 1024 + 4 * i := by omega
          rw [info_word, haddr, ← Nat.add_assoc]
          exact hequal i hi
        · rintro ⟨-, isfb', heq, hbound, hread⟩
          cases heq
          refine ⟨⟨hread.strikes, hbound.strikes⟩, hread.products, ?_⟩
          intro i hi
          have hequal := hbound.products i hi
          have haddr : 4 * (256 + i) = 1024 + 4 * i := by omega
          rwa [info_word, haddr, ← Nat.add_assoc] at hequal
      · refine ⟨iff_of_false ?_ ?_, nofun⟩
        · rintro ⟨n, heq⟩
          cases heq
        · rintro ⟨-, isfb', heq, -, hread⟩
          cases heq
          exact hpage ⟨hread.bank, hread.page⟩

/-! ## A page that cannot be read -/

/-- A flash whose pages are all erased and whose controller reports an error on page 5. -/
def unreadable_flash : InfoFlash where
  num_banks := 2
  num_infos0 := 10
  bytes_per_bank := 0x80000
  bytes_per_page := 2048
  word_at _ := UINT32_MAX
  read_error addr _ := 5 * 2048 ≤ addr && addr < 6 * 2048

/-- A configuration for page 5 of bank 0. -/
def page_5_config : OwnerConfig :=
  { owner_config_default with isfb := some ⟨(Vector.replicate kOwnerDataSize 0).set 9 5, 0⟩ }

/-- An extension that asks for nothing. -/
def empty_ext : ManifestExtIsfb := ⟨kManifestExtIdIsfb, fun _ => 0, 0, fun _ => ⟨0, 0⟩⟩

/-- The firmware is bound to what the page holds, but the check ends with the error of
the controller. -/
theorem isfb_unreadable_page :
    empty_ext.name = kManifestExtIdIsfb ∧
      (∃ isfb, page_5_config.isfb = some isfb ∧ Bound unreadable_flash empty_ext isfb) ∧
      isfb_boot_request_process unreadable_flash empty_ext page_5_config =
        some (.kErrorFlashCtrlInfoRead, UINT32_MAX) := by
  refine ⟨rfl, ⟨_, rfl, by decide, by decide, fun _ _ _ => rfl, nofun⟩, ?_⟩
  decide

end IbexFirmware.Isfb
