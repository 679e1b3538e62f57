/-
The search for a detached signature in the flash (`ownership_signature_scan`).

The search looks at the start of every page from `start` on. An object that begins before
the end of the range may reach beyond it, so the size of an object is taken off the range
first; but the loop then stops before the last page where one still fits. What it returns
is therefore right unless the only object to be found ends with the range
(`signature_scan_complete_iff`).
-/
import IbexFirmware.OwnershipKey

set_option autoImplicit false

namespace IbexFirmware.SignatureScan

open Bytes OwnerBlock Ownership

/-! ## The search -/

abbrev FLASH_CTRL_PARAM_BYTES_PER_PAGE : ℕ := 2048

/-- `owner_detached_signature_t` at an address, as far as the search reads it. -/
structure SignatureAt where
  mem : Mem
  addr : ℕ

namespace SignatureAt

def tag (sig : SignatureAt) : u32 := readWord sig.mem sig.addr
def length (sig : SignatureAt) : u16 :=
  (sig.mem (sig.addr + 4)).setWidth 16 ||| (sig.mem (sig.addr + 5)).setWidth 16 <<< 8
def version_major (sig : SignatureAt) : u8 := sig.mem (sig.addr + 6)
def command (sig : SignatureAt) : u32 := readWord sig.mem (sig.addr + 16)
def nonce (sig : SignatureAt) : Nonce :=
  ⟨#v[readWord sig.mem (sig.addr + 24), readWord sig.mem (sig.addr + 28)]⟩

/-- The condition of the loop. -/
def isFor (sig : SignatureAt) (command : u32) (nonce : Nonce) : Bool :=
  sig.tag = kTlvTagDetachedSignature && sig.length.toNat = kDetachedSignatureSize &&
    sig.version_major = 0 && sig.command = command && nonce_equal sig.nonce nonce

end SignatureAt

section

variable (mem : Mem) (command : u32) (nonce : Nonce)

/-- The loop up to `fin`, in a range in which no sum wraps around. -/
def scan_loop (fin start : ℕ) : Option ℕ :=
  if start < fin then
    if SignatureAt.isFor ⟨mem, start⟩ command nonce then some start
    else scan_loop fin (start + FLASH_CTRL_PARAM_BYTES_PER_PAGE)
  else none
  termination_by fin - start
  decreasing_by exact Nat.sub_lt_sub_left ‹_› (Nat.lt_add_of_pos_right (Nat.zero_lt_succ _))

def ownership_signature_scan (start length : u32) : Option ℕ :=
  if length.toNat < kDetachedSignatureSize then none
  else
    let length := length - BitVec.ofNat 32 kDetachedSignatureSize
    let fin := start + length
    scan_loop mem command nonce fin.toNat start.toNat

/-- Where the loop stops, and what it has passed. -/
theorem scan_loop_some {fin start a : ℕ} (h : scan_loop mem command nonce fin start = some a) :
    start ≤ a ∧ a < fin ∧ a % 2048 = start % 2048 ∧
      SignatureAt.isFor ⟨mem, a⟩ command nonce = true ∧
      ∀ b, start ≤ b → b < a → b % 2048 = start % 2048 →
        SignatureAt.isFor ⟨mem, b⟩ command nonce = false := by
  fun_induction scan_loop mem command nonce fin start with
  | case1 start hlt hmatch =>
      cases h
      exact ⟨le_rfl, hlt, rfl, hmatch, fun b hb hba => absurd hba (not_lt.mpr hb)⟩
  | case2 start hlt hmatch ih =>
      have hpage : FLASH_CTRL_PARAM_BYTES_PER_PAGE = 2048 := rfl
      obtain ⟨hle, hafin, hmod, ha, hbelow⟩ := ih h
      refine ⟨by omega, hafin, by omega, ha, ?_⟩
      intro b hb hba hbmod
      by_cases hbstart : b = start
      · subst hbstart
        exact Bool.not_eq_true _ ▸ hmatch
      · exact hbelow b (by omega) hba (by omega)
  | case3 start hend => cases h

theorem scan_loop_none {fin start : ℕ} (h : scan_loop mem command nonce fin start = none) :
    ∀ b, start ≤ b → b < fin → b % 2048 = start % 2048 →
      SignatureAt.isFor ⟨mem, b⟩ command nonce = false := by
  fun_induction scan_loop mem command nonce fin start with
  | case1 start hlt hmatch => cases h
  | case2 start hlt hmatch ih =>
      have hpage : FLASH_CTRL_PARAM_BYTES_PER_PAGE = 2048 := rfl
      intro b hb hbfin hbmod
      by_cases hbstart : b = start
      · subst hbstart
        exact Bool.not_eq_true _ ▸ hmatch
      · exact ih h b (by omega) hbfin (by omega)
  | case3 start hend =>
      intro b hb hbfin
      omega

end

/-! ## What there is to be found -/

/-- A range of addresses that starts with a page. -/
structure FlashRange where
  start : u32
  length : u32
  aligned : start.toNat % FLASH_CTRL_PARAM_BYTES_PER_PAGE = 0
  fits : start.toNat + length.toNat ≤ 2 ^ 32

section

variable (mem : Mem) (range : FlashRange) (command : u32) (nonce : Nonce)

/-- A page-aligned signature for the command and the nonce, all of it in the range. -/
structure Candidate (a : ℕ) : Prop where
  aligned : a % FLASH_CTRL_PARAM_BYTES_PER_PAGE = 0
  start_le : range.start.toNat ≤ a
  end_le : a + kDetachedSignatureSize ≤ range.start.toNat + range.length.toNat
  isFor : SignatureAt.isFor ⟨mem, a⟩ command nonce = true

/-- The result of a search that misses nothing. -/
def Complete : Option ℕ → Prop
  | some a => Candidate mem range command nonce a ∧ ∀ b, Candidate mem range command nonce b → a ≤ b
  | none => ∀ b, ¬ Candidate mem range command nonce b

/-- The lowest signature, if there is one, ends with the range. -/
def OnlyAtEnd : Prop :=
  ∃ a, Candidate mem range command nonce a ∧
    a + kDetachedSignatureSize = range.start.toNat + range.length.toNat ∧
    ∀ b, Candidate mem range command nonce b → a ≤ b

/-- Where the loop ends when there is room for an object. -/
theorem scan_end (h : kDetachedSignatureSize ≤ range.length.toNat) :
    (range.start + (range.length - BitVec.ofNat 32 kDetachedSignatureSize)).toNat +
      kDetachedSignatureSize = range.start.toNat + range.length.toNat := by
  have hfits := range.fits
  have hsize : kDetachedSignatureSize = 8192 := rfl
  rw [hsize] at h ⊢
  have hsub : (range.length - BitVec.ofNat 32 8192).toNat = range.length.toNat - 8192 := by
    rw [BitVec.toNat_sub_of_le (by rw [BitVec.le_def]; simpa using h)]
    rfl
  rw [BitVec.toNat_add, hsub]
  omega

/-- The search is complete unless the only signature ends with the range. -/
theorem signature_scan_complete_iff :
    Complete mem range command nonce
        (ownership_signature_scan mem command nonce range.start range.length) ↔
      ¬ OnlyAtEnd mem range command nonce := by
  unfold ownership_signature_scan
  by_cases hshort : range.length.toNat < kDetachedSignatureSize
  · rw [if_pos hshort]
    have hnone : ∀ b, ¬ Candidate mem range command nonce b := by
      intro b hb
      have hstart := hb.start_le
      have hend := hb.end_le
      omega
    exact iff_of_true hnone fun ⟨a, ha, _⟩ => hnone a ha
  · rw [if_neg hshort]
    have hfin := scan_end range (not_lt.mp hshort)
    have haligned : range.start.toNat % 2048 = 0 := range.aligned
    dsimp only
    generalize (range.start + (range.length - BitVec.ofNat 32 kDetachedSignatureSize)).toNat = fin
      at hfin ⊢
    cases hscan : scan_loop mem command nonce fin range.start.toNat with
    | some a =>
        obtain ⟨hle, hlt, hmod, hmatch, hbelow⟩ := scan_loop_some mem command nonce hscan
        have ha : Candidate mem range command nonce a :=
          ⟨hmod.trans haligned, hle, by omega, hmatch⟩
        have hfirst : ∀ b, Candidate mem range command nonce b → a ≤ b := by
          intro b hb
          by_contra hba
          have hclear := hbelow b hb.start_le (by omega) (hb.aligned.trans haligned.symm)
          rw [hb.isFor] at hclear
          cases hclear
        refine iff_of_true ⟨ha, hfirst⟩ ?_
        rintro ⟨c, hc, hend, hlowest⟩
        have hca := hlowest a ha
        omega
    | none =>
        have hpassed := scan_loop_none mem command nonce hscan
        -- Whatever there is begins where the loop has stopped.
        have hlast : ∀ b, Candidate mem range command nonce b → b = fin := by
          intro b hb
          have hend := hb.end_le
          by_contra hne
          have hclear := hpassed b hb.start_le (by omega) (hb.aligned.trans haligned.symm)
          rw [hb.isFor] at hclear
          cases hclear
        constructor
        · intro hnone ⟨a, ha, _⟩
          exact hnone a ha
        · intro hnot b hb
          refine hnot ⟨b, hb, ?_, fun c hc => ?_⟩
          · rw [hlast b hb, hfin]
          · rw [hlast b hb, hlast c hc]

end

/-! ## A signature at the end of the flash -/

/-- The range that `ownership_key_validate` searches. -/
def whole_flash : FlashRange := ⟨0x20000000, 0x100000, by decide, by decide⟩

/-- A signature for the unlock command with the nonce 1, 2 in the last four pages of a flash
that is erased otherwise. -/
def signed_at_end : Mem := fun a =>
  if a < 0x200fe000 then 0xff
  else [0x53, 0x49, 0x47, 0x4e, 0x00, 0x20, 0, 0, 0, 0, 0, 0, 0, 0, 0, 0, 0x55, 0x4e, 0x4c, 0x4b,
    0, 0, 0, 0, 1, 0, 0, 0, 2, 0, 0, 0].getD (a - 0x200fe000) 0

/-- The search does not find it. -/
theorem signature_scan_misses_last :
    Candidate signed_at_end whole_flash 0x4b4c4e55 ⟨#v[1, 2]⟩ 0x200fe000 ∧
      ownership_signature_scan signed_at_end 0x4b4c4e55 ⟨#v[1, 2]⟩ whole_flash.start
        whole_flash.length = none := by
  refine ⟨⟨by decide, by decide, by decide, by decide⟩, ?_⟩
  unfold ownership_signature_scan
  rw [if_neg (by decide)]
  dsimp only
  have hfin : (whole_flash.start +
      (whole_flash.length - BitVec.ofNat 32 kDetachedSignatureSize)).toNat = 0x200fe000 := by decide
  have hstart : whole_flash.start.toNat = 0x20000000 := by decide
  rw [hfin, hstart]
  cases hscan : scan_loop signed_at_end 0x4b4c4e55 ⟨#v[1, 2]⟩ 0x200fe000 0x20000000 with
  | none => rfl
  | some a =>
      obtain ⟨-, hlt, hmod, hmatch, -⟩ := scan_loop_some _ _ _ hscan
      -- Below the last four pages every word is erased.
      have herased : ∀ i < 4, signed_at_end (a + i) = 0xff := fun i hi => if_pos (by omega)
      have htag : SignatureAt.tag ⟨signed_at_end, a⟩ = 0xffffffff := by
        have hfirst : signed_at_end a = 0xff := herased 0 (by decide)
        change word (signed_at_end a) (signed_at_end (a + 1)) (signed_at_end (a + 2))
          (signed_at_end (a + 3)) = 0xffffffff
        rw [hfirst, herased 1 (by decide), herased 2 (by decide), herased 3 (by decide)]
        decide
      have hne : decide (SignatureAt.tag ⟨signed_at_end, a⟩ = kTlvTagDetachedSignature) = false := by
        rw [htag]
        decide
      rw [SignatureAt.isFor, hne] at hmatch
      cases hmatch

end IbexFirmware.SignatureScan
