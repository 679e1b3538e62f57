/-
The boot data store (`boot_data.c`): two flash info pages of sixteen entries each,
used as append-only logs.

A write puts the new entry behind the last used one of the active page, or at the
start of the other page once the active one is full, and only then invalidates the
entry it replaces; a read looks for the entry with the greatest counter. Reads,
page erases and the programming of one 64-bit flash word are operations of
`PowerFail`: each may be reported as failed, and the power may go before it.
Programming clears bits, so a word that is not erased ends up as the bitwise and of
the two values.

The hash is a parameter, and so are the one-time-programmable words that the
default entry takes its fields from. Access permissions of the pages are not
modelled: every function sets those it needs. The second, mirrored loop indices and
the repeated comparisons that harden the source against faults are not either.
-/
import IbexFirmware.BootData
import IbexFirmware.Lib.PowerFail

set_option autoImplicit false

namespace IbexFirmware.BootDataStore

open Bytes PowerFail

/-! ## The pages -/

def kFlashCtrlErasedWord : u32 := 0xffffffff

/-- The two boot data pages, by page index and word offset. -/
abbrev Pages := Fin 2 → ℕ → u32

/-- Both pages erased. -/
def erasedPages : Pages := fun _ _ => kFlashCtrlErasedWord

abbrev Flash := Proc Pages RomError

def erasePage (s : Pages) (page : Fin 2) : Pages :=
  Function.update s page fun _ => kFlashCtrlErasedWord

/-- The pages after the words `data` have been programmed from word `offset` on. -/
def program (s : Pages) (page : Fin 2) (offset : ℕ) (data : List u32) : Pages :=
  Function.update s page fun w =>
    if offset ≤ w ∧ w < offset + data.length then s page w &&& data.getD (w - offset) 0
    else s page w

def flash_ctrl_info_read (page : Fin 2) (offset word_count : ℕ) : Flash (List u32) :=
  .step .kErrorFlashCtrlInfoRead fun s => ((List.range word_count).map fun i => s page (offset + i), s)

def flash_ctrl_info_erase (page : Fin 2) : Flash Unit :=
  .step .kErrorFlashCtrlInfoErase fun s => ((), erasePage s page)

/-- Two words, one 64-bit flash word, at a time. -/
def flash_ctrl_info_write (page : Fin 2) (offset : ℕ) : List u32 → Flash Unit
  | w0 :: w1 :: data => do
      .step .kErrorFlashCtrlInfoWrite fun s => ((), program s page offset [w0, w1])
      flash_ctrl_info_write page (offset + 2) data
  | _ => pure ()

/-! ## Entries -/

section

variable (hmac_sha256 : List u8 → Vector u32 8)

/-- The digest of everything behind the `digest` field. -/
def boot_data_digest_compute (boot_data : BootData) : Vector u32 8 :=
  hmac_sha256 ((boot_data.words.drop 8).flatMap le32)

def boot_data_is_empty (words : List u32) : Bool :=
  words.foldl (· &&& ·) kFlashCtrlErasedWord = kFlashCtrlErasedWord

def kCheckShares : Vector u32 9 :=
  #v[0xe021e1a9, 0xf81e8365, 0xbf8322db, 0xc7a37080, 0x271a933f, 0xdd8ce33f, 0x7585d574,
    0x951777af, 0x381dee3a]

def boot_data_check (boot_data : BootData) : RomError :=
  let act_digest := boot_data_digest_compute hmac_sha256 boot_data
  let error := (List.finRange 8).foldl (fun error i =>
    error ^^^ (boot_data.digest.get i ^^^ act_digest.get i ^^^ kCheckShares.get i.castSucc))
    RomError.kErrorBootDataInvalid.code
  let error := error ^^^ (boot_data.identifier ^^^ kCheckShares.get (Fin.last 8))
  if error = RomError.kErrorOk.code then .kErrorOk else .kErrorBootDataInvalid

/-- Word offsets of `is_valid` and `identifier` in an entry. -/
def kIsValidOffset : ℕ := 8
def kIdentifierOffset : ℕ := 10

def boot_data_sniff (page : Fin 2) (index : ℕ) : Flash u32 := do
  let buf ← flash_ctrl_info_read page (index * kBootDataNumWords + kIsValidOffset) 3
  return buf.getD 0 0 &&& buf.getD 1 0 &&& buf.getD 2 0

/-- The words of an entry; `BootData.ofWords` makes a record of them. -/
def boot_data_entry_read (page : Fin 2) (index : ℕ) : Flash (List u32) :=
  flash_ctrl_info_read page (index * kBootDataNumWords) kBootDataNumWords

def boot_data_entry_write (page : Fin 2) (index : ℕ) (boot_data : BootData) (erase : Bool) :
    Flash Unit := do
  (if erase then flash_ctrl_info_erase page else pure ())
  let offset := index * kBootDataNumWords
  flash_ctrl_info_write page offset (boot_data.words.take 8)
  flash_ctrl_info_write page (offset + kIdentifierOffset) (boot_data.words.drop kIdentifierOffset)
  let written ← flash_ctrl_info_read page offset kBootDataNumWords
  if written ≠ boot_data.words then .throw .kErrorBootDataWriteCheck else pure ()

def boot_data_entry_invalidate (page : Fin 2) (index : ℕ) : Flash Unit :=
  flash_ctrl_info_write page (index * kBootDataNumWords + kIsValidOffset) [0, 0]

/-! ## The search for the active page -/

structure ActivePageInfo where
  page : Option (Fin 2)
  has_empty_entry : Bool
  first_empty_index : ℕ
  has_valid_entry : Bool
  last_valid_index : ℕ

/-- The forward loop of `boot_data_page_info_update_impl` from entry `i` on, with `n`
entries to go: the sniffed identifiers so far, the index it stops at, and whether the
entry there is empty. -/
def find_first_empty (page : Fin 2) (i : ℕ) (sniff_results : List u32) :
    ℕ → Flash (List u32 × ℕ × Bool)
  | 0 => return (sniff_results, i, false)
  | n + 1 => do
      let sniff ← boot_data_sniff page i
      let sniff_results := sniff_results ++ [sniff]
      let has_empty_entry ← (if sniff = kFlashCtrlErasedWord then do
          let buf ← boot_data_entry_read page i
          return boot_data_is_empty buf
        else return false)
      if has_empty_entry then return (sniff_results, i, true)
      else find_first_empty page (i + 1) sniff_results n

/-- The backward loop over the entries below `i`: the last valid one. -/
def find_last_valid (page : Fin 2) (sniff_results : List u32) : ℕ → Flash (Option (ℕ × BootData))
  | 0 => return none
  | i + 1 =>
      if sniff_results.getD i 0 = kBootDataIdentifier then do
        let buf := .ofWords (← boot_data_entry_read page i)
        if boot_data_check hmac_sha256 buf = .kErrorOk then return some (i, buf)
        else find_last_valid page sniff_results i
      else find_last_valid page sniff_results i

/-- What one page's newest valid entry makes of the best found so far. Two valid
entries with one counter trap. -/
def page_info_select (page : Fin 2) (first_empty_index : ℕ) (has_empty_entry : Bool)
    (info : ActivePageInfo × BootData) : Option (ℕ × BootData) → Flash (ActivePageInfo × BootData)
  | none => return info
  | some (i, buf) =>
      if info.1.has_valid_entry = false ∨ buf.counter > info.2.counter then
        return (⟨some page, has_empty_entry, first_empty_index, true, i⟩, buf)
      else if buf.counter < info.2.counter then return info
      else .trap

def boot_data_page_info_update (page : Fin 2) (info : ActivePageInfo × BootData) :
    Flash (ActivePageInfo × BootData) := do
  let (sniff_results, first_empty_index, has_empty_entry) ←
    find_first_empty page 0 [] kBootDataEntriesPerPage
  let valid ← find_last_valid hmac_sha256 page sniff_results first_empty_index
  page_info_select page first_empty_index has_empty_entry info valid

/-- The entry the search starts from stands for the uninitialised buffer of the
source, which nothing reads before an entry has been found. -/
def boot_data_active_page_find : Flash (ActivePageInfo × BootData) := do
  let info ← boot_data_page_info_update hmac_sha256 0
    (⟨none, false, kBootDataEntriesPerPage, false, kBootDataEntriesPerPage⟩, .ofWords [])
  boot_data_page_info_update hmac_sha256 1 info

/-! ## Reading -/

/-- `lifecycle_state_t`. -/
inductive LcState where
  | kLcStateTest
  | kLcStateDev
  | kLcStateProd
  | kLcStateProdEnd
  | kLcStateRma
  deriving DecidableEq

/-- The one-time-programmable words the store reads. -/
structure Otp where
  default_boot_data_in_prod_en : u32
  min_sec_ver_rom_ext : u32
  min_sec_ver_bl0 : u32

variable (otp : Otp)

def boot_data_default_get (lc_state : LcState) : Except RomError BootData :=
  let allowed : Bool := match lc_state with
    | .kLcStateTest | .kLcStateDev | .kLcStateRma => true
    | .kLcStateProd | .kLcStateProdEnd => otp.default_boot_data_in_prod_en = kHardenedBoolTrue
  let boot_data : BootData :=
    { BootData.ofWords [] with
      is_valid := kBootDataValidEntry
      identifier := kBootDataIdentifier
      version := kBootDataVersion2
      counter := kBootDataDefaultCounterVal
      min_security_version_rom_ext := otp.min_sec_ver_rom_ext
      min_security_version_bl0 := otp.min_sec_ver_bl0
      primary_bl0_slot := kBootSlotA }
  if allowed then
    .ok { boot_data with digest := boot_data_digest_compute hmac_sha256 boot_data }
  else .error .kErrorBootDataNotFound

def boot_data_as_v2 (boot_data : BootData) : Flash BootData :=
  if boot_data.version = kBootDataVersion1 then
    let boot_data := { boot_data with primary_bl0_slot := kBootSlotA, version := kBootDataVersion2 }
    return { boot_data with digest := boot_data_digest_compute hmac_sha256 boot_data }
  else if boot_data.version = kBootDataVersion2 then return boot_data
  else .trap

def boot_data_read (lc_state : LcState) : Flash BootData := do
  let (active_page, boot_data) ← boot_data_active_page_find hmac_sha256
  if active_page.has_valid_entry then boot_data_as_v2 hmac_sha256 boot_data
  else .ofExcept (boot_data_default_get hmac_sha256 otp lc_state)

/-! ## Writing -/

/-- The entry `boot_data_write` makes of a record and a counter. -/
def new_entry (boot_data : BootData) (counter : u32) : BootData :=
  let entry := { boot_data with
    is_valid := kBootDataValidEntry, identifier := kBootDataIdentifier, counter := counter }
  { entry with digest := boot_data_digest_compute hmac_sha256 entry }

/-- `page == kPages[0] ? kPages[1] : kPages[0]`. -/
def other_page (page : Fin 2) : Fin 2 := if page = 0 then 1 else 0

def boot_data_write (boot_data : BootData) : Flash Unit := do
  let (active_page, last_entry) ← boot_data_active_page_find hmac_sha256
  if active_page.has_valid_entry then
    match active_page.page with
    | none => .trap
    | some page => do
        let entry := new_entry hmac_sha256 boot_data (last_entry.counter + 1)
        (if active_page.has_empty_entry
          then boot_data_entry_write page active_page.first_empty_index entry false
          else boot_data_entry_write (other_page page) 0 entry true)
        boot_data_entry_invalidate page active_page.last_valid_index
  else
    boot_data_entry_write 0 0
      (new_entry hmac_sha256 boot_data (kBootDataDefaultCounterVal + 1)) true

end

end IbexFirmware.BootDataStore
