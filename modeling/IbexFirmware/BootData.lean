/-
The boot data record (`boot_data.h`, `nonce.h`) and its layout in flash words.

A record is 128 bytes, 32 words. `BootData.words` lists them in the order of the
offset assertions of the header and `BootData.ofWords` reads them back; the round
trip `ofWords_words` is what a record read from flash being the record written to
it rests on. The payload of a record is the fields after `counter`, those that a
write takes from its caller and a read gives back.
-/
import IbexFirmware.RomError

set_option autoImplicit false

namespace IbexFirmware

open Bytes

/-! ## `nonce.h` -/

structure Nonce where
  value : Vector u32 2
  deriving DecidableEq

def nonce_equal (a b : Nonce) : Bool := a.value.get 0 = b.value.get 0 && a.value.get 1 = b.value.get 1

theorem nonce_equal_iff (a b : Nonce) : nonce_equal a b = true ↔ a = b := by
  obtain ⟨a⟩ := a
  obtain ⟨b⟩ := b
  simp only [nonce_equal, Bool.and_eq_true, decide_eq_true_eq, Nonce.mk.injEq]
  constructor
  · rintro ⟨h0, h1⟩
    ext i hi
    interval_cases i
    · rw [show a[0] = b[0] from h0]
    · rw [show a[1] = b[1] from h1]
  · rintro rfl
    exact ⟨rfl, rfl⟩

/-! ## `boot_data.h` -/

def kBootDataIdentifier : u32 := 0x41444f42
def kBootDataVersion1 : u32 := 0xd4ce468e
def kBootDataVersion2 : u32 := 0xad51e729
def kBootDataValidEntry : u64 := 0xffffffffffffffff
def kBootDataDefaultCounterVal : u32 := 5
def kBootDataNumWords : ℕ := 32
def kBootDataEntriesPerPage : ℕ := 16

def kBootSlotA : u32 := 0x5f5f4141
def kBootSlotB : u32 := 0x42425f5f

structure BootData where
  digest : Vector u32 8
  is_valid : u64
  identifier : u32
  version : u32
  counter : u32
  min_security_version_rom_ext : u32
  min_security_version_bl0 : u32
  primary_bl0_slot : u32
  next_owner : Vector u32 8
  nonce : Nonce
  ownership_state : u32
  ownership_transfers : u32
  padding : Vector u32 4
  deriving DecidableEq

/-- The fields after `counter`. -/
structure BootDataPayload where
  min_security_version_rom_ext : u32
  min_security_version_bl0 : u32
  primary_bl0_slot : u32
  next_owner : Vector u32 8
  nonce : Nonce
  ownership_state : u32
  ownership_transfers : u32
  padding : Vector u32 4
  deriving DecidableEq

def BootData.payload (b : BootData) : BootDataPayload where
  min_security_version_rom_ext := b.min_security_version_rom_ext
  min_security_version_bl0 := b.min_security_version_bl0
  primary_bl0_slot := b.primary_bl0_slot
  next_owner := b.next_owner
  nonce := b.nonce
  ownership_state := b.ownership_state
  ownership_transfers := b.ownership_transfers
  padding := b.padding

/-! ## The layout -/

/-- The 32 words of a record as they lie in memory. -/
def BootData.words (b : BootData) : List u32 :=
  b.digest.toList
    ++ [lo32 b.is_valid, hi32 b.is_valid, b.identifier, b.version, b.counter,
      b.min_security_version_rom_ext, b.min_security_version_bl0, b.primary_bl0_slot]
    ++ b.next_owner.toList ++ b.nonce.value.toList
    ++ [b.ownership_state, b.ownership_transfers] ++ b.padding.toList

/-- The record whose words are `ws`. -/
def BootData.ofWords (ws : List u32) : BootData where
  digest := Vector.ofFn fun i => ws.getD i 0
  is_valid := dword (ws.getD 8 0) (ws.getD 9 0)
  identifier := ws.getD 10 0
  version := ws.getD 11 0
  counter := ws.getD 12 0
  min_security_version_rom_ext := ws.getD 13 0
  min_security_version_bl0 := ws.getD 14 0
  primary_bl0_slot := ws.getD 15 0
  next_owner := Vector.ofFn fun i => ws.getD (16 + i) 0
  nonce := ⟨Vector.ofFn fun i => ws.getD (24 + i) 0⟩
  ownership_state := ws.getD 26 0
  ownership_transfers := ws.getD 27 0
  padding := Vector.ofFn fun i => ws.getD (28 + i) 0

@[simp] theorem BootData.length_words (b : BootData) : b.words.length = kBootDataNumWords := by
  simp [BootData.words, kBootDataNumWords]

/-- Reading a record back from its words gives the record. -/
theorem BootData.ofWords_words (b : BootData) : BootData.ofWords b.words = b := by
  obtain ⟨digest, is_valid, identifier, version, counter, msv_rom_ext, msv_bl0, slot, next_owner,
    ⟨nonce⟩, state, transfers, padding⟩ := b
  simp only [BootData.ofWords, BootData.words, BootData.mk.injEq, Nonce.mk.injEq]
  refine ⟨?_, ?_, ?_, ?_, ?_, ?_, ?_, ?_, ?_, ?_, ?_, ?_, ?_⟩
  case refine_1 | refine_9 | refine_10 | refine_13 =>
    -- the four array fields, word by word
    ext1 i hi
    interval_cases i <;> simp [List.getD_eq_getElem?_getD, List.getElem?_append]
  all_goals simp [List.getD_eq_getElem?_getD, dword_lo32_hi32]

end IbexFirmware
