/-
HMAC over any hash function.

A key is brought to the length of a block first: one that is longer is hashed, and zeros
are put behind it. So a key and the same key with zeros behind it, up to a block, give the
same tags (`mac_append_zeros`).
-/
import IbexFirmware.Lib.Bytes

set_option autoImplicit false

namespace IbexFirmware.HmacOf

open Bytes

variable (hash : List u8 → List u8) (block : ℕ)

/-- A key with zeros up to a block. -/
def padded (key : List u8) : List u8 := key ++ List.replicate (block - key.length) 0

/-- The key as the block that the tag is computed from. -/
def key_block (key : List u8) : List u8 :=
  if block < key.length then padded block (hash key) else padded block key

/-- The tag of a message under a key that has been brought to a block. -/
def mac_of_block (kb msg : List u8) : List u8 :=
  hash (kb.map (· ^^^ 0x5c) ++ hash (kb.map (· ^^^ 0x36) ++ msg))

def mac (key msg : List u8) : List u8 := mac_of_block hash (key_block hash block key) msg

variable {hash block}

theorem padded_append_zeros {key : List u8} {k : ℕ} (h : key.length + k ≤ block) :
    padded block (key ++ List.replicate k 0) = padded block key := by
  rw [padded, padded, List.append_assoc, List.length_append, List.length_replicate,
    List.replicate_append_replicate]
  congr 2
  omega

@[simp] theorem length_padded {key : List u8} (h : key.length ≤ block) :
    (padded block key).length = block := by
  rw [padded, List.length_append, List.length_replicate]
  omega

theorem key_block_of_le {key : List u8} (h : key.length ≤ block) :
    key_block hash block key = padded block key := if_neg (Nat.not_lt.mpr h)

theorem key_block_of_gt {key : List u8} (h : block < key.length) :
    key_block hash block key = padded block (hash key) := if_pos h

theorem mac_append_zeros {key : List u8} {k : ℕ} (h : key.length + k ≤ block) (msg : List u8) :
    mac hash block (key ++ List.replicate k 0) msg = mac hash block key msg := by
  have hlong : (key ++ List.replicate k (0 : u8)).length ≤ block := by
    rwa [List.length_append, List.length_replicate]
  rw [mac, mac, key_block_of_le hlong, key_block_of_le (by omega), padded_append_zeros h]

end IbexFirmware.HmacOf
