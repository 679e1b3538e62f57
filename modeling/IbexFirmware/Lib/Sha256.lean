/-
SHA-256, executable.

The developments over a hash take it as a parameter. This is the function the
parameter stands for, so that a statement about a parameter can be run at the value
it has in the device. `length_pad` is why the block loop misses no byte.
-/
import IbexFirmware.Lib.Absorb
import IbexFirmware.Lib.Bytes

set_option autoImplicit false

namespace IbexFirmware.Sha256

open Bytes Absorb

/-! ## Padding -/

/-- The eight bytes of a 64-bit value, the most significant first. -/
def be64 (x : u64) : List u8 :=
  (List.range 8).map fun i => (x >>> (8 * (7 - i))).setWidth 8

/-- One bit, zeros, and the length in bits, up to a whole number of blocks. -/
def pad (data : List u8) : List u8 :=
  data ++ [0x80] ++ List.replicate ((119 - data.length % 64) % 64) 0
    ++ be64 (BitVec.ofNat 64 (8 * data.length))

/-! ## Compression -/

def rotr (x : u32) (n : ℕ) : u32 := x >>> n ||| x <<< (32 - n)

def roundConstants : List u32 :=
  [0x428a2f98, 0x71374491, 0xb5c0fbcf, 0xe9b5dba5, 0x3956c25b, 0x59f111f1, 0x923f82a4, 0xab1c5ed5,
   0xd807aa98, 0x12835b01, 0x243185be, 0x550c7dc3, 0x72be5d74, 0x80deb1fe, 0x9bdc06a7, 0xc19bf174,
   0xe49b69c1, 0xefbe4786, 0x0fc19dc6, 0x240ca1cc, 0x2de92c6f, 0x4a7484aa, 0x5cb0a9dc, 0x76f988da,
   0x983e5152, 0xa831c66d, 0xb00327c8, 0xbf597fc7, 0xc6e00bf3, 0xd5a79147, 0x06ca6351, 0x14292967,
   0x27b70a85, 0x2e1b2138, 0x4d2c6dfc, 0x53380d13, 0x650a7354, 0x766a0abb, 0x81c2c92e, 0x92722c85,
   0xa2bfe8a1, 0xa81a664b, 0xc24b8b70, 0xc76c51a3, 0xd192e819, 0xd6990624, 0xf40e3585, 0x106aa070,
   0x19a4c116, 0x1e376c08, 0x2748774c, 0x34b0bcb5, 0x391c0cb3, 0x4ed8aa4a, 0x5b9cca4f, 0x682e6ff3,
   0x748f82ee, 0x78a5636f, 0x84c87814, 0x8cc70208, 0x90befffa, 0xa4506ceb, 0xbef9a3f7, 0xc67178f2]

structure State where
  a : u32
  b : u32
  c : u32
  d : u32
  e : u32
  f : u32
  g : u32
  h : u32

def State.init : State :=
  ⟨0x6a09e667, 0xbb67ae85, 0x3c6ef372, 0xa54ff53a, 0x510e527f, 0x9b05688c, 0x1f83d9ab, 0x5be0cd19⟩

/-- One round. The window holds the next sixteen words of the message schedule. -/
def round (st : State × List u32) (k : u32) : State × List u32 :=
  let (s, window) := st
  let w := window.headD 0
  let t1 := s.h + (rotr s.e 6 ^^^ rotr s.e 11 ^^^ rotr s.e 25)
    + ((s.e &&& s.f) ^^^ (~~~ s.e &&& s.g)) + k + w
  let t2 := (rotr s.a 2 ^^^ rotr s.a 13 ^^^ rotr s.a 22)
    + ((s.a &&& s.b) ^^^ (s.a &&& s.c) ^^^ (s.b &&& s.c))
  let w1 := window.getD 1 0
  let w14 := window.getD 14 0
  let next := w + (rotr w1 7 ^^^ rotr w1 18 ^^^ w1 >>> 3) + window.getD 9 0
    + (rotr w14 17 ^^^ rotr w14 19 ^^^ w14 >>> 10)
  (⟨t1 + t2, s.a, s.b, s.c, s.d + t1, s.e, s.f, s.g⟩, window.tail ++ [next])

/-- The sixteen big-endian words of a block. -/
def blockWords (block : List u8) : List u32 :=
  (List.range 16).map fun i => word (block.getD (4 * i + 3) 0) (block.getD (4 * i + 2) 0)
    (block.getD (4 * i + 1) 0) (block.getD (4 * i) 0)

def compress (s : State) (block : List u8) : State :=
  let t := (roundConstants.foldl round (s, blockWords block)).1
  ⟨s.a + t.a, s.b + t.b, s.c + t.c, s.d + t.d, s.e + t.e, s.f + t.f, s.g + t.g, s.h + t.h⟩

/-- The eight words of the digest, in the order of the standard. -/
def sha256 (data : List u8) : Vector u32 8 :=
  let padded := pad data
  let s := (List.range (padded.length / 64)).foldl
    (fun s i => compress s ((padded.drop (64 * i)).take 64)) State.init
  #v[s.a, s.b, s.c, s.d, s.e, s.f, s.g, s.h]

/-- The digest as a byte string. -/
def digest (data : List u8) : List u8 :=
  (sha256 data).toList.flatMap fun w => [byteOf w 3, byteOf w 2, byteOf w 1, byteOf w 0]

/-! ## Block by block -/

def State.words (s : State) : List u32 := [s.a, s.b, s.c, s.d, s.e, s.f, s.g, s.h]

/-- The words of the digest are the state after all blocks of the padded message. -/
theorem sha256_toList (data : List u8) :
    (sha256 data).toList = (absorb 64 compress State.init (pad data)).words := by
  rw [absorb, absorb_blocks_eq_foldl]
  rfl

end IbexFirmware.Sha256
