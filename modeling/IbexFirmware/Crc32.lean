/-
The running CRC-32 of the firmware (`crc32.c`).

`crc32_add` takes its buffer in three pieces, bytes up to the first word boundary,
then words, then the bytes that are left, and on the target a word goes through one
`crc32.w` instruction. `crc32_add_eq` says that none of it shows: wherever the buffer
lies, the result is the bytes one after the other. So a string that is fed in pieces, each
by whichever function, has the CRC of the whole (`crc32_pieces`).

Where there is no such instruction the source steps bit by bit. Those versions have `host`
in their names.
-/
import IbexFirmware.Lib.Crc

set_option autoImplicit false

namespace IbexFirmware.Crc32

open Bytes

/-- The reflected polynomial of `kCrc32Poly`, which `crc32.b` and `crc32.w` have built in. -/
def kCrc32Poly : u32 := 0xedb88320

def crc32_internal_add8 (ctx : u32) (byte : u8) : u32 :=
  Crc.steps kCrc32Poly 8 (ctx ^^^ byte.setWidth 32)

/-- The instruction shifts a whole word through. -/
def crc32_internal_add32 (ctx word : u32) : u32 := Crc.steps kCrc32Poly 32 (ctx ^^^ word)

/-- The loop of `crc32_internal_add8` off the target, with `n` of its iterations left. -/
def crc32_host_loop : ℕ → u32 → u32
  | 0, ctx => ctx
  | n + 1, ctx =>
      let lsb := ctx &&& 1
      let ctx := ctx >>> 1
      crc32_host_loop n (if lsb ≠ 0 then ctx ^^^ kCrc32Poly else ctx)

def crc32_host_internal_add8 (ctx : u32) (byte : u8) : u32 :=
  crc32_host_loop 8 (ctx ^^^ byte.setWidth 32)

/-- The bytes of the word as they lie in memory. -/
def crc32_host_internal_add32 (ctx word : u32) : u32 :=
  (le32 word).foldl crc32_host_internal_add8 ctx

def crc32_init : u32 := BitVec.allOnes 32

def crc32_add8 (ctx : u32) (byte : u8) : u32 := crc32_internal_add8 ctx byte

def crc32_add32 (ctx word : u32) : u32 := crc32_internal_add32 ctx word

/-- The unaligned head of a buffer that starts at `addr`: the context after it, and what
follows it. -/
def crc32_add_head (addr : ℕ) (state : u32) : List u8 → u32 × List u8
  | [] => (state, [])
  | b :: data =>
      if addr % 4 = 0 then (state, b :: data)
      else crc32_add_head (addr + 1) (crc32_internal_add8 state b) data

/-- The aligned body, and the tail of fewer than four bytes. -/
def crc32_add_body (state : u32) : List u8 → u32
  | b0 :: b1 :: b2 :: b3 :: data =>
      crc32_add_body (crc32_internal_add32 state (word b0 b1 b2 b3)) data
  | data => data.foldl crc32_internal_add8 state

def crc32_add (ctx : u32) (addr : ℕ) (buf : List u8) : u32 :=
  crc32_add_body (crc32_add_head addr ctx buf).1 (crc32_add_head addr ctx buf).2

def crc32_finish (ctx : u32) : u32 := ctx ^^^ BitVec.allOnes 32

def crc32 (addr : ℕ) (buf : List u8) : u32 := crc32_finish (crc32_add crc32_init addr buf)

/-! ## The order of the pieces does not show -/

theorem steps_add (n k : ℕ) (c : u32) :
    Crc.steps kCrc32Poly (n + k) c = Crc.steps kCrc32Poly k (Crc.steps kCrc32Poly n c) := by
  rw [Nat.add_comm]
  exact Function.iterate_add_apply _ k n c

/-- Eight shifts bring the second byte of a word to where a byte enters. -/
theorem steps_shifted (c : u32) (n : ℕ) (b : u8) (hn : n + 8 ≤ 32) :
    Crc.steps kCrc32Poly n (c ^^^ b.setWidth 32 <<< n) =
      Crc.steps kCrc32Poly n c ^^^ b.setWidth 32 := by
  have hlow : ∀ i < n, (b.setWidth 32 <<< n).getLsbD i = false := by
    intro i hi
    simp [BitVec.getLsbD_shiftLeft, hi]
  have hback : (b.setWidth 32 <<< n) >>> n = b.setWidth 32 := by
    apply BitVec.eq_of_getLsbD_eq
    intro i hi
    by_cases hin : i < 8
    · simp [show n + i < 32 by omega, show ¬ n + i < n by omega, hi]
    · simp [BitVec.getLsbD_of_ge b i (by omega)]
  rw [Crc.steps_xor, Crc.steps_of_low_zero _ _ n hlow, hback]

/-- The instruction for a word is that for its bytes, low byte first. -/
theorem crc32_internal_add32_eq (ctx : u32) (b0 b1 b2 b3 : u8) :
    crc32_internal_add32 ctx (word b0 b1 b2 b3) =
      [b0, b1, b2, b3].foldl crc32_internal_add8 ctx := by
  have hword : ctx ^^^ word b0 b1 b2 b3 =
      ((ctx ^^^ b0.setWidth 32) ^^^ b1.setWidth 32 <<< 8) ^^^ b2.setWidth 32 <<< 16
        ^^^ b3.setWidth 32 <<< 24 := by
    apply BitVec.eq_of_getLsbD_eq
    intro i hi
    simp only [BitVec.getLsbD_xor, getLsbD_word, BitVec.getLsbD_shiftLeft,
      BitVec.getLsbD_setWidth]
    split_ifs with h8 h16 h24
    · simp [h8, hi, show i < 16 by omega, show i < 24 by omega]
    · simp [h8, h16, hi, show i < 24 by omega, BitVec.getLsbD_of_ge b0 i (by omega),
        show i - 8 < 32 by omega]
    · simp [h8, h16, h24, hi, BitVec.getLsbD_of_ge b0 i (by omega),
        BitVec.getLsbD_of_ge b1 (i - 8) (by omega), show i - 16 < 32 by omega]
    · simp [h8, h16, h24, hi, BitVec.getLsbD_of_ge b0 i (by omega),
        BitVec.getLsbD_of_ge b1 (i - 8) (by omega), BitVec.getLsbD_of_ge b2 (i - 16) (by omega),
        show i - 24 < 32 by omega]
  simp only [List.foldl_cons, List.foldl_nil, crc32_internal_add8, crc32_internal_add32, hword]
  have h32 : ∀ c, Crc.steps kCrc32Poly 32 c =
      Crc.steps kCrc32Poly 8 (Crc.steps kCrc32Poly 24 c) := steps_add 24 8
  have h24 : ∀ c, Crc.steps kCrc32Poly 24 c =
      Crc.steps kCrc32Poly 8 (Crc.steps kCrc32Poly 16 c) := steps_add 16 8
  have h16 : ∀ c, Crc.steps kCrc32Poly 16 c =
      Crc.steps kCrc32Poly 8 (Crc.steps kCrc32Poly 8 c) := steps_add 8 8
  -- A byte further up is added after the shifts that its place in the word delays it by.
  rw [h32, steps_shifted _ 24 b3 (by omega), h24, steps_shifted _ 16 b2 (by omega), h16,
    steps_shifted _ 8 b1 (by omega)]

theorem crc32_add_body_eq (state : u32) (data : List u8) :
    crc32_add_body state data = data.foldl crc32_internal_add8 state := by
  induction state, data using crc32_add_body.induct with
  | case1 state b0 b1 b2 b3 data ih =>
      rw [crc32_add_body, ih, crc32_internal_add32_eq]
      rfl
  | case2 state data hshort => rw [crc32_add_body.eq_2 _ _ hshort]

theorem crc32_add_head_eq (addr : ℕ) (state : u32) (data : List u8) :
    (crc32_add_head addr state data).2.foldl crc32_internal_add8
      (crc32_add_head addr state data).1 = data.foldl crc32_internal_add8 state := by
  induction data generalizing addr state with
  | nil => rfl
  | cons b data ih =>
      rw [crc32_add_head]
      split
      · rfl
      · rw [ih, List.foldl_cons]

/-- Wherever the buffer lies, it is its bytes that count. -/
theorem crc32_add_eq (ctx : u32) (addr : ℕ) (buf : List u8) :
    crc32_add ctx addr buf = buf.foldl crc32_add8 ctx := by
  rw [crc32_add, crc32_add_body_eq, crc32_add_head_eq]
  rfl

/-! ## Off the target -/

theorem crc32_host_loop_eq (n : ℕ) (ctx : u32) :
    crc32_host_loop n ctx = Crc.steps kCrc32Poly n ctx := by
  induction n generalizing ctx with
  | zero => rfl
  | succ n ih =>
      have hlsb : ctx &&& 1 ≠ 0 ↔ ctx.getLsbD 0 = true := by
        have hbit : ctx &&& 1 = BitVec.setWidth 32 (BitVec.ofBool (ctx.getLsbD 0)) :=
          BitVec.and_one_eq_setWidth_ofBool_getLsbD
        rw [hbit]
        cases ctx.getLsbD 0 <;> decide
      rw [crc32_host_loop, ih, Crc.steps, Crc.steps, Function.iterate_succ_apply, Crc.step]
      simp only [hlsb]

theorem crc32_host_internal_add8_eq : crc32_host_internal_add8 = crc32_internal_add8 := by
  funext ctx byte
  exact crc32_host_loop_eq 8 _

theorem crc32_host_internal_add32_eq : crc32_host_internal_add32 = crc32_internal_add32 := by
  funext ctx w
  rw [crc32_host_internal_add32, crc32_host_internal_add8_eq]
  conv_rhs => rw [← word_byteOf w, crc32_internal_add32_eq]
  rfl

/-! ## A string in pieces -/

/-- A call that feeds a part of the string. -/
inductive Piece where
  | add (addr : ℕ) (buf : List u8)
  | add8 (byte : u8)
  | add32 (word : u32)

/-- The bytes it feeds. -/
def Piece.bytes : Piece → List u8
  | .add _ buf => buf
  | .add8 byte => [byte]
  | .add32 word => le32 word

/-- The context after it. -/
def Piece.call (ctx : u32) : Piece → u32
  | .add addr buf => crc32_add ctx addr buf
  | .add8 byte => crc32_add8 ctx byte
  | .add32 word => crc32_add32 ctx word

/-- A call feeds its bytes one after the other. -/
theorem Piece.call_eq (ctx : u32) (p : Piece) : p.call ctx = p.bytes.foldl crc32_add8 ctx := by
  cases p with
  | add addr buf => exact crc32_add_eq ctx addr buf
  | add8 byte => rfl
  | add32 w =>
      have hword := crc32_internal_add32_eq ctx (byteOf w 0) (byteOf w 1) (byteOf w 2) (byteOf w 3)
      rw [word_byteOf] at hword
      exact hword

theorem pieces_foldl (pieces : List Piece) (ctx : u32) :
    pieces.foldl Piece.call ctx = (pieces.flatMap Piece.bytes).foldl crc32_add8 ctx := by
  induction pieces generalizing ctx with
  | nil => rfl
  | cons p pieces ih => rw [List.foldl_cons, ih, Piece.call_eq, List.flatMap_cons, List.foldl_append]

/-- However a string is cut and fed, the CRC is the bitwise one of the whole string, with the
instructions as without. -/
theorem crc32_pieces (pieces : List Piece) :
    crc32_finish (pieces.foldl Piece.call crc32_init) =
        Crc.check kCrc32Poly (pieces.flatMap Piece.bytes) ∧
      crc32_host_internal_add8 = crc32_internal_add8 ∧
      crc32_host_internal_add32 = crc32_internal_add32 := by
  refine ⟨?_, crc32_host_internal_add8_eq, crc32_host_internal_add32_eq⟩
  rw [pieces_foldl]
  rfl

/-- The check value of the standard. -/
example : crc32 1 [0x31, 0x32, 0x33, 0x34, 0x35, 0x36, 0x37, 0x38, 0x39] = 0xcbf43926 := by
  decide +kernel

end IbexFirmware.Crc32
