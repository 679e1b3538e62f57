/-
The mask generation of SPHINCS+ (`sphincsplus/sha2.c`) on the HMAC block (`hmac.c`).

SHA-256 is a function from byte strings to 32 bytes that nothing is known about. The
memory is a row of words, so that the input and the output may lie in any position to each
other, as `sha2.h` allows. `mgf1_sha256` writes block after block; what it leaves after a
number of blocks is `mem_after`, and `mgf1_run` says that the loop gets there.

The length of a block depends on the requested length and not on what is left of it, so the
last block is written in full (`overrun`), and the input is read again for every block, so
that a block can be hashed from what the ones before it wrote (`overlap_reads_output`).
`mgf1_sha256_exact` is the condition that excludes both.
-/
import IbexFirmware.Lib.Bytes

set_option autoImplicit false

namespace IbexFirmware.Mgf1

open Bytes

/-! ## The HMAC block -/

def kHmacDigestNumWords : ℕ := 8

/-- A memory that is read and written in aligned words. -/
abbrev WordMem := ℕ → u32

/-- The HMAC block in SHA-256 mode: whether it swaps the bytes of the digest words, the
bytes it was given since the operation started, and the digest. -/
structure Hmac where
  digest_swap : Bool
  msg : List u8
  digest : Vector u8 32

/-- The bytes of the words as the block takes them in, without `ENDIAN_SWAP`. -/
def word_bytes (ws : List u32) : List u8 := ws.flatMap le32

/-- Word `i` of a digest as it lies in memory when all of it is copied there. -/
def digest_word (digest : Vector u8 32) (i : ℕ) : u32 :=
  let b (j : ℕ) : u8 := digest.toArray.getD (4 * i + j) 0
  word (b 0) (b 1) (b 2) (b 3)

/-- The register `DIGEST_i`. The block holds big-endian words and swaps them when it is
told to. -/
def digest_reg (h : Hmac) (i : ℕ) : u32 :=
  let w := digest_word h.digest i
  if h.digest_swap then w else word (byteOf w 3) (byteOf w 2) (byteOf w 1) (byteOf w 0)

def hmac_sha256_configure (big_endian_digest : Bool) (h : Hmac) : Hmac :=
  { h with digest_swap := big_endian_digest, msg := [] }

def hmac_sha256_start (h : Hmac) : Hmac := { h with msg := [] }

def hmac_sha256_update_words (data : List u32) (h : Hmac) : Hmac :=
  { h with msg := h.msg ++ word_bytes data }

def hmac_sha256_process (sha256 : List u8 → Vector u8 32) (h : Hmac) : Hmac :=
  { h with digest := sha256 h.msg }

/-- Counts the digest registers up or down, by the configuration. -/
def hmac_sha256_final_truncated (h : Hmac) (digest len : ℕ) (mem : WordMem) : WordMem :=
  let result (i : ℕ) : ℕ := if h.digest_swap then i else 7 - i
  let len := if len ≤ kHmacDigestNumWords then len else kHmacDigestNumWords
  (List.range len).foldl
    (fun mem i => Function.update mem (digest + i) (digest_reg h (result i))) mem

/-! ## The function -/

/-- `__builtin_bswap32`. -/
def bswap32 (w : u32) : u32 := word (byteOf w 3) (byteOf w 2) (byteOf w 1) (byteOf w 0)

/-- The words `in[0], …, in[in_len - 1]`. -/
def readWords (mem : WordMem) (in_ptr in_len : ℕ) : List u32 :=
  (List.range in_len).map fun i => mem (in_ptr + i)

section mgf1

variable (sha256 : List u8 → Vector u8 32)

/-- The hash of one run of the loop: the block after `process`. -/
def hash_block (h : Hmac) (in_ptr in_len : ℕ) (ctr : u32) (mem : WordMem) : Hmac :=
  let h := hmac_sha256_start h
  let h := hmac_sha256_update_words (readWords mem in_ptr in_len) h
  let ctr_be := bswap32 ctr
  let h := hmac_sha256_update_words [ctr_be] h
  hmac_sha256_process sha256 h

/-- The loop, in at most `fuel` tests. -/
def mgf1_loop (in_ptr in_len : ℕ) (out_len : u32) :
    ℕ → u32 → ℕ → Hmac → WordMem → Option (Hmac × WordMem)
  | 0, _, _, _, _ => none
  | fuel + 1, ctr, out, h, mem =>
      if ctr * 8 < out_len then
        let h := hash_block sha256 h in_ptr in_len ctr mem
        let digest_words := if out_len ≤ 8 then out_len.toNat else kHmacDigestNumWords
        let mem := hmac_sha256_final_truncated h out digest_words mem
        mgf1_loop in_ptr in_len out_len fuel (ctr + 1) (out + digest_words) h mem
      else some (h, mem)

def mgf1_sha256 (fuel : ℕ) (in_ptr in_len : ℕ) (out_len : u32) (out : ℕ) (h : Hmac)
    (mem : WordMem) : Option (Hmac × WordMem) :=
  mgf1_loop sha256 in_ptr in_len out_len fuel 0 out h mem

/-! ## The mask -/

/-- A counter as a 32-bit big-endian number. -/
def be32 (w : u32) : List u8 := [byteOf w 3, byteOf w 2, byteOf w 1, byteOf w 0]

/-- Word `i` of `SHA256(input || 0) || SHA256(input || 1) || …`. -/
def mask_word (input : List u8) (i : ℕ) : u32 :=
  digest_word (sha256 (input ++ be32 (BitVec.ofNat 32 (i / 8)))) (i % 8)

/-- From `mem` to `mem'` the first `out_len` words of the mask of the input were written at
`out`, and nothing else changed. -/
def MaskWritten (in_ptr in_len : ℕ) (out_len : u32) (out : ℕ) (mem mem' : WordMem) : Prop :=
  (∀ i < out_len.toNat,
      mem' (out + i) = mask_word sha256 (word_bytes (readWords mem in_ptr in_len)) i) ∧
    ∀ a, ¬ (out ≤ a ∧ a < out + out_len.toNat) → mem' a = mem a

/-- The call returns, having written the mask. -/
def WritesMask (in_ptr in_len : ℕ) (out_len : u32) (out : ℕ) (h : Hmac) (mem : WordMem) : Prop :=
  ∃ fuel h' mem', mgf1_sha256 sha256 fuel in_ptr in_len out_len out h mem = some (h', mem') ∧
    MaskWritten sha256 in_ptr in_len out_len out mem mem'

end mgf1

/-! ## One block -/

theorem byteOf_bswap32 (w : u32) : le32 (bswap32 w) = be32 w := by
  simp [le32, bswap32, be32, byteOf_word]

/-- Copying a digest changes the words it is copied to. -/
theorem foldl_update (f : ℕ → u32) (a n : ℕ) (mem : WordMem) (x : ℕ) :
    (List.range n).foldl (fun mem i => Function.update mem (a + i) (f i)) mem x =
      if a ≤ x ∧ x < a + n then f (x - a) else mem x := by
  induction n with
  | zero => simp
  | succ n ih =>
      rw [List.range_succ, List.foldl_append, List.foldl_cons, List.foldl_nil]
      by_cases hx : x = a + n
      · subst hx
        simp
      · rw [Function.update_of_ne hx, ih]
        exact if_congr (by omega) rfl rfl

/-- With big-endian output the words of the digest are copied in order. -/
theorem final_truncated_apply {h : Hmac} (hswap : h.digest_swap = true) {len : ℕ}
    (hlen : len ≤ kHmacDigestNumWords) (digest : ℕ) (mem : WordMem) (x : ℕ) :
    hmac_sha256_final_truncated h digest len mem x =
      if digest ≤ x ∧ x < digest + len then digest_word h.digest (x - digest) else mem x := by
  unfold hmac_sha256_final_truncated
  rw [if_pos hlen, foldl_update]
  simp only [digest_reg, hswap, if_true]

/-- What is hashed in the run with counter `c` from the memory `mem`. -/
def message (in_ptr in_len : ℕ) (mem : WordMem) (c : ℕ) : List u8 :=
  word_bytes (readWords mem in_ptr in_len) ++ be32 (BitVec.ofNat 32 c)

theorem hash_block_digest (sha256 : List u8 → Vector u8 32) (h : Hmac) (in_ptr in_len c : ℕ)
    (mem : WordMem) :
    (hash_block sha256 h in_ptr in_len (BitVec.ofNat 32 c) mem).digest =
      sha256 (message in_ptr in_len mem c) := by
  have hctr : word_bytes [bswap32 (BitVec.ofNat 32 c)] = be32 (BitVec.ofNat 32 c) := by
    rw [word_bytes, List.flatMap_cons, List.flatMap_nil, List.append_nil, byteOf_bswap32]
  simp only [hash_block, hmac_sha256_process, hmac_sha256_update_words, hmac_sha256_start,
    List.nil_append, hctr, message]

/-! ## The run -/

section run

variable (sha256 : List u8 → Vector u8 32) (in_ptr in_len out d : ℕ) (mem : WordMem)

/-- The memory after `c` blocks of `d` words each. -/
def mem_after : ℕ → WordMem
  | 0 => mem
  | c + 1 => fun x =>
      if out + d * c ≤ x ∧ x < out + d * c + d then
        digest_word (sha256 (message in_ptr in_len (mem_after c) c)) (x - (out + d * c))
      else mem_after c x

theorem mem_after_succ (c x : ℕ) :
    mem_after sha256 in_ptr in_len out d mem (c + 1) x =
      if out + d * c ≤ x ∧ x < out + d * c + d then
        digest_word (sha256 (message in_ptr in_len
          (mem_after sha256 in_ptr in_len out d mem c) c)) (x - (out + d * c))
      else mem_after sha256 in_ptr in_len out d mem c x := rfl

/-- Nothing changes outside the blocks that were written. -/
theorem mem_after_of_not_mem {c x : ℕ} (hx : ¬ (out ≤ x ∧ x < out + d * c)) :
    mem_after sha256 in_ptr in_len out d mem c x = mem x := by
  induction c with
  | zero => rfl
  | succ c ih =>
      have hc : d * (c + 1) = d * c + d := Nat.mul_succ d c
      rw [mem_after_succ, if_neg (by omega)]
      exact ih (by omega)

/-- A word that was written is the word of its block, and stays that. -/
theorem mem_after_of_lt {c i : ℕ} (hi : i < d * c) :
    mem_after sha256 in_ptr in_len out d mem c (out + i) =
      digest_word (sha256 (message in_ptr in_len
        (mem_after sha256 in_ptr in_len out d mem (i / d)) (i / d))) (i % d) := by
  induction c with
  | zero => exact absurd hi (by omega)
  | succ c ih =>
      have hc : d * (c + 1) = d * c + d := Nat.mul_succ d c
      rw [mem_after_succ]
      by_cases hlast : d * c ≤ i
      · -- the block that was written last
        have hdiv : i / d = c := Nat.div_eq_of_lt_le (by rwa [Nat.mul_comm] at hlast)
          (by rw [Nat.mul_comm]; exact hi)
        have hmod : i % d = i - d * c := by
          rw [← hdiv, Nat.mod_def]
        rw [if_pos (by omega), hdiv, hmod, Nat.add_sub_add_left]
      · rw [if_neg (by omega)]
        exact ih (by omega)

end run

/-- The words of a block. -/
def blockWords (out_len : u32) : ℕ := if out_len ≤ 8 then out_len.toNat else kHmacDigestNumWords

/-- The number of blocks that the loop writes. -/
def blocks (out_len : u32) : ℕ := (out_len.toNat + 7) / 8

theorem blockWords_le (out_len : u32) : blockWords out_len ≤ kHmacDigestNumWords := by
  unfold blockWords kHmacDigestNumWords
  split_ifs with h
  · exact h
  · exact Nat.le_refl 8

/-- The loop from the block `c` on writes the blocks that are left, with as many tests and
one more. -/
theorem mgf1_loop_run (sha256 : List u8 → Vector u8 32) (in_ptr in_len out : ℕ) {out_len : u32}
    (hlen : out_len.toNat ≤ 2 ^ 32 - 8) (mem : WordMem) (fuel c : ℕ) (hc : c ≤ blocks out_len)
    {h : Hmac} (hswap : h.digest_swap = true) :
    (mgf1_loop sha256 in_ptr in_len out_len fuel (BitVec.ofNat 32 c)
        (out + blockWords out_len * c) h
        (mem_after sha256 in_ptr in_len out (blockWords out_len) mem c)).map Prod.snd =
      if blocks out_len - c < fuel then
        some (mem_after sha256 in_ptr in_len out (blockWords out_len) mem (blocks out_len))
      else none := by
  have h8 : (8 : u32).toNat = 8 := rfl
  have htest : ∀ c ≤ blocks out_len, (BitVec.ofNat 32 c * 8 < out_len ↔ c < blocks out_len) := by
    intro c hc
    have hmul : (BitVec.ofNat 32 c * 8).toNat = c * 8 := by
      rw [BitVec.toNat_mul, BitVec.toNat_ofNat, h8]
      unfold blocks at hc
      omega
    rw [BitVec.lt_def, hmul]
    unfold blocks
    omega
  induction fuel generalizing c h with
  | zero =>
      rw [if_neg (Nat.not_lt_zero _)]
      rfl
  | succ fuel ih =>
      unfold mgf1_loop
      by_cases hlt : c < blocks out_len
      · rw [if_pos ((htest c hc).mpr hlt)]
        let now := mem_after sha256 in_ptr in_len out (blockWords out_len) mem c
        let hash := hash_block sha256 h in_ptr in_len (BitVec.ofNat 32 c) now
        have hswap' : hash.digest_swap = true := hswap
        have hmem : hmac_sha256_final_truncated hash (out + blockWords out_len * c)
            (blockWords out_len) now =
            mem_after sha256 in_ptr in_len out (blockWords out_len) mem (c + 1) := by
          funext x
          rw [final_truncated_apply hswap' (blockWords_le out_len), hash_block_digest,
            mem_after_succ]
        have hctr : BitVec.ofNat 32 c + 1 = BitVec.ofNat 32 (c + 1) := (BitVec.ofNat_add c 1).symm
        have hout : out + blockWords out_len * c + blockWords out_len =
            out + blockWords out_len * (c + 1) := by
          rw [Nat.mul_succ, Nat.add_assoc]
        have hnext := ih (c + 1) hlt hswap'
        rw [← hctr, ← hout, ← hmem] at hnext
        refine hnext.trans ?_
        exact if_congr (by omega) rfl rfl
      · rw [if_neg (mt (htest c hc).mp hlt), if_pos (by omega), show c = blocks out_len by omega]
        rfl

/-- Beyond the last multiple of the block size the counter wraps before the loop ends. -/
theorem mgf1_loop_diverges (sha256 : List u8 → Vector u8 32) (in_ptr in_len : ℕ) {out_len : u32}
    (hlen : 2 ^ 32 - 8 < out_len.toNat) (fuel : ℕ) (ctr : u32) (out : ℕ) (h : Hmac)
    (mem : WordMem) : mgf1_loop sha256 in_ptr in_len out_len fuel ctr out h mem = none := by
  induction fuel generalizing ctr out h mem with
  | zero => rfl
  | succ fuel ih =>
      have h8 : (8 : u32).toNat = 8 := rfl
      have htest : ctr * 8 < out_len := by
        rw [BitVec.lt_def, BitVec.toNat_mul, h8]
        omega
      unfold mgf1_loop
      rw [if_pos htest]
      exact ih _ _ _ _

/-- The call writes the mask exactly when the memory after all blocks holds it. -/
theorem writesMask_iff (sha256 : List u8 → Vector u8 32) (in_ptr in_len out : ℕ) {out_len : u32}
    (hlen : out_len.toNat ≤ 2 ^ 32 - 8) {h : Hmac} (hswap : h.digest_swap = true)
    (mem : WordMem) :
    WritesMask sha256 in_ptr in_len out_len out h mem ↔
      MaskWritten sha256 in_ptr in_len out_len out mem
        (mem_after sha256 in_ptr in_len out (blockWords out_len) mem (blocks out_len)) := by
  let mem' := mem_after sha256 in_ptr in_len out (blockWords out_len) mem (blocks out_len)
  have hrun := fun fuel => mgf1_loop_run sha256 in_ptr in_len out hlen mem fuel 0 (Nat.zero_le _)
    hswap
  constructor
  · rintro ⟨fuel, h', final, hsome, hmask⟩
    have hfinal : some final = if blocks out_len - 0 < fuel then some mem' else none := by
      rw [← hrun fuel]
      exact (congrArg (Option.map Prod.snd) hsome).symm
    split_ifs at hfinal
    rw [Option.some.inj hfinal] at hmask
    exact hmask
  · intro hmask
    have hdone := hrun (blocks out_len + 1)
    rw [if_pos (by omega), Option.map_eq_some_iff] at hdone
    obtain ⟨⟨h', final⟩, hsome, hfinal⟩ := hdone
    exact ⟨_, h', final, hsome, by rwa [show final = mem' from hfinal]⟩

/-! ## When the mask is written -/

/-- The lengths and positions for which the blocks are the mask: a block at most, or whole
blocks of which only the last may lie over the input. -/
def WholeBlocks (in_ptr in_len : ℕ) (out_len : u32) (out : ℕ) : Prop :=
  out_len.toNat ≤ 8 ∨ 8 ∣ out_len.toNat ∧
    ∀ a, in_ptr ≤ a → a < in_ptr + in_len → ¬ (out ≤ a ∧ a < out + (out_len.toNat - 8))

theorem readWords_congr {mem mem' : WordMem} {in_ptr in_len : ℕ}
    (h : ∀ a, in_ptr ≤ a → a < in_ptr + in_len → mem' a = mem a) :
    readWords mem' in_ptr in_len = readWords mem in_ptr in_len := by
  apply List.map_congr_left
  intro i hi
  have hlt : i < in_len := List.mem_range.mp hi
  exact h _ (by omega) (by omega)

section cases

variable (sha256 : List u8 → Vector u8 32) {in_ptr in_len out : ℕ} {out_len : u32}

/-- One block at most is cut to the requested length. -/
theorem maskWritten_of_le (hshort : out_len.toNat ≤ 8) (mem : WordMem) :
    MaskWritten sha256 in_ptr in_len out_len out mem
      (mem_after sha256 in_ptr in_len out (blockWords out_len) mem (blocks out_len)) := by
  have hwords : blockWords out_len = out_len.toNat := if_pos hshort
  have htotal : blockWords out_len * blocks out_len = out_len.toNat := by
    rw [hwords]
    by_cases hzero : out_len.toNat = 0
    · rw [hzero, Nat.zero_mul]
    · have hone : blocks out_len = 1 := by
        unfold blocks
        omega
      rw [hone, Nat.mul_one]
  constructor
  · intro i hi
    have hdiv : i / out_len.toNat = 0 ∧ i / 8 = 0 := ⟨Nat.div_eq_of_lt hi, by omega⟩
    have hmod : i % out_len.toNat = i ∧ i % 8 = i := ⟨Nat.mod_eq_of_lt hi, by omega⟩
    rw [mem_after_of_lt sha256 in_ptr in_len out _ mem (by rw [htotal]; exact hi), hwords,
      hdiv.1, hmod.1, mask_word, hdiv.2, hmod.2]
    rfl
  · intro a ha
    exact mem_after_of_not_mem sha256 in_ptr in_len out _ mem (by rw [htotal]; exact ha)

/-- Whole blocks that leave the input alone until it was read for the last time. -/
theorem maskWritten_of_dvd (hlong : 8 < out_len.toNat) (hdvd : 8 ∣ out_len.toNat)
    (hclear : ∀ a, in_ptr ≤ a → a < in_ptr + in_len →
      ¬ (out ≤ a ∧ a < out + (out_len.toNat - 8))) (mem : WordMem) :
    MaskWritten sha256 in_ptr in_len out_len out mem
      (mem_after sha256 in_ptr in_len out (blockWords out_len) mem (blocks out_len)) := by
  have hwords : blockWords out_len = 8 := if_neg (Nat.not_le.mpr hlong)
  have htotal : 8 * blocks out_len = out_len.toNat := by
    unfold blocks
    omega
  rw [hwords]
  constructor
  · intro i hi
    have hinput : readWords (mem_after sha256 in_ptr in_len out 8 mem (i / 8)) in_ptr in_len =
        readWords mem in_ptr in_len := by
      apply readWords_congr
      intro a hlo hhi
      have hout := hclear a hlo hhi
      exact mem_after_of_not_mem sha256 in_ptr in_len out 8 mem (by omega)
    rw [mem_after_of_lt sha256 in_ptr in_len out 8 mem (by rw [htotal]; exact hi), message, hinput]
    rfl
  · intro a ha
    exact mem_after_of_not_mem sha256 in_ptr in_len out 8 mem (by rw [htotal]; exact ha)

end cases

/-- A digest of all ones shows wherever it is written over zeros. -/
def ones : Vector u8 32 := Vector.replicate 32 0xff

theorem digest_word_ones {i : ℕ} (hi : i < 8) : digest_word ones i = 0xffffffff := by
  interval_cases i <;> decide

theorem digest_word_zeros {i : ℕ} (hi : i < 8) :
    digest_word (Vector.replicate 32 0) i = 0 := by
  interval_cases i <;> decide

section cases

variable {in_ptr in_len out : ℕ} {out_len : u32} {h : Hmac}

/-- A length above one block that is not a whole number of blocks: the last block writes
the word behind the mask. -/
theorem overrun (hlong : 8 < out_len.toNat) (hndvd : ¬ 8 ∣ out_len.toNat)
    (hswap : h.digest_swap = true) :
    ¬ WritesMask (fun _ => ones) in_ptr in_len out_len out h fun _ => 0 := by
  by_cases hlen : out_len.toNat ≤ 2 ^ 32 - 8
  · rw [writesMask_iff _ in_ptr in_len out hlen hswap]
    rintro ⟨-, hframe⟩
    have hwords : blockWords out_len = 8 := if_neg (Nat.not_le.mpr hlong)
    have hbehind : out_len.toNat < 8 * blocks out_len := by
      unfold blocks
      omega
    have hkept := hframe (out + out_len.toNat) (by omega)
    rw [hwords, mem_after_of_lt _ in_ptr in_len out 8 _ hbehind,
      digest_word_ones (Nat.mod_lt _ (by decide))] at hkept
    exact absurd (show (0xffffffff : u32) = 0 from hkept) (by decide)
  · rintro ⟨fuel, h', mem', hsome, -⟩
    have hnone := mgf1_loop_diverges (fun _ => ones) in_ptr in_len (Nat.not_le.mp hlen) fuel 0 out
      h fun _ => 0
    exact absurd (hnone.symm.trans hsome) nofun

/-- A hash that tells whether its input starts with as many zero words as there are in the
input buffer. -/
def zeros_hash (in_len : ℕ) (m : List u8) : Vector u8 32 :=
  if m.take (4 * in_len) = List.replicate (4 * in_len) 0 then ones else Vector.replicate 32 0

theorem word_bytes_eq_zero_iff (ws : List u32) :
    word_bytes ws = List.replicate (4 * ws.length) 0 ↔ ∀ w ∈ ws, w = 0 := by
  constructor
  · intro hbytes w hw
    have hbyte : ∀ i < 4, byteOf w i = 0 := by
      intro i hi
      have hmem : byteOf w i ∈ word_bytes ws := by
        refine List.mem_flatMap.mpr ⟨w, hw, ?_⟩
        interval_cases i <;> simp [le32]
      rw [hbytes] at hmem
      exact (List.mem_replicate.mp hmem).2
    rw [← word_byteOf w, hbyte 0 (by omega), hbyte 1 (by omega), hbyte 2 (by omega),
      hbyte 3 (by omega)]
    decide
  · intro hzero
    refine List.eq_replicate_iff.mpr ⟨length_flatMap_le32 ws, fun b hb => ?_⟩
    obtain ⟨w, hw, hb⟩ := List.mem_flatMap.mp hb
    rw [hzero w hw] at hb
    have hle : le32 (0 : u32) = List.replicate 4 0 := by decide
    rw [hle] at hb
    exact List.eq_of_mem_replicate hb

theorem zeros_hash_message (mem : WordMem) (c : ℕ) :
    zeros_hash in_len (message in_ptr in_len mem c) =
      if ∀ w ∈ readWords mem in_ptr in_len, w = 0 then ones else Vector.replicate 32 0 := by
  have hlen : (readWords mem in_ptr in_len).length = in_len := by simp [readWords]
  have htake : (message in_ptr in_len mem c).take (4 * in_len) =
      word_bytes (readWords mem in_ptr in_len) := by
    have hbytes : (word_bytes (readWords mem in_ptr in_len)).length = 4 * in_len := by
      rw [word_bytes, length_flatMap_le32, hlen]
    rw [message, ← hbytes, List.take_left]
  have hiff := word_bytes_eq_zero_iff (readWords mem in_ptr in_len)
  rw [hlen] at hiff
  unfold zeros_hash
  rw [htake]
  exact if_congr hiff rfl rfl

/-- An input under a block that is not the last: the next block is hashed from what that
block wrote. -/
theorem overlap_reads_output (hlong : 8 < out_len.toNat) (hdvd : 8 ∣ out_len.toNat)
    (hswap : h.digest_swap = true) {a : ℕ} (hlo : in_ptr ≤ a) (hhi : a < in_ptr + in_len)
    (hout : out ≤ a ∧ a < out + (out_len.toNat - 8)) :
    ¬ WritesMask (zeros_hash in_len) in_ptr in_len out_len out h fun _ => 0 := by
  rw [writesMask_iff _ in_ptr in_len out (by omega) hswap]
  rintro ⟨hmask, -⟩
  have hwords : blockWords out_len = 8 := if_neg (Nat.not_le.mpr hlong)
  have htotal : 8 * blocks out_len = out_len.toNat := by
    unfold blocks
    omega
  rw [hwords] at hmask
  let mem_at := mem_after (zeros_hash in_len) in_ptr in_len out 8 fun _ => 0
  have hblock : ∀ c i, i < 8 * c → mem_at c (out + i) = digest_word
      (zeros_hash in_len (message in_ptr in_len (mem_at (i / 8)) (i / 8))) (i % 8) :=
    fun c i hi => mem_after_of_lt _ in_ptr in_len out 8 _ hi
  -- every word of the mask is that of the zero input
  have hones : ∀ i < out_len.toNat, mem_at (blocks out_len) (out + i) = 0xffffffff := by
    intro i hi
    have hzeros : ∀ w ∈ readWords (fun _ => (0 : u32)) in_ptr in_len, w = 0 := by
      simp [readWords]
    have hword := hmask i hi
    rw [mask_word] at hword
    refine hword.trans ?_
    have hhash := @zeros_hash_message in_ptr in_len (fun _ => 0) (i / 8)
    rw [if_pos hzeros, message] at hhash
    rw [hhash]
    exact digest_word_ones (Nat.mod_lt _ (by decide))
  let i := a - out
  let b := i / 8 + 1
  have hb : 8 * b < out_len.toNat := by omega
  -- the block over the input wrote ones there, and the next one is hashed from them
  have hnext := hones (8 * b) hb
  have hover := hones i (by omega)
  have hsame : mem_at b (out + i) = mem_at (blocks out_len) (out + i) := by
    rw [hblock b i (by omega), hblock (blocks out_len) i (by omega)]
  have hword : mem_at b a = 0xffffffff := by
    rw [show a = out + i by omega, hsame, hover]
  have hnonzero : ¬ ∀ w ∈ readWords (mem_at b) in_ptr in_len, w = 0 := by
    intro hall
    have hmem : mem_at b a ∈ readWords (mem_at b) in_ptr in_len := by
      refine List.mem_map.mpr ⟨a - in_ptr, List.mem_range.mpr (by omega), ?_⟩
      rw [show in_ptr + (a - in_ptr) = a by omega]
    exact absurd (hword.symm.trans (hall _ hmem)) (by decide)
  have hzero : mem_at (blocks out_len) (out + 8 * b) = 0 := by
    have hdiv : 8 * b / 8 = b := Nat.mul_div_cancel_left b (by decide)
    rw [hblock (blocks out_len) (8 * b) (by omega), hdiv, zeros_hash_message, if_neg hnonzero]
    exact digest_word_zeros (Nat.mod_lt _ (by decide))
  exact absurd (hzero.symm.trans hnext) (by decide)

end cases

/-- The function is the mask generation function exactly for the lengths and positions
that need no cut in a later block and overwrite no input that is still to be read. -/
theorem mgf1_sha256_exact (in_ptr in_len : ℕ) (out_len : u32) (out : ℕ) :
    (∀ (sha256 : List u8 → Vector u8 32) (h : Hmac) (mem : WordMem),
        WritesMask sha256 in_ptr in_len out_len out (hmac_sha256_configure true h) mem) ↔
      WholeBlocks in_ptr in_len out_len out := by
  constructor
  · intro hall
    by_cases hshort : out_len.toNat ≤ 8
    · exact .inl hshort
    · have hlong := Nat.not_le.mp hshort
      let h : Hmac := ⟨true, [], ones⟩
      have hdvd : 8 ∣ out_len.toNat := by
        by_contra hndvd
        exact overrun hlong hndvd rfl (hall (fun _ => ones) h fun _ => 0)
      refine .inr ⟨hdvd, fun a hlo hhi hout => ?_⟩
      exact overlap_reads_output hlong hdvd rfl hlo hhi hout (hall (zeros_hash in_len) h fun _ => 0)
  · intro hwhole sha256 h mem
    by_cases hshort : out_len.toNat ≤ 8
    · exact (writesMask_iff sha256 in_ptr in_len out (by omega) rfl mem).mpr
        (maskWritten_of_le sha256 hshort mem)
    · obtain ⟨hdvd, hclear⟩ := hwhole.resolve_left hshort
      exact (writesMask_iff sha256 in_ptr in_len out (by omega) rfl mem).mpr
        (maskWritten_of_dvd sha256 (Nat.not_le.mp hshort) hdvd hclear mem)

/-- Nine words of mask of an input that lies apart: the call writes sixteen. -/
theorem mgf1_nine_words :
    ¬ ∀ (sha256 : List u8 → Vector u8 32) (h : Hmac) (mem : WordMem),
      WritesMask sha256 0 16 9 16 (hmac_sha256_configure true h) mem := by
  intro hall
  exact overrun (by decide) (by decide) rfl (hall (fun _ => ones) ⟨true, [], ones⟩ fun _ => 0)

end IbexFirmware.Mgf1
