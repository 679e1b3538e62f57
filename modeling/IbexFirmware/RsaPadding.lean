/-
What the RSA paddings share (`rsa_padding.c`): the hash, the mask generation function and the
reversal of the byte order.

The paddings are built in local arrays whose size is rounded up to whole words, and copied from
there byte by byte. Every access is noted, so that one specification of a function says both
what it computes and which places it touches: `mgf1_yields`, `reverse_bytes_spec`. The hash is an
arbitrary function of its mode and message.

The lengths are those of arrays in a 32-bit address space and are natural numbers here. The
loops with a random order and the comparisons of `hardened_memory.c` are in `RandomOrder`; of
the reversal, which has a loop of its own, the random order is here.
-/
import IbexFirmware.CryptoKey
import IbexFirmware.Lib.Arrays
import IbexFirmware.Lib.Pkcs1
import IbexFirmware.Memory
import IbexFirmware.RandomOrder

set_option autoImplicit false

namespace IbexFirmware.RsaPadding

open Bytes PowerFail Crypto HardenedMemory Arrays
open Traversal (random_order_init random_order_check_done order_pass order_pass_eq visits
  visits_perm)

/-! ## The device -/

/-- The arrays whose places are noted. -/
inductive Local where
  | encoded_message
  | expected_encoded_message
  | hash_input
  | digest
  | m_prime
  | h
  | exp_h
  | db
  | mask
  | exp_padding
  | salt
  | lhash
  | seed
  | seed_mask
  | db_mask
  | message
  deriving DecidableEq

/-- The random words of the core and those that the CSRNG generates. -/
structure Sources where
  rnd : EntropySource
  csrng : EntropySource

abbrev Device := Noted Local Sources

abbrev Prog := Proc Device CryptoError

/-- A local array of `n` bytes, with what the stack has there. -/
def alloc (stack : Local → Mem) (array : Local) (n : ℕ) : Buffer Local := ⟨array, n, stack array⟩

/-- `sizeof` of an array of words that is made for `n` bytes. -/
def word_sizeof (n : ℕ) : ℕ := 4 * ((n + 3) / 4)

def hardened_check (c : Prop) [Decidable c] : Prog Unit := if c then pure () else Proc.trap

/-- `memcpy` and its likes: `n` bytes from one array to another. -/
def copy (dst : Buffer Local) (dst_start : ℕ) (src : Buffer Local) (src_start n : ℕ) :
    Prog (Buffer Local) := do
  let bytes ← src.read src_start n
  dst.write dst_start bytes

/-- The check behind a copy. -/
def check_copied (dst : Buffer Local) (dst_start : ℕ) (src : Buffer Local) (src_start n : ℕ) :
    Prog Unit := do
  let lhs ← src.read src_start n
  let rhs ← dst.read dst_start n
  hardened_check (hardened_memeq lhs rhs = kHardenedBoolTrue)

/-- `hardened_xor_in_place` of two arrays, over `n` bytes. -/
def xor_in_place (x y : Buffer Local) (n : ℕ) : Prog (Buffer Local) := do
  let xs ← x.read 0 n
  let ys ← y.read 0 n
  x.write 0 (Pkcs1.xor_bytes xs ys)

/-! ## Hashing -/

/-- `otcrypto_hash_mode_t`. -/
inductive HashMode where
  | kOtcryptoHashModeSha256
  | kOtcryptoHashModeSha384
  | kOtcryptoHashModeSha512
  | kOtcryptoHashModeSha3_224
  | kOtcryptoHashModeSha3_256
  | kOtcryptoHashModeSha3_384
  | kOtcryptoHashModeSha3_512
  | kOtcryptoHashXofModeShake128
  | kOtcryptoHashXofModeShake256
  | kOtcryptoHashXofModeCshake128
  | kOtcryptoHashXofModeCshake256
  deriving DecidableEq

def digest_wordlen_get : HashMode → Except CryptoError ℕ
  | .kOtcryptoHashModeSha3_224 => .ok (224 / 32)
  | .kOtcryptoHashModeSha256 => .ok (256 / 32)
  | .kOtcryptoHashModeSha3_256 => .ok (256 / 32)
  | .kOtcryptoHashModeSha384 => .ok (384 / 32)
  | .kOtcryptoHashModeSha3_384 => .ok (384 / 32)
  | .kOtcryptoHashModeSha512 => .ok (512 / 32)
  | .kOtcryptoHashModeSha3_512 => .ok (512 / 32)
  | _ => .error .OTCRYPTO_BAD_ARGS

/-- The mode has digests of a fixed length, of `words` words. -/
def HashMode.Fixed (mode : HashMode) (words : ℕ) : Prop := digest_wordlen_get mode = .ok words

instance (mode : HashMode) (words : ℕ) : Decidable (mode.Fixed words) :=
  inferInstanceAs (Decidable (_ = _))

theorem HashMode.Fixed.pos {mode : HashMode} {words : ℕ} (h : mode.Fixed words) : 0 < words := by
  cases mode <;> cases h <;> decide

theorem HashMode.Fixed.le {mode : HashMode} {words : ℕ} (h : mode.Fixed words) : words ≤ 16 := by
  cases mode <;> cases h <;> decide

/-- `kRsa2048NumWords` and its likes. -/
def ModulusWords (n : ℕ) : Prop := n = 2048 / 32 ∨ n = 3072 / 32 ∨ n = 4096 / 32

instance (n : ℕ) : Decidable (ModulusWords n) := inferInstanceAs (Decidable (_ ∨ _))

theorem ModulusWords.bounds {n : ℕ} (h : ModulusWords n) : 64 ≤ n ∧ n ≤ 128 := by
  unfold ModulusWords at h
  omega

/-- What the hash drivers compute. -/
structure HashFunction where
  digest : HashMode → List u8 → List u8
  length_digest : ∀ mode words message, mode.Fixed words → (digest mode message).length = 4 * words

/-- The hash of a mode. -/
def HashFunction.hash (H : HashFunction) {mode : HashMode} {words : ℕ} (h : mode.Fixed words) :
    Pkcs1.Hash :=
  ⟨H.digest mode, 4 * words, fun m => H.length_digest mode words m h, by have := h.pos; omega⟩

def hash (H : HashFunction) (hash_mode : HashMode) (message : List u8) : Prog (List u8) :=
  match hash_mode with
  | .kOtcryptoHashModeSha256
  | .kOtcryptoHashModeSha384
  | .kOtcryptoHashModeSha512
  | .kOtcryptoHashModeSha3_224
  | .kOtcryptoHashModeSha3_256
  | .kOtcryptoHashModeSha3_384
  | .kOtcryptoHashModeSha3_512 =>
      Proc.step .OTCRYPTO_FATAL_ERR fun s => (H.digest hash_mode message, s)
  | _ => Proc.throw .OTCRYPTO_BAD_ARGS

/-- The loop of `mgf1`, with the next counter, the bytes still to come, and the place in the mask
for them. Each turn makes the remaining length smaller, and `fuel` is more than it. -/
def mgf1_loop (H : HashFunction) (stack : Local → Mem) (hash_mode : HashMode)
    (seed_len digest_bytelen : ℕ) :
    ℕ → ℕ → ℕ → ℕ → Buffer Local → Buffer Local → Prog (Buffer Local)
  | 0, _, _, _, _, _ => Proc.trap
  | fuel + 1, i, mask_len, mask_start, hash_input, mask =>
      if mask_len = 0 then pure mask
      else do
        let ctr := Memory.bswap32 (BitVec.ofNat 32 i)
        let hash_input ← hash_input.write seed_len (le32 ctr)
        let message ← hash_input.read 0 hash_input.len
        let bytes ← hash H hash_mode message
        if mask_len < digest_bytelen then do
          let digest ← (alloc stack .digest digest_bytelen).write 0 bytes
          let mask ← copy mask mask_start digest 0 (word_sizeof mask_len)
          mgf1_loop H stack hash_mode seed_len digest_bytelen fuel (i + 1) 0
            (mask_start + digest_bytelen) hash_input mask
        else do
          let mask ← mask.write mask_start bytes
          mgf1_loop H stack hash_mode seed_len digest_bytelen fuel (i + 1)
            (mask_len - digest_bytelen) (mask_start + digest_bytelen) hash_input mask

def mgf1 (H : HashFunction) (stack : Local → Mem) (hash_mode : HashMode) (seed : List u8)
    (mask_len : ℕ) (mask : Buffer Local) : Prog (Buffer Local) := do
  let digest_wordlen ← Proc.ofExcept (digest_wordlen_get hash_mode)
  let digest_bytelen := digest_wordlen * 4
  let hash_input ← (alloc stack .hash_input (seed.length + 4)).write 0 seed
  mgf1_loop H stack hash_mode seed.length digest_bytelen (mask_len + 1) 0 mask_len 0 hash_input mask

/-! ## The byte order -/

/-- One turn of the loop of `reverse_bytes`. A word that is swapped has its bytes in reverse. -/
def reverse_swap (input_len rnd_idx : u32) :
    Buffer Local × List (Touch Local) → Buffer Local × List (Touch Local)
  | (input, touched) =>
      let i := 4 * rnd_idx.toNat
      let j := 4 * (input_len - 1 - rnd_idx).toNat
      let tmp := input.part j 4
      let swapped := (input.put j (input.part i 4).reverse).put i tmp.reverse
      (swapped, touched ++ input.places false j 4 ++ input.places false i 4 ++
        input.places true j 4 ++ input.places true i 4)

def reverse_bytes (input_len : u32) (input : Buffer Local) : Prog (Buffer Local) := do
  let num_idx := (input_len + 1) / 2
  let s ← Proc.get
  let (order, rnd) := random_order_init num_idx s.rest.rnd
  Proc.modify fun s => { s with rest := { s.rest with rnd := rnd } }
  let result := do
    let (i, order, r) ← order_pass num_idx (reverse_swap input_len) order (input, [])
    random_order_check_done order
    IbexFirmware.hardened_check (i = num_idx)
    pure r
  match result with
  | none => Proc.trap
  | some (input, touched) => do
      note touched
      pure input

/-! ## What the parts yield -/

section parts

variable {P : Touch Local → Prop} (hP : ∀ x, x.Inside → P x) {s : Device}

/-- A check of what has been copied. -/
theorem yields_hardened_check {c : Prop} [Decidable c] (h : c) :
    Yields P (hardened_check c) s () := by
  unfold hardened_check
  rw [if_pos h]
  exact Yields.pure

theorem hardened_memeq_self (bytes : List u8) : hardened_memeq bytes bytes = kHardenedBoolTrue := by
  rw [hardened_memeq_eq bytes bytes rfl, if_pos rfl]

section buffers

variable {a b : Buffer Local} {start from_ n : ℕ} {bytes : List u8}

include hP

theorem yields_read (h : start + n ≤ a.len) : Yields P (a.read start n : Prog _) s (a.part start n) :=
  Buffer.yields_read fun x hx => hP x (Buffer.places_inside false h x hx)

theorem yields_write (h : start + bytes.length ≤ a.len) :
    Yields P (a.write start bytes : Prog _) s (a.put start bytes) :=
  Buffer.yields_write fun x hx => hP x (Buffer.places_inside true h x hx)

/-- A write that is left out when there is nothing to write. -/
theorem yields_write_nonempty (h : start + bytes.length ≤ a.len) :
    Yields P (if bytes.length > 0 then a.write start bytes else pure a : Prog _) s
      (a.put start bytes) := by
  by_cases hne : bytes.length > 0
  · rw [if_pos hne]
    exact yields_write hP h
  · rw [if_neg hne, List.eq_nil_of_length_eq_zero (Nat.eq_zero_of_not_pos hne), Buffer.put_nil]
    exact Yields.pure

theorem yields_copy (ha : start + n ≤ a.len) (hb : from_ + n ≤ b.len) :
    Yields P (copy a start b from_ n) s (a.put start (b.part from_ n)) :=
  Yields.seq (yields_read hP hb) fun _ _ =>
    yields_write hP (by rw [Buffer.length_part]; exact ha)

theorem yields_check_copied (ha : start + n ≤ a.len) (hb : from_ + n ≤ b.len)
    (heq : a.part start n = b.part from_ n) : Yields P (check_copied a start b from_ n) s () := by
  refine Yields.seq (yields_read hP hb) fun t _ => ?_
  refine Yields.seq (yields_read hP ha) fun t _ => ?_
  rw [heq]
  exact yields_hardened_check (hardened_memeq_self _)

theorem yields_xor_in_place (ha : n ≤ a.len) (hb : n ≤ b.len) :
    Yields P (xor_in_place a b n) s (a.put 0 (Pkcs1.xor_bytes (a.part 0 n) (b.part 0 n))) := by
  refine Yields.seq (yields_read hP (by omega)) fun t _ => ?_
  refine Yields.seq (yields_read hP (by omega)) fun t _ => ?_
  exact yields_write hP (by simpa using ha)

end buffers

/-! ### The mask -/

variable (H : HashFunction) (stack : Local → Mem) {mode : HashMode} {words : ℕ}

theorem yields_hash (hm : mode.Fixed words) (message : List u8) :
    Yields P (hash H mode message) s (H.digest mode message) := by
  unfold hash
  cases mode <;> first | exact Yields.step | cases hm

/-- The counter in front of the bytes swapped is the counter of the RFC. -/
theorem le32_counter (n : ℕ) :
    le32 (Memory.bswap32 (BitVec.ofNat 32 n)) = Pkcs1.i2osp4 n := by
  have hbyte (k : ℕ) (hk : k < 4) :
      byteOf (Memory.bswap32 (BitVec.ofNat 32 n)) k = BitVec.ofNat 8 (n / 2 ^ (8 * (3 - k))) := by
    rw [Memory.byteOf_bswap32 _ hk, byteOf]
    apply BitVec.eq_of_toNat_eq
    rw [BitVec.extractLsb'_toNat, BitVec.toNat_ofNat, BitVec.toNat_ofNat, Nat.shiftRight_eq_div_pow]
    interval_cases k <;> omega
  simp only [le32, hbyte 0 (by decide), hbyte 1 (by decide), hbyte 2 (by decide),
    hbyte 3 (by decide)]
  simp [Pkcs1.i2osp4]

/-- What `mgf1` writes for `len` bytes of a mask, from counter `i` on: whole words. -/
def mask_written (hash : Pkcs1.Hash) (seed : List u8) (i len : ℕ) : List u8 :=
  (Pkcs1.mgf1_blocks hash seed i ((len + hash.len - 1) / hash.len)).take (word_sizeof len)

section mask

variable {hash : Pkcs1.Hash} (seed : List u8) (i : ℕ)

theorem mask_written_zero : mask_written hash seed i 0 = [] := by simp [mask_written, word_sizeof]

/-- The last turn uses the front of a digest. -/
theorem mask_written_last {len : ℕ} (hpos : 0 < len) (hlt : len < hash.len) :
    mask_written hash seed i len =
      (hash.digest (seed ++ Pkcs1.i2osp4 i)).take (word_sizeof len) := by
  have hone : (len + hash.len - 1) / hash.len = 1 := by
    rw [Nat.div_eq_iff (by omega)]
    omega
  rw [mask_written, hone]
  simp [Pkcs1.mgf1_blocks]

/-- Every other turn uses a whole digest. -/
theorem mask_written_turn {len words : ℕ} (hwords : hash.len = 4 * words) (hle : hash.len ≤ len) :
    mask_written hash seed i len =
      hash.digest (seed ++ Pkcs1.i2osp4 i) ++ mask_written hash seed (i + 1) (len - hash.len) := by
  have hblocks : (len + hash.len - 1) / hash.len =
      (len - hash.len + hash.len - 1) / hash.len + 1 := by
    rw [← Nat.add_div_right _ hash.len_pos]
    congr 1
    omega
  have hsize : word_sizeof len = hash.len + word_sizeof (len - hash.len) := by
    unfold word_sizeof
    omega
  have hdigest := hash.length_digest (seed ++ Pkcs1.i2osp4 i)
  have hfirst : Pkcs1.mgf1_blocks hash seed i ((len - hash.len + hash.len - 1) / hash.len + 1) =
      hash.digest (seed ++ Pkcs1.i2osp4 i) ++
        Pkcs1.mgf1_blocks hash seed (i + 1) ((len - hash.len + hash.len - 1) / hash.len) := by
    simp only [Pkcs1.mgf1_blocks, List.range'_succ, List.flatMap_cons]
  rw [mask_written, hblocks, hsize, hfirst, ← hdigest, List.take_length_add_append, hdigest]
  rfl

theorem length_mask_written {len words : ℕ} (hwords : hash.len = 4 * words) :
    (mask_written hash seed i len).length = word_sizeof len := by
  have henough := Nat.div_add_mod (len + hash.len - 1) hash.len
  have hrest := Nat.mod_lt (len + hash.len - 1) hash.len_pos
  have hcover : word_sizeof len ≤ hash.len * ((len + hash.len - 1) / hash.len) := by
    generalize (len + hash.len - 1) / hash.len = q at henough ⊢
    have hmul : hash.len * q = 4 * (words * q) := by rw [hwords, Nat.mul_assoc]
    unfold word_sizeof
    omega
  rw [mask_written, List.length_take, Pkcs1.length_mgf1_blocks, Nat.min_eq_left hcover]

/-- The mask is the front of what is written. -/
theorem take_mask_written (len : ℕ) :
    (mask_written hash seed 0 len).take len = Pkcs1.mgf1 hash seed len := by
  have hle : len ≤ word_sizeof len := by
    unfold word_sizeof
    omega
  rw [mask_written, List.take_take, Nat.min_eq_left hle, Pkcs1.mgf1]

end mask

include hP

/-- The induction is on the fuel: each round hashes the seed and a counter behind it. -/
theorem mgf1_loop_yields (hm : mode.Fixed words) (seed : List u8) {fuel mask_len : ℕ}
    (hfuel : mask_len < fuel) (i start : ℕ) {hash_input mask : Buffer Local}
    (hlen : hash_input.len = seed.length + 4) (hseed : hash_input.part 0 seed.length = seed)
    (hmask : start + word_sizeof mask_len ≤ mask.len) :
    Yields P (mgf1_loop H stack mode seed.length (words * 4) fuel i mask_len start hash_input mask)
      s (mask.put start (mask_written (H.hash hm) seed i mask_len)) := by
  induction fuel generalizing mask_len i start hash_input mask s with
  | zero => omega
  | succ fuel ih =>
      rw [mgf1_loop]
      by_cases hzero : mask_len = 0
      · subst hzero
        rw [if_pos rfl, mask_written_zero, Buffer.put_nil]
        exact Yields.pure
      · rw [if_neg hzero]
        dsimp only
        rw [le32_counter]
        have hctr : (Pkcs1.i2osp4 i).length = 4 := rfl
        refine Yields.seq (yields_write hP (by rw [hctr, hlen])) fun t _ => ?_
        refine Yields.seq (yields_read hP (by simp)) fun t _ => ?_
        -- what is hashed is the seed with the counter behind it
        have hmessage : (hash_input.put seed.length (Pkcs1.i2osp4 i)).part 0
            (hash_input.put seed.length (Pkcs1.i2osp4 i)).len = seed ++ Pkcs1.i2osp4 i := by
          rw [Buffer.len_put, hlen, Buffer.part_add, Buffer.part_put_of_apart (by omega), hseed,
            Nat.zero_add, Buffer.part_put hctr]
        rw [hmessage]
        refine Yields.seq (yields_hash H hm _) fun t _ => ?_
        have hdigest : (H.digest mode (seed ++ Pkcs1.i2osp4 i)).length = words * 4 :=
          (H.length_digest mode words _ hm).trans (Nat.mul_comm 4 words)
        have hhash : (H.hash hm).len = words * 4 := Nat.mul_comm 4 words
        have hpos := hm.pos
        have hseed' : (hash_input.put seed.length (Pkcs1.i2osp4 i)).part 0 seed.length = seed := by
          rw [Buffer.part_put_of_apart (by omega), hseed]
        by_cases hlast : mask_len < words * 4
        · have hsize : word_sizeof mask_len ≤ words * 4 := by
            unfold word_sizeof
            omega
          have hfront : ((alloc stack .digest (words * 4)).put 0
              (H.digest mode (seed ++ Pkcs1.i2osp4 i))).part 0 (word_sizeof mask_len) =
                mask_written (H.hash hm) seed i mask_len := by
            rw [← Buffer.take_part hsize, Buffer.part_put hdigest,
              mask_written_last seed i (by omega) (by rw [hhash]; exact hlast)]
            rfl
          rw [if_pos hlast]
          refine Yields.seq (yields_write hP (by rw [hdigest]; simp [alloc])) fun t _ => ?_
          refine Yields.seq (yields_copy hP hmask (by simpa [alloc] using hsize)) fun t _ => ?_
          rw [hfront]
          -- nothing is left for the next turn
          obtain ⟨fuel, rfl⟩ := Nat.exists_eq_succ_of_ne_zero (show fuel ≠ 0 by omega)
          rw [mgf1_loop, if_pos rfl]
          exact Yields.pure
        · have hturn := mask_written_turn seed i (show (H.hash hm).len = 4 * words from rfl)
            (show (H.hash hm).len ≤ mask_len by omega)
          have hsize : word_sizeof mask_len = words * 4 + word_sizeof (mask_len - words * 4) := by
            unfold word_sizeof
            omega
          rw [if_neg hlast]
          refine Yields.seq (yields_write hP (by omega)) fun t _ => ?_
          have hrest := @ih t (mask_len - words * 4) (by omega) (i + 1) (start + words * 4)
            (hash_input.put seed.length (Pkcs1.i2osp4 i))
            (mask.put start (H.digest mode (seed ++ Pkcs1.i2osp4 i)))
            hlen hseed' (by rw [Buffer.len_put]; omega)
          rw [Buffer.put_append _ (by rw [hdigest])] at hrest
          rw [hturn, hhash]
          exact hrest

/-- The whole words that a mask of `mask_len` bytes is in are written and nothing else. -/
theorem mgf1_yields (hm : mode.Fixed words) (seed : List u8) {mask_len : ℕ} {mask : Buffer Local}
    (hmask : word_sizeof mask_len ≤ mask.len) :
    Yields P (mgf1 H stack mode seed mask_len mask) s
      (mask.put 0 (mask_written (H.hash hm) seed 0 mask_len)) := by
  refine Yields.seq (Yields.ofExcept hm) fun t _ => ?_
  refine Yields.seq (yields_write hP (by simp [alloc])) fun t _ => ?_
  exact mgf1_loop_yields hP H stack hm seed (Nat.lt_succ_self _) 0 0 rfl (Buffer.part_put rfl)
    (by omega)

end parts

/-! ## The reversal -/

section reversal

variable {n : ℕ} {input : Buffer Local}

/-- The array once the words with an index in `vs` and those opposite them have come from `src`,
which is read backwards. -/
def reversed_from (n : ℕ) (src : Mem) (a : Buffer Local) (vs : List ℕ) : Buffer Local :=
  { a with
    mem := fun x =>
      if x < 4 * n ∧ (x / 4 ∈ vs ∨ n - 1 - x / 4 ∈ vs) then src (4 * n - 1 - x) else a.mem x }

/-- The places that the turn of an index touches. -/
def swap_places (n : ℕ) (input : Buffer Local) (i : ℕ) : List (Touch Local) :=
  input.places false (4 * (n - 1 - i)) 4 ++ input.places false (4 * i) 4 ++
    input.places true (4 * (n - 1 - i)) 4 ++ input.places true (4 * i) 4

theorem writeBytes_reverse (m m' : Mem) (a b k x : ℕ) :
    writeBytes m a (readBytes m' b k).reverse x =
      if a ≤ x ∧ x < a + k then m' (b + (k - 1 - (x - a))) else m x := by
  have hlen : (readBytes m' b k).reverse.length = k := by simp
  unfold writeBytes
  rw [hlen]
  by_cases hin : a ≤ x ∧ x < a + k
  · rw [if_pos hin, if_pos hin, List.getD_eq_getElem _ _ (by omega), List.getElem_reverse,
      getElem_readBytes, length_readBytes]
  · rw [if_neg hin, if_neg hin]

/-- A turn brings two words more. -/
theorem reversed_from_turn {src : Mem} {a : Buffer Local} {vs : List ℕ} {i : ℕ} (hi : i < n) :
    ((reversed_from n src a vs).put (4 * (n - 1 - i)) (readBytes src (4 * i) 4).reverse).put (4 * i)
      (readBytes src (4 * (n - 1 - i)) 4).reverse = reversed_from n src a (vs ++ [i]) := by
  refine congrArg (Buffer.mk a.array a.len) (funext fun x => ?_)
  change writeBytes (writeBytes (reversed_from n src a vs).mem _ _) _ _ x = _
  rw [writeBytes_reverse, writeBytes_reverse]
  simp only [List.mem_append, List.mem_singleton]
  by_cases hlow : 4 * i ≤ x ∧ x < 4 * i + 4
  · have hword : x / 4 = i := by omega
    have hfrom : 4 * (n - 1 - i) + (4 - 1 - (x - 4 * i)) = 4 * n - 1 - x := by omega
    rw [if_pos hlow, if_pos ⟨by omega, .inl (.inr hword)⟩, hfrom]
  · rw [if_neg hlow]
    by_cases hhigh : 4 * (n - 1 - i) ≤ x ∧ x < 4 * (n - 1 - i) + 4
    · have hword : n - 1 - x / 4 = i := by omega
      have hfrom : 4 * i + (4 - 1 - (x - 4 * (n - 1 - i))) = 4 * n - 1 - x := by omega
      rw [if_pos hhigh, if_pos ⟨by omega, .inr (.inr hword)⟩, hfrom]
    · have hother : x < 4 * n → x / 4 ≠ i ∧ n - 1 - x / 4 ≠ i := by omega
      rw [if_neg hhigh]
      by_cases hx : x < 4 * n
      · simp only [reversed_from, hother hx, or_false]
      · simp only [reversed_from, hx, false_and]

/-- All words, or those opposite them, are all bytes. -/
theorem reversed_from_all {src : Mem} {a : Buffer Local} {vs : List ℕ}
    (hvs : ∀ w < n, w ∈ vs ∨ n - 1 - w ∈ vs) :
    reversed_from n src a vs = a.put 0 (readBytes src 0 (4 * n)).reverse := by
  refine congrArg (Buffer.mk a.array a.len) (funext fun x => ?_)
  rw [writeBytes_reverse]
  by_cases hx : x < 4 * n
  · rw [if_pos ⟨hx, hvs _ (by omega)⟩, if_pos (by omega)]
    congr 1
    omega
  · rw [if_neg (by omega), if_neg (by omega)]

/-- A word that has not been swapped is what it was. -/
theorem part_reversed_from {a : Buffer Local} {vs : List ℕ} {k : ℕ} (hk : k ∉ vs)
    (hopposite : n - 1 - k ∉ vs) :
    (reversed_from n a.mem a vs).part (4 * k) 4 = readBytes a.mem (4 * k) 4 := by
  refine (readBytes_eq_iff _ _ _ _ _).mpr fun i hi => if_neg fun hin => ?_
  have hword : (4 * k + i) / 4 = k := by omega
  rw [hword] at hin
  exact hin.2.elim hk hopposite

/-- One turn of the loop, with its notes. -/
theorem reverse_swap_eq {i : ℕ} (hn : n < 2 ^ 30) (hi : i < n) (a : Buffer Local)
    (touched : List (Touch Local)) :
    reverse_swap (BitVec.ofNat 32 n) (BitVec.ofNat 32 i) (a, touched) =
      ((a.put (4 * (n - 1 - i)) (a.part (4 * i) 4).reverse).put (4 * i)
        (a.part (4 * (n - 1 - i)) 4).reverse, touched ++ swap_places n a i) := by
  have hidx : (BitVec.ofNat 32 i).toNat = i := by
    rw [BitVec.toNat_ofNat]
    exact Nat.mod_eq_of_lt (by omega)
  have hj : (BitVec.ofNat 32 n - 1 - BitVec.ofNat 32 i).toNat = n - 1 - i := by
    rw [BitVec.toNat_sub, BitVec.toNat_sub, hidx, BitVec.toNat_ofNat, show (1 : u32).toNat = 1 from rfl]
    omega
  simp only [reverse_swap, hidx, hj, swap_places, List.append_assoc]

/-- The loop, in whatever order it visits the indices. -/
theorem foldl_reverse_swap (hn : n < 2 ^ 30) (vs : List ℕ) (hnodup : vs.Nodup)
    (hvs : ∀ v ∈ vs, v < (n + 1) / 2) :
    vs.foldl (fun r i => reverse_swap (BitVec.ofNat 32 n) (BitVec.ofNat 32 i) r) (input, []) =
      (reversed_from n input.mem input vs, vs.flatMap (swap_places n input)) := by
  induction vs using List.reverseRecOn with
  | nil =>
      simp only [List.foldl_nil, List.flatMap_nil, reversed_from, List.not_mem_nil, or_self, and_false,
        if_false]
  | append_singleton vs i ih =>
      obtain ⟨hnodup', -, hnew⟩ := List.nodup_append.mp hnodup
      have hlast := hvs i (by simp)
      have hfront : ∀ v ∈ vs, v < (n + 1) / 2 := fun v hv => hvs v (List.mem_append_left _ hv)
      have hni : i ∉ vs := fun hmem => hnew i hmem i (List.mem_singleton_self i) rfl
      have hopposite : n - 1 - i ∉ vs := fun hmem => by
        have hlt := hfront _ hmem
        have heq : n - 1 - i = i := by omega
        exact hni (heq ▸ hmem)
      have hback : n - 1 - (n - 1 - i) = i := by omega
      rw [List.foldl_append, ih hnodup' hfront, List.foldl_cons, List.foldl_nil,
        reverse_swap_eq hn (by omega), part_reversed_from hni hopposite,
        part_reversed_from hopposite (hback.symm ▸ hni), reversed_from_turn (by omega),
        List.flatMap_append, List.flatMap_singleton]
      rfl

variable {P : Touch Local → Prop} (hP : ∀ x, x.Inside → P x) {s : Device}

theorem swap_places_inside {i : ℕ} (hi : i < n) (hin : 4 * n ≤ input.len) :
    ∀ x ∈ swap_places n input i, x.Inside := by
  intro x hx
  simp only [swap_places, List.mem_append] at hx
  obtain ((hx | hx) | hx) | hx := hx
  all_goals exact Buffer.places_inside _ (by omega) x hx

include hP

/-- The bytes of `n` words in reverse. Every one of them is written. -/
theorem reverse_bytes_spec (hn : n < 2 ^ 30) (hin : 4 * n ≤ input.len) :
    Leads P (reverse_bytes (BitVec.ofNat 32 n) input) s fun r t =>
      r = input.put 0 (input.part 0 (4 * n)).reverse ∧ t.rest.csrng = s.rest.csrng ∧
        ∀ x ∈ input.places true 0 (4 * n), x ∈ t.touched := by
  have hnum : ((BitVec.ofNat 32 n + 1) / 2 : u32).toNat = (n + 1) / 2 := by
    rw [BitVec.toNat_udiv, BitVec.toNat_add, BitVec.toNat_ofNat, show (1 : u32).toNat = 1 from rfl,
      show (2 : u32).toNat = 2 from rfl]
    omega
  obtain ⟨order, hdone, hpass⟩ := order_pass_eq ((BitVec.ofNat 32 n + 1) / 2)
    (reverse_swap (BitVec.ofNat 32 n)) s.rest.rnd (input, [])
  have hperm := visits_perm ((BitVec.ofNat 32 n + 1) / 2) s.rest.rnd
  rw [hnum] at hperm
  have hall : ∀ v ∈ visits ((BitVec.ofNat 32 n + 1) / 2) s.rest.rnd, v < (n + 1) / 2 :=
    fun v hv => List.mem_range.mp (hperm.subset hv)
  have hcover : ∀ w < n, w ∈ visits ((BitVec.ofNat 32 n + 1) / 2) s.rest.rnd ∨
      n - 1 - w ∈ visits ((BitVec.ofNat 32 n + 1) / 2) s.rest.rnd := by
    intro w hw
    simp only [hperm.mem_iff, List.mem_range]
    omega
  rw [foldl_reverse_swap hn _ (hperm.symm.nodup List.nodup_range) hall,
    reversed_from_all hcover] at hpass
  refine Guarded.get ?_
  rcases hinit : random_order_init ((BitVec.ofNat 32 n + 1) / 2) s.rest.rnd with ⟨first, rnd⟩
  rw [hinit] at hpass
  refine Guarded.modify_bind ?_
  simp only [hpass, Option.bind_eq_bind, Option.bind_some, random_order_check_done,
    IbexFirmware.hardened_check, hdone, if_true, Option.pure_def]
  refine Guarded.modify_bind (Guarded.pure ⟨⟨rfl, rfl, fun x hx => ?_⟩, ⟨_, rfl, fun x hx => ?_⟩⟩)
  rotate_left
  · obtain ⟨v, hv, hmem⟩ := List.mem_flatMap.mp hx
    have hlt := hall v hv
    exact hP x (swap_places_inside (by omega) hin x hmem)
  · obtain ⟨k, -, hk, rfl⟩ := Buffer.mem_places.mp hx
    refine List.mem_append_right _ (List.mem_flatMap.mpr ?_)
    -- the turn of the lower one of the two words
    by_cases hlow : k / 4 < (n + 1) / 2
    · refine ⟨k / 4, hperm.symm.subset (List.mem_range.mpr hlow), List.mem_append_right _ ?_⟩
      exact Buffer.mem_places.mpr ⟨k, by omega, by omega, rfl⟩
    · refine ⟨n - 1 - k / 4, hperm.symm.subset (List.mem_range.mpr (by omega)),
        List.mem_append_left _ (List.mem_append_right _ ?_)⟩
      exact Buffer.mem_places.mpr ⟨k, by omega, by omega, rfl⟩

end reversal

end IbexFirmware.RsaPadding
