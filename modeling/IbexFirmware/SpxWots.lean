/-
One-time signatures of SPHINCS+ (`sphincsplus/wots.c`).

The lengths of the chains are the digits of the message and of its checksum. `base_w` takes them
off byte by byte, and the checksum is shifted up to the top of a word instead of to a whole number
of bytes; `chain_lengths_eq` says that these are the digits of the standard.

`gen_chain` hashes in place and keeps the address in step with the position. The address is that
of the caller, so that the hash of the last round stays in it; `gen_chain_returns` says so, and
the next chain starts by overwriting it.
-/
import IbexFirmware.SpxHash

set_option autoImplicit false

namespace IbexFirmware.Spx

open Bytes PowerFail Session SlhDsa
open Crypto (bswap32 word_bytes length_word_bytes word_bytes_append take_word_bytes)

/-! ## The functions -/

def kSpxWotsW : ℕ := 16
def kSpxWotsLogW : ℕ := 4
def kSpxWotsLen1 : ℕ := 32
def kSpxWotsLen2 : ℕ := 3
def kSpxWotsLen : ℕ := kSpxWotsLen1 + kSpxWotsLen2
def kSpxWotsWords : ℕ := kSpxWotsLen * kSpxNWords

/-- The loop of `gen_chain`, with the hash function inlined as in the source. -/
def gen_chain_from (ctx : Ctx) (i : ℕ) (addr : Addr) (out : List u32) :
    Proc Hmac RomError (Addr × List u32) :=
  if i + 1 < kSpxWotsW then do
    hmac_sha256_restore ctx.state_seeded
    hmac_sha256_update ⟨0, addr.take kSpxSha256AddrBytes⟩
    hmac_sha256_update_words out
    hmac_sha256_process
    let addr := spx_addr_hash_set addr (BitVec.ofNat 8 (i + 1))
    let out ← hmac_sha256_final_truncated kSpxNWords
    gen_chain_from ctx (i + 1) addr out
  else pure (addr, out)
termination_by kSpxWotsW - i

def gen_chain (input : List u32) (start : u8) (ctx : Ctx) (addr : Addr) :
    Proc Hmac RomError (Addr × List u32) :=
  gen_chain_from ctx start.toNat (spx_addr_hash_set addr start) (input.take kSpxNWords)

/-- A digit for each round: `total` is the byte it is taken from, and `bits` how many are left. -/
def base_w_from (input : List u8) : ℕ → ℕ → ℕ → u8 → List u8
  | 0, _, _, _ => []
  | out_len + 1, bits, in_idx, total =>
      if bits = 0 then
        (input.getD in_idx 0 >>> (8 - kSpxWotsLogW) &&& BitVec.ofNat 8 (kSpxWotsW - 1)) ::
          base_w_from input out_len (8 - kSpxWotsLogW) (in_idx + 1) (input.getD in_idx 0)
      else
        (total >>> (bits - kSpxWotsLogW) &&& BitVec.ofNat 8 (kSpxWotsW - 1)) ::
          base_w_from input out_len (bits - kSpxWotsLogW) in_idx total

def base_w (input : List u8) (out_len : ℕ) : List u8 := base_w_from input out_len 0 0 0

def wots_checksum (msg_base_w : List u8) : List u8 :=
  let csum := msg_base_w.foldl
    (fun csum x => csum + (BitVec.ofNat 32 (kSpxWotsW - 1) - x.setWidth 32)) (0 : u32)
  let csum_nbits := kSpxWotsLen2 * kSpxWotsLogW
  let csum := bswap32 (csum <<< ((32 - csum_nbits % 32) % 32))
  base_w (le32 csum) kSpxWotsLen2

def chain_lengths (msg : List u32) : List u8 :=
  let lengths := base_w (word_bytes msg) kSpxWotsLen1
  lengths ++ wots_checksum lengths

/-- The loop of `wots_pk_from_sig`, over the chains that are left. -/
def wots_pk_from_chains (sig : List u32) (lengths : List u8) (ctx : Ctx) :
    List ℕ → Addr → Proc Hmac RomError (Addr × List u32)
  | [], addr => pure (addr, [])
  | i :: chains, addr => do
      let addr := spx_addr_chain_set addr (BitVec.ofNat 8 i)
      let out ← gen_chain (sig.drop (i * kSpxNWords)) (lengths.getD i 0) ctx addr
      let pk ← wots_pk_from_chains sig lengths ctx chains out.1
      pure (pk.1, out.2 ++ pk.2)

def wots_pk_from_sig (sig msg : List u32) (ctx : Ctx) (addr : Addr) :
    Proc Hmac RomError (Addr × List u32) :=
  wots_pk_from_chains sig (chain_lengths msg) ctx (List.range kSpxWotsLen) addr

/-! ## Digits -/

/-- Digit `i` of a string. -/
def nibble (input : List u8) (i : ℕ) : u8 :=
  input.getD (i / 2) 0 >>> (4 - 4 * (i % 2)) &&& 15

/-- The induction is on the rounds: a byte is read in every second one. -/
theorem base_w_from_eq (input : List u8) (out_len k : ℕ) (total : u8) :
    base_w_from input out_len 0 k total = (List.range' (2 * k) out_len).map (nibble input) ∧
      base_w_from input out_len 4 (k + 1) (input.getD k 0) =
        (List.range' (2 * k + 1) out_len).map (nibble input) := by
  induction out_len generalizing k total with
  | zero => exact ⟨rfl, rfl⟩
  | succ out_len ih =>
      refine ⟨?_, ?_⟩
      · rw [base_w_from, if_pos rfl, List.range'_succ, List.map_cons, nibble,
          show 2 * k / 2 = k by omega, show 2 * k % 2 = 0 by omega]
        exact congrArg _ (ih k total).2
      · rw [base_w_from, if_neg (by decide), List.range'_succ, List.map_cons, nibble,
          show (2 * k + 1) / 2 = k by omega, show (2 * k + 1) % 2 = 1 by omega]
        exact congrArg _ (ih (k + 1) _).1

theorem base_w_eq (input : List u8) (out_len : ℕ) :
    base_w input out_len = (List.range out_len).map (nibble input) := by
  rw [base_w, (base_w_from_eq input out_len 0 0).1, List.range_eq_range']

/-- A digit of four bits is the digit of the standard. -/
theorem toNat_nibble (input : List u8) {out_len i : ℕ} (hi : i < out_len)
    (hinput : out_len ≤ 2 * input.length) :
    (nibble input i).toNat = (base_2b input 4 out_len).getD i 0 := by
  apply Nat.eq_of_testBit_eq
  intro t
  by_cases ht : t < 4
  · have hmask : (15 : u8).getLsbD t = true := by interval_cases t <;> decide
    rw [testBit_base_2b input 4 hi ht (by omega), BitVec.testBit_toNat, nibble, BitVec.getLsbD_and,
      BitVec.getLsbD_ushiftRight, hmask, Bool.and_true]
    congr 2 <;> omega
  · have hmask : (15 : u8).getLsbD t = false := by
      by_cases ht8 : t < 8
      · interval_cases t <;> first | omega | decide
      · exact BitVec.getLsbD_of_ge _ _ (by omega)
    have hlt := base_2b_lt input 4 out_len i
    have hpow : 2 ^ 4 ≤ 2 ^ t := Nat.pow_le_pow_right (by decide) (by omega)
    have hzero : ((base_2b input 4 out_len).getD i 0).testBit t = false :=
      Nat.testBit_lt_two_pow (by omega)
    rw [hzero, BitVec.testBit_toNat, nibble, BitVec.getLsbD_and, hmask, Bool.and_false]

theorem map_toNat_base_w {input : List u8} {out_len : ℕ} (hinput : out_len ≤ 2 * input.length) :
    (base_w input out_len).map BitVec.toNat = base_2b input 4 out_len := by
  refine List.ext_getElem (by rw [List.length_map, base_w_eq, List.length_map, List.length_range,
    length_base_2b]) fun i hi hi' => ?_
  rw [length_base_2b] at hi'
  have hdigit := toNat_nibble input hi' hinput
  rw [List.getD_eq_getElem _ _ (by rwa [length_base_2b])] at hdigit
  simp only [base_w_eq, List.getElem_map, List.getElem_range, hdigit]

theorem base_w_le (input : List u8) (out_len : ℕ) : ∀ x ∈ base_w input out_len, x.toNat ≤ 15 := by
  intro x hx
  rw [base_w_eq] at hx
  obtain ⟨i, -, rfl⟩ := List.mem_map.mp hx
  rw [nibble, BitVec.toNat_and]
  exact Nat.and_le_right

/-- The sum that the checksum is made of. -/
theorem toNat_csum (msg : List u8) (csum : u32) (hmsg : ∀ x ∈ msg, x.toNat ≤ 15)
    (hsum : csum.toNat + 15 * msg.length < 2 ^ 32) :
    (msg.foldl (fun csum x => csum + (BitVec.ofNat 32 (kSpxWotsW - 1) - x.setWidth 32)) csum).toNat =
      csum.toNat + ((msg.map BitVec.toNat).map fun x => 2 ^ 4 - 1 - x).sum := by
  induction msg generalizing csum with
  | nil => rfl
  | cons x msg ih =>
      have hx := hmsg x List.mem_cons_self
      rw [List.length_cons] at hsum
      have hdiff : (BitVec.ofNat 32 (kSpxWotsW - 1) - x.setWidth 32).toNat = 15 - x.toNat := by
        rw [BitVec.toNat_sub_of_le, BitVec.toNat_setWidth_of_le (by decide)]
        · rfl
        · rw [BitVec.le_def, BitVec.toNat_setWidth_of_le (by decide)]
          exact hx
      have hadd : (csum + (BitVec.ofNat 32 (kSpxWotsW - 1) - x.setWidth 32)).toNat =
          csum.toNat + (15 - x.toNat) := by
        rw [BitVec.toNat_add, hdiff, Nat.mod_eq_of_lt (by omega)]
      rw [List.foldl_cons, ih _ (fun y hy => hmsg y (List.mem_cons_of_mem x hy)) (by omega), hadd,
        List.map_cons, List.map_cons, List.sum_cons]
      omega

/-- The parameters of `params.h`. -/
def sha2_128s : Params where
  n := kSpxN
  d := kSpxD
  hp := kSpxTreeHeight
  a := kSpxForsHeight
  k := kSpxForsTrees
  lg_w := kSpxWotsLogW
  len1 := kSpxWotsLen1
  len2 := kSpxWotsLen2

/-- The checksum is shifted to the top of a word there, and to the top of two bytes here. -/
theorem wots_checksum_eq {msg : List u8} (hmsg : ∀ x ∈ msg, x.toNat ≤ 15) (hlen : msg.length = 32) :
    (wots_checksum msg).map BitVec.toNat =
      base_2b (to_byte (((msg.map BitVec.toNat).map fun x => 2 ^ 4 - 1 - x).sum * 2 ^ 4) 2) 4 3 := by
  have hcsum := toNat_csum msg 0 hmsg (by rw [hlen]; decide)
  rw [show (0 : u32).toNat = 0 from rfl, Nat.zero_add] at hcsum
  have hle : ((msg.map BitVec.toNat).map fun x => 2 ^ 4 - 1 - x).sum ≤ 32 * 15 := by
    refine (List.sum_le_card_nsmul _ 15 ?_).trans_eq ?_
    · intro y hy
      obtain ⟨x, -, rfl⟩ := List.mem_map.mp hy
      exact Nat.sub_le _ _
    · rw [List.length_map, List.length_map, hlen, smul_eq_mul]
  unfold wots_checksum
  generalize msg.foldl _ (0 : u32) = csum at hcsum
  generalize ((msg.map BitVec.toNat).map fun x => 2 ^ 4 - 1 - x).sum = sum at hcsum hle
  have hshift : (csum <<< ((32 - kSpxWotsLen2 * kSpxWotsLogW % 32) % 32)).toNat = sum * 2 ^ 20 := by
    rw [BitVec.toNat_shiftLeft, hcsum, Nat.shiftLeft_eq,
      show (32 - kSpxWotsLen2 * kSpxWotsLogW % 32) % 32 = 20 from rfl]
    exact Nat.mod_eq_of_lt (by omega)
  dsimp only
  rw [← to_byte_u32, hshift, map_toNat_base_w (by rw [length_to_byte]; decide)]
  simp only [base_2b, to_int_to_byte, length_to_byte]
  refine List.map_congr_left fun i hi => ?_
  have hi3 : i < 3 := List.mem_range.mp hi
  interval_cases i <;> omega

/-- The lengths of the chains are the digits of the standard. -/
theorem chain_lengths_eq {msg : List u32} (hmsg : msg.length = 4) :
    (chain_lengths msg).map BitVec.toNat = wots_digits sha2_128s (word_bytes msg) := by
  have hbytes : (word_bytes msg).length = 16 := by rw [length_word_bytes, hmsg]
  have hdigits : (base_w (word_bytes msg) kSpxWotsLen1).map BitVec.toNat =
      base_2b (word_bytes msg) 4 32 := map_toNat_base_w (by rw [hbytes]; decide)
  have hlen : (base_w (word_bytes msg) kSpxWotsLen1).length = 32 := by
    rw [← List.length_map BitVec.toNat, hdigits, length_base_2b]
  rw [chain_lengths, List.map_append, wots_checksum_eq (base_w_le _ _) hlen, hdigits]
  rfl

theorem chain_lengths_le (msg : List u32) (i : ℕ) : ((chain_lengths msg).getD i 0).toNat ≤ 15 := by
  by_cases hi : i < (chain_lengths msg).length
  · rw [List.getD_eq_getElem _ _ hi]
    rcases List.mem_append.mp (List.getElem_mem hi) with hx | hx
    · exact base_w_le _ _ _ hx
    · exact base_w_le _ _ _ hx
  · rw [List.getD_eq_default _ _ (by omega)]
    decide

/-! ## Chains -/

theorem word_bytes_drop (ws : List u32) (n : ℕ) :
    word_bytes (ws.drop n) = (word_bytes ws).drop (4 * n) := by
  induction ws generalizing n with
  | nil => rw [List.drop_nil, show word_bytes [] = [] from rfl, List.drop_nil]
  | cons w ws ih =>
      cases n with
      | zero => rfl
      | succ n =>
          rw [List.drop_succ_cons, ih]
          rfl

/-- A node of a signature. -/
theorem word_bytes_node (sig : List u32) (i : ℕ) :
    word_bytes ((sig.drop (i * kSpxNWords)).take kSpxNWords) =
      sha2_128s.node (word_bytes sig) i := by
  rw [take_word_bytes, word_bytes_drop, Params.node, ← Nat.mul_assoc, Nat.mul_right_comm]
  rfl

/-- The tweakable hash function of the standard, for a seed. -/
def tweakable (seed : List u32) (adrs : Adrs) (m : List u8) : List u8 :=
  tweak (word_bytes seed) adrs.compressed m

variable {hw : Hmac} {seed : List u32} {ctx : Ctx}

/-- The address of a chain, where `hash` is the position that was written last. -/
def at_hash (f : Fields) (hash : u8) : Addr := { f with index := hash.setWidth 32 }.buffer

/-- The induction is on the steps of the chain that are left. -/
theorem gen_chain_from_returns (hctx : Seeded seed ctx) (layer : u8) (tree : u64) (keypair : u32)
    (i : u8) {n : ℕ} (hn : n ≤ 15) {out : List u32} (hconf : Configured hw) :
    Returns (gen_chain_from ctx n
      (at_hash ⟨layer, tree, .kSpxAddrTypeWots, keypair, i, 0⟩ (BitVec.ofNat 8 n)) out) hw fun r t =>
        (∃ hash, r.1 = at_hash ⟨layer, tree, .kSpxAddrTypeWots, keypair, i, 0⟩ hash) ∧
        word_bytes r.2 = (List.range' n (15 - n)).foldl (fun x j => tweakable seed
          (.wots_hash layer.toNat tree.toNat keypair.toNat i.toNat j) x) (word_bytes out) ∧
        Configured t := by
  induction hsteps : 15 - n generalizing n out hw with
  | zero =>
      rw [gen_chain_from, if_neg (by simp only [kSpxWotsW]; omega)]
      exact Leaves.pure ⟨⟨_, rfl⟩, rfl, hconf⟩
  | succ steps ih =>
      have hbyte : (BitVec.ofNat 8 n).toNat = n := by
        rw [BitVec.toNat_ofNat]
        omega
      rw [gen_chain_from, if_pos (by simp only [kSpxWotsW]; omega)]
      refine Leaves.bind (restore_returns hctx hconf) fun _ t ht => ?_
      refine Leaves.bind (update_returns ht _) fun _ t ht => ?_
      refine Leaves.bind (update_words_returns ht out) fun _ t ht => ?_
      refine Leaves.bind (process_returns ht) fun _ t ht => ?_
      refine Leaves.bind (final_returns ht kSpxNWords) fun out' t ⟨hout, ht⟩ => ?_
      rw [at_hash, hash_set_buffer]
      refine (ih (by omega) ht (by omega)).mono ?_
      rintro r t' ⟨haddr, hr, ht'⟩
      refine ⟨haddr, ?_, ht'⟩
      have hadrs := compressed_wots_hash layer tree keypair i (BitVec.ofNat 8 n)
      rw [hbyte] at hadrs
      rw [hr, hout, List.range'_succ, List.foldl_cons, tweakable, hadrs]
      rfl

theorem gen_chain_returns (hctx : Seeded seed ctx) (layer : u8) (tree : u64) (keypair : u32) (i : u8)
    {input : List u32} {start : u8} (hstart : start.toNat ≤ 15) (hash : u8) (hconf : Configured hw) :
    Returns (gen_chain input start ctx
      (at_hash ⟨layer, tree, .kSpxAddrTypeWots, keypair, i, 0⟩ hash)) hw fun r t =>
        (∃ hash, r.1 = at_hash ⟨layer, tree, .kSpxAddrTypeWots, keypair, i, 0⟩ hash) ∧
        word_bytes r.2 = chain sha2_128s (tweakable seed)
          (.wots_hash layer.toNat tree.toNat keypair.toNat i.toNat)
          (word_bytes (input.take 4)) start.toNat ∧ Configured t := by
  have hset : spx_addr_hash_set (at_hash ⟨layer, tree, .kSpxAddrTypeWots, keypair, i, 0⟩ hash) start =
      at_hash ⟨layer, tree, .kSpxAddrTypeWots, keypair, i, 0⟩ (BitVec.ofNat 8 start.toNat) := by
    rw [at_hash, hash_set_buffer, BitVec.ofNat_toNat, BitVec.setWidth_eq]
    rfl
  rw [gen_chain, hset]
  exact gen_chain_from_returns hctx layer tree keypair i hstart hconf

/-- The chains from `chains` on. -/
theorem wots_pk_from_chains_returns (hctx : Seeded seed ctx) (layer : u8) (tree : u64) (keypair : u32)
    {sig : List u32} {lengths : List u8} (hlengths : ∀ i, (lengths.getD i 0).toNat ≤ 15)
    (chains : List ℕ) (hchains : ∀ i ∈ chains, i < 256) (i hash : u8) (hconf : Configured hw) :
    Returns (wots_pk_from_chains sig lengths ctx chains
      (at_hash ⟨layer, tree, .kSpxAddrTypeWots, keypair, i, 0⟩ hash)) hw fun r t =>
        (∃ i hash, r.1 = at_hash ⟨layer, tree, .kSpxAddrTypeWots, keypair, i, 0⟩ hash) ∧
        word_bytes r.2 = chains.flatMap (fun i => chain sha2_128s (tweakable seed)
          (.wots_hash layer.toNat tree.toNat keypair.toNat i)
          (sha2_128s.node (word_bytes sig) i) (lengths.getD i 0).toNat) ∧ Configured t := by
  induction chains generalizing i hash hw with
  | nil => exact Leaves.pure ⟨⟨i, hash, rfl⟩, rfl, hconf⟩
  | cons n chains ih =>
      have hn := hchains n List.mem_cons_self
      have hbyte : (BitVec.ofNat 8 n).toNat = n := by
        rw [BitVec.toNat_ofNat, Nat.mod_eq_of_lt hn]
      have hset : spx_addr_chain_set
          (at_hash ⟨layer, tree, .kSpxAddrTypeWots, keypair, i, 0⟩ hash) (BitVec.ofNat 8 n) =
            at_hash ⟨layer, tree, .kSpxAddrTypeWots, keypair, BitVec.ofNat 8 n, 0⟩ hash := rfl
      rw [wots_pk_from_chains, hset]
      refine Leaves.bind (gen_chain_returns hctx layer tree keypair (BitVec.ofNat 8 n) (hlengths n)
        hash hconf) fun out t ⟨⟨hash', haddr⟩, hout, ht⟩ => ?_
      rw [haddr]
      refine Leaves.bind (ih (fun i hi => hchains i (List.mem_cons_of_mem n hi)) (BitVec.ofNat 8 n)
        hash' ht) fun pk t' ⟨haddr', hpk, ht'⟩ => Leaves.pure ⟨haddr', ?_, ht'⟩
      rw [word_bytes_append, hpk, hout, hbyte, List.flatMap_cons, ← word_bytes_node]
      rfl

/-- The key is hashed by the caller, at an address of its own. -/
theorem wots_pk_from_sig_returns (hctx : Seeded seed ctx) (layer : u8) (tree : u64) (keypair : u32)
    (sig : List u32) {msg : List u32} (hmsg : msg.length = 4) (i hash : u8) (hconf : Configured hw) :
    Returns (wots_pk_from_sig sig msg ctx
      (at_hash ⟨layer, tree, .kSpxAddrTypeWots, keypair, i, 0⟩ hash)) hw fun r t =>
        (∃ i hash, r.1 = at_hash ⟨layer, tree, .kSpxAddrTypeWots, keypair, i, 0⟩ hash) ∧
        tweakable seed (.wots_pk layer.toNat tree.toNat keypair.toNat) (word_bytes r.2) =
          SlhDsa.wots_pk_from_sig sha2_128s (tweakable seed) (word_bytes sig) (word_bytes msg)
            layer.toNat tree.toNat keypair.toNat ∧ Configured t := by
  have hdigit : ∀ i, ((chain_lengths msg).getD i 0).toNat =
      (wots_digits sha2_128s (word_bytes msg)).getD i 0 := by
    intro i
    rw [← chain_lengths_eq hmsg]
    exact (List.getD_map _ 0 BitVec.toNat).symm
  have hchains : ∀ i ∈ List.range kSpxWotsLen, i < 256 := fun i hi =>
    Nat.lt_trans (List.mem_range.mp hi) (by decide)
  refine (wots_pk_from_chains_returns hctx layer tree keypair (chain_lengths_le msg) _ hchains i hash
    hconf).mono ?_
  rintro r t ⟨haddr, hr, ht⟩
  refine ⟨haddr, ?_, ht⟩
  simp only [hdigit] at hr
  rw [hr]
  rfl

end IbexFirmware.Spx
