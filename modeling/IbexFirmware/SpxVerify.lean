/-
Verification of SPHINCS+ signatures (`utils.c`, `fors.c`, `verify.c` and `spx_verify.c`).

A tree is climbed in one buffer: the hash of a round is written to the half where the next round
wants it, and the neighbour to the other one. `compute_root_from_returns` is the round of that
loop, and its invariant is that the two halves are the node and its neighbour in the order of the
standard. The indices of the trees of the forest are an index in the tree and an offset that is
halved on its own, which comes to the same because the offset stays even until the last level.

`spx_verify_returns` puts it together: the root is the one that the standard computes, for every
signature, key and message. What the firmware accepts because of it is `sigverify_spx_verify_iff`.
-/
import IbexFirmware.Sigverify
import IbexFirmware.SpxWots

set_option autoImplicit false

namespace IbexFirmware.Spx

open Bytes PowerFail Session SlhDsa
open Crypto (word_bytes length_word_bytes word_bytes_append take_word_bytes)

/-! ## The functions -/

def kSpxForsWords : ℕ := (kSpxForsHeight + 1) * kSpxForsTrees * kSpxNWords

/-- The loop of `spx_utils_compute_root` and the last iteration behind it. -/
def compute_root_from (tree_height : ℕ) (ctx : Ctx) (i : ℕ) (leaf_idx idx_offset : u32)
    (buffer buffer_second auth_path : List u32) (addr : Addr) :
    Proc Hmac RomError (Addr × List u32) :=
  if i < tree_height - 1 then do
    let leaf_idx := leaf_idx >>> 1
    let idx_offset := idx_offset >>> 1
    let addr := spx_addr_tree_height_set addr (BitVec.ofNat 8 (i + 1))
    let addr := spx_addr_tree_index_set addr (leaf_idx + idx_offset)
    let hash ← thash (buffer ++ buffer_second) ctx addr
    let auth := auth_path.take kSpxNWords
    if leaf_idx.getLsbD 0 then
      compute_root_from tree_height ctx (i + 1) leaf_idx idx_offset auth hash
        (auth_path.drop kSpxNWords) addr
    else
      compute_root_from tree_height ctx (i + 1) leaf_idx idx_offset hash auth
        (auth_path.drop kSpxNWords) addr
  else do
    let leaf_idx := leaf_idx >>> 1
    let idx_offset := idx_offset >>> 1
    let addr := spx_addr_tree_height_set addr (BitVec.ofNat 8 tree_height)
    let addr := spx_addr_tree_index_set addr (leaf_idx + idx_offset)
    let root ← thash (buffer ++ buffer_second) ctx addr
    pure (addr, root)
termination_by tree_height - 1 - i

def spx_utils_compute_root (leaf : List u32) (leaf_idx idx_offset : u32) (auth_path : List u32)
    (tree_height : ℕ) (ctx : Ctx) (addr : Addr) : Proc Hmac RomError (Addr × List u32) :=
  let auth := auth_path.take kSpxNWords
  if leaf_idx.getLsbD 0 then
    compute_root_from tree_height ctx 0 leaf_idx idx_offset auth leaf (auth_path.drop kSpxNWords) addr
  else
    compute_root_from tree_height ctx 0 leaf_idx idx_offset leaf auth (auth_path.drop kSpxNWords) addr

def fors_sk_to_leaf (sk : List u32) (ctx : Ctx) (fors_leaf_addr : Addr) :
    Proc Hmac RomError (List u32) :=
  thash (sk.take kSpxNWords) ctx fors_leaf_addr

/-- The bits of an index, the most significant first. -/
def message_to_indices (m : List u8) : List u32 :=
  (List.range kSpxForsTrees).map fun i => (List.range kSpxForsHeight).foldl (fun index j =>
    let offset := i * kSpxForsHeight + j
    index ^^^ ((m.getD (offset / 8) 0 >>> (7 - offset % 8) &&& 1).setWidth 32
      <<< (kSpxForsHeight - 1 - j))) 0

/-- The loop of `fors_pk_from_sig`, over the trees that are left. -/
def fors_roots (indices : List u32) (ctx : Ctx) :
    List ℕ → List u32 → Addr → Proc Hmac RomError (List u32)
  | [], _, _ => pure []
  | i :: trees, sig, fors_tree_addr => do
      let idx_offset := BitVec.ofNat 32 (i * 2 ^ kSpxForsHeight)
      let addr := spx_addr_tree_height_set fors_tree_addr 0
      let addr := spx_addr_tree_index_set addr (indices.getD i 0 + idx_offset)
      let leaf ← fors_sk_to_leaf sig ctx addr
      let sig := sig.drop kSpxNWords
      let root ← spx_utils_compute_root leaf (indices.getD i 0) idx_offset sig kSpxForsHeight ctx addr
      let roots ← fors_roots indices ctx trees (sig.drop (kSpxNWords * kSpxForsHeight)) root.1
      pure (root.2 ++ roots)

def fors_pk_from_sig (sig : List u32) (m : List u8) (ctx : Ctx) (fors_addr : Addr) :
    Proc Hmac RomError (List u32) := do
  let fors_tree_addr := spx_addr_type_set (spx_addr_keypair_copy addr_zero fors_addr)
    .kSpxAddrTypeForsTree
  let fors_pk_addr := spx_addr_type_set (spx_addr_keypair_copy addr_zero fors_addr)
    .kSpxAddrTypeForsPk
  let roots ← fors_roots (message_to_indices m) ctx (List.range kSpxForsTrees) sig fors_tree_addr
  thash roots ctx fors_pk_addr

/-- The loop of `spx_verify`, over the layers that are left. -/
def spx_verify_layers (ctx : Ctx) : List ℕ → List u32 → u64 → u32 → Addr → Addr → Addr → List u32 →
    Proc Hmac RomError (List u32)
  | [], _, _, _, _, _, _, root => pure root
  | i :: layers, sig, tree, idx_leaf, wots_addr, tree_addr, wots_pk_addr, root => do
      let tree_addr := spx_addr_layer_set tree_addr (BitVec.ofNat 8 i)
      let tree_addr := spx_addr_tree_set tree_addr tree
      let wots_addr := spx_addr_subtree_copy wots_addr tree_addr
      let wots_addr := spx_addr_keypair_set wots_addr idx_leaf
      let wots_pk_addr := spx_addr_keypair_copy wots_pk_addr wots_addr
      let wots_pk ← wots_pk_from_sig sig root ctx wots_addr
      let sig := sig.drop kSpxWotsWords
      let leaf ← thash wots_pk.2 ctx wots_pk_addr
      let root ← spx_utils_compute_root leaf idx_leaf 0 sig kSpxTreeHeight ctx tree_addr
      let sig := sig.drop (kSpxTreeHeight * kSpxNWords)
      spx_verify_layers ctx layers sig (tree >>> kSpxTreeHeight)
        ((tree &&& BitVec.ofNat 64 (2 ^ kSpxTreeHeight - 1)).setWidth 32) wots_pk.1 root.1 wots_pk_addr
        root.2

def spx_verify (sig : List u32) (msg_prefix_1 msg_prefix_2 msg_prefix_3 msg : Buf) (pk : List u32) :
    Proc Hmac RomError (List u32) := do
  let ctx ← spx_hash_initialize (pk.take kSpxNWords)
  let wots_addr := spx_addr_type_set addr_zero .kSpxAddrTypeWots
  let tree_addr := spx_addr_type_set addr_zero .kSpxAddrTypeHashTree
  let wots_pk_addr := spx_addr_type_set addr_zero .kSpxAddrTypeWotsPk
  let r ← spx_hash_message (sig.take kSpxNWords) pk msg_prefix_1 msg_prefix_2 msg_prefix_3 msg
  let sig := sig.drop kSpxNWords
  let wots_addr := spx_addr_tree_set wots_addr r.2.1
  let wots_addr := spx_addr_keypair_set wots_addr r.2.2
  let root ← fors_pk_from_sig sig r.1 ctx wots_addr
  let sig := sig.drop kSpxForsWords
  spx_verify_layers ctx (List.range kSpxD) sig r.2.1 r.2.2 wots_addr tree_addr wots_pk_addr root

/-! ## Trees -/

variable {hw : Hmac} {seed : List u32} {ctx : Ctx}

theorem length_of_tweak {out : List u32} {a b c : List u8} (h : word_bytes out = tweak a b c) :
    out.length = 4 := by
  have hlen := congrArg List.length h
  rw [length_word_bytes, tweak, List.length_take, length_digest] at hlen
  omega

/-- The hash at an address. -/
theorem thash_at_returns (hctx : Seeded seed ctx) (hconf : Configured hw) (input : List u32)
    {addr : Addr} {adrs : Adrs} (haddr : adrs.compressed = addr.take 22) :
    Returns (thash input ctx addr) hw fun out t =>
      word_bytes out = tweakable seed adrs (word_bytes input) ∧ out.length = 4 ∧ Configured t := by
  refine (thash_returns hctx hconf input addr).mono fun out t ⟨hout, ht⟩ => ?_
  refine ⟨?_, length_of_tweak hout, ht⟩
  rw [hout, tweakable, haddr]

/-- An address with a height and an index. -/
def at_node (f : Fields) (height : u8) (index : u32) : Addr :=
  { f with chain := height, index := index }.buffer

theorem set_node (f : Fields) (height height' : u8) (index index' : u32) :
    spx_addr_tree_index_set (spx_addr_tree_height_set (at_node f height index) height') index' =
      at_node f height' index' := rfl

/-- The addresses of the nodes of a tree. -/
def Addresses (f : Fields) (adrs : ℕ → ℕ → Adrs) : Prop :=
  ∀ (height : u8) (index : u32),
    (adrs height.toNat index.toNat).compressed = (at_node f height index).take 22

/-- The two halves of the buffer are the node and its neighbour. -/
def Halves (index : ℕ) (node neighbour : List u8) (buffer buffer_second : List u32) : Prop :=
  word_bytes buffer ++ word_bytes buffer_second =
    if index % 2 = 0 then node ++ neighbour else neighbour ++ node

theorem getLsbD_zero_iff (x : u32) : x.getLsbD 0 = true ↔ x.toNat % 2 = 1 := by
  rw [← BitVec.testBit_toNat, Nat.testBit_zero, decide_eq_true_iff]

/-- The index and the offset are halved on their own. -/
theorem toNat_index {leaf_idx idx_offset : u32} (heven : idx_offset.toNat % 2 = 0)
    (hroom : idx_offset.toNat + leaf_idx.toNat < 2 ^ 32) :
    (leaf_idx >>> 1 + idx_offset >>> 1).toNat = (idx_offset.toNat + leaf_idx.toNat) / 2 := by
  rw [BitVec.toNat_add, BitVec.toNat_ushiftRight, BitVec.toNat_ushiftRight,
    Nat.shiftRight_eq_div_pow, Nat.shiftRight_eq_div_pow]
  omega

/-- What an offset is above the level `n`. -/
theorem offset_halved {x : u32} {n : ℕ} (hx : x.toNat % 2 ^ (n + 1) = 0) :
    x.toNat % 2 = 0 ∧ (x >>> 1).toNat % 2 ^ n = 0 := by
  obtain ⟨q, hq⟩ := Nat.dvd_of_mod_eq_zero hx
  rw [Nat.pow_succ, Nat.mul_right_comm] at hq
  refine ⟨by omega, ?_⟩
  rw [BitVec.toNat_ushiftRight, Nat.shiftRight_eq_div_pow, Nat.pow_one, hq,
    Nat.mul_div_cancel _ (by decide), Nat.mul_mod_right]

/-- The induction is downwards on the levels that are left: a node and its neighbour lie in the two
halves of the buffer, on the sides that the bit of the index says. -/
theorem compute_root_from_returns (hctx : Seeded seed ctx) {f : Fields} {adrs : ℕ → ℕ → Adrs}
    (hadrs : Addresses f adrs) {tree_height : ℕ} (hheight : tree_height < 256) (i : ℕ)
    (hi : i < tree_height) {leaf_idx idx_offset : u32} {buffer buffer_second auth_path : List u32}
    {node neighbour : List u8} (height : u8) (index : u32)
    (hoffset : idx_offset.toNat % 2 ^ (tree_height - i) = 0)
    (hroom : idx_offset.toNat + leaf_idx.toNat < 2 ^ 32)
    (hhalves : Halves (idx_offset.toNat + leaf_idx.toNat) node neighbour buffer buffer_second)
    (hconf : Configured hw) :
    Returns (compute_root_from tree_height ctx i leaf_idx idx_offset buffer buffer_second auth_path
      (at_node f height index)) hw fun r t =>
        (∃ height index, r.1 = at_node f height index) ∧
        word_bytes r.2 = climb (tweakable seed) adrs i (idx_offset.toNat + leaf_idx.toNat) node
          (neighbour :: sha2_128s.nodes (word_bytes auth_path) (tree_height - 1 - i)) ∧
        r.2.length = 4 ∧ Configured t := by
  induction hsteps : tree_height - 1 - i generalizing i leaf_idx idx_offset buffer buffer_second
    auth_path node neighbour height index hw with
  | zero =>
      obtain rfl : tree_height = i + 1 := by omega
      rw [Nat.add_sub_cancel_left] at hoffset
      obtain ⟨heven, -⟩ := offset_halved (n := 0) hoffset
      have haddr := hadrs (BitVec.ofNat 8 (i + 1)) (leaf_idx >>> 1 + idx_offset >>> 1)
      rw [toNat_index heven hroom, BitVec.toNat_ofNat, Nat.mod_eq_of_lt hheight] at haddr
      rw [compute_root_from, if_neg (by omega)]
      simp only [set_node]
      refine Leaves.bind (thash_at_returns hctx hconf (buffer ++ buffer_second) haddr)
        fun root t ⟨hroot, hlen, ht⟩ => Leaves.pure ⟨⟨_, _, rfl⟩, ?_, hlen, ht⟩
      rw [word_bytes_append, hhalves] at hroot
      exact hroot
  | succ steps ih =>
      rw [show tree_height - i = tree_height - (i + 1) + 1 by omega] at hoffset
      obtain ⟨heven, hoffset'⟩ := offset_halved hoffset
      have haddr := hadrs (BitVec.ofNat 8 (i + 1)) (leaf_idx >>> 1 + idx_offset >>> 1)
      rw [toNat_index heven hroom, BitVec.toNat_ofNat, Nat.mod_eq_of_lt (by omega)] at haddr
      have hsum : (idx_offset >>> 1).toNat + (leaf_idx >>> 1).toNat =
          (idx_offset.toNat + leaf_idx.toNat) / 2 := by
        rw [BitVec.toNat_ushiftRight, BitVec.toNat_ushiftRight, Nat.shiftRight_eq_div_pow,
          Nat.shiftRight_eq_div_pow]
        omega
      have hroom' : (idx_offset >>> 1).toNat + (leaf_idx >>> 1).toNat < 2 ^ 32 := by omega
      have heven' : (idx_offset >>> 1).toNat % 2 = 0 := by
        rw [show tree_height - (i + 1) = tree_height - (i + 1) - 1 + 1 by omega] at hoffset'
        exact (offset_halved hoffset').1
      rw [compute_root_from, if_pos (by omega)]
      simp only [set_node]
      refine Leaves.bind (thash_at_returns hctx hconf (buffer ++ buffer_second) haddr)
        fun hash t ⟨hhash, _, ht⟩ => ?_
      rw [word_bytes_append, hhalves] at hhash
      have hauth : word_bytes (auth_path.take kSpxNWords) =
          sha2_128s.node (word_bytes auth_path) 0 := by
        have hnode := word_bytes_node auth_path 0
        rwa [Nat.zero_mul, List.drop_zero] at hnode
      have hclimb : climb (tweakable seed) adrs i (idx_offset.toNat + leaf_idx.toNat) node
          (neighbour :: sha2_128s.nodes (word_bytes auth_path) (steps + 1)) =
            climb (tweakable seed) adrs (i + 1) ((idx_offset >>> 1).toNat + (leaf_idx >>> 1).toNat)
              (word_bytes hash) (word_bytes (auth_path.take kSpxNWords) ::
                sha2_128s.nodes (word_bytes (auth_path.drop kSpxNWords)) steps) := by
        rw [climb, hsum, hhash, Params.nodes_succ, hauth, word_bytes_drop]
        rfl
      rw [hclimb]
      split
      case isTrue hodd =>
        rw [getLsbD_zero_iff] at hodd
        refine ih (i + 1) (by omega) _ _ hoffset' hroom' ?_ ht (by omega)
        rw [Halves, if_neg (by omega)]
      case isFalse hodd =>
        rw [getLsbD_zero_iff] at hodd
        refine ih (i + 1) (by omega) _ _ hoffset' hroom' ?_ ht (by omega)
        rw [Halves, if_pos (by omega)]

/-- The first level from the leaf, and the others by the loop. -/
theorem compute_root_returns (hctx : Seeded seed ctx) {f : Fields} {adrs : ℕ → ℕ → Adrs}
    (hadrs : Addresses f adrs) {n : ℕ} (hheight : n + 1 < 256) {leaf auth_path : List u32}
    {leaf_idx idx_offset : u32} (height : u8) (index : u32)
    (hoffset : idx_offset.toNat % 2 ^ (n + 1) = 0)
    (hroom : idx_offset.toNat + leaf_idx.toNat < 2 ^ 32) (hconf : Configured hw) :
    Returns (spx_utils_compute_root leaf leaf_idx idx_offset auth_path (n + 1) ctx
      (at_node f height index)) hw fun r t =>
        (∃ height index, r.1 = at_node f height index) ∧
        word_bytes r.2 = climb (tweakable seed) adrs 0 (idx_offset.toNat + leaf_idx.toNat)
          (word_bytes leaf) (sha2_128s.nodes (word_bytes auth_path) (n + 1)) ∧
        r.2.length = 4 ∧ Configured t := by
  have heven := (offset_halved hoffset).1
  have hauth : sha2_128s.nodes (word_bytes auth_path) (n + 1) =
      word_bytes (auth_path.take kSpxNWords) ::
        sha2_128s.nodes (word_bytes (auth_path.drop kSpxNWords)) n := by
    have hnode := word_bytes_node auth_path 0
    rw [Nat.zero_mul, List.drop_zero] at hnode
    rw [Params.nodes_succ, hnode, word_bytes_drop]
    rfl
  rw [hauth]
  unfold spx_utils_compute_root
  split
  case isTrue hodd =>
    rw [getLsbD_zero_iff] at hodd
    refine compute_root_from_returns hctx hadrs hheight 0 (Nat.succ_pos n) height index hoffset hroom
      ?_ hconf
    rw [Halves, if_neg (by omega)]
  case isFalse hodd =>
    rw [getLsbD_zero_iff] at hodd
    refine compute_root_from_returns hctx hadrs hheight 0 (Nat.succ_pos n) height index hoffset hroom
      ?_ hconf
    rw [Halves, if_pos (by omega)]

/-! ## The forest -/

/-- The bit at an offset of a message. -/
def bit_at (m : List u8) (offset : ℕ) : Bool := (m.getD (offset / 8) 0).getLsbD (7 - offset % 8)

/-- The first `n` rounds of the loop for an index. -/
theorem getLsbD_index (m : List u8) (i : ℕ) {n : ℕ} (hn : n ≤ 12) (t : ℕ) :
    ((List.range n).foldl (fun index j => index ^^^
      ((m.getD ((i * 12 + j) / 8) 0 >>> (7 - (i * 12 + j) % 8) &&& 1).setWidth 32 <<< (12 - 1 - j)))
        (0 : u32)).getLsbD t = (decide (t < 12 ∧ 11 - t < n) && bit_at m (i * 12 + (11 - t))) := by
  induction n with
  | zero => simp
  | succ n ih =>
      have hone : ∀ k, (1 : u8).getLsbD k = decide (k = 0) := fun k => BitVec.getLsbD_one (w := 8)
      have hbit : ((m.getD ((i * 12 + n) / 8) 0 >>> (7 - (i * 12 + n) % 8) &&& 1).setWidth 32 <<<
          (12 - 1 - n) : u32).getLsbD t = (decide (t = 11 - n) && bit_at m (i * 12 + n)) := by
        rw [BitVec.getLsbD_shiftLeft, BitVec.getLsbD_setWidth, BitVec.getLsbD_and,
          BitVec.getLsbD_ushiftRight, hone]
        by_cases ht : t = 11 - n
        · subst ht
          simp [bit_at, show 11 - n < 32 by omega]
        · by_cases hlt : t < 11 - n
          · simp [ht, hlt]
          · simp [ht, show t - (11 - n) ≠ 0 by omega]
      rw [List.range_succ, List.foldl_append, List.foldl_cons, List.foldl_nil, BitVec.getLsbD_xor,
        ih (by omega), hbit]
      by_cases ht : t = 11 - n
      · subst ht
        rw [show 11 - (11 - n) = n by omega, decide_eq_false (by omega), decide_eq_true rfl,
          decide_eq_true (by omega), Bool.false_and, Bool.false_xor]
      · rw [decide_eq_false ht, Bool.false_and, Bool.xor_false]
        congr 2
        exact propext (by omega)

/-- The indices are the digits of the standard. -/
theorem toNat_message_to_indices {m : List u8} (hm : m.length = 21) {i : ℕ} (hi : i < 14) :
    ((message_to_indices m).getD i 0).toNat = (base_2b m 12 14).getD i 0 := by
  have hindex : (message_to_indices m).getD i 0 = (List.range 12).foldl (fun index j => index ^^^
      ((m.getD ((i * 12 + j) / 8) 0 >>> (7 - (i * 12 + j) % 8) &&& 1).setWidth 32 <<< (12 - 1 - j)))
        (0 : u32) := by
    rw [List.getD_eq_getElem _ _ (by rw [message_to_indices, List.length_map, List.length_range]; exact hi)]
    simp only [message_to_indices, List.getElem_map, List.getElem_range]
    rfl
  apply Nat.eq_of_testBit_eq
  intro t
  rw [BitVec.testBit_toNat, hindex, getLsbD_index m i le_rfl]
  by_cases ht : t < 12
  · rw [testBit_base_2b m 12 hi ht (by omega), bit_at, decide_eq_true (by omega), Bool.true_and]
    congr 2 <;> omega
  · have hlt := base_2b_lt m 12 14 i
    have hpow : 2 ^ 12 ≤ 2 ^ t := Nat.pow_le_pow_right (by decide) (by omega)
    rw [Nat.testBit_lt_two_pow (by omega), decide_eq_false (by omega), Bool.false_and]

/-- The addresses in the forest of a key. -/
def fors_fields (tree : u64) (keypair : u32) : Fields := ⟨0, tree, .kSpxAddrTypeForsTree, keypair, 0, 0⟩

theorem addresses_fors (tree : u64) (keypair : u32) :
    Addresses (fors_fields tree keypair) (.fors_tree tree.toNat keypair.toNat) :=
  fun height index => compressed_fors_tree tree keypair height index

/-- The trees from `i` on, for the part of the signature that is left. -/
theorem fors_roots_returns (hctx : Seeded seed ctx) (tree : u64) (keypair : u32) {indices : List u32}
    (hindices : ∀ i, (indices.getD i 0).toNat < 2 ^ 12) (sig : List u32) (count i : ℕ)
    (hcount : i + count ≤ 14) (height : u8) (index : u32) (hconf : Configured hw) :
    Returns (fors_roots indices ctx (List.range' i count) (sig.drop (i * 52))
      (at_node (fors_fields tree keypair) height index)) hw fun roots t =>
        word_bytes roots = (List.range' i count).flatMap (fun i => fors_root sha2_128s (tweakable seed)
          ((word_bytes sig).drop (i * 13 * 16)) (indices.getD i 0).toNat tree.toNat keypair.toNat i) ∧
        Configured t := by
  induction count generalizing i height index hw with
  | zero => exact Leaves.pure ⟨rfl, hconf⟩
  | succ count ih =>
      have hlt := hindices i
      have hoffset : (BitVec.ofNat 32 (i * 2 ^ kSpxForsHeight)).toNat = i * 2 ^ 12 := by
        rw [BitVec.toNat_ofNat]
        exact Nat.mod_eq_of_lt (by simp only [kSpxForsHeight]; omega)
      have hsum : (indices.getD i 0 + BitVec.ofNat 32 (i * 2 ^ kSpxForsHeight)).toNat =
          i * 2 ^ 12 + (indices.getD i 0).toNat := by
        rw [BitVec.toNat_add, hoffset]
        omega
      have haddr := addresses_fors tree keypair 0
        (indices.getD i 0 + BitVec.ofNat 32 (i * 2 ^ kSpxForsHeight))
      rw [hsum] at haddr
      rw [List.range'_succ, fors_roots]
      simp only [set_node]
      refine Leaves.bind (thash_at_returns hctx hconf _ haddr) fun leaf t ⟨hleaf, _, ht⟩ => ?_
      refine Leaves.bind (compute_root_returns hctx (addresses_fors tree keypair) (n := 11) (by decide)
        _ _ ?_ ?_ ht) fun root t ⟨⟨height', index', hroot⟩, hbytes, _, ht⟩ => ?_
      · rw [hoffset]
        exact Nat.mul_mod_left _ _
      · rw [hoffset]
        omega
      have hsig : ((sig.drop (i * 52)).drop kSpxNWords).drop (kSpxNWords * kSpxForsHeight) =
          sig.drop ((i + 1) * 52) := by
        rw [List.drop_drop, List.drop_drop, Nat.succ_mul]
        rfl
      rw [hroot, hsig]
      refine Leaves.bind (ih (i + 1) (by omega) height' index' ht) fun roots t ⟨hroots, ht⟩ =>
        Leaves.pure ⟨?_, ht⟩
      have hbase : word_bytes (sig.drop (i * 52)) = (word_bytes sig).drop (i * 13 * 16) := by
        rw [word_bytes_drop]
        congr 1
        omega
      have hnode := word_bytes_node (sig.drop (i * 52)) 0
      rw [Nat.zero_mul, List.drop_zero, hbase] at hnode
      rw [hnode] at hleaf
      rw [hoffset, hleaf, word_bytes_drop, hbase] at hbytes
      rw [word_bytes_append, hbytes, hroots, List.flatMap_cons]
      rfl

/-- The two addresses of the forest are made of the one of the one-time key. -/
theorem fors_addresses (tree : u64) (keypair : u32) :
    spx_addr_type_set (spx_addr_keypair_copy addr_zero
        (Fields.mk 0 tree .kSpxAddrTypeWots keypair 0 0).buffer) .kSpxAddrTypeForsTree =
      at_node (fors_fields tree keypair) 0 0 ∧
    spx_addr_type_set (spx_addr_keypair_copy addr_zero
        (Fields.mk 0 tree .kSpxAddrTypeWots keypair 0 0).buffer) .kSpxAddrTypeForsPk =
      (Fields.mk 0 tree .kSpxAddrTypeForsPk keypair 0 0).buffer := by
  have hzero : addr_zero = (Fields.blank .kSpxAddrTypeWots).buffer := by decide
  rw [hzero]
  exact ⟨rfl, rfl⟩

theorem fors_pk_from_sig_returns (hctx : Seeded seed ctx) (tree : u64) (keypair : u32)
    (sig : List u32) {m : List u8} (hm : m.length = 21) (hconf : Configured hw) :
    Returns (fors_pk_from_sig sig m ctx (Fields.mk 0 tree .kSpxAddrTypeWots keypair 0 0).buffer) hw
      fun pk t => word_bytes pk = SlhDsa.fors_pk_from_sig sha2_128s (tweakable seed) (word_bytes sig) m
          tree.toNat keypair.toNat ∧ pk.length = 4 ∧ Configured t := by
  have hindices : ∀ i, ((message_to_indices m).getD i 0).toNat < 2 ^ 12 := by
    intro i
    by_cases hi : i < 14
    · rw [toNat_message_to_indices hm hi]
      exact base_2b_lt m 12 14 i
    · rw [List.getD_eq_default _ _ (by
        rw [message_to_indices, List.length_map, List.length_range, kSpxForsTrees]
        omega)]
      decide
  obtain ⟨htree, hpk⟩ := fors_addresses tree keypair
  have hroots := fors_roots_returns hctx tree keypair hindices sig 14 0 (by decide) 0 0 hconf
  rw [Nat.zero_mul, List.drop_zero, ← List.range_eq_range'] at hroots
  rw [fors_pk_from_sig, htree, hpk]
  refine Leaves.bind hroots fun roots t ⟨hroots, ht⟩ => ?_
  refine (thash_at_returns hctx ht roots (compressed_fors_roots tree keypair)).mono
    fun pk t ⟨hpk, hlen, ht⟩ => ⟨?_, hlen, ht⟩
  rw [hpk, hroots, SlhDsa.fors_pk_from_sig]
  refine congrArg _ (List.flatMap_congr fun i hi => ?_)
  rw [toNat_message_to_indices hm (List.mem_range.mp hi)]
  rfl

/-! ## The layers -/

theorem addresses_tree (layer : u8) (tree : u64) :
    Addresses ⟨layer, tree, .kSpxAddrTypeHashTree, 0, 0, 0⟩ (.hash_tree layer.toNat tree.toNat) :=
  fun height index => compressed_hash_tree layer tree height index

/-- The three addresses that the layers share, whatever the last layer has left in them. -/
structure Shared (wots_addr tree_addr wots_pk_addr : Addr) : Prop where
  wots : ∃ layer tree keypair chain hash,
    wots_addr = at_hash ⟨layer, tree, .kSpxAddrTypeWots, keypair, chain, 0⟩ hash
  tree : ∃ layer tree height index,
    tree_addr = at_node ⟨layer, tree, .kSpxAddrTypeHashTree, 0, 0, 0⟩ height index
  wots_pk : ∃ layer tree keypair,
    wots_pk_addr = (Fields.mk layer tree .kSpxAddrTypeWotsPk keypair 0 0).buffer

theorem tree_addr_set (f : Fields) (height : u8) (index : u32) (layer : u8) (tree : u64) :
    spx_addr_tree_set (spx_addr_layer_set (at_node f height index) layer) tree =
      at_node { f with layer := layer, tree := tree } height index := rfl

theorem wots_addr_set (f g : Fields) (hash height : u8) (index keypair : u32) :
    spx_addr_keypair_set (spx_addr_subtree_copy (at_hash f hash) (at_node g height index)) keypair =
      at_hash { f with layer := g.layer, tree := g.tree, keypair := keypair } hash := rfl

theorem wots_pk_addr_set (e f : Fields) (hash : u8) :
    spx_addr_keypair_copy e.buffer (at_hash f hash) =
      { e with layer := f.layer, tree := f.tree, keypair := f.keypair }.buffer := rfl

/-- The layers from `layer` on, for the part of the signature that is left. -/
theorem spx_verify_layers_returns (hctx : Seeded seed ctx) (count layer : ℕ)
    (hlayer : layer + count < 256) (sig : List u32) (tree : u64) {idx_leaf : u32}
    {wots_addr tree_addr wots_pk_addr : Addr} (haddrs : Shared wots_addr tree_addr wots_pk_addr)
    {root : List u32} (hroot : root.length = 4) (hconf : Configured hw) :
    Returns (spx_verify_layers ctx (List.range' layer count) sig tree idx_leaf wots_addr tree_addr
      wots_pk_addr root) hw fun root' t =>
        word_bytes root' = ht_root sha2_128s (tweakable seed) count layer (word_bytes sig)
          (word_bytes root) tree.toNat idx_leaf.toNat ∧ root'.length = 4 ∧ Configured t := by
  induction count generalizing layer sig tree idx_leaf wots_addr tree_addr wots_pk_addr root hw with
  | zero => exact Leaves.pure ⟨rfl, hroot, hconf⟩
  | succ count ih =>
      obtain ⟨⟨l, t, k, chain, hash, rfl⟩, ⟨l', t', height, index, rfl⟩, l'', t'', k'', rfl⟩ := haddrs
      have hbyte : (BitVec.ofNat 8 layer).toNat = layer := by
        rw [BitVec.toNat_ofNat, Nat.mod_eq_of_lt (by omega)]
      rw [List.range'_succ, spx_verify_layers]
      simp only [tree_addr_set, wots_addr_set, wots_pk_addr_set]
      refine Leaves.bind (wots_pk_from_sig_returns hctx (BitVec.ofNat 8 layer) tree idx_leaf sig hroot
        chain hash hconf) fun wots_pk s ⟨⟨chain', hash', hwots⟩, hpk, hs⟩ => ?_
      refine Leaves.bind (thash_at_returns hctx hs wots_pk.2
        (compressed_wots_pk (BitVec.ofNat 8 layer) tree idx_leaf)) fun leaf s ⟨hleaf, _, hs⟩ => ?_
      refine Leaves.bind (compute_root_returns hctx (addresses_tree (BitVec.ofNat 8 layer) tree)
        (n := 8) (by decide) height index (Nat.zero_mod _) ?_ hs)
        fun root' s ⟨⟨height', index', htree⟩, hroot', hlen, hs⟩ => ?_
      · rw [show (0 : u32).toNat = 0 from rfl, Nat.zero_add]
        exact idx_leaf.isLt
      rw [hwots, htree]
      refine (ih (layer + 1) (by omega) _ _ ⟨⟨_, _, _, _, _, rfl⟩, ⟨_, _, _, _, rfl⟩, _, _, _, rfl⟩ hlen
        hs).mono fun root'' s ⟨hroot'', hlen, hs⟩ => ⟨?_, hlen, hs⟩
      have htree' : (tree >>> kSpxTreeHeight).toNat = tree.toNat / 2 ^ 9 := by
        rw [BitVec.toNat_ushiftRight, Nat.shiftRight_eq_div_pow]
        rfl
      have hleaf' : ((tree &&& BitVec.ofNat 64 (2 ^ kSpxTreeHeight - 1)).setWidth 32).toNat =
          tree.toNat % 2 ^ 9 := by
        rw [BitVec.toNat_setWidth, BitVec.toNat_and,
          show (BitVec.ofNat 64 (2 ^ kSpxTreeHeight - 1)).toNat = 2 ^ 9 - 1 from rfl,
          Nat.and_two_pow_sub_one_eq_mod]
        omega
      have hsig : word_bytes ((sig.drop kSpxWotsWords).drop (kSpxTreeHeight * kSpxNWords)) =
          (word_bytes sig).drop sha2_128s.xmss_bytes := by
        rw [List.drop_drop, word_bytes_drop]
        rfl
      rw [hroot'', htree', hleaf', hsig, ht_root]
      have hxmss : word_bytes root'.2 = xmss_pk_from_sig sha2_128s (tweakable seed) idx_leaf.toNat
          (word_bytes sig) (word_bytes root) layer tree.toNat := by
        rw [hroot', hleaf, hpk, hbyte, word_bytes_drop, show (0 : u32).toNat = 0 from rfl, Nat.zero_add]
        rfl
      rw [hxmss]
      rfl

/-! ## A signature -/

/-- What the root of the key would have to be for the signature to be good, as the standard has it. -/
def slh_root (sig pk m : List u8) : List u8 :=
  SlhDsa.root sha2_128s (fun adrs x => tweak (pk.take 16) adrs.compressed x) sig
    (h_msg (sig.take 16) (pk.take 16) (pk.drop 16) m)

/-- For every signature, key and message, whatever the block held before. -/
theorem spx_verify_returns (sig : List u32) (msg_prefix_1 msg_prefix_2 msg_prefix_3 msg : Buf)
    {pk : List u32} (hpk : pk.length = 8) (hw : Hmac) :
    Returns (spx_verify sig msg_prefix_1 msg_prefix_2 msg_prefix_3 msg pk) hw fun root _ =>
      word_bytes root = slh_root (word_bytes sig) (word_bytes pk)
        (msg_prefix_1.bytes ++ msg_prefix_2.bytes ++ msg_prefix_3.bytes ++ msg.bytes) ∧
      root.length = 4 := by
  have hseed : (pk.take kSpxNWords).length = 4 := by
    rw [List.length_take, hpk]
    rfl
  refine Leaves.bind (spx_hash_initialize_returns hseed hw) ?_
  rintro ctx t ⟨hctx, ht⟩
  refine Leaves.bind (spx_hash_message_returns ht (sig.take kSpxNWords) msg_prefix_1
    msg_prefix_2 msg_prefix_3 msg) ?_
  rintro r t ⟨⟨hmd, htree, hleaf⟩, ht⟩
  have hm : r.1.length = 21 := by
    rw [hmd, List.length_take, h_msg, List.length_take, length_digest]
    rfl
  simp only [type_set_zero, Fields.blank, tree_set_buffer, keypair_set_buffer]
  refine Leaves.bind (fors_pk_from_sig_returns hctx r.2.1 r.2.2 (sig.drop kSpxNWords) hm ht) ?_
  rintro pk_fors t ⟨hfors, hlen, ht⟩
  have hshared : Shared (Fields.mk 0 r.2.1 .kSpxAddrTypeWots r.2.2 0 0).buffer
      (Fields.mk 0 0 .kSpxAddrTypeHashTree 0 0 0).buffer
      (Fields.mk 0 0 .kSpxAddrTypeWotsPk 0 0 0).buffer :=
    ⟨⟨0, r.2.1, r.2.2, 0, 0, rfl⟩, ⟨0, 0, 0, 0, rfl⟩, 0, 0, 0, rfl⟩
  rw [List.range_eq_range']
  refine (spx_verify_layers_returns hctx kSpxD 0 (by decide) _ r.2.1 hshared hlen ht).mono ?_
  rintro root t ⟨hroot, hlen, -⟩
  refine ⟨?_, hlen⟩
  rw [hroot, hfors, hmd, htree, hleaf, word_bytes_drop, word_bytes_drop, take_word_bytes,
    take_word_bytes, word_bytes_drop]
  have htweak : tweakable (pk.take kSpxNWords) =
      fun adrs x => tweak ((word_bytes pk).take 16) adrs.compressed x := by
    funext adrs x
    rw [tweakable, take_word_bytes]
    rfl
  rw [slh_root, htweak, show 4 * kSpxNWords = 16 from rfl, show 4 * 4 = 16 from rfl]
  generalize h_msg _ _ _ _ = digest
  rfl

/-- A row of words in place of a signature, as many as one has. -/
def sample_signature : List u32 := (List.range 1964).map (BitVec.ofNat 32)

def sample_key : List u32 :=
  [0x03020100, 0x07060504, 0x0b0a0908, 0x0f0e0d0c, 0x13121110, 0x17161514, 0x1b1a1918, 0x1f1e1d1c]

/-- On a block that was never configured. The root takes thousands of hashes and is not
evaluated. -/
theorem spx_verify_returns_sample : Returns
    (spx_verify sample_signature ⟨0, [0, 0]⟩ ⟨2, [0x61]⟩ ⟨3, []⟩ ⟨3, [0x62, 0x63]⟩ sample_key)
    ⟨false, false, .init, 0, []⟩ fun root _ =>
      word_bytes root = slh_root (word_bytes sample_signature) (word_bytes sample_key)
        [0, 0, 0x61, 0x62, 0x63] ∧ root.length = 4 :=
  spx_verify_returns sample_signature ⟨0, [0, 0]⟩ ⟨2, [0x61]⟩ ⟨3, []⟩ ⟨3, [0x62, 0x63]⟩ rfl
    ⟨false, false, .init, 0, []⟩

/-! ## What the firmware accepts -/

open Sigverify BootDataStore

def kSpxVerifyPureDomainSep : List u8 := [0x00, 0x00]

def kSpxVerifyPrehashDomainSep : List u8 :=
  [0x01, 0x00, 0x06, 0x09, 0x60, 0x86, 0x48, 0x01, 0x65, 0x03, 0x04, 0x02, 0x01]

/-- The object identifier of SHA-256. -/
def oid_sha256 : List u8 := [0x06, 0x09, 0x60, 0x86, 0x48, 0x01, 0x65, 0x03, 0x04, 0x02, 0x01]

/-- `sigverify_spx_root_t`. -/
def root_words (ws : List u32) : Vector u32 4 := Vector.ofFn fun i => ws.getD i 0

/-- The root that a call leaves. -/
def outcome_root : Outcome RomError (List u32) → RomError × Vector u32 4
  | .ret root => (.kErrorOk, root_words root)
  | .error e => (e, root_words [])
  | .trap => (.kErrorUnknown, root_words [])
  | .lost => (.kErrorUnknown, root_words [])

/-- The two calls of `spx_verify` in `sigverify_spx_verify`, on a block in any state. The domain
separators lie somewhere in memory. -/
def spx_verify_call (hw : Hmac) (sep_addr : ℕ) (signature key : List u32)
    (msg_prefix_1 msg_prefix_2 msg digest : Buf) (config : u32) : RomError × Vector u32 4 :=
  outcome_root ((if config = kSigverifySpxConfigIdSha2128sPrehash then
      spx_verify signature ⟨sep_addr, kSpxVerifyPrehashDomainSep⟩ ⟨0, []⟩ ⟨0, []⟩ digest key
    else spx_verify signature ⟨sep_addr, kSpxVerifyPureDomainSep⟩ msg_prefix_1 msg_prefix_2 msg key)
      (Machine.on hw fun _ => .done)).1

/-- The standard accepts the signature, of the message or of its hash. -/
def Accepts (signature key : List u32) (msg_prefix_1 msg_prefix_2 msg digest : Buf) (config : u32) :
    Prop :=
  (config = kSigverifySpxConfigIdSha2128s ∧
      slh_root (word_bytes signature) (word_bytes key)
        (pure_message [] (msg_prefix_1.bytes ++ msg_prefix_2.bytes ++ msg.bytes)) =
          (word_bytes key).drop 16) ∨
    config = kSigverifySpxConfigIdSha2128sPrehash ∧
      slh_root (word_bytes signature) (word_bytes key) (prehash_message [] oid_sha256 digest.bytes) =
        (word_bytes key).drop 16

theorem root_words_inj {xs ys : List u32} (hx : xs.length = 4) (hy : ys.length = 4) :
    root_words xs = root_words ys ↔ word_bytes xs = word_bytes ys := by
  refine ⟨fun h => congrArg _ (List.ext_getElem (hx.trans hy.symm) fun i hi hi' => ?_),
    fun h => congrArg _ (Crypto.word_bytes_injective h)⟩
  have hi4 : i < 4 := hx ▸ hi
  have hwords := congrArg Vector.toList h
  rw [root_words, root_words, Vector.toList_ofFn, Vector.toList_ofFn] at hwords
  have hword := congrFun (List.ofFn_injective hwords) ⟨i, hi4⟩
  dsimp only at hword
  rwa [List.getD_eq_getElem _ _ hi, List.getD_eq_getElem _ _ hi'] at hword

/-- A call returns, with the root that the standard computes. -/
theorem spx_verify_outcome (hw : Hmac) (sig : List u32) (msg_prefix_1 msg_prefix_2 msg_prefix_3 msg : Buf)
    {pk : List u32} (hpk : pk.length = 8) :
    ∃ root : List u32, outcome_root (spx_verify sig msg_prefix_1 msg_prefix_2 msg_prefix_3 msg pk
        (Machine.on hw fun _ => .done)).1 = (.kErrorOk, root_words root) ∧ root.length = 4 ∧
      word_bytes root = slh_root (word_bytes sig) (word_bytes pk)
        (msg_prefix_1.bytes ++ msg_prefix_2.bytes ++ msg_prefix_3.bytes ++ msg.bytes) := by
  obtain ⟨root, hret, hroot, hlen⟩ := (spx_verify_returns sig msg_prefix_1 msg_prefix_2 msg_prefix_3
    msg hpk hw).run (m := Machine.on hw fun _ => .done) rfl
  refine ⟨root, ?_, hlen, hroot⟩
  rw [hret, outcome_root]

/-- What a verification that is enabled says of a root. -/
theorem sigverify_spx_verify_ok_iff {otp : u32} {lc_state : LcState} {config : u32}
    {verify : u32 → RomError × Vector u32 4} {expected_root root : Vector u32 4} (flash_exec : u32)
    (henabled : sigverify_spx_verify_enabled otp lc_state ≠ kSigverifySpxDisabledOtp)
    (hconfig : config = kSigverifySpxConfigIdSha2128sPrehash ∨ config = kSigverifySpxConfigIdSha2128s)
    (hverify : verify config = (.kErrorOk, root)) :
    (sigverify_spx_verify otp lc_state config verify expected_root flash_exec).1 = .kErrorOk ↔
      root = expected_root := by
  unfold sigverify_spx_verify
  dsimp only
  rw [if_pos henabled, if_pos hconfig, hverify, if_neg (not_not.mpr rfl), fold_spx_shares]
  by_cases hroot : root = expected_root
  · rw [if_pos hroot, if_pos (by decide)]
    exact iff_of_true rfl hroot
  · rw [if_neg hroot, if_neg (by decide)]
    exact iff_of_false (show RomError.kErrorSigverifyBadSpxSignature ≠ .kErrorOk by decide) hroot

/-- Where SPHINCS+ is enabled, the firmware accepts what the standard accepts, and nothing else. -/
theorem sigverify_spx_verify_iff (hw : Hmac) (sep_addr : ℕ) (signature : List u32) {key : List u32}
    (hkey : key.length = 8) (msg_prefix_1 msg_prefix_2 msg digest : Buf) {otp : u32}
    {lc_state : LcState} (config flash_exec : u32)
    (henabled : sigverify_spx_verify_enabled otp lc_state ≠ kSigverifySpxDisabledOtp) :
    (sigverify_spx_verify otp lc_state config
        (spx_verify_call hw sep_addr signature key msg_prefix_1 msg_prefix_2 msg digest)
        (root_words (key.drop 4)) flash_exec).1 = .kErrorOk ↔
      Accepts signature key msg_prefix_1 msg_prefix_2 msg digest config := by
  have hexpected : (key.drop 4).length = 4 := by rw [List.length_drop, hkey]
  have hbytes : word_bytes (key.drop 4) = (word_bytes key).drop 16 := word_bytes_drop key 4
  have hdistinct : kSigverifySpxConfigIdSha2128s ≠ kSigverifySpxConfigIdSha2128sPrehash := by decide
  by_cases hprehash : config = kSigverifySpxConfigIdSha2128sPrehash
  · obtain ⟨root, hcall, hlen, hroot⟩ := spx_verify_outcome hw signature
      ⟨sep_addr, kSpxVerifyPrehashDomainSep⟩ ⟨0, []⟩ ⟨0, []⟩ digest hkey
    have hmessage : kSpxVerifyPrehashDomainSep ++ [] ++ [] ++ digest.bytes =
        prehash_message [] oid_sha256 digest.bytes := rfl
    rw [hmessage] at hroot
    rw [sigverify_spx_verify_ok_iff flash_exec henabled (.inl hprehash)
      (show spx_verify_call _ _ _ _ _ _ _ _ _ = _ by rw [spx_verify_call, if_pos hprehash]; exact hcall),
      root_words_inj hlen hexpected, hbytes, hroot]
    exact ⟨fun h => .inr ⟨hprehash, h⟩, fun h => (h.resolve_left fun hpure =>
      hdistinct (hpure.1.symm.trans hprehash)).2⟩
  · by_cases hpure : config = kSigverifySpxConfigIdSha2128s
    · obtain ⟨root, hcall, hlen, hroot⟩ := spx_verify_outcome hw signature
        ⟨sep_addr, kSpxVerifyPureDomainSep⟩ msg_prefix_1 msg_prefix_2 msg hkey
      have hmessage : kSpxVerifyPureDomainSep ++ msg_prefix_1.bytes ++ msg_prefix_2.bytes ++ msg.bytes =
          pure_message [] (msg_prefix_1.bytes ++ msg_prefix_2.bytes ++ msg.bytes) := by
        rw [pure_message]
        rfl
      rw [hmessage] at hroot
      rw [sigverify_spx_verify_ok_iff flash_exec henabled (.inr hpure)
        (show spx_verify_call _ _ _ _ _ _ _ _ _ = _ by rw [spx_verify_call, if_neg hprehash]; exact hcall),
        root_words_inj hlen hexpected, hbytes, hroot]
      exact ⟨fun h => .inl ⟨hpure, h⟩, fun h => (h.resolve_right fun h => hprehash h.1).2⟩
    · refine iff_of_false ?_ fun h => h.elim (fun h => hpure h.1) fun h => hprehash h.1
      unfold sigverify_spx_verify
      rw [if_pos henabled, if_neg (not_or.mpr ⟨hprehash, hpure⟩)]
      show RomError.kErrorSigverifyBadSpxConfig ≠ .kErrorOk
      decide

/-- On a production device whose OTP asks for SPHINCS+: the message itself is verified as the
standard does, and with an unknown configuration nothing is accepted. -/
theorem sigverify_spx_verify_iff_sample :
    let verify (config : u32) := (sigverify_spx_verify 0 .kLcStateProd config
      (spx_verify_call ⟨false, false, .init, 0, []⟩ 0 sample_signature sample_key ⟨2, [0x61]⟩ ⟨3, []⟩
        ⟨3, [0x62, 0x63]⟩ ⟨5, List.replicate 32 7⟩) (root_words (sample_key.drop 4)) 0).1
    (verify kSigverifySpxConfigIdSha2128s = .kErrorOk ↔
        slh_root (word_bytes sample_signature) (word_bytes sample_key) [0, 0, 0x61, 0x62, 0x63] =
          (word_bytes sample_key).drop 16) ∧
      verify 0 ≠ .kErrorOk := by
  have henabled : sigverify_spx_verify_enabled 0 .kLcStateProd ≠ kSigverifySpxDisabledOtp := by
    decide
  have hkey : sample_key.length = 8 := rfl
  have hiff := fun config => sigverify_spx_verify_iff ⟨false, false, .init, 0, []⟩ 0
    sample_signature hkey ⟨2, [0x61]⟩ ⟨3, []⟩ ⟨3, [0x62, 0x63]⟩ ⟨5, List.replicate 32 7⟩ config 0
    henabled
  constructor
  · refine (hiff kSigverifySpxConfigIdSha2128s).trans ⟨fun h => ?_, fun h => .inl ⟨rfl, h⟩⟩
    exact (h.resolve_right fun hprehash => absurd hprehash.1 (by decide)).2
  · exact (hiff 0).not.mpr fun h => h.elim (fun h => absurd h.1 (by decide))
      fun h => absurd h.1 (by decide)

end IbexFirmware.Spx
