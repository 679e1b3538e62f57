/-
Verification of stateless hash-based signatures, over any tweakable hash function.

A signature is a chain of commitments. Its forest of few-time keys signs the digest of the
message, and each layer of trees signs the root below it with a one-time key. Verifying
computes from the signature what the root of the top layer would have to be (`root`), and the
signature is good if that is the root of the public key.

Every hash has an address of its own, and the addresses are the part that an implementation
gets wrong. Here an address is a term of `Adrs` and not a buffer, so that a field is there
exactly if it means something. `Adrs.compressed` is how it is written for the hash function.
Trees are climbed in one place, `climb`: a node has its neighbour to the right if its index is
even, and its parent has half its index.
-/
import IbexFirmware.Lib.Bytes

set_option autoImplicit false

namespace IbexFirmware.SlhDsa

open Bytes

/-! ## Numbers -/

/-- The number with the bytes `x`, the most significant first. -/
def to_int (x : List u8) : ℕ := x.foldl (fun n b => 256 * n + b.toNat) 0

/-- The `n` bytes of a number, the most significant first. -/
def to_byte (x n : ℕ) : List u8 :=
  (List.range n).map fun i => BitVec.ofNat 8 (x / 256 ^ (n - 1 - i))

/-- The digits of `b` bits with which the bytes `x` start. -/
def base_2b (x : List u8) (b out_len : ℕ) : List ℕ :=
  (List.range out_len).map fun i => to_int x / 2 ^ (8 * x.length - b * (i + 1)) % 2 ^ b

/-! ## Bits and digits -/

theorem to_int_snoc (x : List u8) (b : u8) : to_int (x ++ [b]) = 256 * to_int x + b.toNat := by
  rw [to_int, List.foldl_append]
  rfl

/-- The bits of a number are those of its bytes. -/
theorem testBit_to_int (x : List u8) {i : ℕ} (hi : i < 8 * x.length) :
    (to_int x).testBit (8 * x.length - 1 - i) = (x.getD (i / 8) 0).getLsbD (7 - i % 8) := by
  induction x using List.reverseRecOn generalizing i with
  | nil => exact absurd hi (Nat.not_lt_zero _)
  | append_singleton x b ih =>
      have hlen : (x ++ [b]).length = x.length + 1 := by
        rw [List.length_append, List.length_singleton]
      rw [hlen] at hi ⊢
      rw [to_int_snoc, show (256 : ℕ) = 2 ^ 8 by decide, Nat.testBit_two_pow_mul_add _ b.isLt]
      split
      case isTrue hlast =>
        rw [List.getD_append_right _ _ _ _ (by omega), show i / 8 - x.length = 0 by omega,
          List.getD_cons_zero, BitVec.testBit_toNat]
        congr 1
        omega
      case isFalse hbefore =>
        rw [List.getD_append _ _ _ _ (by omega), ← ih (by omega)]
        congr 1
        omega

theorem length_base_2b (x : List u8) (b out_len : ℕ) : (base_2b x b out_len).length = out_len := by
  rw [base_2b, List.length_map, List.length_range]

theorem getD_base_2b (x : List u8) (b : ℕ) {out_len i : ℕ} (hi : i < out_len) :
    (base_2b x b out_len).getD i 0 = to_int x / 2 ^ (8 * x.length - b * (i + 1)) % 2 ^ b := by
  rw [List.getD_eq_getElem _ _ (by rwa [length_base_2b])]
  simp only [base_2b, List.getElem_map, List.getElem_range]

/-- The bits of a digit are those of the bytes. -/
theorem testBit_base_2b (x : List u8) (b : ℕ) {out_len i t : ℕ} (hi : i < out_len) (ht : t < b)
    (hx : b * (i + 1) ≤ 8 * x.length) :
    ((base_2b x b out_len).getD i 0).testBit t =
      (x.getD ((b * (i + 1) - 1 - t) / 8) 0).getLsbD (7 - (b * (i + 1) - 1 - t) % 8) := by
  have hb : b ≤ b * (i + 1) := Nat.le_mul_of_pos_right b (Nat.succ_pos i)
  rw [getD_base_2b x b hi, Nat.testBit_mod_two_pow, decide_eq_true ht, Bool.true_and,
    Nat.testBit_div_two_pow, ← testBit_to_int x (by omega)]
  congr 1
  omega

theorem base_2b_lt (x : List u8) (b out_len i : ℕ) : (base_2b x b out_len).getD i 0 < 2 ^ b := by
  by_cases hi : i < out_len
  · rw [getD_base_2b x b hi]
    exact Nat.mod_lt _ (Nat.two_pow_pos b)
  · rw [List.getD_eq_default _ _ (by rw [length_base_2b]; omega)]
    exact Nat.two_pow_pos b

theorem length_to_byte (x n : ℕ) : (to_byte x n).length = n := by
  rw [to_byte, List.length_map, List.length_range]

theorem to_byte_add (x m n : ℕ) : to_byte x (m + n) = to_byte (x / 256 ^ n) m ++ to_byte x n := by
  rw [to_byte, List.range_add, List.map_append, List.map_map]
  refine congrArg₂ _ (List.map_congr_left fun i hi => ?_) (List.map_congr_left fun i _ => ?_)
  · have him := List.mem_range.mp hi
    rw [Nat.div_div_eq_div_mul, ← Nat.pow_add]
    congr 3
    omega
  · dsimp only [Function.comp]
    congr 3
    omega

/-- The bytes of a number are the number, as far as they go. -/
theorem to_int_to_byte (x n : ℕ) : to_int (to_byte x n) = x % 256 ^ n := by
  induction n generalizing x with
  | zero => rw [Nat.pow_zero, Nat.mod_one]; rfl
  | succ n ih =>
      have hlast : to_byte x 1 = [BitVec.ofNat 8 x] := by simp [to_byte]
      calc to_int (to_byte x (n + 1)) = 256 * (x / 256 % 256 ^ n) + x % 256 := by
            rw [to_byte_add x n 1, hlast, to_int_snoc, ih, Nat.pow_one, BitVec.toNat_ofNat]
        _ = x % 256 ^ (n + 1) := by
            rw [Nat.pow_succ, Nat.mul_comm (256 ^ n), Nat.mod_mul, Nat.add_comm]

/-! ## Addresses -/

/-- What a hash is for. -/
inductive Adrs where
  | wots_hash (layer tree keypair chain hash : ℕ)
  | wots_pk (layer tree keypair : ℕ)
  | hash_tree (layer tree height index : ℕ)
  | fors_tree (tree keypair height index : ℕ)
  | fors_roots (tree keypair : ℕ)

def Adrs.compressed : Adrs → List u8
  | .wots_hash layer tree keypair chain hash =>
      to_byte layer 1 ++ to_byte tree 8 ++ to_byte 0 1 ++ to_byte keypair 4 ++ to_byte chain 4 ++
        to_byte hash 4
  | .wots_pk layer tree keypair =>
      to_byte layer 1 ++ to_byte tree 8 ++ to_byte 1 1 ++ to_byte keypair 4 ++ to_byte 0 8
  | .hash_tree layer tree height index =>
      to_byte layer 1 ++ to_byte tree 8 ++ to_byte 2 1 ++ to_byte 0 4 ++ to_byte height 4 ++
        to_byte index 4
  | .fors_tree tree keypair height index =>
      to_byte 0 1 ++ to_byte tree 8 ++ to_byte 3 1 ++ to_byte keypair 4 ++ to_byte height 4 ++
        to_byte index 4
  | .fors_roots tree keypair =>
      to_byte 0 1 ++ to_byte tree 8 ++ to_byte 4 1 ++ to_byte keypair 4 ++ to_byte 0 8

/-! ## Parameters -/

structure Params where
  /-- The bytes of a node. -/
  n : ℕ
  /-- The layers, and the height of the trees in one. -/
  d : ℕ
  hp : ℕ
  /-- The height of the trees of the forest, and their number. -/
  a : ℕ
  k : ℕ
  /-- The bits of a digit, and the digits of a message and of a checksum. -/
  lg_w : ℕ
  len1 : ℕ
  len2 : ℕ

variable (p : Params)

def Params.len : ℕ := p.len1 + p.len2

/-- The bytes of the parts of a signature. -/
def Params.fors_bytes : ℕ := p.k * (p.a + 1) * p.n

def Params.xmss_bytes : ℕ := (p.len + p.hp) * p.n

/-- The bits of the index of a tree in the bottom layer. -/
def Params.tree_bits : ℕ := p.hp * (p.d - 1)

/-- The bytes of the parts of a digest. -/
def Params.md_bytes : ℕ := (p.k * p.a + 7) / 8

def Params.tree_bytes : ℕ := (p.tree_bits + 7) / 8

def Params.leaf_bytes : ℕ := (p.hp + 7) / 8

/-- The node number `i` of a string. -/
def Params.node (x : List u8) (i : ℕ) : List u8 := (x.drop (p.n * i)).take p.n

def Params.nodes (x : List u8) (count : ℕ) : List (List u8) :=
  (List.range count).map (p.node x)

theorem Params.nodes_succ (x : List u8) (count : ℕ) :
    p.nodes x (count + 1) = p.node x 0 :: p.nodes (x.drop p.n) count := by
  rw [nodes, List.range_succ_eq_map, List.map_cons, List.map_map, nodes]
  refine congrArg _ (List.map_congr_left fun i _ => ?_)
  rw [Function.comp, Params.node, Params.node, List.drop_drop, Nat.mul_succ, Nat.add_comm]

/-! ## Verification -/

section verification

-- the tweakable hash function, with the seed of the public key in it
variable (T : Adrs → List u8 → List u8)

/-- A chain, from the digit `start` to its end. -/
def chain (adrs : ℕ → Adrs) (x : List u8) (start : ℕ) : List u8 :=
  (List.range' start (2 ^ p.lg_w - 1 - start)).foldl (fun x j => T (adrs j) x) x

/-- The digits of a message and those of their checksum. -/
def wots_digits (m : List u8) : List ℕ :=
  let msg := base_2b m p.lg_w p.len1
  let csum := (msg.map fun x => 2 ^ p.lg_w - 1 - x).sum
  let csum := csum * 2 ^ ((8 - p.len2 * p.lg_w % 8) % 8)
  msg ++ base_2b (to_byte csum ((p.len2 * p.lg_w + 7) / 8)) p.lg_w p.len2

/-- The one-time key with which `sig` signs `m`. -/
def wots_pk_from_sig (sig m : List u8) (layer tree keypair : ℕ) : List u8 :=
  T (.wots_pk layer tree keypair) ((List.range p.len).flatMap fun i =>
    chain p T (.wots_hash layer tree keypair i) (p.node sig i) ((wots_digits p m).getD i 0))

/-- From the node `index` at the height `z` up along the neighbours. -/
def climb (adrs : ℕ → ℕ → Adrs) : ℕ → ℕ → List u8 → List (List u8) → List u8
  | _, _, node, [] => node
  | z, index, node, neighbour :: auth =>
      climb adrs (z + 1) (index / 2) (T (adrs (z + 1) (index / 2))
        (if index % 2 = 0 then node ++ neighbour else neighbour ++ node)) auth

/-- The root of the tree in which `sig` signs `m` with the one-time key `idx`. -/
def xmss_pk_from_sig (idx : ℕ) (sig m : List u8) (layer tree : ℕ) : List u8 :=
  climb T (.hash_tree layer tree) 0 idx (wots_pk_from_sig p T sig m layer tree idx)
    (p.nodes (sig.drop (p.len * p.n)) p.hp)

/-- The root of tree `i` of the forest for the part of the signature that belongs to it. -/
def fors_root (sig : List u8) (index tree keypair i : ℕ) : List u8 :=
  climb T (.fors_tree tree keypair) 0 (i * 2 ^ p.a + index)
    (T (.fors_tree tree keypair 0 (i * 2 ^ p.a + index)) (p.node sig 0))
    (p.nodes (sig.drop p.n) p.a)

/-- The key of the forest with which `sig` signs `md`. -/
def fors_pk_from_sig (sig md : List u8) (tree keypair : ℕ) : List u8 :=
  T (.fors_roots tree keypair) ((List.range p.k).flatMap fun i =>
    fors_root p T (sig.drop (i * (p.a + 1) * p.n)) ((base_2b md p.a p.k).getD i 0) tree keypair i)

/-- The root that the layers from `layer` on give to `m`. -/
def ht_root : ℕ → ℕ → List u8 → List u8 → ℕ → ℕ → List u8
  | 0, _, _, m, _, _ => m
  | count + 1, layer, sig, m, tree, leaf =>
      ht_root count (layer + 1) (sig.drop p.xmss_bytes) (xmss_pk_from_sig p T leaf sig m layer tree)
        (tree / 2 ^ p.hp) (tree % 2 ^ p.hp)

/-- What the root of the key would have to be for `sig` to sign a message with this digest. -/
def root (sig digest : List u8) : List u8 :=
  let md := digest.take p.md_bytes
  let tree := to_int ((digest.drop p.md_bytes).take p.tree_bytes) % 2 ^ p.tree_bits
  let leaf := to_int ((digest.drop (p.md_bytes + p.tree_bytes)).take p.leaf_bytes) % 2 ^ p.hp
  let fors := sig.drop p.n
  ht_root p T p.d 0 (fors.drop p.fors_bytes) (fors_pk_from_sig p T fors md tree leaf) tree leaf

end verification

/-! ## Messages -/

/-- What is signed for a message in a context. -/
def pure_message (ctx m : List u8) : List u8 := to_byte 0 1 ++ to_byte ctx.length 1 ++ ctx ++ m

/-- What is signed for the hash of a message, where the object identifier `oid` names the hash
function. -/
def prehash_message (ctx oid ph : List u8) : List u8 :=
  to_byte 1 1 ++ to_byte ctx.length 1 ++ ctx ++ oid ++ ph

end IbexFirmware.SlhDsa
