/-
GHASH under a mask.

`Hashes ctx H S Xs` says that a context has taken in the blocks `Xs`: its two tables are
those of two shares of the subkey `H`, it keeps two shares of `S`, and the two shares of
its state add up to the hash of `Xs` and the first share of `S`. Every step keeps this,
whatever the masks, its checks never fail, and the final sum is the hash and `S`.
-/
import IbexFirmware.GhashProduct

set_option autoImplicit false

namespace IbexFirmware.Aes

open Bytes PowerFail Crypto HardenedMemory Chunks

/-! ## What a context holds -/

/-- Tables of two shares of a subkey. -/
def Subkeyed (ctx : GhashContext) (H : BitVec 128) : Prop :=
  ∃ H0 H1, Table ctx.tbl0 H0 ∧ Table ctx.tbl1 H1 ∧ H0 ^^^ H1 = H

/-- Two shares of the encrypted initial counter block, with what they correct. -/
structure Masked (ctx : GhashContext) (H0 H1 S : BitVec 128) : Prop where
  tbl0 : Table ctx.tbl0 H0
  tbl1 : Table ctx.tbl1 H1
  shares : ctx.enc_initial_counter_block0.val ^^^ ctx.enc_initial_counter_block1.val = S
  term0 : ctx.correction_term0.val =
    Gcm.mul ctx.enc_initial_counter_block0.val H0 ^^^ ctx.enc_initial_counter_block0.val
  term1 : ctx.correction_term1.val = Gcm.mul ctx.enc_initial_counter_block0.val H1
  term1_init : ctx.correction_term1_init.val = Gcm.mul ctx.enc_initial_counter_block1.val H1
  checksum : ctx.checksum = ghash_context_integrity_checksum ctx

def Keyed (ctx : GhashContext) (H S : BitVec 128) : Prop :=
  ∃ H0 H1, Masked ctx H0 H1 S ∧ H0 ^^^ H1 = H

structure Hashes (ctx : GhashContext) (H S : BitVec 128) (Xs : List (BitVec 128)) : Prop where
  keyed : Keyed ctx H S
  count : ctx.ghash_block_cnt = BitVec.ofNat 32 Xs.length
  state : Xs ≠ [] → ctx.state0.val ^^^ ctx.state1.val =
    Gcm.ghash H Xs ^^^ ctx.enc_initial_counter_block0.val

theorem mul_xor_left (X X' Y : BitVec 128) :
    Gcm.mul (X ^^^ X') Y = Gcm.mul X Y ^^^ Gcm.mul X' Y := Gf.gf_mul_xor_left _ _ _ _

theorem mul_xor_right (X Y Y' : BitVec 128) :
    Gcm.mul X (Y ^^^ Y') = Gcm.mul X Y ^^^ Gcm.mul X Y' := Gf.gf_mul_xor_right _ _ _ _

/-- The checksum looks at one table, one correction term and one share. -/
theorem ghash_context_integrity_checksum_congr {ctx ctx' : GhashContext}
    (htbl : ctx.tbl0 = ctx'.tbl0) (hterm : ctx.correction_term0 = ctx'.correction_term0)
    (hshare : ctx.enc_initial_counter_block0 = ctx'.enc_initial_counter_block0) :
    ghash_context_integrity_checksum ctx = ghash_context_integrity_checksum ctx' := by
  unfold ghash_context_integrity_checksum
  rw [htbl, hterm, hshare]

theorem keyed_handle {ctx : GhashContext} {H : BitVec 128} (h : Subkeyed ctx H) (s0 s1 : Block) :
    Keyed (ghash_handle_enc_initial_counter_block s0 s1 ctx) H (s0.val ^^^ s1.val) := by
  obtain ⟨H0, H1, h0, h1, hH⟩ := h
  refine ⟨H0, H1, ⟨h0, h1, rfl, ?_, ?_, ?_,
    ghash_context_integrity_checksum_congr rfl rfl rfl⟩, hH⟩
  · exact (val_block_xor _ _).trans (by rw [val_galois_mul_state_key h0]; rfl)
  · exact val_galois_mul_state_key h1 s0
  · exact val_galois_mul_state_key h1 s1

/-! ## A block -/

/-- What is masked with the terms of the first block cancels. -/
theorem xor_cancel_init {w : ℕ} (b0 s0 c b1 s1 : BitVec w) :
    (b0 ^^^ s0 ^^^ (s0 ^^^ c)) ^^^ (b1 ^^^ s1 ^^^ s1) = b0 ^^^ b1 ^^^ c := by
  apply BitVec.eq_of_getLsbD_eq
  intro i _
  simp only [BitVec.getLsbD_xor]
  cases b0.getLsbD i <;> cases s0.getLsbD i <;> cases c.getLsbD i <;> cases b1.getLsbD i <;>
    cases s1.getLsbD i <;> rfl

/-- The two shares of the state after a block. -/
theorem ghash_states_val {ctx : GhashContext} {H S : BitVec 128} {Xs : List (BitVec 128)}
    (h : Hashes ctx H S Xs) (hlen : Xs.length < 2 ^ 32) (b : Block) :
    (ghash_states ctx b).1.val ^^^ (ghash_states ctx b).2.val =
      Gcm.ghash H (Xs ++ [b.val]) ^^^ ctx.enc_initial_counter_block0.val := by
  obtain ⟨⟨H0, H1, hm, rfl⟩, hcount, hstate⟩ := h
  have hzero : ctx.ghash_block_cnt = 0 ↔ Xs = [] := by
    rw [hcount, ← List.length_eq_zero_iff, ← BitVec.toNat_inj, BitVec.toNat_ofNat,
      Nat.mod_eq_of_lt hlen]
    simp
  have hghash : Gcm.ghash (H0 ^^^ H1) (Xs ++ [b.val]) =
      Gcm.mul (Gcm.ghash (H0 ^^^ H1) Xs ^^^ b.val) H0 ^^^
        Gcm.mul (Gcm.ghash (H0 ^^^ H1) Xs ^^^ b.val) H1 := by
    rw [Gcm.ghash_append, ← mul_xor_right]
    rfl
  rw [hghash, ghash_states]
  split_ifs with hcnt
  · -- The state is not read, and `S0` and `S1` mask the block.
    obtain rfl := hzero.mp hcnt
    have hnil : Gcm.ghash (H0 ^^^ H1) [] = 0#128 := rfl
    simp only [hardened_xor_block_eq, val_block_xor, val_galois_mul_state_key hm.tbl0,
      val_galois_mul_state_key hm.tbl1, hm.term0, hm.term1_init, mul_xor_left, hnil,
      BitVec.zero_xor]
    exact xor_cancel_init _ _ _ _ _
  · -- The state is unmasked up to `S0`, which masks the sum with the block.
    have hne : Xs ≠ [] := fun hnil => hcnt (hzero.mpr hnil)
    have htmp : (hardened_xor_block (hardened_xor_block b ctx.state0) ctx.state1).val =
        (Gcm.ghash (H0 ^^^ H1) Xs ^^^ b.val) ^^^ ctx.enc_initial_counter_block0.val := by
      simp only [hardened_xor_block_eq, val_block_xor]
      rw [BitVec.xor_assoc, hstate hne]
      ac_rfl
    generalize hardened_xor_block (hardened_xor_block b ctx.state0) ctx.state1 = tmp at htmp ⊢
    simp only [hardened_xor_block_eq, val_block_xor, val_galois_mul_state_key hm.tbl0,
      val_galois_mul_state_key hm.tbl1, hm.term0, hm.term1, htmp,
      mul_xor_left _ ctx.enc_initial_counter_block0.val]
    exact xor_cancel_init _ _ _ _ _

theorem checksum_check {ctx : GhashContext}
    (h : ctx.checksum = ghash_context_integrity_checksum ctx) :
    ghash_context_integrity_checksum_check ctx = kHardenedBoolTrue := if_pos h

/-- A block is taken in. -/
theorem ghash_process_block_does {ctx : GhashContext} {H S : BitVec 128} {Xs : List (BitVec 128)}
    (h : Hashes ctx H S Xs) (hlen : Xs.length < 2 ^ 32) (b : Block) (s : Device) :
    Does (ghash_process_block ctx b) s fun ctx' t => t = s ∧ Hashes ctx' H S (Xs ++ [b.val]) := by
  have hstates := ghash_states_val h hlen b
  obtain ⟨⟨H0, H1, hm, hH⟩, hcount, -⟩ := h
  have hsum : ctx.checksum = ghash_context_integrity_checksum
      { ctx with state0 := (ghash_states ctx b).1, state1 := (ghash_states ctx b).2 } :=
    hm.checksum.trans (ghash_context_integrity_checksum_congr rfl rfl rfl)
  refine hardened_check_bind (checksum_check hsum) (Does.pure ⟨rfl, ?_⟩)
  refine ⟨⟨H0, H1, ?_, hH⟩, ?_, fun _ => hstates⟩
  · exact ⟨hm.tbl0, hm.tbl1, hm.shares, hm.term0, hm.term1, hm.term1_init,
      hm.checksum.trans (ghash_context_integrity_checksum_congr rfl rfl rfl)⟩
  · show ctx.ghash_block_cnt + 1 = _
    rw [hcount, List.length_append, List.length_singleton, BitVec.ofNat_add]
    rfl

/-! ## Counting the blocks -/

/-- The blocks since the count of them, which is a word, was last zero. -/
def lap {α : Type} (Xs : List α) : List α := Xs.drop (2 ^ 32 * ((Xs.length - 1) / 2 ^ 32))

section

variable {α : Type} {Xs : List α}

theorem lap_of_le (h : Xs.length ≤ 2 ^ 32) : lap Xs = Xs := by
  rw [lap, Nat.div_eq_of_lt (by omega), Nat.mul_zero, List.drop_zero]

theorem length_lap_le (Xs : List α) : (lap Xs).length ≤ 2 ^ 32 := by
  rw [lap, List.length_drop]
  omega

/-- Before the count comes back to zero a block goes behind the others. -/
theorem lap_snoc_of_lt (x : α) (h : (lap Xs).length < 2 ^ 32) : lap (Xs ++ [x]) = lap Xs ++ [x] := by
  rw [lap, List.length_drop] at h
  have hdiv : (Xs.length + 1 - 1) / 2 ^ 32 = (Xs.length - 1) / 2 ^ 32 := by omega
  rw [lap, lap, List.length_append, List.length_singleton, hdiv, List.drop_append_of_le_length (by omega)]

/-- And then it is the first one. -/
theorem lap_snoc_of_eq (x : α) (h : (lap Xs).length = 2 ^ 32) : lap (Xs ++ [x]) = [x] := by
  rw [lap, List.length_drop] at h
  have hdrop : 2 ^ 32 * ((Xs.length + 1 - 1) / 2 ^ 32) = Xs.length := by omega
  rw [lap, List.length_append, List.length_singleton, hdrop, List.drop_left]

end

/-- What holds after any number of blocks. -/
def Laps (ctx : GhashContext) (H S : BitVec 128) (Xs : List (BitVec 128)) : Prop :=
  Hashes ctx H S (lap Xs)

theorem laps_iff {ctx : GhashContext} {H S : BitVec 128} {Xs : List (BitVec 128)}
    (hlen : Xs.length ≤ 2 ^ 32) : Laps ctx H S Xs ↔ Hashes ctx H S Xs := by
  rw [Laps, lap_of_le hlen]

/-- A context that has taken in as many blocks as a word can count looks like a new one. -/
theorem Hashes.wrap {ctx : GhashContext} {H S : BitVec 128} {Xs : List (BitVec 128)}
    (h : Hashes ctx H S Xs) (hlen : Xs.length = 2 ^ 32) : Hashes ctx H S [] := by
  refine ⟨h.keyed, ?_, nofun⟩
  rw [h.count, hlen]
  decide

theorem ghash_process_block_laps {ctx : GhashContext} {H S : BitVec 128} {Xs : List (BitVec 128)}
    (h : Laps ctx H S Xs) (b : Block) (s : Device) :
    Does (ghash_process_block ctx b) s fun ctx' t => t = s ∧ Laps ctx' H S (Xs ++ [b.val]) := by
  rcases Nat.lt_or_ge (lap Xs).length (2 ^ 32) with hlt | hge
  · refine (ghash_process_block_does h hlt b s).mono fun ctx' t ht => ⟨ht.1, ?_⟩
    rw [Laps, lap_snoc_of_lt _ hlt]
    exact ht.2
  · -- The count is back at zero.
    have heq : (lap Xs).length = 2 ^ 32 := Nat.le_antisymm (length_lap_le Xs) hge
    have hnew : Hashes ctx H S [] := Hashes.wrap h heq
    refine (ghash_process_block_does hnew (by decide) b s).mono fun ctx' t ht => ⟨ht.1, ?_⟩
    rw [Laps, lap_snoc_of_eq _ heq]
    exact ht.2

/-! ## A text -/

section

variable {ctx : GhashContext} {H S : BitVec 128} {Xs : List (BitVec 128)}

/-- The loop takes in the full blocks, and the rest is left in the partial block. -/
theorem ghash_remaining_blocks_laps (h : Laps ctx H S Xs) (part : Block) (input : List u8)
    (s : Device) :
    Does (ghash_remaining_blocks ctx part input) s fun r t => t = s ∧
      Laps r.1 H S (Xs ++ Gcm.blocks (full 16 input)) ∧
      r.2.bytes.take (rest 16 input).length = rest 16 input := by
  induction hn : input.length using Nat.strong_induction_on generalizing ctx Xs part input with
  | _ n ih =>
    rw [ghash_remaining_blocks]
    split
    · rename_i hge
      rw [kGhashBlockNumBytes] at hge
      have htake : (input.take 16).length = 16 := by rw [List.length_take]; omega
      have hval : (part.bytecopy 0 (input.take 16)).val = Gcm.of_bytes (input.take 16) := by
        rw [Block.bytecopy_full _ (by rw [htake]), List.take_zero, List.nil_append]
      refine Does.bind (ghash_process_block_laps h _ s) ?_
      rintro ctx' _ ⟨rfl, h'⟩
      rw [kGhashBlockNumBytes] at h'
      have hdrop : (input.drop 16).length = input.length - 16 := List.length_drop
      refine (ih (input.length - 16) (by omega) h' _ (input.drop 16) hdrop).mono ?_
      rintro r t ⟨rfl, hr, hrest⟩
      refine ⟨rfl, ?_, ?_⟩
      · rwa [full_cons_block (by decide) hge, Gcm.blocks_append (by rw [htake]),
          Gcm.blocks_of_le (by rw [htake]; decide) (by rw [htake]), ← List.append_assoc, ← hval]
      · rwa [rest_cons_block (by decide) hge]
    · rename_i hlt
      rw [kGhashBlockNumBytes, Nat.not_le] at hlt
      refine Does.pure ⟨rfl, ?_, ?_⟩
      · rwa [full_of_lt 16 hlt, Gcm.blocks_nil, List.append_nil]
      · rw [rest_of_lt 16 hlt]
        have hcopy := @Block.take_bytecopy part 0 input (by omega)
        rwa [Nat.zero_add, List.take_zero, List.nil_append] at hcopy

/-- Input behind what the partial block holds: the full blocks of both are taken in. -/
theorem ghash_process_full_blocks_laps (h : Laps ctx H S Xs) {part : Block} {held : List u8}
    (hpart : part.bytes.take held.length = held) (hheld : held.length < 16) (input : List u8)
    (s : Device) :
    Does (ghash_process_full_blocks ctx held.length part input) s fun r t => t = s ∧
      Laps r.1 H S (Xs ++ Gcm.blocks (full 16 (held ++ input))) ∧
      r.2.bytes.take (rest 16 (held ++ input)).length = rest 16 (held ++ input) := by
  rw [ghash_process_full_blocks]
  by_cases hshort : input.length < 16 - held.length
  · rw [if_pos hshort]
    have hlt : (held ++ input).length < 16 := by rw [List.length_append]; omega
    refine Does.pure ⟨rfl, ?_, ?_⟩
    · rwa [full_of_lt 16 hlt, Gcm.blocks_nil, List.append_nil]
    · rw [rest_of_lt 16 hlt, List.length_append, Block.take_bytecopy _ (by omega), hpart]
  · -- The first block is made of what was held and the start of the input.
    rw [if_neg hshort]
    obtain ⟨first, hfirstlen, hsplit, hval⟩ := Block.bytecopy_held hpart hheld hshort
    refine Does.bind (ghash_process_block_laps h _ s) ?_
    rintro ctx' _ ⟨rfl, h'⟩
    refine (ghash_remaining_blocks_laps h' _ _ _).mono ?_
    rintro r t ⟨rfl, hr, hrest⟩
    refine ⟨rfl, ?_, ?_⟩
    · rwa [hsplit, full_append_of_mod (by decide) (by rw [hfirstlen]),
        Gcm.blocks_append (by rw [hfirstlen]),
        Gcm.blocks_of_le (by rw [hfirstlen]; decide) (by rw [hfirstlen]), ← List.append_assoc,
        ← hval]
    · rwa [hsplit, rest_append_of_mod (by decide) (by rw [hfirstlen])]

/-- A text is taken in with its padding. -/
theorem ghash_update_laps (h : Laps ctx H S Xs) (input : List u8) (s : Device) :
    Does (ghash_update ctx input) s fun ctx' t => t = s ∧
      Laps ctx' H S (Xs ++ Gcm.blocks input) := by
  have hblocks : Gcm.blocks input = Gcm.blocks (full 16 input) ++ Gcm.blocks (rest 16 input) := by
    rw [← Gcm.blocks_append (length_full_mod 16 input), full_append_rest]
  refine Does.bind (@ghash_process_full_blocks_laps _ _ _ _ h _ [] rfl (by decide) input s) ?_
  rintro ⟨ctx', part⟩ _ ⟨rfl, h', hrest⟩
  rw [List.nil_append] at h' hrest
  have hlenrest : (rest 16 input).length = input.length % 16 := length_rest 16 input
  dsimp only
  rw [kGhashBlockNumBytes]
  split_ifs with hpartial
  · have hval : (part.clear_from (input.length % 16)).val = Gcm.of_bytes (rest 16 input) := by
      rw [Block.val_clear_from _ (by omega), ← hlenrest, hrest]
    refine (ghash_process_block_laps h' _ _).mono ?_
    rintro ctx'' t ⟨rfl, h''⟩
    refine ⟨rfl, ?_⟩
    rwa [hblocks, @Gcm.blocks_of_le (rest 16 input) (by omega) (by omega), ← hval,
      ← List.append_assoc]
  · have hnil : rest 16 input = [] := by
      rw [← List.length_eq_zero_iff]
      omega
    refine Does.pure ⟨rfl, ?_⟩
    rwa [hblocks, hnil, Gcm.blocks_nil, List.append_nil]

/-! ## A text that does not wrap the count -/

theorem ghash_process_full_blocks_does (h : Hashes ctx H S Xs) {part : Block} {held : List u8}
    (hpart : part.bytes.take held.length = held) (hheld : held.length < 16) (input : List u8)
    (hlen : Xs.length + (held.length + input.length) / 16 < 2 ^ 32) (s : Device) :
    Does (ghash_process_full_blocks ctx held.length part input) s fun r t => t = s ∧
      Hashes r.1 H S (Xs ++ Gcm.blocks (full 16 (held ++ input))) ∧
      r.2.bytes.take (rest 16 (held ++ input)).length = rest 16 (held ++ input) := by
  have hcount : (Xs ++ Gcm.blocks (full 16 (held ++ input))).length ≤ 2 ^ 32 := by
    rw [List.length_append, Gcm.length_blocks, length_full, List.length_append]
    omega
  refine (ghash_process_full_blocks_laps ((laps_iff (by omega)).mpr h) hpart hheld input s).mono ?_
  rintro r t ⟨ht, hlaps, hrest⟩
  exact ⟨ht, (laps_iff hcount).mp hlaps, hrest⟩

theorem ghash_update_does (h : Hashes ctx H S Xs) (input : List u8)
    (hlen : Xs.length + input.length / 16 < 2 ^ 32) (s : Device) :
    Does (ghash_update ctx input) s fun ctx' t => t = s ∧
      Hashes ctx' H S (Xs ++ Gcm.blocks input) := by
  have hcount : (Xs ++ Gcm.blocks input).length ≤ 2 ^ 32 := by
    rw [List.length_append, Gcm.length_blocks]
    omega
  refine (ghash_update_laps ((laps_iff (by omega)).mpr h) input s).mono ?_
  rintro ctx' t ⟨ht, hlaps⟩
  exact ⟨ht, (laps_iff hcount).mp hlaps⟩

/-! ## Updating twice -/

theorem hardened_check_steady (c : Prop) [Decidable c] : Steady (hardened_check c) := by
  unfold hardened_check
  split_ifs
  · exact Steady.pure _
  · exact Steady.trap

theorem ghash_process_block_steady (ctx : GhashContext) (b : Block) :
    Steady (ghash_process_block ctx b) :=
  Steady.bind (hardened_check_steady _) fun _ => Steady.pure _

theorem ghash_remaining_blocks_steady (ctx : GhashContext) (part : Block) (input : List u8) :
    Steady (ghash_remaining_blocks ctx part input) := by
  induction hn : input.length using Nat.strong_induction_on generalizing ctx part input with
  | _ n ih =>
    rw [ghash_remaining_blocks]
    split
    · rename_i hge
      rw [kGhashBlockNumBytes] at hge
      refine Steady.bind (ghash_process_block_steady _ _) fun ctx' => ?_
      exact ih (input.length - 16) (by omega) ctx' _ _ List.length_drop
    · exact Steady.pure _

theorem ghash_update_steady (ctx : GhashContext) (input : List u8) :
    Steady (ghash_update ctx input) := by
  refine Steady.bind ?_ fun r => ?_
  · unfold ghash_process_full_blocks
    split_ifs
    · exact Steady.pure _
    · exact Steady.bind (ghash_process_block_steady _ _) fun ctx' =>
        ghash_remaining_blocks_steady _ _ _
  · dsimp only
    split_ifs
    · exact ghash_process_block_steady _ _
    · exact Steady.pure _

/-- Updating twice comes to the same, so the comparison of the two never fails. -/
theorem ghash_update_redundant_does (h : Hashes ctx H S Xs) (input : List u8)
    (hlen : Xs.length + input.length / 16 < 2 ^ 32) (s : Device) :
    Does (ghash_update_redundant ctx input) s fun ctx' t => t = s ∧
      Hashes ctx' H S (Xs ++ Gcm.blocks input) := by
  obtain ⟨ctx', hpure, -, h'⟩ :=
    (ghash_update_steady ctx input).eq_pure (ghash_update_does h input hlen s)
  rw [ghash_update_redundant, hpure]
  have hsame : hardened_memeq ctx'.state0.bytes ctx'.state0.bytes = kHardenedBoolTrue := by
    rw [hardened_memeq_eq _ _ rfl, if_pos rfl]
  exact hardened_check_bind hsame (Does.pure ⟨rfl, h'⟩)

/-- The final sum is unmasked. -/
theorem ghash_final_does (h : Hashes ctx H S Xs) (hne : Xs ≠ []) (s : Device) :
    Does (ghash_final ctx) s fun result t => t = s ∧ result.val = Gcm.ghash H Xs ^^^ S := by
  obtain ⟨⟨H0, H1, hm, hH⟩, -, hstate⟩ := h
  refine hardened_check_bind (checksum_check hm.checksum) (Does.pure ⟨rfl, ?_⟩)
  simp only [hardened_xor_block_eq, val_block_xor]
  rw [hstate hne, BitVec.xor_assoc, hm.shares]

/-- A new hash has taken in nothing, and its state is random. -/
theorem ghash_init_does (h : Keyed ctx H S) (s : Device) :
    Does (ghash_init ctx) s fun ctx' t => (∃ entropy, t = { s with entropy := entropy }) ∧
      Hashes ctx' H S [] := by
  obtain ⟨H0, H1, hm, hH⟩ := h
  refine memshred_block_bind fun state0 entropy => memshred_block_bind fun state1 entropy' => ?_
  refine Does.pure ⟨⟨entropy', rfl⟩, ⟨H0, H1, ?_, hH⟩, rfl, nofun⟩
  exact ⟨hm.tbl0, hm.tbl1, hm.shares, hm.term0, hm.term1, hm.term1_init,
    ghash_context_integrity_checksum_congr rfl rfl rfl⟩

end

end IbexFirmware.Aes
