/-
GHASH over any calls.

A caller sets a context up with two shares of a subkey and two shares of a block, hands over
text in any calls of `ghash_update` and `ghash_process_full_blocks`, and takes the hash.
`masked_ghash_does` says what comes out, by induction on the calls: the hash of the blocks of
all of them and the block, whatever the shares and the words that the state begins with are.

The count of the blocks is a word. After `2 ^ 32` blocks it is zero again, and the next block
is taken for the first one: the hash is that of the blocks from there on (`lap`).
-/
import IbexFirmware.GhashMasked

set_option autoImplicit false

namespace IbexFirmware.Aes

open Bytes PowerFail Crypto HardenedMemory Chunks

/-! ## Calls -/

/-- A call that hands over text. The partial block is what an earlier call has left, or any
other. -/
inductive Feed where
  | update (input : List u8)
  | full_blocks (partial_len : ℕ) (part : Block) (input : List u8)

/-- The partial block is never full. -/
def Feed.Ready : Feed → Prop
  | .update _ => True
  | .full_blocks partial_len _ _ => partial_len < kGhashBlockNumBytes

/-- The blocks that a call takes in. -/
def Feed.blocks : Feed → List (BitVec 128)
  | .update input => Gcm.blocks input
  | .full_blocks partial_len part input =>
      Gcm.blocks (full 16 (part.bytes.take partial_len ++ input))

def fed (fs : List Feed) : List (BitVec 128) := fs.flatMap Feed.blocks

@[simp] theorem fed_nil : fed [] = [] := rfl

@[simp] theorem fed_cons (f : Feed) (fs : List Feed) : fed (f :: fs) = f.blocks ++ fed fs := rfl

def Feed.run (ctx : GhashContext) : Feed → Proc Device CryptoError GhashContext
  | .update input => ghash_update ctx input
  | .full_blocks partial_len part input => do
      let (ctx, _) ← ghash_process_full_blocks ctx partial_len part input
      pure ctx

def feed (ctx : GhashContext) : List Feed → Proc Device CryptoError GhashContext
  | [] => pure ctx
  | f :: fs => do
      let ctx ← f.run ctx
      feed ctx fs

/-- A whole hash: the tables, the correction terms, the calls, and the end. -/
def masked_ghash (subkey0 subkey1 share0 share1 : Block) (ctx : GhashContext) (fs : List Feed) :
    Proc Device CryptoError Block := do
  let ctx := { ctx with
    tbl0 := ghash_init_subkey subkey0 ctx.tbl0
    tbl1 := ghash_init_subkey subkey1 ctx.tbl1 }
  let ctx := ghash_handle_enc_initial_counter_block share0 share1 ctx
  let ctx ← ghash_init ctx
  let ctx ← feed ctx fs
  ghash_final ctx

/-! ## What they make -/

section

variable {ctx : GhashContext} {H S : BitVec 128} {Xs : List (BitVec 128)}

theorem Feed.run_laps (h : Laps ctx H S Xs) {f : Feed} (hready : f.Ready) (s : Device) :
    Does (f.run ctx) s fun ctx' t => t = s ∧ Laps ctx' H S (Xs ++ f.blocks) := by
  cases f with
  | update input => exact ghash_update_laps h input s
  | full_blocks partial_len part input =>
    have hlen : partial_len < 16 := hready
    have htake : (part.bytes.take partial_len).length = partial_len := by
      rw [List.length_take, Block.length_bytes]
      omega
    have hheld : part.bytes.take (part.bytes.take partial_len).length = part.bytes.take partial_len := by
      rw [htake]
    have hcall := ghash_process_full_blocks_laps h hheld (by omega) input s
    rw [htake] at hcall
    refine Does.bind hcall ?_
    rintro ⟨ctx', left⟩ t ⟨ht, hlaps, -⟩
    exact Does.pure ⟨ht, hlaps⟩

/-- All calls, by induction. -/
theorem feed_laps (fs : List Feed) (h : Laps ctx H S Xs) (hready : ∀ f ∈ fs, f.Ready)
    (s : Device) :
    Does (feed ctx fs) s fun ctx' t => t = s ∧ Laps ctx' H S (Xs ++ fed fs) := by
  induction fs generalizing ctx Xs s with
  | nil => exact Does.pure ⟨rfl, by rwa [fed_nil, List.append_nil]⟩
  | cons f fs ih =>
    refine Does.bind (Feed.run_laps h (hready f List.mem_cons_self) s) ?_
    rintro ctx' t ⟨ht, hlaps⟩
    refine (ih hlaps (fun g hg => hready g (List.mem_cons_of_mem f hg)) t).mono ?_
    rintro ctx'' u ⟨hu, hlaps'⟩
    exact ⟨hu.trans ht, by rwa [fed_cons, ← List.append_assoc]⟩

theorem lap_ne_nil {α : Type} {Xs : List α} (h : Xs ≠ []) : lap Xs ≠ [] := by
  have hpos := List.length_pos_iff.mpr h
  rw [lap, ← List.length_pos_iff, List.length_drop]
  omega

theorem masked_ghash_does (subkey0 subkey1 share0 share1 : Block) (ctx : GhashContext)
    {fs : List Feed} (hready : ∀ f ∈ fs, f.Ready) (hne : fed fs ≠ []) (s : Device) :
    Does (masked_ghash subkey0 subkey1 share0 share1 ctx fs) s fun result _ =>
      result.val = Gcm.ghash (subkey0.val ^^^ subkey1.val) (lap (fed fs)) ^^^
        (share0.val ^^^ share1.val) := by
  have hsubkeyed : Subkeyed { ctx with
      tbl0 := ghash_init_subkey subkey0 ctx.tbl0
      tbl1 := ghash_init_subkey subkey1 ctx.tbl1 } (subkey0.val ^^^ subkey1.val) :=
    ⟨subkey0.val, subkey1.val, table_init_subkey _ _, table_init_subkey _ _, rfl⟩
  refine Does.bind (ghash_init_does (keyed_handle hsubkeyed share0 share1) s) ?_
  rintro ctx₁ t ⟨-, hinit⟩
  have hlaps : Laps ctx₁ (subkey0.val ^^^ subkey1.val) (share0.val ^^^ share1.val) [] :=
    (laps_iff (by simp)).mpr hinit
  refine Does.bind (feed_laps fs hlaps hready t) ?_
  rintro ctx₂ u ⟨-, hfed⟩
  rw [List.nil_append] at hfed
  exact (ghash_final_does hfed (lap_ne_nil hne) _).mono fun _ _ h => h.2

end

/-! ## The hash of the standard -/

/-- Multiplication by a table is that of the field, and up to `2 ^ 32` blocks the masked hash is
that of the standard and the encrypted initial counter block. Beyond that it is the hash of the
blocks that have come since the count was last zero. -/
theorem masked_ghash_exact (subkey0 subkey1 share0 share1 : Block) (ctx : GhashContext)
    {fs : List Feed} (hready : ∀ f ∈ fs, f.Ready) (hne : fed fs ≠ []) (s : Device) :
    (∀ x subkey tbl, (galois_mul_state_key x (ghash_init_subkey subkey tbl)).val =
      Gcm.mul x.val subkey.val) ∧
    Does (masked_ghash subkey0 subkey1 share0 share1 ctx fs) s fun result _ =>
      result.val = Gcm.ghash (subkey0.val ^^^ subkey1.val) (lap (fed fs)) ^^^
        (share0.val ^^^ share1.val) ∧
      ((fed fs).length ≤ 2 ^ 32 →
        result.val = Gcm.ghash (subkey0.val ^^^ subkey1.val) (fed fs) ^^^
          (share0.val ^^^ share1.val)) := by
  constructor
  · intro x subkey tbl
    exact val_galois_mul_state_key (table_init_subkey subkey tbl) x
  · refine (masked_ghash_does subkey0 subkey1 share0 share1 ctx hready hne s).mono ?_
    intro result t hresult
    refine ⟨hresult, fun hlen => ?_⟩
    rwa [lap_of_le hlen] at hresult

/-- The element one, of which every power is one. -/
def one_block : Block := ⟨0x80, 0, 0, 0⟩

def zero_ghash_context : GhashContext where
  tbl0 := fun _ => Block.zero
  tbl1 := fun _ => Block.zero
  state0 := Block.zero
  state1 := Block.zero
  correction_term0 := Block.zero
  correction_term1 := Block.zero
  correction_term1_init := Block.zero
  enc_initial_counter_block0 := Block.zero
  enc_initial_counter_block1 := Block.zero
  ghash_block_cnt := 0
  checksum := 0

/-- A block and `n` blocks of zeros, every one in a call of its own. -/
def padded_feeds (n : ℕ) : List Feed :=
  .update one_block.bytes :: List.replicate n (.update (List.replicate 16 0))

theorem padded_feeds_ready (n : ℕ) : ∀ f ∈ padded_feeds n, f.Ready := by
  intro f hf
  rcases List.mem_cons.mp hf with rfl | hf
  · trivial
  · rw [List.eq_of_mem_replicate hf]
    trivial

theorem fed_padded_feeds (n : ℕ) : fed (padded_feeds n) = one_block.val :: List.replicate n 0#128 := by
  have hone : Gcm.blocks one_block.bytes = [one_block.val] := by decide
  have hzero : Gcm.blocks (List.replicate 16 0) = [0#128] := by decide
  have hrest : fed (List.replicate n (.update (List.replicate 16 0))) =
      List.replicate n 0#128 := by
    induction n with
    | zero => rfl
    | succ n ih =>
        rw [List.replicate_succ, fed_cons, ih, Feed.blocks, hzero]
        rfl
  rw [padded_feeds, fed_cons, hrest, Feed.blocks, hone]
  rfl

/-- The zeros leave the one where it is. -/
theorem ghash_padded (n : ℕ) :
    Gcm.ghash one_block.val (one_block.val :: List.replicate n 0#128) = one_block.val := by
  have hone : Gcm.mul one_block.val one_block.val = one_block.val := by decide +kernel
  have hzeros : ∀ k, Gcm.ghash_from one_block.val one_block.val (List.replicate k 0#128) =
      one_block.val := by
    intro k
    induction k with
    | zero => rfl
    | succ k ih =>
        rw [Gcm.ghash_from, List.replicate_succ, List.foldl_cons, Gcm.ghash_step, BitVec.xor_zero,
          hone]
        exact ih
  rw [Gcm.ghash, Gcm.ghash_from, List.foldl_cons, Gcm.ghash_step, BitVec.zero_xor, hone]
  exact hzeros n

theorem lap_one_more {α : Type} {n : ℕ} (hn : n = 2 ^ 32) (x y : α) :
    lap (x :: List.replicate n y) = [y] := by
  have hdrop : 2 ^ 32 * ((n + 1 - 1) / 2 ^ 32) = (n - 1) + 1 := by omega
  have hone : n - (n - 1) = 1 := by omega
  rw [lap, List.length_cons, List.length_replicate, hdrop, List.drop_succ_cons, List.drop_replicate,
    hone]
  rfl

def idle_device : Device where
  entropy := ⟨fun _ => 0, 0⟩
  icache := true
  aes_slot := ⟨none, 0⟩
  kmac_slot := ⟨none, 0⟩
  regs := ⟨none, [], [], Block.zero, none⟩
  keys := fun _ => ⟨⟨0, 0, 0, 0, 0, 0⟩, 0, none, 0⟩

/-- The ciphertext of a block of zeros, under a key of zeros, and the block of the lengths. -/
def two_feeds : List Feed :=
  [.update [0x03, 0x88, 0xda, 0xce, 0x60, 0xb6, 0xa3, 0x92,
      0xf3, 0x28, 0xc2, 0xb9, 0x71, 0xb2, 0xfe, 0x78],
    .update (List.replicate 15 0 ++ [0x80])]

/-- Its tag. The hash subkey and the encrypted counter block come in shares, of which none is the
value itself. -/
theorem masked_ghash_exact_two_blocks : Does (masked_ghash
    ⟨0xd749e866, 0x3c2a8feb, 0x52f04580, 0x212539c6⟩
    ⟨0x03020100, 0x07060504, 0x0b0a0908, 0x0f0e0d0c⟩
    ⟨0x0d2e03a8, 0xe6a6db4e, 0x1c47164e, 0x555bca98⟩
    ⟨0xc3d2e1f0, 0x8796a5b4, 0x4b5a6978, 0x0f1e2d3c⟩
    zero_ghash_context two_feeds) idle_device
      fun result _ => result.val = 0xab6e47d42cec13bdf53a67b21257bddf#128 := by
  have hready : ∀ f ∈ two_feeds, f.Ready := by
    intro f hf
    obtain rfl | rfl := by simpa [two_feeds] using hf
    · trivial
    · trivial
  have hfed : fed two_feeds = [0x0388dace60b6a392f328c2b971b2fe78#128, 0x80#128] := by decide
  refine (masked_ghash_exact _ _ _ _ zero_ghash_context hready (by rw [hfed]; exact nofun)
    idle_device).2.mono fun result t hresult => ?_
  rw [hresult.2 (by rw [hfed]; decide), hfed]
  decide +kernel

/-- One block more than a word can count, and the first one is lost. -/
theorem counted_blocks_lost : ¬ ∀ fs : List Feed, (∀ f ∈ fs, f.Ready) → fed fs ≠ [] →
    Does (masked_ghash one_block Block.zero Block.zero Block.zero zero_ghash_context fs) idle_device
      fun result _ => result.val = Gcm.ghash (one_block.val ^^^ Block.zero.val) (fed fs) ^^^
        (Block.zero.val ^^^ Block.zero.val) := by
  intro h
  obtain ⟨n, hn⟩ : ∃ n, n = 2 ^ 32 := ⟨_, rfl⟩
  have hfed := fed_padded_feeds n
  have hne : fed (padded_feeds n) ≠ [] := by
    rw [hfed]
    exact List.cons_ne_nil _ _
  have hall := h (padded_feeds n) (padded_feeds_ready n) hne
  have hlap := masked_ghash_does one_block Block.zero Block.zero Block.zero zero_ghash_context
    (padded_feeds_ready n) hne idle_device
  obtain ⟨result, -, -, ⟨hleft, hright⟩, -⟩ :=
    (hall.and hlap).run (Machine.sound_mem idle_device) (Machine.sound_under idle_device)
  have hzero : one_block.val ^^^ Block.zero.val = one_block.val := by decide
  rw [hleft, hfed, lap_one_more hn, hzero, ghash_padded] at hright
  revert hright
  decide +kernel

end IbexFirmware.Aes
