/-
What the AES-GCM operations leave alone.

However an operation on a context ends, with a result, with an error of a driver or at a
check, the instruction cache, the slots of the key manager and the keys of the callers are
what they were (`Frame`). The functions are gone through in the order in which they call
one another.
-/
import IbexFirmware.AesGcmStream
import IbexFirmware.Lib.Session

set_option autoImplicit false

namespace IbexFirmware.Aes

open Bytes PowerFail Crypto HardenedMemory Session

variable {α β : Type}

/-- However it ends, the program changes only the entropy source and the AES registers. -/
def Frame (p : Proc Device CryptoError α) : Prop := ∀ s, Maintains (Kept s) p

/-! ## Rules -/

theorem Frame.pure (a : α) : Frame (pure a) := fun _ => Maintains.pure a

theorem Frame.throw (e : CryptoError) : Frame (Proc.throw e : Proc Device CryptoError α) :=
  fun _ => Maintains.throw e

theorem Frame.trap : Frame (Proc.trap : Proc Device CryptoError α) := fun _ => Maintains.trap

theorem Frame.ofExcept (r : Except CryptoError α) : Frame (Proc.ofExcept r) :=
  fun _ => Maintains.ofExcept r

theorem Frame.get {f : Device → Proc Device CryptoError α} (h : ∀ s, Frame (f s)) :
    Frame (Proc.get >>= f) :=
  fun s => Maintains.get fun t => h t s

theorem Frame.modify {g : Device → Device} (h : ∀ s, Kept s (g s)) :
    Frame (Proc.modify g : Proc Device CryptoError Unit) :=
  fun _ => Maintains.modify fun t ht => ht.trans (h t)

theorem Frame.driver {e : CryptoError} {g : Device → Device} (h : ∀ s, Kept s (g s)) :
    Frame (driver e g) :=
  fun _ => Maintains.step fun t ht => ht.trans (h t)

theorem Frame.bind {p : Proc Device CryptoError β} {f : β → Proc Device CryptoError α}
    (hp : Frame p) (hf : ∀ b, Frame (f b)) : Frame (p >>= f) :=
  fun s => Maintains.bind (hp s) fun b => hf b s

theorem Frame.ite {c : Prop} [Decidable c] {p q : Proc Device CryptoError α} (hp : Frame p)
    (hq : Frame q) : Frame (if c then p else q) :=
  fun s => Maintains.ite (fun _ => hp s) fun _ => hq s

theorem kept_regs (s : Device) (regs : Registers) : Kept s { s with regs := regs } :=
  ⟨rfl, rfl, rfl, rfl⟩

theorem entropy_complex_check_frame : Frame entropy_complex_check :=
  Frame.driver fun _ => Kept.rfl

theorem spin_until_frame : Frame spin_until := Frame.driver fun _ => Kept.rfl

theorem hardened_check_frame (c : Prop) [Decidable c] : Frame (hardened_check c) :=
  Frame.ite (Frame.pure ()) Frame.trap

theorem memshred_frame (n : ℕ) : Frame (memshred n) :=
  Frame.get fun _ => Frame.bind (Frame.modify fun t => kept_entropy t _) fun _ => Frame.pure _

theorem memshred_block_frame : Frame memshred_block :=
  Frame.bind (memshred_frame _) fun _ => Frame.pure _

/-! ## The AES driver -/

theorem write_shares_frame (key : AesKey) : Frame (write_shares key) :=
  Frame.bind (memshred_frame _) fun _ => Frame.bind (Frame.modify fun s => kept_regs s _) fun _ =>
    Frame.bind (memshred_frame _) fun _ => Frame.modify fun s => kept_regs s _

theorem aes_write_key_frame (key : AesKey) : Frame (aes_write_key key) :=
  Frame.ite (hardened_check_frame _) (Frame.bind (write_shares_frame key) fun _ =>
    Frame.get fun _ => Frame.bind (hardened_check_frame _) fun _ => spin_until_frame)

theorem write_iv_frame (mode : u32) (iv : Block) : Frame (write_iv mode iv) :=
  Frame.ite (Frame.modify fun s => kept_regs s _) (Frame.pure ())

theorem check_ctrl_reg_frame (ctrl : Ctrl) : Frame (check_ctrl_reg ctrl) :=
  Frame.get fun _ => hardened_check_frame _

theorem aes_begin_frame (key : AesKey) (iv : Block) (encrypt : u32) :
    Frame (aes_begin key iv encrypt) := by
  refine Frame.bind entropy_complex_check_frame fun _ => Frame.bind spin_until_frame fun _ => ?_
  refine Frame.bind (Frame.ofExcept _) fun ctrl => ?_
  refine Frame.bind (Frame.modify fun s => kept_regs s _) fun _ => ?_
  refine Frame.bind spin_until_frame fun _ => Frame.bind (aes_write_key_frame key) fun _ => ?_
  refine Frame.bind (write_iv_frame _ _) fun _ => Frame.bind (check_ctrl_reg_frame ctrl) fun _ => ?_
  exact spin_until_frame

theorem aes_verify_ctrl_reg_frame (key : AesKey) (encrypt : u32) :
    Frame (aes_verify_ctrl_reg key encrypt) :=
  Frame.bind (Frame.ofExcept _) fun ctrl => check_ctrl_reg_frame ctrl

theorem aes_update_out_frame : Frame aes_update_out := by
  refine Frame.get fun s => ?_
  cases s.regs.data_out with
  | none => exact Frame.throw _
  | some dest =>
    exact Frame.bind spin_until_frame fun _ => Frame.bind (Frame.modify fun s => kept_regs s _)
      fun _ => Frame.pure dest

theorem aes_end_frame : Frame aes_end := Frame.driver fun s => kept_regs s _

variable (hw : Hardware)

theorem Device.kept_feed (s : Device) (src : Block) : Kept s (s.feed hw src) := by
  unfold Device.feed
  cases s.regs.ctrl with
  | none => exact Kept.rfl
  | some ctrl => exact kept_regs s _

theorem aes_update_in_frame (src : Block) : Frame (aes_update_in hw src) :=
  Frame.driver fun s => s.kept_feed hw src

/-! ## Blocks -/

theorem aes_encrypt_first_frame (key : AesKey) (iv input : Block) :
    Frame (aes_encrypt_first hw key iv input) :=
  Frame.bind (aes_begin_frame _ _ _) fun _ => Frame.bind (aes_update_in_frame hw _) fun _ =>
    aes_update_out_frame

theorem aes_decrypt_check_frame (key : AesKey) (iv input output : Block) :
    Frame (aes_decrypt_check hw key iv input output) :=
  Frame.bind (aes_verify_ctrl_reg_frame _ _) fun _ => Frame.bind (aes_begin_frame _ _ _) fun _ =>
    Frame.bind (aes_update_in_frame hw _) fun _ => Frame.bind aes_update_out_frame fun _ =>
      Frame.bind aes_end_frame fun _ => hardened_check_frame _

theorem aes_encrypt_block_frame (key : AesKey) (iv input : Block) (security_level : u32) :
    Frame (aes_encrypt_block hw key iv input security_level) :=
  Frame.bind (aes_encrypt_first_frame hw _ _ _) fun _ =>
    Frame.ite (Frame.bind aes_end_frame fun _ => Frame.pure _)
      (Frame.bind (aes_decrypt_check_frame hw _ _ _ _) fun _ => Frame.pure _)

theorem gctr_process_block_frame (key : AesKey) (iv input : Block) (security_level : u32) :
    Frame (gctr_process_block hw key iv input security_level) :=
  Frame.bind (aes_encrypt_block_frame hw _ _ _ _) fun _ => Frame.pure _

theorem gctr_remaining_blocks_frame (key : AesKey) (security_level : u32) (st : GctrState)
    (input : List u8) : Frame (gctr_remaining_blocks hw key security_level st input) := by
  induction hn : input.length using Nat.strong_induction_on generalizing st input with
  | _ n ih =>
    rw [gctr_remaining_blocks]
    split
    · rename_i hge
      have hdrop : (input.drop kAesBlockNumBytes).length < n := by
        rw [List.length_drop, ← hn]
        unfold kAesBlockNumBytes at *
        omega
      exact Frame.bind (gctr_process_block_frame hw _ _ _ _) fun _ => ih _ hdrop _ _ rfl
    · exact Frame.pure _

theorem aes_gcm_gctr_frame (key : AesKey) (iv : Block) (partial_len : ℕ) (part : Block)
    (input : List u8) (security_level : u32) :
    Frame (aes_gcm_gctr hw key iv partial_len part input security_level) :=
  Frame.ite (Frame.throw _) (Frame.ite (Frame.pure _)
    (Frame.bind (gctr_process_block_frame hw _ _ _ _) fun _ => gctr_remaining_blocks_frame hw _ _ _ _))

/-! ## The hash -/

theorem ghash_init_frame (ctx : GhashContext) : Frame (ghash_init ctx) :=
  Frame.bind memshred_block_frame fun _ => Frame.bind memshred_block_frame fun _ => Frame.pure _

theorem ghash_process_block_frame (ctx : GhashContext) (block : Block) :
    Frame (ghash_process_block ctx block) :=
  Frame.bind (hardened_check_frame _) fun _ => Frame.pure _

theorem ghash_remaining_blocks_frame (ctx : GhashContext) (part : Block) (input : List u8) :
    Frame (ghash_remaining_blocks ctx part input) := by
  induction hn : input.length using Nat.strong_induction_on generalizing ctx part input with
  | _ n ih =>
    rw [ghash_remaining_blocks]
    split
    · rename_i hge
      have hdrop : (input.drop kGhashBlockNumBytes).length < n := by
        rw [List.length_drop, ← hn]
        unfold kGhashBlockNumBytes at *
        omega
      exact Frame.bind (ghash_process_block_frame _ _) fun _ => ih _ hdrop _ _ _ rfl
    · exact Frame.pure _

theorem ghash_process_full_blocks_frame (ctx : GhashContext) (partial_len : ℕ) (part : Block)
    (input : List u8) : Frame (ghash_process_full_blocks ctx partial_len part input) :=
  Frame.ite (Frame.pure _)
    (Frame.bind (ghash_process_block_frame _ _) fun _ => ghash_remaining_blocks_frame _ _ _)

theorem ghash_update_frame (ctx : GhashContext) (input : List u8) : Frame (ghash_update ctx input) :=
  Frame.bind (ghash_process_full_blocks_frame _ _ _ _) fun _ =>
    Frame.ite (ghash_process_block_frame _ _) (Frame.pure _)

theorem ghash_update_redundant_frame (ctx : GhashContext) (input : List u8) :
    Frame (ghash_update_redundant ctx input) :=
  Frame.bind (ghash_update_frame _ _) fun _ => Frame.bind (ghash_update_frame _ _) fun _ =>
    Frame.bind (hardened_check_frame _) fun _ => Frame.pure _

theorem ghash_update_level_frame (security_level : u32) (ctx : GhashContext) (input : List u8) :
    Frame (ghash_update_level security_level ctx input) :=
  Frame.ite (ghash_update_redundant_frame _ _) (ghash_update_frame _ _)

theorem ghash_final_frame (ctx : GhashContext) : Frame (ghash_final ctx) :=
  Frame.bind (hardened_check_frame _) fun _ => Frame.pure _

/-! ## Messages -/

theorem aes_gcm_hash_subkey_frame (key : AesKey) (security_level : u32) (ctx : GhashContext) :
    Frame (aes_gcm_hash_subkey hw key security_level ctx) :=
  Frame.bind (aes_encrypt_block_frame hw _ _ _ _) fun _ => Frame.bind memshred_block_frame fun _ =>
    Frame.pure _

theorem aes_gcm_counter_hash_frame (iv : List u32) (ctx : GhashContext) :
    Frame (aes_gcm_counter_hash iv ctx) :=
  Frame.bind memshred_block_frame fun _ => Frame.bind memshred_block_frame fun _ =>
    Frame.bind (ghash_init_frame _) fun _ => Frame.bind (ghash_update_frame _ _) fun _ =>
      Frame.bind (ghash_update_frame _ _) fun _ => Frame.bind (ghash_final_frame _) fun _ =>
        Frame.pure _

theorem aes_gcm_counter_frame (iv : List u32) (ctx : GhashContext) :
    Frame (aes_gcm_counter iv ctx) :=
  Frame.ite (Frame.pure _) (Frame.ite (aes_gcm_counter_hash_frame iv ctx) (Frame.throw _))

theorem aes_gcm_init_masks_frame (key : AesKey) (ctx : AesGcmContext) :
    Frame (aes_gcm_init_masks hw key ctx) :=
  Frame.bind (aes_encrypt_block_frame hw _ _ _ _) fun _ => Frame.bind memshred_block_frame fun _ =>
    ghash_init_frame _

theorem aes_gcm_init_frame (key : AesKey) (iv : List u32) (ctx : AesGcmContext) :
    Frame (aes_gcm_init hw key iv ctx) :=
  Frame.ite (Frame.throw _) (Frame.get fun _ => Frame.bind (hardened_check_frame _) fun _ =>
    Frame.bind (aes_gcm_hash_subkey_frame hw _ _ _) fun _ =>
      Frame.bind (aes_gcm_counter_frame _ _) fun _ =>
        Frame.bind (aes_gcm_init_masks_frame hw _ _) fun _ => Frame.pure _)

theorem aes_gcm_update_aad_frame (ctx : AesGcmContext) (aad : List u8) :
    Frame (aes_gcm_update_aad ctx aad) :=
  Frame.ite (Frame.pure _) (Frame.ite (Frame.throw _) (Frame.ite (Frame.throw _)
    (Frame.bind (ghash_process_full_blocks_frame _ _ _ _) fun _ => Frame.pure _)))

theorem finish_aad_frame (ctx : AesGcmContext) : Frame (finish_aad ctx) :=
  Frame.ite (Frame.bind (ghash_update_level_frame _ _ _) fun _ => Frame.pure _) (Frame.pure _)

theorem accumulate_frame (ctx : AesGcmContext) (input output : List u8) :
    Frame (accumulate ctx input output) :=
  Frame.ite (Frame.ite (Frame.throw _) (ghash_process_full_blocks_frame _ _ _ _))
    (Frame.ite (ghash_process_full_blocks_frame _ _ _ _) (Frame.throw _))

theorem aes_gcm_update_encrypted_data_frame (ctx : AesGcmContext) (input : List u8) :
    Frame (aes_gcm_update_encrypted_data hw ctx input) :=
  Frame.ite (Frame.pure _) (Frame.ite (Frame.throw _)
    (Frame.bind (finish_aad_frame _) fun _ => Frame.bind (aes_gcm_gctr_frame hw _ _ _ _ _ _) fun _ =>
      Frame.bind (accumulate_frame _ _ _) fun _ => Frame.pure _))

theorem final_block_frame (ctx : AesGcmContext) : Frame (final_block hw ctx) :=
  Frame.ite (Frame.pure _)
    (Frame.bind (gctr_process_block_frame hw _ _ _ _) fun _ => Frame.pure _)

theorem final_accumulate_frame (ctx : AesGcmContext) (output : List u8) :
    Frame (final_accumulate ctx output) :=
  Frame.ite (Frame.ite (ghash_update_level_frame _ _ _) (Frame.pure _))
    (Frame.ite (ghash_update_level_frame _ _ _) (Frame.throw _))

theorem aes_gcm_get_tag_frame (ctx : AesGcmContext) (tag_len : ℕ) :
    Frame (aes_gcm_get_tag ctx tag_len) :=
  Frame.bind (ghash_update_level_frame _ _ _) fun _ => Frame.bind (ghash_final_frame _) fun _ =>
    Frame.pure _

theorem aes_gcm_final_frame (ctx : AesGcmContext) (tag_len : ℕ) :
    Frame (aes_gcm_final hw ctx tag_len) :=
  Frame.bind (finish_aad_frame _) fun _ => Frame.bind (final_block_frame hw _) fun _ =>
    Frame.bind (final_accumulate_frame _ _) fun _ => Frame.bind (aes_gcm_get_tag_frame _ _) fun _ =>
      Frame.pure _

theorem aes_gcm_decrypt_final_frame (ctx : AesGcmContext) (tag : List u32) :
    Frame (aes_gcm_decrypt_final hw ctx tag) :=
  Frame.bind (aes_gcm_final_frame hw _ _) fun _ => Frame.ite (Frame.pure _) (Frame.pure _)

theorem aes_gcm_encrypt_frame (key : AesKey) (iv : List u32) (plaintext aad : List u8)
    (tag_len : ℕ) (ctx : AesGcmContext) :
    Frame (aes_gcm_encrypt hw key iv plaintext aad tag_len ctx) :=
  Frame.bind (aes_gcm_init_frame hw _ _ _) fun _ => Frame.bind (aes_gcm_update_aad_frame _ _) fun _ =>
    Frame.bind (aes_gcm_update_encrypted_data_frame hw _ _) fun _ =>
      Frame.bind (aes_gcm_final_frame hw _ _) fun _ => Frame.pure _

theorem aes_gcm_decrypt_frame (key : AesKey) (iv : List u32) (ciphertext aad : List u8)
    (tag : List u32) (ctx : AesGcmContext) :
    Frame (aes_gcm_decrypt hw key iv ciphertext aad tag ctx) :=
  Frame.bind (aes_gcm_init_frame hw _ _ _) fun _ => Frame.bind (aes_gcm_update_aad_frame _ _) fun _ =>
    Frame.bind (aes_gcm_update_encrypted_data_frame hw _ _) fun _ =>
      Frame.bind (aes_gcm_decrypt_final_frame hw _ _) fun _ => Frame.pure _

end IbexFirmware.Aes
