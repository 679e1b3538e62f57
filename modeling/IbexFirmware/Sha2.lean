/-
SHA-2 on OTBN (`sha256.c`, `sha512.c`): what the two drivers share.

A driver loads the application, lays the blocks of the message one behind the other in a buffer
in the data memory of OTBN, and runs the application when the buffer is full and once more at
the end. The state stays in the data memory meanwhile. So the hash so far is at no moment in one
place: some blocks are in the state already, and the others wait in the buffer. `Pending` says
what the two together stand for, and every function keeps it: `process_block_does` adds a block,
`process_blocks_does` the full blocks of a message behind a partial one, and
`process_padding_does` the blocks that the padding makes of the rest.

The application is not part of the sources. `Program` is what it starts with and what it does
with one block. The variables of the application lie inside the data memory, so that a read or a
write of them does not fail. Loading and running the application, and wiping the memory, may.

The calls of a driver are made of the same few functions (`Functions`). `Implements` says of each
of them what it does to a context that stands for a message, and `calls_allowed` what callers then
see, whatever calls they make on whatever contexts.
-/
import IbexFirmware.CryptoKey
import IbexFirmware.Lib.Does
import IbexFirmware.Lib.Hasher
import IbexFirmware.Lib.Sha256
import IbexFirmware.Memory

set_option autoImplicit false

namespace IbexFirmware.Sha2

open Bytes PowerFail Session Crypto HardenedMemory Absorb Chunks Splice Hasher

/-! ## The application -/

/-- The variables of the application in the data memory. -/
structure Dmem where
  state : List u32
  msg : ℕ → List u8
  num_chunks : ℕ

def Dmem.wiped : Dmem := ⟨[], fun _ => [], 0⟩

/-- The state that the application is loaded with, and what it does to a state with one block as it
lies in the buffer. -/
structure Program where
  initial : List u32
  compress : List u32 → List u8 → List u32

/-- What the first `n` blocks of the buffer make of the state. -/
def Program.after (program : Program) (dmem : Dmem) (n : ℕ) : List u32 :=
  (List.range n).foldl (fun state i => program.compress state (dmem.msg i)) dmem.state

def Program.run (program : Program) (dmem : Dmem) : Dmem :=
  { dmem with state := program.after dmem dmem.num_chunks }

/-- What the drivers do not have in common: the bytes of a block, the words of the length behind the
message, how many blocks the buffer takes, and how a block is laid into it. -/
structure Layout where
  block_bytes : ℕ
  length_words : ℕ
  max_chunks : ℕ
  chunk : List u8 → List u8
  room : 4 * length_words < block_bytes
  max_pos : 0 < max_chunks

theorem Layout.pos (l : Layout) : 0 < l.block_bytes := Nat.zero_lt_of_lt l.room

/-- The data memory of OTBN, the contexts of the callers by their addresses, the source of random
words, and how often `process_message` has been entered. -/
structure Device (κ : Type) where
  dmem : Dmem
  contexts : ℕ → κ
  entropy : EntropySource
  frames : ℕ

section driver

variable {κ : Type}

def driver (e : CryptoError) (f : Device κ → Device κ) : Proc (Device κ) CryptoError Unit :=
  Proc.step e fun d => ((), f d)

def entropy_complex_check : Proc (Device κ) CryptoError Unit := driver .OTCRYPTO_RECOV_ERR id

def otbn_busy_wait_for_done : Proc (Device κ) CryptoError Unit := driver .OTCRYPTO_RECOV_ERR id

def otbn_dmem_sec_wipe : Proc (Device κ) CryptoError Unit :=
  driver .OTCRYPTO_RECOV_ERR fun d => { d with dmem := .wiped }

/-- A write to the data memory. -/
def otbn_dmem_write (f : Dmem → Dmem) : Proc (Device κ) CryptoError Unit :=
  Proc.modify fun d => { d with dmem := f d.dmem }

variable (program : Program) (l : Layout)

/-- Loading the application wipes the data memory and then writes the data of the application. -/
def otbn_load_app : Proc (Device κ) CryptoError Unit :=
  driver .OTCRYPTO_ASYNC_INCOMPLETE fun d =>
    { d with dmem := { Dmem.wiped with state := program.initial } }

/-- `otbn_execute`. The data memory cannot be read before the program is done, so what it computes
is put there at once. -/
def otbn_execute : Proc (Device κ) CryptoError Unit :=
  driver .OTCRYPTO_ASYNC_INCOMPLETE fun d => { d with dmem := program.run d.dmem }

/-- The number of blocks in the buffer is passed to a function and handed back by it. -/
def process_message_buffer (num_blocks : ℕ) : Proc (Device κ) CryptoError ℕ := do
  otbn_dmem_write fun dmem => { dmem with num_chunks := num_blocks }
  otbn_execute program
  Proc.cleanup otbn_busy_wait_for_done otbn_dmem_sec_wipe
  pure 0

def process_block (num_blocks : ℕ) (block : List u8) : Proc (Device κ) CryptoError ℕ := do
  otbn_dmem_write fun dmem => { dmem with msg := Function.update dmem.msg num_blocks (l.chunk block) }
  if num_blocks + 1 = l.max_chunks then process_message_buffer program (num_blocks + 1)
  else pure (num_blocks + 1)

/-- The last words of a block, the length's most significant word first, each with its bytes
swapped. -/
def write_length (block : List u8) (length : List u32) : List u8 :=
  splice block (l.block_bytes - 4 * length.length) (word_bytes (length.map Memory.bswap32))

/-- The block is handed back with the number of blocks. -/
def process_last_block (num_blocks : ℕ) (block : List u8) (length : List u32) :
    Proc (Device κ) CryptoError (ℕ × List u8) := do
  let block := write_length l block length
  let num_blocks ← process_block program l num_blocks block
  pure (num_blocks, block)

def process_padding (num_blocks : ℕ) (partial_block_len : ℕ) (length : List u32) (block : List u8) :
    Proc (Device κ) CryptoError (ℕ × List u8) := do
  let padding_len := l.block_bytes - partial_block_len
  let block := splice block partial_block_len (List.replicate padding_len 0)
  let block := splice block partial_block_len [0x80]
  if l.block_bytes < partial_block_len + 1 + 4 * l.length_words then do
    let num_blocks ← process_block program l num_blocks block
    process_last_block program l num_blocks (List.replicate l.block_bytes 0) length
  else process_last_block program l num_blocks block length

/-- The loop of `process_message`, and the copy of what is left of the message. -/
def process_blocks (num_blocks : ℕ) (block : List u8) (partial_block_len : Fin l.block_bytes)
    (msg : List u8) : Proc (Device κ) CryptoError (ℕ × List u8) :=
  if _h : l.block_bytes - partial_block_len ≤ msg.length then do
    let available_len := l.block_bytes - partial_block_len
    let block := splice block partial_block_len (msg.take available_len)
    let num_blocks ← process_block program l num_blocks block
    process_blocks num_blocks block ⟨0, l.pos⟩ (msg.drop (l.block_bytes - partial_block_len))
  else pure (num_blocks, splice block partial_block_len msg)
termination_by msg.length
decreasing_by
  rw [List.length_drop]
  omega

/-- `process_message` from its loop to the point where nothing waits in the buffer. The padding is
given by the length it ends with. -/
def process_all (block : List u8) (partial_block_len : Fin l.block_bytes) (msg : List u8)
    (padding : Option (ℕ × List u32)) : Proc (Device κ) CryptoError (List u8) := do
  let (num_blocks, block) ← process_blocks program l 0 block partial_block_len msg
  let (num_blocks, block) ← match padding with
    | none => pure (num_blocks, block)
    | some (partial_block_len, length) =>
        process_padding program l num_blocks partial_block_len length block
  if 0 < num_blocks then do
    let _ ← process_message_buffer program num_blocks
    pure block
  else pure block

end driver

/-! ## What they leave alone -/

section within

variable {κ : Type}

/-- No context has changed. -/
def SameContexts (d d' : Device κ) : Prop := d'.contexts = d.contexts

instance : IsPreorder (Device κ) SameContexts where
  refl _ := rfl
  trans _ _ _ h h' := h'.trans h

theorem driver_within {e : CryptoError} {f : Device κ → Device κ}
    (hf : ∀ d, (f d).contexts = d.contexts) : Within SameContexts (driver e f) := Within.step hf

theorem otbn_dmem_write_within (f : Dmem → Dmem) :
    Within SameContexts (otbn_dmem_write f : Proc (Device κ) CryptoError Unit) :=
  Within.modify fun _ => rfl

variable (program : Program) (l : Layout)

theorem process_message_buffer_within (num_blocks : ℕ) :
    Within SameContexts (process_message_buffer program num_blocks : Proc (Device κ) _ _) := by
  have hexecute : Within SameContexts (otbn_execute program : Proc (Device κ) _ _) :=
    driver_within fun _ => rfl
  have hwait : Within SameContexts (otbn_busy_wait_for_done : Proc (Device κ) _ _) :=
    driver_within fun _ => rfl
  have hwipe : Within SameContexts (otbn_dmem_sec_wipe : Proc (Device κ) _ _) :=
    driver_within fun _ => rfl
  refine (otbn_dmem_write_within _).bind fun _ => hexecute.bind fun _ => ?_
  exact (hwait.cleanup hwipe).bind fun _ => Within.pure 0

theorem process_block_within (num_blocks : ℕ) (block : List u8) :
    Within SameContexts (process_block program l num_blocks block : Proc (Device κ) _ _) := by
  refine (otbn_dmem_write_within _).bind fun _ => ?_
  split
  · exact process_message_buffer_within program _
  · exact Within.pure _

theorem process_last_block_within (num_blocks : ℕ) (block : List u8) (length : List u32) :
    Within SameContexts
      (process_last_block program l num_blocks block length : Proc (Device κ) _ _) :=
  (process_block_within program l num_blocks _).bind fun _ => Within.pure _

theorem process_padding_within (num_blocks partial_block_len : ℕ) (length : List u32)
    (block : List u8) : Within SameContexts
      (process_padding program l num_blocks partial_block_len length block :
        Proc (Device κ) _ _) := by
  unfold process_padding
  split
  · exact (process_block_within program l _ _).bind fun _ => process_last_block_within program l _ _ _
  · exact process_last_block_within program l _ _ _

theorem process_blocks_within (num_blocks : ℕ) (block : List u8)
    (partial_block_len : Fin l.block_bytes) (msg : List u8) : Within SameContexts
      (process_blocks program l num_blocks block partial_block_len msg : Proc (Device κ) _ _) := by
  induction hlen : msg.length using Nat.strong_induction_on
    generalizing num_blocks block partial_block_len msg with
  | _ len ih =>
      rw [process_blocks]
      split
      · refine (process_block_within program l _ _).bind fun _ => ?_
        have hshort : (msg.drop (l.block_bytes - partial_block_len)).length < len := by
          rw [List.length_drop]
          omega
        exact ih _ hshort _ _ _ _ rfl
      · exact Within.pure _

theorem process_all_within (block : List u8) (partial_block_len : Fin l.block_bytes)
    (msg : List u8) (padding : Option (ℕ × List u32)) : Within SameContexts
      (process_all program l block partial_block_len msg padding : Proc (Device κ) _ _) := by
  refine (process_blocks_within program l 0 block partial_block_len msg).bind fun r => ?_
  have hlast : ∀ r : ℕ × List u8, Within SameContexts (if 0 < r.1 then do
      let _ ← process_message_buffer program r.1
      pure r.2
    else pure r.2 : Proc (Device κ) CryptoError (List u8)) := by
    intro r
    split
    · exact (process_message_buffer_within program _).bind fun _ => Within.pure _
    · exact Within.pure _
  cases padding with
  | none => exact Within.bind (Within.pure (r.1, r.2)) hlast
  | some padding => exact Within.bind (process_padding_within program l _ _ _ _) hlast

end within

/-! ## What waits in the buffer -/

section pending

variable {κ S : Type} {program : Program} {l : Layout} {enc : S → List u32} {f : S → List u8 → S}
  {d : Device κ} {num_blocks : ℕ} {block : List u8} {x : S}

/-- The program does to a state in the data memory what `f` does to what it stands for. -/
def Program.Computes (program : Program) (l : Layout) (enc : S → List u32) (f : S → List u8 → S) :
    Prop :=
  ∀ x block, block.length = l.block_bytes →
    program.compress (enc x) (l.chunk block) = enc (f x block)

/-- The state in the data memory and the blocks that wait behind it stand for `x`, and there is
room for another block. -/
def Pending (program : Program) (l : Layout) (enc : S → List u32) (d : Device κ) (num_blocks : ℕ)
    (x : S) : Prop :=
  num_blocks < l.max_chunks ∧ program.after d.dmem num_blocks = enc x

theorem pending_zero (h : d.dmem.state = enc x) : Pending program l enc d 0 x := ⟨l.max_pos, h⟩

/-- A block that is laid behind the others. -/
theorem Program.after_update (dmem : Dmem) (n : ℕ) (chunk : List u8) :
    program.after { dmem with msg := Function.update dmem.msg n chunk } (n + 1) =
      program.compress (program.after dmem n) chunk := by
  have hbefore : program.after { dmem with msg := Function.update dmem.msg n chunk } n =
      program.after dmem n := by
    refine List.foldl_ext _ _ _ fun state i hi => ?_
    have hne : i ≠ n := Nat.ne_of_lt (List.mem_range.mp hi)
    dsimp only
    rw [Function.update_of_ne hne]
  rw [Program.after, List.range_succ, List.foldl_append, List.foldl_cons, List.foldl_nil]
  rw [Program.after] at hbefore
  rw [hbefore]
  dsimp only
  rw [Function.update_self]

theorem process_message_buffer_does (h : program.after d.dmem num_blocks = enc x) :
    Does (process_message_buffer program num_blocks) d fun n t => n = 0 ∧ t.dmem.state = enc x := by
  refine Does.modify_bind ?_
  refine Does.bind (R := fun _ t => t.dmem.state = enc x) (Does.step h) fun _ t ht => ?_
  refine Does.bind (R := fun _ t => t.dmem.state = enc x)
    (Does.cleanup (Does.step ht) fun _ => Does.step trivial) fun _ t ht => ?_
  exact Does.pure ⟨rfl, ht⟩

theorem process_block_does (hprogram : program.Computes l enc f)
    (h : Pending program l enc d num_blocks x) (hblock : block.length = l.block_bytes) :
    Does (process_block program l num_blocks block) d fun n t =>
      Pending program l enc t n (f x block) := by
  obtain ⟨hroom, hafter⟩ := h
  refine Does.modify_bind ?_
  have hnext : program.after { d.dmem with
      msg := Function.update d.dmem.msg num_blocks (l.chunk block) } (num_blocks + 1) =
        enc (f x block) := by
    rw [Program.after_update, hafter, hprogram x block hblock]
  split
  · refine (process_message_buffer_does hnext).mono ?_
    rintro _ t ⟨rfl, hstate⟩
    exact pending_zero hstate
  · exact Does.pure ⟨by omega, hnext⟩

/-- A stretch that reaches the end. -/
theorem splice_last {xs ys : List u8} {a n : ℕ} (hn : xs.length = n) (h : a + ys.length = n) :
    splice xs a ys = xs.take a ++ ys := by
  rw [splice, h, List.drop_of_length_le hn.le, List.append_nil]

/-- The full blocks of the message go into the hash, and the rest stays in the working block. The
induction is on the message, of which every round takes what completes the block. -/
theorem process_blocks_does (hprogram : program.Computes l enc f)
    (partial_block_len : Fin l.block_bytes) (msg : List u8)
    (h : Pending program l enc d num_blocks x) (hblock : block.length = l.block_bytes) :
    Does (process_blocks program l num_blocks block partial_block_len msg) d fun r t =>
      Pending program l enc t r.1
          (absorb l.block_bytes f x (block.take partial_block_len ++ msg)) ∧
        r.2.length = l.block_bytes ∧
        r.2.take ((partial_block_len + msg.length) % l.block_bytes) =
          rest l.block_bytes (block.take partial_block_len ++ msg) := by
  have hp := partial_block_len.isLt
  have hpos := l.pos
  have htake : (block.take partial_block_len).length = partial_block_len := by
    rw [List.length_take]
    omega
  induction hlen : msg.length using Nat.strong_induction_on
    generalizing d num_blocks block x partial_block_len msg with
  | _ len ih =>
      subst hlen
      rw [process_blocks]
      split
      case isTrue hfull =>
        have hpiece : (msg.take (l.block_bytes - partial_block_len)).length =
            l.block_bytes - partial_block_len := by
          rw [List.length_take]
          omega
        have hcomplete : splice block partial_block_len
            (msg.take (l.block_bytes - partial_block_len)) =
              block.take partial_block_len ++ msg.take (l.block_bytes - partial_block_len) :=
          splice_last hblock (by omega)
        have hcompleted : (splice block partial_block_len
            (msg.take (l.block_bytes - partial_block_len))).length = l.block_bytes := by
          rw [length_splice (by omega), hblock]
        have hlong : l.block_bytes ≤ (block.take partial_block_len ++ msg).length := by
          rw [List.length_append]
          omega
        have hfirst : (block.take partial_block_len ++ msg).take l.block_bytes =
            splice block partial_block_len (msg.take (l.block_bytes - partial_block_len)) := by
          rw [hcomplete, List.take_append, htake, List.take_of_length_le (by omega)]
        have hlater : (block.take partial_block_len ++ msg).drop l.block_bytes =
            msg.drop (l.block_bytes - partial_block_len) := by
          rw [List.drop_append, htake, List.drop_of_length_le (by omega), List.nil_append]
        refine Does.bind (process_block_does hprogram h hcompleted) fun n t ht => ?_
        have hshort : (msg.drop (l.block_bytes - partial_block_len)).length < msg.length := by
          rw [List.length_drop]
          omega
        have hmod : (partial_block_len + msg.length) % l.block_bytes =
            (0 + (msg.drop (l.block_bytes - partial_block_len)).length) % l.block_bytes := by
          rw [List.length_drop, Nat.zero_add, show partial_block_len + msg.length =
            msg.length - (l.block_bytes - partial_block_len) + l.block_bytes by omega,
            Nat.add_mod_right]
        refine (ih _ hshort ⟨0, hpos⟩ _ ht hcompleted hpos rfl rfl).mono ?_
        rintro r t ⟨hpending, hlength, hrest⟩
        rw [List.take_zero, List.nil_append] at hpending hrest
        rw [absorb_block hpos hlong, rest_cons_block hpos hlong, hfirst, hlater, hmod]
        exact ⟨hpending, hlength, hrest⟩
      case isFalse hfull =>
        have hshort : (block.take partial_block_len ++ msg).length < l.block_bytes := by
          rw [List.length_append]
          omega
        have hfits : partial_block_len + msg.length ≤ block.length := by omega
        refine Does.pure ⟨?_, ?_, ?_⟩
        · rw [absorb_of_lt hshort]
          exact h
        · rw [length_splice hfits, hblock]
        · rw [Nat.mod_eq_of_lt (by omega), rest_of_lt _ hshort, splice]
          exact List.take_left' (by rw [List.length_append, htake])

/-! ## Padding -/

/-- A one bit, zeros, and the length, behind `n` bytes of a block. -/
def pad_tail (l : Layout) (n : ℕ) (length : List u32) : List u8 :=
  [0x80] ++ List.replicate ((2 * l.block_bytes - 1 - 4 * l.length_words - n) % l.block_bytes) 0
    ++ word_bytes (length.map Memory.bswap32)

theorem process_last_block_does (hprogram : program.Computes l enc f) {length : List u32}
    (hlength : length.length = l.length_words) (h : Pending program l enc d num_blocks x)
    (hblock : block.length = l.block_bytes) :
    Does (process_last_block program l num_blocks block length) d fun r t =>
      Pending program l enc t r.1 (f x (block.take (l.block_bytes - 4 * l.length_words) ++
        word_bytes (length.map Memory.bswap32))) ∧ r.2.length = l.block_bytes := by
  have hroom := l.room
  have hbytes : (word_bytes (length.map Memory.bswap32)).length = 4 * l.length_words := by
    rw [length_word_bytes, List.length_map, hlength]
  have hend : l.block_bytes - 4 * l.length_words + (word_bytes (length.map Memory.bswap32)).length =
      l.block_bytes := by omega
  have hwritten : write_length l block length =
      block.take (l.block_bytes - 4 * l.length_words) ++ word_bytes (length.map Memory.bswap32) := by
    rw [write_length, hlength, splice_last hblock hend]
  have hwhole : (write_length l block length).length = l.block_bytes := by
    rw [write_length, length_splice (by rw [hlength]; omega), hblock]
  refine Does.bind (process_block_does hprogram h hwhole) fun n t ht => ?_
  rw [hwritten] at ht
  exact Does.pure ⟨ht, hwhole⟩

/-- The padding fills the block, and one more if the length does not fit behind the one bit. -/
theorem process_padding_does (hprogram : program.Computes l enc f) {n : ℕ} {length : List u32}
    (hn : n < l.block_bytes) (hlength : length.length = l.length_words)
    (h : Pending program l enc d num_blocks x) (hblock : block.length = l.block_bytes) :
    Does (process_padding program l num_blocks n length block) d fun r t =>
      Pending program l enc t r.1
          (absorb l.block_bytes f x (block.take n ++ pad_tail l n length)) ∧
        r.2.length = l.block_bytes := by
  have hroom := l.room
  have hpos := l.pos
  have hbytes : (word_bytes (length.map Memory.bswap32)).length = 4 * l.length_words := by
    rw [length_word_bytes, List.length_map, hlength]
  have htake : (block.take n).length = n := by
    rw [List.length_take]
    omega
  have hmarked : splice (splice block n (List.replicate (l.block_bytes - n) 0)) n [0x80] =
      block.take n ++ [0x80] ++ List.replicate (l.block_bytes - n - 1) 0 := by
    rw [splice_last hblock (by rw [List.length_replicate]; omega), splice,
      List.take_left' htake, List.length_singleton, List.drop_append, htake,
      List.drop_of_length_le (by omega), List.nil_append, List.drop_replicate]
    congr 2
    omega
  have hfilled : (block.take n ++ [0x80] ++ List.replicate (l.block_bytes - n - 1) 0 :
      List u8).length = l.block_bytes := by
    simp only [List.length_append, htake, List.length_singleton, List.length_replicate]
    omega
  unfold process_padding
  dsimp only
  rw [hmarked]
  split
  case isTrue hlong =>
    refine Does.bind (process_block_does hprogram h hfilled) fun m t ht => ?_
    refine (process_last_block_does hprogram hlength ht List.length_replicate).mono ?_
    rintro r t ⟨hpending, hlen⟩
    refine ⟨?_, hlen⟩
    have hzeros : (2 * l.block_bytes - 1 - 4 * l.length_words - n) % l.block_bytes =
        (l.block_bytes - n - 1) + (l.block_bytes - 4 * l.length_words) := by
      rw [Nat.mod_eq_of_lt (by omega)]
      omega
    have hsplit : block.take n ++ pad_tail l n length =
        (block.take n ++ [0x80] ++ List.replicate (l.block_bytes - n - 1) 0) ++
          (List.replicate (l.block_bytes - 4 * l.length_words) 0 ++
            word_bytes (length.map Memory.bswap32)) := by
      rw [pad_tail, hzeros, List.replicate_add]
      simp only [List.append_assoc]
    have hlast : (List.replicate (l.block_bytes - 4 * l.length_words) (0 : u8) ++
        word_bytes (length.map Memory.bswap32)).length = l.block_bytes := by
      rw [List.length_append, List.length_replicate, hbytes]
      omega
    rw [hsplit, absorb_append_of_mod hpos (by rw [hfilled, Nat.mod_self]), absorb_one hpos hfilled,
      absorb_one hpos hlast]
    rwa [List.take_replicate, Nat.min_eq_left (by omega)] at hpending
  case isFalse hlong =>
    refine (process_last_block_does hprogram hlength h hfilled).mono ?_
    rintro r t ⟨hpending, hlen⟩
    refine ⟨?_, hlen⟩
    have hzeros : (2 * l.block_bytes - 1 - 4 * l.length_words - n) % l.block_bytes =
        l.block_bytes - 1 - 4 * l.length_words - n := by
      rw [show 2 * l.block_bytes - 1 - 4 * l.length_words - n =
        (l.block_bytes - 1 - 4 * l.length_words - n) + l.block_bytes by omega, Nat.add_mod_right,
        Nat.mod_eq_of_lt (by omega)]
    have hmark : (block.take n ++ [0x80] : List u8).length = n + 1 := by
      rw [List.length_append, htake, List.length_singleton]
    have hkept : (block.take n ++ [0x80]).take (l.block_bytes - 4 * l.length_words) =
        block.take n ++ [0x80] := List.take_of_length_le (by rw [hmark]; omega)
    have hsplit : block.take n ++ pad_tail l n length =
        (block.take n ++ [0x80] ++ List.replicate (l.block_bytes - n - 1) 0).take
          (l.block_bytes - 4 * l.length_words) ++ word_bytes (length.map Memory.bswap32) := by
      rw [pad_tail, hzeros, List.take_append, hmark, hkept, List.take_replicate]
      simp only [List.append_assoc]
      congr 4
      omega
    have hwhole : (block.take n ++ pad_tail l n length).length = l.block_bytes := by
      rw [hsplit, List.length_append, List.length_take, hfilled, hbytes]
      omega
    rw [absorb_one hpos hwhole, hsplit]
    exact hpending

/-! ## A whole message -/

/-- Without padding the rest of the message is in the block that is handed back. -/
theorem process_all_does (hprogram : program.Computes l enc f)
    (partial_block_len : Fin l.block_bytes) (msg : List u8) (h : d.dmem.state = enc x)
    (hblock : block.length = l.block_bytes) :
    Does (process_all program l block partial_block_len msg none) d fun block' t =>
      t.dmem.state = enc (absorb l.block_bytes f x (block.take partial_block_len ++ msg)) ∧
        block'.length = l.block_bytes ∧
        block'.take ((partial_block_len + msg.length) % l.block_bytes) =
          rest l.block_bytes (block.take partial_block_len ++ msg) := by
  refine Does.bind (process_blocks_does hprogram partial_block_len msg (pending_zero h) hblock) ?_
  rintro ⟨n, block'⟩ t ⟨⟨-, hafter⟩, hlength, hrest⟩
  refine Does.bind (R := fun r t' => r = (n, block') ∧ t' = t) (Does.pure ⟨rfl, rfl⟩) ?_
  rintro _ _ ⟨rfl, rfl⟩
  dsimp only
  split
  · refine Does.bind (process_message_buffer_does hafter) ?_
    rintro m t' ⟨-, hstate⟩
    exact Does.pure ⟨hstate, hlength, hrest⟩
  case isFalse hzero =>
    obtain rfl : n = 0 := by omega
    exact Does.pure ⟨hafter, hlength, hrest⟩

/-- With padding there is no rest. -/
theorem process_all_padded_does (hprogram : program.Computes l enc f)
    (partial_block_len : Fin l.block_bytes) (msg : List u8) {n : ℕ} {length : List u32}
    (hn : n = (partial_block_len + msg.length) % l.block_bytes)
    (hlength : length.length = l.length_words) (h : d.dmem.state = enc x)
    (hblock : block.length = l.block_bytes) :
    Does (process_all program l block partial_block_len msg (some (n, length))) d fun _ t =>
      t.dmem.state = enc (absorb l.block_bytes f x
        (block.take partial_block_len ++ msg ++ pad_tail l n length)) := by
  have hpos := l.pos
  refine Does.bind (process_blocks_does hprogram partial_block_len msg (pending_zero h) hblock) ?_
  rintro ⟨num, block'⟩ t ⟨hpending, hlen, hrest⟩
  rw [← hn] at hrest
  have hlt : n < l.block_bytes := hn ▸ Nat.mod_lt _ hpos
  refine Does.bind (process_padding_does hprogram hlt hlength hpending hlen) ?_
  rintro ⟨num, block''⟩ t ⟨⟨-, hafter⟩, -⟩
  rw [hrest, ← absorb_append hpos] at hafter
  dsimp only
  split
  · refine Does.bind (process_message_buffer_does hafter) ?_
    rintro m t' ⟨-, hstate⟩
    exact Does.pure hstate
  case isFalse hzero =>
    obtain rfl : num = 0 := by omega
    exact Does.pure hafter

end pending

/-! ## Any context -/

section any

variable {κ : Type} {program : Program} {l : Layout} {d : Device κ}

/-- Whatever waits in the buffer, nothing fails that the machine does not fail. -/
theorem process_message_buffer_any (num_blocks : ℕ) :
    Does (process_message_buffer program num_blocks) d fun _ _ => True := by
  have hdoes := @process_message_buffer_does κ (List u32) program id d num_blocks _ rfl
  exact hdoes.mono fun _ _ _ => trivial

theorem process_block_any (num_blocks : ℕ) (block : List u8) :
    Does (process_block program l num_blocks block) d fun _ _ => True := by
  refine Does.modify_bind ?_
  split
  · exact process_message_buffer_any _
  · exact Does.pure trivial

theorem process_last_block_any (num_blocks : ℕ) (block : List u8) (length : List u32) :
    Does (process_last_block program l num_blocks block length) d fun _ _ => True :=
  Does.bind (process_block_any num_blocks _) fun _ _ _ => Does.pure trivial

theorem process_padding_any (num_blocks n : ℕ) (length : List u32) (block : List u8) :
    Does (process_padding program l num_blocks n length block) d fun _ _ => True := by
  unfold process_padding
  split
  · exact Does.bind (process_block_any _ _) fun _ _ _ => process_last_block_any _ _ _
  · exact process_last_block_any _ _ _

theorem process_blocks_any (num_blocks : ℕ) (block : List u8) (partial_block_len : Fin l.block_bytes)
    (msg : List u8) :
    Does (process_blocks program l num_blocks block partial_block_len msg) d fun _ _ => True := by
  induction hlen : msg.length using Nat.strong_induction_on
    generalizing d num_blocks block partial_block_len msg with
  | _ len ih =>
      rw [process_blocks]
      split
      · refine Does.bind (process_block_any _ _) fun _ _ _ => ?_
        have hshort : (msg.drop (l.block_bytes - partial_block_len)).length < len := by
          rw [List.length_drop]
          omega
        exact ih _ hshort _ _ _ _ rfl
      · exact Does.pure trivial

theorem process_all_any (block : List u8) (partial_block_len : Fin l.block_bytes) (msg : List u8)
    (padding : Option (ℕ × List u32)) :
    Does (process_all program l block partial_block_len msg padding) d fun _ _ => True := by
  have hlast : ∀ (r : ℕ × List u8) (t : Device κ), Does (if 0 < r.1 then do
      let _ ← process_message_buffer program r.1
      pure r.2
    else pure r.2 : Proc (Device κ) CryptoError (List u8)) t fun _ _ => True := by
    intro r t
    split
    · exact Does.bind (process_message_buffer_any _) fun _ _ _ => Does.pure trivial
    · exact Does.pure trivial
  refine Does.bind (process_blocks_any 0 block partial_block_len msg) fun r t _ => ?_
  cases padding with
  | none => exact Does.bind (R := fun _ _ => True) (Does.pure trivial) fun _ t _ => hlast _ t
  | some padding => exact Does.bind (process_padding_any _ _ _ _) fun _ t _ => hlast _ t

end any

/-! ## Big-endian lengths -/

theorem byteOf_lo32 (x : u64) {j : ℕ} (hj : j < 4) : byteOf (lo32 x) j = (x >>> (8 * j)).setWidth 8 := by
  apply BitVec.eq_of_getLsbD_eq
  intro i hi
  simp [byteOf, lo32, hi, show 8 * j + i < 32 by omega]

theorem byteOf_hi32 (x : u64) {j : ℕ} (hj : j < 4) :
    byteOf (hi32 x) j = (x >>> (8 * (4 + j))).setWidth 8 := by
  apply BitVec.eq_of_getLsbD_eq
  intro i hi
  simp [byteOf, hi32, hi, show 8 * j + i < 32 by omega, show 32 + (8 * j + i) = 8 * (4 + j) + i by omega]

theorem le32_bswap32 (w : u32) :
    le32 (Memory.bswap32 w) = [byteOf w 3, byteOf w 2, byteOf w 1, byteOf w 0] := by
  simp only [le32, Memory.bswap32, byteOf_word _ _ _ _ _ (show 0 < 4 by decide),
    byteOf_word _ _ _ _ _ (show 1 < 4 by decide), byteOf_word _ _ _ _ _ (show 2 < 4 by decide),
    byteOf_word _ _ _ _ _ (show 3 < 4 by decide)]
  rfl

/-- The two words of the length, each with its bytes swapped, are the length of the standard. -/
theorem word_bytes_length (x : u64) :
    word_bytes ([hi32 x, lo32 x].map Memory.bswap32) = Sha256.be64 x := by
  simp only [List.map_cons, List.map_nil, word_bytes_cons, le32_bswap32,
    byteOf_hi32 x (show 3 < 4 by decide), byteOf_hi32 x (show 2 < 4 by decide),
    byteOf_hi32 x (show 1 < 4 by decide), byteOf_hi32 x (show 0 < 4 by decide),
    byteOf_lo32 x (show 3 < 4 by decide), byteOf_lo32 x (show 2 < 4 by decide),
    byteOf_lo32 x (show 1 < 4 by decide), byteOf_lo32 x (show 0 < 4 by decide)]
  rfl

/-! ## Contexts -/

section contexts

variable {κ τ : Type}

def set_context (a : ℕ) (state : κ) : Proc (Device κ) CryptoError Unit :=
  Proc.modify fun d => { d with contexts := Function.update d.contexts a state }

/-- `process_message` of both drivers: what the context is going to hold is computed aside, and
takes its place when no more errors are possible. -/
def update_context (program : Program) (new_total_len : κ → Option τ)
    (new_state : κ → τ → Proc (Device κ) CryptoError κ) (a : ℕ) :
    Proc (Device κ) CryptoError Unit := do
  otbn_load_app program
  let d ← Proc.get
  match new_total_len (d.contexts a) with
  | none => Proc.throw .OTCRYPTO_BAD_ARGS
  | some total_len => do
      let state ← new_state (d.contexts a) total_len
      set_context a state

/-- Nothing but the context at `a` has changed. -/
def Replaced (d : Device κ) (a : ℕ) (Q : κ → Prop) (t : Device κ) : Prop :=
  ∃ c, Q c ∧ t.contexts = Function.update d.contexts a c

theorem Replaced.mono {d t : Device κ} {a : ℕ} {Q Q' : κ → Prop} (h : Replaced d a Q t)
    (hQ : ∀ c, Q c → Q' c) : Replaced d a Q' t := by
  obtain ⟨c, hc, ht⟩ := h
  exact ⟨c, hQ c hc, ht⟩

/-- Replaced twice. -/
theorem Replaced.trans {d t u : Device κ} {a : ℕ} {Q Q' : κ → Prop} (h : Replaced d a Q t)
    (h' : Replaced t a Q' u) : Replaced d a Q' u := by
  obtain ⟨c, -, ht⟩ := h
  obtain ⟨c', hc', hu⟩ := h'
  exact ⟨c', hc', by rw [hu, ht, Function.update_idem]⟩

theorem Replaced.self {d t : Device κ} {a : ℕ} {Q : κ → Prop} (h : Replaced d a Q t) :
    Q (t.contexts a) := by
  obtain ⟨c, hc, ht⟩ := h
  rwa [ht, Function.update_self]

theorem replaced_same {d t : Device κ} {a : ℕ} (h : t.contexts = d.contexts) :
    Replaced d a (fun _ => True) t :=
  ⟨d.contexts a, trivial, by rw [h, Function.update_eq_self]⟩

theorem set_context_spec {F : Fate → Prop} {d : Device κ} {a : ℕ} {state : κ} {Q : κ → Prop}
    (h : Q state) : Spec F (set_context a state) d (fun _ => Replaced d a Q) (fun _ _ => False)
      fun _ => False :=
  Spec.modify ⟨state, h, rfl⟩

/-- The context changes last, so that it has not changed where the function fails. -/
theorem update_context_spec {program : Program} {new_total_len : κ → Option τ}
    {new_state : κ → τ → Proc (Device κ) CryptoError κ} {a : ℕ} {d : Device κ} {Q : κ → Prop}
    (F : Fate → Prop)
    (hwithin : ∀ total_len, Within SameContexts (new_state (d.contexts a) total_len))
    (hdoes : ∀ total_len, new_total_len (d.contexts a) = some total_len →
      ∀ d' : Device κ, d'.dmem.state = program.initial →
        Does (new_state (d.contexts a) total_len) d' fun c _ => Q c) :
    Spec F (update_context program new_total_len new_state a) d (fun _ => Replaced d a Q)
      (fun _ t => (F .failed ∨ new_total_len (d.contexts a) = none) ∧ t.contexts = d.contexts)
      fun _ => F .lost := by
  refine Spec.bind (R := fun _ t => t.contexts = d.contexts ∧ t.dmem.state = program.initial)
    (Spec.step ⟨rfl, rfl⟩ (fun hF => ⟨.inl hF, rfl⟩) id) fun _ t ht => ?_
  obtain ⟨hsame, hstate⟩ := ht
  refine Spec.get ?_
  rw [hsame]
  cases htotal : new_total_len (d.contexts a) with
  | none => exact Spec.throw ⟨.inr rfl, hsame⟩
  | some total_len =>
      have hnew := (hdoes total_len htotal t hstate).within (hwithin total_len) F
      refine Spec.bind (hnew.conseq (fun _ _ => id) ?_ fun _ hF => hF.1) ?_
      · rintro e t' ⟨hF, hsame'⟩
        exact ⟨.inl hF, hsame'.trans hsame⟩
      · rintro c t' ⟨hQ, hsame'⟩
        refine Spec.modify ⟨c, hQ, ?_⟩
        rw [show t'.contexts = d.contexts from hsame'.trans hsame]

end contexts

/-! ## The calls -/

/-- The functions that the calls of a driver are made of. It computes one hash for each `k`. -/
structure Functions (K κ : Type) where
  init : K → κ
  process_message : ℕ → List u8 → Bool → Proc (Device κ) CryptoError Unit
  digest_get : K → ℕ → Proc (Device κ) CryptoError (List u32)
  state_shred : ℕ → Proc (Device κ) CryptoError Unit

section calls

variable {K κ : Type} (fns : Functions K κ)

def Functions.take_digest (k : K) (a : ℕ) : Proc (Device κ) CryptoError (List u32) := do
  let digest ← fns.digest_get k a
  fns.state_shred a
  pure digest

def Functions.final (k : K) (a : ℕ) : Proc (Device κ) CryptoError (List u32) := do
  entropy_complex_check
  fns.process_message a [] true
  fns.take_digest k a

/-- The function for a whole message. Its local context is the one at address `a`. -/
def Functions.whole (k : K) (a : ℕ) (msg : List u8) : Proc (Device κ) CryptoError (List u32) := do
  entropy_complex_check
  set_context a (fns.init k)
  fns.process_message a msg true
  fns.take_digest k a

/-- The functions by the calls of a hash driver. A digest is its bytes in memory. -/
def Functions.serve : Call K u8 → Proc (Device κ) CryptoError (Reply (List u8))
  | .start k a => do
      set_context a (fns.init k)
      pure .done
  | .feed a piece => do
      fns.process_message a piece false
      pure .done
  | .finish k a => do
      let digest ← fns.final k a
      pure (.digest (word_bytes digest))
  | .whole k a msg => do
      let digest ← fns.whole k a msg
      pure (.digest (word_bytes digest))

/-- What the functions do to a context that tracks a message. `Ended` is a context of which the
message has been padded, and `room` the lengths that fit the memory of the device. -/
structure Functions.Implements (family : Family K u8 (List u8))
    (Tracks Ended : K → List u8 → κ → Prop) (room : ℕ → Prop) : Prop where
  room_zero : room 0
  starts : ∀ k, Tracks k [] (fns.init k)
  fits : ∀ {k m c}, Tracks k m c → family.fits m.length
  goes_on : ∀ (F : Fate → Prop) {d : Device κ} {a : ℕ} {k : K} {m msg : List u8},
    room msg.length → Tracks k m (d.contexts a) →
      Spec F (fns.process_message a msg false) d (fun _ => Replaced d a (Tracks k (m ++ msg)))
        (fun _ t => (F .failed ∨ ¬family.fits (m ++ msg).length) ∧ t.contexts = d.contexts)
        fun _ => F .lost
  ends : ∀ (F : Fate → Prop) {d : Device κ} {a : ℕ} {k : K} {m msg : List u8},
    room msg.length → Tracks k m (d.contexts a) →
      Spec F (fns.process_message a msg true) d (fun _ => Replaced d a (Ended k (m ++ msg)))
        (fun _ t => (F .failed ∨ ¬family.fits (m ++ msg).length) ∧ t.contexts = d.contexts)
        fun _ => F .lost
  /-- Of a context that tracks nothing. -/
  any : ∀ (F : Fate → Prop) {d : Device κ} {a : ℕ} {msg : List u8} (padding_needed : Bool),
    room msg.length →
      Spec F (fns.process_message a msg padding_needed) d (fun _ => Replaced d a fun _ => True)
        (fun _ t => t.contexts = d.contexts) fun _ => F .lost
  taken : ∀ (F : Fate → Prop) {d : Device κ} {a : ℕ} (k : K),
    Spec F (fns.take_digest k a) d
      (fun digest t =>
        (∀ k' m, Ended k' m (d.contexts a) → word_bytes digest = family.digest k' k m) ∧
          Replaced d a (fun c => ∀ k', family.left = some k' → Tracks k' [] c) t)
      (fun _ t => F .failed ∧ family.keeps = false ∧ Replaced d a (fun _ => True) t)
      fun _ => F .lost

end calls

/-- Every context tracks its message. -/
def Stands {K κ : Type} (Tracks : K → List u8 → κ → Prop) (messages : Messages K u8)
    (d : Device κ) : Prop :=
  ∀ a m, messages a = some m → Tracks m.1 m.2 (d.contexts a)

section serving

variable {K κ : Type} {fns : Functions K κ} {family : Family K u8 (List u8)}
  {Tracks Ended : K → List u8 → κ → Prop} {room : ℕ → Prop} {messages : Messages K u8}
  {d t : Device κ} {a : ℕ}

theorem Stands.same (h : Stands Tracks messages d) (ht : t.contexts = d.contexts) :
    Stands Tracks messages t := by
  intro b m hm
  rw [ht]
  exact h b m hm

/-- One context has changed, and what is known of its message with it. -/
theorem Stands.replaced (h : Stands Tracks messages d) {m : Option (K × List u8)}
    (ht : Replaced d a (fun c => ∀ m', m = some m' → Tracks m'.1 m'.2 c) t) :
    Stands Tracks (Function.update messages a m) t := by
  obtain ⟨c, hc, ht⟩ := ht
  intro b m' hm'
  rw [ht]
  by_cases hb : b = a
  · subst hb
    rw [Function.update_self] at hm' ⊢
    exact hc m' hm'
  · rw [Function.update_of_ne hb] at hm' ⊢
    exact h b m' hm'

/-- Nothing is known of the message any more. -/
theorem Stands.forget (h : Stands Tracks messages d) (ht : Replaced d a (fun _ => True) t) :
    Stands Tracks (Function.update messages a none) t := by
  refine h.replaced (ht.mono fun c _ => ?_)
  rintro _ ⟨⟩

variable (himp : fns.Implements family Tracks Ended room)

include himp

theorem Functions.Implements.serves_start (k : K) :
    Serves fns.serve family (Stands Tracks) (.start k a) := by
  intro messages d fate h
  refine Spec.bind ((set_context_spec (Q := Tracks k []) (himp.starts k)).conseq
    (fun _ _ => id) (fun _ _ => False.elim) fun _ => False.elim) fun _ t ht => ?_
  refine Spec.pure ⟨rfl, h.replaced (ht.mono fun c hc => ?_)⟩
  rintro _ ⟨⟩
  exact hc

/-- A piece goes to the message of its context, whatever that is. -/
theorem Functions.Implements.feed_spec (F : Fate → Prop) (h : Stands Tracks messages d)
    {piece : List u8} (hpiece : room piece.length) :
    Spec F (fns.process_message a piece false) d
      (fun _ => Replaced d a fun c => ∀ m, messages a = some m → Tracks m.1 (m.2 ++ piece) c)
      (fun _ t => (∀ m, messages a = some m → F .failed ∨ ¬family.fits (m.2 ++ piece).length) ∧
        t.contexts = d.contexts) fun _ => F .lost := by
  cases hm : messages a with
  | none =>
      refine (himp.any F false hpiece).conseq ?_ ?_ fun _ => id
      · intro _ t ht
        refine ht.mono fun c _ => ?_
        rintro m ⟨⟩
      · intro e t ht
        refine ⟨?_, ht⟩
        rintro m ⟨⟩
  | some m =>
      refine (himp.goes_on F hpiece (h a m hm)).conseq ?_ ?_ fun _ => id
      · intro _ t ht
        refine ht.mono fun c hc => ?_
        rintro _ ⟨⟩
        exact hc
      · rintro e t ⟨hwhy, ht⟩
        refine ⟨?_, ht⟩
        rintro _ ⟨⟩
        exact hwhy

theorem Functions.Implements.serves_feed {piece : List u8} (hpiece : room piece.length) :
    Serves fns.serve family (Stands Tracks) (.feed a piece) := by
  intro messages d fate h
  have hfeed := himp.feed_spec (a := a) (fun f => ∃ n, fate n = f) h hpiece
  refine Spec.bind (hfeed.conseq (fun _ _ => id) ?_ fun _ => id) fun _ t ht => ?_
  · rintro e t ⟨hwhy, hsame⟩
    exact ⟨fun m hm => .inr ⟨rfl, hwhy m hm⟩, h.same hsame⟩
  · refine Spec.pure ⟨fun m hm => .inl ⟨rfl, himp.fits (ht.self m hm)⟩, h.replaced
      (ht.mono fun c hc => ?_)⟩
    intro m' hm'
    obtain ⟨m, hm, rfl⟩ := Option.map_eq_some_iff.mp hm'
    exact hc m hm

/-- The end of a message, whatever that is. -/
theorem Functions.Implements.end_spec (F : Fate → Prop) (h : Stands Tracks messages d) :
    Spec F (fns.process_message a [] true) d
      (fun _ => Replaced d a fun c => ∀ m, messages a = some m → Ended m.1 m.2 c)
      (fun _ t => (∀ m, messages a = some m → F .failed) ∧ t.contexts = d.contexts)
      fun _ => F .lost := by
  have hroom : room ([] : List u8).length := himp.room_zero
  cases hm : messages a with
  | none =>
      refine (himp.any F true hroom).conseq ?_ ?_ fun _ => id
      · intro _ t ht
        refine ht.mono fun c _ => ?_
        rintro m ⟨⟩
      · intro e t ht
        refine ⟨?_, ht⟩
        rintro m ⟨⟩
  | some m =>
      have htracks := h a m hm
      have hend := himp.ends F hroom htracks
      rw [List.append_nil] at hend
      refine hend.conseq ?_ ?_ fun _ => id
      · intro _ t ht
        refine ht.mono fun c hc => ?_
        rintro _ ⟨⟩
        exact hc
      · rintro e t ⟨hwhy, ht⟩
        refine ⟨?_, ht⟩
        rintro _ ⟨⟩
        exact hwhy.resolve_right (not_not.mpr (himp.fits htracks))

theorem Functions.Implements.final_spec (F : Fate → Prop) (k : K) (h : Stands Tracks messages d) :
    Spec F (fns.final k a) d
      (fun digest t =>
        (∀ m, messages a = some m → word_bytes digest = family.digest m.1 k m.2) ∧
          Replaced d a (fun c => ∀ k', family.left = some k' → Tracks k' [] c) t)
      (fun _ t => (∀ m, messages a = some m → F .failed) ∧
        (t.contexts = d.contexts ∨ family.keeps = false ∧ Replaced d a (fun _ => True) t))
      fun _ => F .lost := by
  refine Spec.bind (R := fun _ t => t = d)
    (Spec.step rfl (fun hF => ⟨fun _ _ => hF, .inl rfl⟩) id) fun _ t ht => ?_
  subst ht
  refine Spec.bind ((himp.end_spec F h).conseq (fun _ _ => id) ?_ fun _ => id) fun _ u hu => ?_
  · rintro e u ⟨hwhy, hsame⟩
    exact ⟨hwhy, .inl hsame⟩
  · refine (himp.taken F k).conseq ?_ ?_ fun _ => id
    · rintro digest v ⟨hdigest, hv⟩
      exact ⟨fun m hm => hdigest m.1 m.2 (hu.self m hm), hu.trans hv⟩
    · rintro e v ⟨hF, hkeeps, hv⟩
      exact ⟨fun _ _ => hF, .inr ⟨hkeeps, hu.trans hv⟩⟩

theorem Functions.Implements.serves_finish (k : K) :
    Serves fns.serve family (Stands Tracks) (.finish k a) := by
  intro messages d fate h
  have hfinal := himp.final_spec (a := a) (fun f => ∃ n, fate n = f) k h
  refine Spec.bind (hfinal.conseq (fun _ _ => id) ?_ fun _ => id) ?_
  · rintro e t ⟨hwhy, ht⟩
    refine ⟨fun m hm => .inr ⟨rfl, hwhy m hm⟩, ?_⟩
    show Stands Tracks (Function.update messages a (if family.keeps then messages a else none)) t
    cases hkeeps : family.keeps with
    | false =>
        rcases ht with hsame | ⟨-, ht⟩
        · exact h.forget (replaced_same hsame)
        · exact h.forget ht
    | true =>
        rw [if_pos rfl, Function.update_eq_self]
        rcases ht with hsame | ⟨hnot, -⟩
        · exact h.same hsame
        · exact absurd hnot (by rw [hkeeps]; decide)
  · rintro digest t ⟨hdigest, ht⟩
    refine Spec.pure ⟨fun m hm => .inl (congrArg Reply.digest (hdigest m hm)), h.replaced
      (ht.mono fun c hc => ?_)⟩
    intro m' hm'
    obtain ⟨k', hk', rfl⟩ := Option.map_eq_some_iff.mp hm'
    exact hc k' hk'

theorem Functions.Implements.whole_spec (F : Fate → Prop) (k : K) {msg : List u8}
    (hmsg : room msg.length) :
    Spec F (fns.whole k a msg) d
      (fun digest t => word_bytes digest = family.digest k k msg ∧
        Replaced d a (fun c => ∀ k', family.left = some k' → Tracks k' [] c) t)
      (fun _ t => (F .failed ∨ ¬family.fits msg.length) ∧ Replaced d a (fun _ => True) t)
      fun _ => F .lost := by
  refine Spec.bind (R := fun _ t => t = d)
    (Spec.step rfl (fun hF => ⟨.inl hF, replaced_same rfl⟩) id) fun _ t ht => ?_
  subst ht
  refine Spec.bind ((set_context_spec (Q := Tracks k []) (himp.starts k)).conseq
    (fun _ _ => id) (fun _ _ => False.elim) fun _ => False.elim) fun _ u hu => ?_
  refine Spec.bind ((himp.ends F hmsg hu.self).conseq (fun _ _ => id) ?_ fun _ => id)
    fun _ v hv => ?_
  · rintro e v ⟨hwhy, hsame⟩
    exact ⟨hwhy, hu.trans (replaced_same hsame)⟩
  · refine (himp.taken F k).conseq ?_ ?_ fun _ => id
    · rintro digest w ⟨hdigest, hw⟩
      exact ⟨hdigest k msg hv.self, hu.trans (hv.trans hw)⟩
    · rintro e w ⟨hF, -, hw⟩
      exact ⟨.inl hF, hu.trans (hv.trans hw)⟩

theorem Functions.Implements.serves_whole (k : K) {msg : List u8} (hmsg : room msg.length) :
    Serves fns.serve family (Stands Tracks) (.whole k a msg) := by
  intro messages d fate h
  have hwhole := himp.whole_spec (d := d) (a := a) (fun f => ∃ n, fate n = f) k hmsg
  refine Spec.bind (hwhole.conseq (fun _ _ => id) ?_ fun _ => id) ?_
  · rintro e t ⟨hwhy, ht⟩
    exact ⟨.inr ⟨rfl, hwhy⟩, h.forget ht⟩
  · rintro digest t ⟨hdigest, ht⟩
    refine Spec.pure ⟨.inl (congrArg Reply.digest hdigest), h.replaced (ht.mono fun c hc => ?_)⟩
    intro m' hm'
    obtain ⟨k', hk', rfl⟩ := Option.map_eq_some_iff.mp hm'
    exact hc k' hk'

end serving

/-- The message of a call fits the memory of the device. -/
def InMemory {K : Type} (room : ℕ → Prop) : Call K u8 → Prop
  | .feed _ piece => room piece.length
  | .whole _ _ msg => room msg.length
  | _ => True

/-- Callers make any calls on any contexts, in any order, and some of the operations of the machine
fail. Every reply is one that the family allows. -/
theorem Functions.Implements.calls_allowed {K κ : Type} {fns : Functions K κ}
    {family : Family K u8 (List u8)} {Tracks Ended : K → List u8 → κ → Prop} {room : ℕ → Prop}
    (himp : fns.Implements family Tracks Ended room) (d : Device κ) (rs : List (Request K u8))
    (hmemory : ∀ r ∈ rs, InMemory room r.call) (hpower : ∀ r ∈ rs, ∀ n, r.fate n ≠ .lost) :
    Safe (Allowed family) (serve_all fns.serve d rs).1 := by
  have hstart : Stands Tracks (fun _ => none) d := by
    rintro a m ⟨⟩
  refine (serve_all_allowed fns.serve hstart rs (fun r hr => ?_) hpower).1
  have hr' := hmemory r hr
  obtain ⟨call, fate⟩ := r
  cases call with
  | start k a => exact himp.serves_start k
  | feed a piece => exact himp.serves_feed hr'
  | finish k a => exact himp.serves_finish k
  | whole k a msg => exact himp.serves_whole k hr'

end IbexFirmware.Sha2
