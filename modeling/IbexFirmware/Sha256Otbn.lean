/-
SHA-256 on OTBN (`sha256.c`).

A context holds the state after the full blocks of its message, the rest of the message and the
number of its bits. The application keeps the state with its words in reverse order, and starts
with the state of the standard, so that the state of a context is written only if the context has
seen some of its message.

`process_message` works on copies and changes the context last. So an error of OTBN leaves the
context as it was, and the message can go on from there. `Tracks` is what a context holds of its
message, and `sha256_calls` says what callers see: whatever calls they make on whatever contexts,
a digest is the digest of what was fed to its context, and a call fails only where the machine did
or where the bits of the message would not fit 64 bits.
-/
import IbexFirmware.Sha2

set_option autoImplicit false

namespace IbexFirmware.Sha256Otbn

open Bytes PowerFail Session Crypto HardenedMemory Absorb Chunks Splice Hasher Sha2

/-! ## The driver -/

def kSha256MessageBlockBytes : ℕ := 64
def kSha256StateWords : ℕ := 8
def kSha256MessageBlockWords : ℕ := 16
def kSha256MaxMessageChunksPerOtbnRun : ℕ := 41

/-- The words of `kSha256InitialState`. -/
def kSha256InitialState : List u32 :=
  [0x5be0cd19, 0x1f83d9ab, 0x9b05688c, 0x510e527f, 0xa54ff53a, 0x3c6ef372, 0xbb67ae85, 0x6a09e667]

/-- `sha256_state_t`, with the bytes of the partial block and the length in bits. -/
structure Sha256State where
  H : List u32
  partial_block : List u8
  total_len : u64

def layout : Layout where
  block_bytes := kSha256MessageBlockBytes
  length_words := 2
  max_chunks := kSha256MaxMessageChunksPerOtbnRun
  chunk := id
  room := by decide
  max_pos := by decide

/-- The device with the contexts of this driver. -/
abbrev Dev : Type := Device Sha256State

/-- What `sha256_init` makes of a context. -/
def sha256_init : Sha256State :=
  ⟨kSha256InitialState, List.replicate kSha256MessageBlockBytes 0, 0⟩

/-- The bytes of real data in the partial block. -/
def partial_block_len (total_len : u64) : Fin layout.block_bytes :=
  ⟨(total_len >>> 3).toNat % kSha256MessageBlockBytes, Nat.mod_lt _ layout.pos⟩

/-- The two rounds of each iteration of `digest_get`, for all words. -/
def swap_words (H : List u32) : List u32 :=
  (List.range (kSha256StateWords / 2)).foldl (fun H i =>
    let tmp := Memory.bswap32 (H.getD i 0)
    (H.set i (Memory.bswap32 (H.getD (kSha256StateWords - 1 - i) 0))).set (kSha256StateWords - 1 - i) tmp) H

def digest_get (a : ℕ) : Proc Dev CryptoError (List u32) := do
  let d ← Proc.get
  let state := d.contexts a
  let H := swap_words state.H
  set_context a { state with H := H }
  pure H

def state_shred (a : ℕ) : Proc Dev CryptoError Unit := do
  let d ← Proc.get
  let H := d.entropy.words kSha256StateWords
  let entropy := d.entropy.after kSha256StateWords
  set_context a ⟨H, word_bytes (entropy.words kSha256MessageBlockWords), 0⟩
  Proc.modify fun d => { d with entropy := entropy.after kSha256MessageBlockWords }

section calls

variable (program : Program) (stack : ℕ → Vector u8 kSha256MessageBlockBytes)

/-- The bits of the message with the new data, if they can be counted. -/
def new_total_len (msg_len : ℕ) (state : Sha256State) : Option u64 :=
  let msg_bits : u64 := BitVec.ofNat 64 msg_len <<< 3
  let max_msg_bits := BitVec.allOnes 64 - state.total_len
  if max_msg_bits < msg_bits then none else some (state.total_len + msg_bits)

/-- What the working block of the next frame happens to hold. -/
def new_frame : Proc Dev CryptoError (List u8) := do
  let d ← Proc.get
  Proc.modify fun d => { d with frames := d.frames + 1 }
  pure (stack d.frames).toList

/-- The number of bits is compared with the number of bytes of a block. -/
def load_state (state : Sha256State) : Proc Dev CryptoError Unit :=
  if BitVec.ofNat 64 kSha256MessageBlockBytes ≤ state.total_len then
    otbn_dmem_write fun dmem => { dmem with state := state.H }
  else pure ()

/-- `process_message` up to where no more errors are possible: what the context is going to hold. -/
def new_state (state : Sha256State) (msg : List u8) (total_len : u64) (padding_needed : Bool) :
    Proc Dev CryptoError Sha256State := do
  load_state state
  let block ← new_frame stack
  let len := partial_block_len state.total_len
  let block := splice block 0 (state.partial_block.take len)
  let block ← process_all program layout block len msg
    (if padding_needed then
      some (partial_block_len total_len, [hi32 total_len, lo32 total_len]) else none)
  let d ← Proc.get
  otbn_dmem_sec_wipe
  pure ⟨d.dmem.state, block, total_len⟩

def process_message (a : ℕ) (msg : List u8) (padding_needed : Bool) : Proc Dev CryptoError Unit :=
  update_context program (new_total_len msg.length)
    (fun state total_len => new_state program stack state msg total_len padding_needed) a

def functions : Functions Unit Sha256State where
  init _ := sha256_init
  process_message := process_message program stack
  digest_get _ := digest_get
  state_shred := state_shred

def sha256_update (a : ℕ) (msg : List u8) : Proc Dev CryptoError Unit :=
  process_message program stack a msg false

def sha256_final (a : ℕ) : Proc Dev CryptoError (List u32) := (functions program stack).final () a

def sha256 (a : ℕ) (msg : List u8) : Proc Dev CryptoError (List u32) :=
  (functions program stack).whole () a msg

end calls

/-! ## The digest -/

/-- The words of a state as the application and the contexts have them. -/
def stored (s : Sha256.State) : List u32 := s.words.reverse

theorem swap_words_stored (s : Sha256.State) : swap_words (stored s) = s.words.map Memory.bswap32 := rfl

theorem word_bytes_digest (data : List u8) :
    word_bytes ((Sha256.sha256 data).toList.map Memory.bswap32) = Sha256.digest data := by
  rw [word_bytes, List.flatMap_map, Sha256.digest]
  exact List.flatMap_congr fun w _ => le32_bswap32 w

/-! ## What a context holds -/

/-- A number of bytes that can be counted in bits. -/
def Fits (n : ℕ) : Prop := 8 * n < 2 ^ 64

instance : DecidablePred Fits := fun _ => inferInstanceAs (Decidable (_ < _))

/-- What a context holds of the message `m`. The state of a context that has seen less than eight
bytes is not looked at. -/
structure Tracks (m : List u8) (c : Sha256State) : Prop where
  fits : Fits m.length
  total_len : c.total_len = BitVec.ofNat 64 (8 * m.length)
  partial_block : c.partial_block.take (m.length % 64) = rest 64 m
  state : 8 ≤ m.length → c.H = stored (absorb 64 Sha256.compress .init m)

theorem toNat_bits {n : ℕ} (h : Fits n) : (BitVec.ofNat 64 (8 * n)).toNat = 8 * n := by
  rw [BitVec.toNat_ofNat, Nat.mod_eq_of_lt h]

theorem partial_block_len_bits {n : ℕ} (h : Fits n) :
    (partial_block_len (BitVec.ofNat 64 (8 * n)) : ℕ) = n % 64 := by
  show (BitVec.ofNat 64 (8 * n) >>> 3).toNat % 64 = n % 64
  rw [BitVec.toNat_ushiftRight, toNat_bits h, Nat.shiftRight_eq_div_pow,
    Nat.mul_div_cancel_left n (by decide)]

/-- An empty message needs nothing of its context. -/
theorem tracks_nil {c : Sha256State} (h : c.total_len = 0) : Tracks [] c where
  fits := by decide
  total_len := h
  partial_block := by simp
  state h := absurd h (by decide)

/-- The bits of a piece, as the driver computes them. -/
theorem bits_of_piece (n : ℕ) : BitVec.ofNat 64 n <<< 3 = BitVec.ofNat 64 (8 * n) := by
  rw [BitVec.shiftLeft_eq_mul_twoPow, Nat.mul_comm, BitVec.ofNat_mul]
  rfl

/-- The check of the length finds out whether the bits can be counted. -/
theorem new_total_len_eq (c : Sha256State) {n : ℕ} (hn : n < 2 ^ 32) :
    new_total_len n c = if c.total_len.toNat + 8 * n < 2 ^ 64 then
      some (BitVec.ofNat 64 (c.total_len.toNat + 8 * n)) else none := by
  have hbits : Fits n := by
    unfold Fits
    omega
  have hcheck : BitVec.allOnes 64 - c.total_len < BitVec.ofNat 64 (8 * n) ↔
      ¬c.total_len.toNat + 8 * n < 2 ^ 64 := by
    rw [BitVec.lt_def, BitVec.toNat_sub, toNat_bits hbits, BitVec.toNat_allOnes]
    omega
  have hsum : c.total_len + BitVec.ofNat 64 (8 * n) =
      BitVec.ofNat 64 (c.total_len.toNat + 8 * n) := by
    rw [BitVec.ofNat_add, BitVec.ofNat_toNat, BitVec.setWidth_eq]
  rw [new_total_len, bits_of_piece, hsum]
  simp only [hcheck, ite_not]

theorem new_total_len_tracks {m msg : List u8} {c : Sha256State} (h : Tracks m c)
    (hmsg : msg.length < 2 ^ 32) :
    new_total_len msg.length c = if Fits (m ++ msg).length then
      some (BitVec.ofNat 64 (8 * (m ++ msg).length)) else none := by
  rw [new_total_len_eq c hmsg, h.total_len, toNat_bits h.fits, ← Nat.mul_add, ← List.length_append]
  rfl

theorem pad_eq (m : List u8) :
    Sha256.pad m = m ++ pad_tail layout (m.length % 64)
      [hi32 (BitVec.ofNat 64 (8 * m.length)), lo32 (BitVec.ofNat 64 (8 * m.length))] := by
  rw [pad_tail, word_bytes_length, Sha256.pad]
  simp only [List.append_assoc]
  rfl

/-! ## The functions -/

section spec

variable {program : Program} {stack : ℕ → Vector u8 kSha256MessageBlockBytes} {d : Dev}
  {m msg : List u8} {c : Sha256State}

/-- The application: it starts with the initial state of the standard, and does with a block what
the standard says. -/
structure RunsSha256 (program : Program) : Prop where
  initial : program.initial = stored .init
  computes : program.Computes layout stored Sha256.compress

/-- The state in the data memory is that of the message, whether it had to be written or not. -/
theorem load_state_does (h : Tracks m c) (hd : d.dmem.state = stored .init) :
    Does (load_state c) d fun _ t =>
      t.dmem.state = stored (absorb 64 Sha256.compress .init m) := by
  have hbits : BitVec.ofNat 64 kSha256MessageBlockBytes ≤ c.total_len ↔ 8 ≤ m.length := by
    have h64 : (BitVec.ofNat 64 kSha256MessageBlockBytes).toNat = 64 := rfl
    rw [h.total_len, BitVec.le_def, toNat_bits h.fits, h64]
    omega
  unfold load_state
  split
  case isTrue hseen => exact Does.modify (h.state (hbits.mp hseen))
  case isFalse hseen =>
    have hshort : m.length < 64 := by
      rw [hbits] at hseen
      omega
    rw [absorb_of_lt hshort]
    exact Does.pure hd

theorem new_frame_does (hd : d.dmem.state = stored (absorb 64 Sha256.compress .init m)) :
    Does (new_frame stack) d fun block t =>
      block.length = 64 ∧ t.dmem.state = stored (absorb 64 Sha256.compress .init m) :=
  Does.get (Does.modify_bind (Does.pure ⟨Vector.length_toList, hd⟩))

theorem new_state_within (msg : List u8) (total_len : u64) (padding_needed : Bool) :
    Within SameContexts (new_state program stack c msg total_len padding_needed) := by
  have hload : Within SameContexts (load_state c) := by
    unfold load_state
    split
    · exact otbn_dmem_write_within _
    · exact Within.pure _
  have hcount : Within SameContexts
      (Proc.modify fun d : Dev => { d with frames := d.frames + 1 } : Proc Dev CryptoError Unit) :=
    Within.modify fun _ => rfl
  have hframe : Within SameContexts (new_frame stack) :=
    Within.get fun d => hcount.bind fun _ => Within.pure _
  have hwipe : Within SameContexts (otbn_dmem_sec_wipe : Proc Dev _ _) := driver_within fun _ => rfl
  refine hload.bind fun _ => hframe.bind fun _ => ?_
  refine (process_all_within program layout _ _ msg _).bind fun _ => ?_
  exact Within.get fun d => hwipe.bind fun _ => Within.pure _

/-- The working block starts with the rest of the message. -/
theorem working_block (h : Tracks m c) {block : List u8} (hblock : block.length = 64) :
    (splice block 0 (c.partial_block.take (partial_block_len c.total_len))).length = 64 ∧
      (splice block 0 (c.partial_block.take (partial_block_len c.total_len))).take
        (partial_block_len c.total_len) = rest 64 m := by
  have hlen := partial_block_len_bits h.fits
  rw [h.total_len, hlen, h.partial_block]
  have hrest : (rest 64 m).length = m.length % 64 := length_rest 64 m
  have hlt := length_rest_lt (show 0 < 64 by decide) m
  refine ⟨by rw [length_splice (by omega), hblock], ?_⟩
  rw [splice, List.take_zero, List.nil_append, ← hrest, List.take_left]

/-- Without padding, what the context is going to hold is what it has to hold of the longer
message. -/
theorem new_state_does (hruns : RunsSha256 program) (h : Tracks m c)
    (hd : d.dmem.state = stored .init) (hfits : Fits (m ++ msg).length) :
    Does (new_state program stack c msg (BitVec.ofNat 64 (8 * (m ++ msg).length)) false) d
      fun c' _ => Tracks (m ++ msg) c' := by
  refine Does.bind (load_state_does h hd) fun _ t ht => ?_
  refine Does.bind (new_frame_does ht) fun block t ⟨hblock, ht⟩ => ?_
  obtain ⟨hwhole, hstart⟩ := working_block h hblock
  refine Does.bind (process_all_does hruns.computes _ msg ht hwhole) fun block' t hall => ?_
  obtain ⟨hstate, -, hleft⟩ := hall
  have hmod : (partial_block_len c.total_len + msg.length) % layout.block_bytes =
      (m ++ msg).length % 64 := by
    rw [h.total_len, partial_block_len_bits h.fits, List.length_append]
    exact Nat.mod_add_mod _ _ _
  rw [hstart, hmod] at hleft
  rw [hstart] at hstate
  refine Does.get (Does.bind (R := fun _ _ => True) (Does.step trivial) fun _ _ _ => ?_)
  refine Does.pure ⟨hfits, rfl, ?_, fun _ => ?_⟩
  · rw [rest_append (by decide)]
    exact hleft
  · rw [absorb_append (by decide)]
    exact hstate

/-- With padding, it is the state after the padded message. -/
theorem new_state_padded_does (hruns : RunsSha256 program) (h : Tracks m c)
    (hd : d.dmem.state = stored .init) (hfits : Fits (m ++ msg).length) :
    Does (new_state program stack c msg (BitVec.ofNat 64 (8 * (m ++ msg).length)) true) d
      fun c' _ => c'.H = stored (absorb 64 Sha256.compress .init (Sha256.pad (m ++ msg))) := by
  refine Does.bind (load_state_does h hd) fun _ t ht => ?_
  refine Does.bind (new_frame_does ht) fun block t ⟨hblock, ht⟩ => ?_
  obtain ⟨hwhole, hstart⟩ := working_block h hblock
  have hmod : (partial_block_len (BitVec.ofNat 64 (8 * (m ++ msg).length)) : ℕ) =
      (partial_block_len c.total_len + msg.length) % layout.block_bytes := by
    rw [partial_block_len_bits hfits, h.total_len, partial_block_len_bits h.fits, List.length_append]
    exact (Nat.mod_add_mod _ _ _).symm
  refine Does.bind (process_all_padded_does hruns.computes _ msg hmod rfl ht hwhole)
    fun block' t hstate => ?_
  refine Does.get (Does.bind (R := fun _ _ => True) (Does.step trivial) fun _ _ _ => ?_)
  refine Does.pure ?_
  have hlen := partial_block_len_bits hfits
  rw [hstart, hlen] at hstate
  rw [pad_eq, List.append_assoc, absorb_append (by decide), ← List.append_assoc]
  exact hstate

/-- Whatever the context holds. -/
theorem new_state_any {total_len : u64} {padding_needed : Bool} :
    Does (new_state program stack c msg total_len padding_needed) d fun _ _ => True := by
  have hload : Does (load_state c) d fun _ _ => True := by
    unfold load_state
    split
    · exact Does.modify trivial
    · exact Does.pure trivial
  have hframe : ∀ t : Dev, Does (new_frame stack) t fun _ _ => True :=
    fun t => Does.get (Does.modify_bind (Does.pure trivial))
  refine Does.bind hload fun _ t _ => Does.bind (hframe t) fun block t _ => ?_
  refine Does.bind (process_all_any _ _ _ _) fun _ t _ => ?_
  exact Does.get (Does.bind (R := fun _ _ => True) (Does.step trivial) fun _ _ _ => Does.pure trivial)

/-- A context that goes on with its message, or ends it. -/
theorem process_message_spec {a : ℕ} {padding_needed : Bool} {Q : Sha256State → Prop}
    (F : Fate → Prop) (hruns : RunsSha256 program) (h : Tracks m (d.contexts a))
    (hmsg : msg.length < 2 ^ 32)
    (hdoes : Fits (m ++ msg).length → ∀ d' : Dev, d'.dmem.state = stored .init →
      Does (new_state program stack (d.contexts a) msg (BitVec.ofNat 64 (8 * (m ++ msg).length))
        padding_needed) d' fun c' _ => Q c') :
    Spec F (process_message program stack a msg padding_needed) d (fun _ => Replaced d a Q)
      (fun _ t => (F .failed ∨ ¬Fits (m ++ msg).length) ∧ t.contexts = d.contexts)
      fun _ => F .lost := by
  refine (update_context_spec F (fun total_len => new_state_within msg total_len padding_needed)
    fun total_len htotal d' hd' => ?_).conseq (fun _ _ => id) ?_ fun _ => id
  · rw [new_total_len_tracks h hmsg] at htotal
    split at htotal
    case isFalse hlong => cases htotal
    case isTrue hfits =>
      obtain rfl := Option.some.inj htotal
      exact hdoes hfits d' (hd'.trans hruns.initial)
  · rintro _ t ⟨hwhy, ht⟩
    refine ⟨hwhy.imp_right fun hnone hfits => ?_, ht⟩
    rw [new_total_len_tracks h hmsg, if_pos hfits] at hnone
    cases hnone

theorem state_shred_spec {F : Fate → Prop} {a : ℕ} :
    Spec F (state_shred a) d (fun _ => Replaced d a fun c => c.total_len = 0)
      (fun _ _ => False) fun _ => False := by
  refine Spec.get (Spec.bind (set_context_spec (Q := fun c : Sha256State => c.total_len = 0) rfl)
    fun _ t ht => ?_)
  exact Spec.modify ht

theorem take_digest_spec {F : Fate → Prop} {a : ℕ} :
    Spec F ((functions program stack).take_digest () a) d
      (fun digest t => digest = swap_words (d.contexts a).H ∧
        Replaced d a (fun c => c.total_len = 0) t)
      (fun _ _ => False) fun _ => False := by
  have hget : Spec F (digest_get a) d
      (fun digest t => digest = swap_words (d.contexts a).H ∧ Replaced d a (fun _ => True) t)
      (fun _ _ => False) fun _ => False :=
    Spec.get (Spec.bind (set_context_spec trivial) fun _ t ht => Spec.pure ⟨rfl, ht⟩)
  refine Spec.bind hget fun digest t ht => ?_
  exact Spec.bind state_shred_spec fun _ t' ht' => Spec.pure ⟨ht.1, ht.2.trans ht'⟩

/-- The digest after the padded message. -/
theorem word_bytes_swap_words (m : List u8) :
    word_bytes (swap_words (stored (absorb 64 Sha256.compress .init (Sha256.pad m)))) =
      Sha256.digest m := by
  rw [swap_words_stored, ← Sha256.sha256_toList]
  exact word_bytes_digest m

end spec

/-! ## The calls -/

/-- The hash that the driver computes. A context that has been finished is the empty message. -/
def family : Family Unit u8 (List u8) where
  digest _ _ m := Sha256.digest m
  fits := Fits
  left := some ()
  keeps := true

/-- A context of which the message has been padded. -/
def Ended (m : List u8) (c : Sha256State) : Prop :=
  c.H = stored (absorb 64 Sha256.compress .init (Sha256.pad m))

theorem functions_implement {program : Program} (hruns : RunsSha256 program)
    (stack : ℕ → Vector u8 kSha256MessageBlockBytes) :
    (functions program stack).Implements family (fun _ => Tracks) (fun _ => Ended)
      (fun n => n < 2 ^ 32) where
  room_zero := by decide
  starts _ := tracks_nil rfl
  fits h := h.fits
  goes_on F _ _ _ _ _ hmsg h :=
    process_message_spec F hruns h hmsg fun hfits _ hd => new_state_does hruns h hd hfits
  ends F _ _ _ _ _ hmsg h :=
    process_message_spec F hruns h hmsg fun hfits _ hd => new_state_padded_does hruns h hd hfits
  any F _ _ msg padding_needed _ :=
    (update_context_spec F (fun total_len => new_state_within msg total_len padding_needed)
      fun _ _ _ _ => new_state_any).conseq (fun _ _ => id) (fun _ _ ht => ht.2) fun _ => id
  taken F d a _ := by
    refine take_digest_spec.conseq ?_ (fun _ _ => False.elim) fun _ => False.elim
    rintro digest t ⟨rfl, ht⟩
    refine ⟨fun _ m hm => ?_, ht.mono fun c hc _ _ => tracks_nil hc⟩
    rw [show (d.contexts a).H = _ from hm]
    exact word_bytes_swap_words m

/-- Callers make any calls on any contexts, in any order, and some of the operations of the machine
fail. Every digest is that of what was fed to its context since it was started or finished, and a
call fails only where the machine did or where the bits of its message cannot be counted. -/
theorem sha256_calls {program : Program} (hruns : RunsSha256 program)
    (stack : ℕ → Vector u8 kSha256MessageBlockBytes) (d : Dev) (rs : List (Request Unit u8))
    (hmemory : ∀ r ∈ rs, InMemory (fun n => n < 2 ^ 32) r.call)
    (hpower : ∀ r ∈ rs, ∀ n, r.fate n ≠ .lost) :
    Safe (Allowed family) (serve_all (functions program stack).serve d rs).1 :=
  (functions_implement hruns stack).calls_allowed d rs hmemory hpower

/-- An application that computes SHA-256: it reads the state off its words. -/
def software : Program where
  initial := stored .init
  compress words block := stored (Sha256.compress
    ⟨words.getD 7 0, words.getD 6 0, words.getD 5 0, words.getD 4 0, words.getD 3 0,
      words.getD 2 0, words.getD 1 0, words.getD 0 0⟩ block)

theorem software_runs : RunsSha256 software where
  initial := rfl
  computes _ _ _ := rfl

/-- A message in two pieces, of which the first has to be fed twice because OTBN failed. -/
def retried : List (Request Unit u8) :=
  [⟨.start () 0, fun _ => .done⟩, ⟨.feed 0 [0x61, 0x62], fun n => if n = 1 then .failed else .done⟩,
    ⟨.feed 0 [0x61, 0x62], fun _ => .done⟩, ⟨.feed 0 [0x63], fun _ => .done⟩,
    ⟨.finish () 0, fun _ => .done⟩]

theorem sha256_calls_retried : Safe (Allowed family)
    (serve_all (functions software fun _ => Vector.replicate 64 0).serve
      ⟨.wiped, fun _ => ⟨[], [], 0⟩, ⟨fun _ => 0, 0⟩, 0⟩ retried).1 := by
  refine sha256_calls software_runs _ _ _ ?_ ?_
  · simp only [retried, List.forall_mem_cons, List.not_mem_nil, false_imp_iff, implies_true, and_true,
      InMemory]
    decide
  · simp only [retried, List.forall_mem_cons, List.not_mem_nil, false_imp_iff, implies_true, and_true]
    refine ⟨fun _ => by decide, fun n => ?_, fun _ => by decide, fun _ => by decide,
      fun _ => by decide⟩
    split <;> decide

end IbexFirmware.Sha256Otbn
