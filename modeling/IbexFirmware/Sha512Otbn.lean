/-
SHA-512 and SHA-384 on OTBN (`sha512.c`).

The driver is that of SHA-256 with wider words, and differs from it in four places. The state of a
context is always written to the data memory, two words of 32 bits for one of 64 with the low one
first. A block is laid into the buffer 64 bits at a time, each with its bytes reversed. The length
has 128 bits, in two halves, of which the bits of a piece of data are added to the lower one. And
`state_shred` ends without a return, so that the status its caller tests is any status: a digest
may be lost after it has been computed, and its context with it.

Both algorithms keep their messages in the same kind of context, which does not say which of them
it was started for. `sha512_calls` says what callers see, of either and of a mixture of both.
-/
import IbexFirmware.Lib.Sha512
import IbexFirmware.Sha2

set_option autoImplicit false

namespace IbexFirmware.Sha512Otbn

open Bytes PowerFail Session Crypto HardenedMemory Absorb Chunks Splice Hasher Sha2

/-! ## The driver -/

def kSha512MessageBlockBytes : ℕ := 128
def kSha512StateWords : ℕ := 16
def kSha512MessageBlockWords : ℕ := 32
def kSha512MaxMessageChunksPerOtbnRun : ℕ := 16
def kSha384DigestWords : ℕ := 12
def kSha512DigestWords : ℕ := 16

def kSha384InitialState : List u32 :=
  [0xcbbb9d5d, 0xc1059ed8, 0x629a292a, 0x367cd507, 0x9159015a, 0x3070dd17, 0x152fecd8, 0xf70e5939,
   0x67332667, 0xffc00b31, 0x8eb44a87, 0x68581511, 0xdb0c2e0d, 0x64f98fa7, 0x47b5481d, 0xbefa4fa4]

def kSha512InitialState : List u32 :=
  [0x6a09e667, 0xf3bcc908, 0xbb67ae85, 0x84caa73b, 0x3c6ef372, 0xfe94f82b, 0xa54ff53a, 0x5f1d36f1,
   0x510e527f, 0xade682d1, 0x9b05688c, 0x2b3e6c1f, 0x1f83d9ab, 0xfb41bd6b, 0x5be0cd19, 0x137e2179]

/-- `sha512_message_length_t`, in bits. -/
structure MessageLength where
  lower : u64
  upper : u64

/-- `sha512_state_t`, which is `sha384_state_t` as well, with the bytes of the partial block. -/
structure Sha512State where
  H : List u32
  partial_block : List u8
  total_len : MessageLength

/-- The loop of `process_block`: 64 bits at a time, the upper half of them first. -/
def chunk_of : List u8 → List u8
  | b0 :: b1 :: b2 :: b3 :: b4 :: b5 :: b6 :: b7 :: data =>
      let bytes_7to4 := Memory.bswap32 (word b4 b5 b6 b7)
      let bytes_3to0 := Memory.bswap32 (word b0 b1 b2 b3)
      le32 bytes_7to4 ++ le32 bytes_3to0 ++ chunk_of data
  | _ => []

def layout : Layout where
  block_bytes := kSha512MessageBlockBytes
  length_words := 4
  max_chunks := kSha512MaxMessageChunksPerOtbnRun
  chunk := chunk_of
  room := by decide
  max_pos := by decide

/-- The device with the contexts of this driver. -/
abbrev Dev : Type := Device Sha512State

inductive Algorithm where
  | sha384
  | sha512

def sha384_init : Sha512State :=
  ⟨kSha384InitialState, List.replicate kSha512MessageBlockBytes 0, 0, 0⟩

def sha512_init : Sha512State :=
  ⟨kSha512InitialState, List.replicate kSha512MessageBlockBytes 0, 0, 0⟩

/-- The bits of the message with the new data, if they can be counted. `msg_len` is shifted as a
number of 32 bits. -/
def get_new_total_len (msg_len : ℕ) (state : Sha512State) : Option MessageLength :=
  let lower := state.total_len.lower + (BitVec.ofNat 32 msg_len <<< 3).setWidth 64
  let upper :=
    if lower < state.total_len.lower then state.total_len.upper + 1 else state.total_len.upper
  if upper < state.total_len.upper then none else some ⟨lower, upper⟩

/-- The bytes of real data in the partial block. -/
def partial_block_len (total_len : MessageLength) : Fin layout.block_bytes :=
  ⟨(total_len.lower >>> 3).toNat % kSha512MessageBlockBytes, Nat.mod_lt _ layout.pos⟩

/-- The words of the length as the padding has them, the most significant first. -/
def MessageLength.words (total_len : MessageLength) : List u32 :=
  [hi32 total_len.upper, lo32 total_len.upper, hi32 total_len.lower, lo32 total_len.lower]

/-- The loops that write a state to the data memory and read one back. Of a wide word of the data
memory only the two words that hold a word of the state are modelled. -/
def swap_pairs : List u32 → List u32
  | hi :: lo :: H => lo :: hi :: swap_pairs H
  | _ => []

section driver

variable (program : Program)

/-- `process_message` up to where no more errors are possible: what the context is going to hold. -/
def new_state (state : Sha512State) (msg : List u8) (total_len : MessageLength)
    (padding_needed : Bool) : Proc Dev CryptoError Sha512State := do
  otbn_dmem_write fun dmem => { dmem with state := swap_pairs state.H }
  let block ← process_all program layout state.partial_block (partial_block_len state.total_len) msg
    (if padding_needed then some (partial_block_len total_len, total_len.words) else none)
  let d ← Proc.get
  otbn_dmem_sec_wipe
  pure ⟨swap_pairs d.dmem.state, block, total_len⟩

def process_message (a : ℕ) (msg : List u8) (padding_needed : Bool) : Proc Dev CryptoError Unit :=
  update_context program (get_new_total_len msg.length)
    (fun state total_len => new_state program state msg total_len padding_needed) a

/-- What both functions of this kind do, for a number of words. -/
def get_digest (digest_words : ℕ) (a : ℕ) : Proc Dev CryptoError (List u32) := do
  let d ← Proc.get
  let state := d.contexts a
  let H := state.H.map Memory.bswap32
  set_context a { state with H := H }
  pure (H.take digest_words)

def sha512_digest_get : ℕ → Proc Dev CryptoError (List u32) := get_digest kSha512DigestWords

def sha384_digest_get : ℕ → Proc Dev CryptoError (List u32) := get_digest kSha384DigestWords

/-- The last step stands for the status that is never returned. -/
def state_shred (a : ℕ) : Proc Dev CryptoError Unit := do
  let d ← Proc.get
  let H := d.entropy.words kSha512StateWords
  let entropy := d.entropy.after kSha512StateWords
  set_context a ⟨H, word_bytes (entropy.words kSha512MessageBlockWords), 0, 0⟩
  driver .OTCRYPTO_FATAL_ERR fun d => { d with entropy := entropy.after kSha512MessageBlockWords }

def functions : Functions Algorithm Sha512State where
  init
    | .sha384 => sha384_init
    | .sha512 => sha512_init
  process_message := process_message program
  digest_get
    | .sha384 => sha384_digest_get
    | .sha512 => sha512_digest_get
  state_shred := state_shred

def sha512_update (a : ℕ) (msg : List u8) : Proc Dev CryptoError Unit :=
  process_message program a msg false

def sha512_final (a : ℕ) : Proc Dev CryptoError (List u32) := (functions program).final .sha512 a

def sha512 (a : ℕ) (msg : List u8) : Proc Dev CryptoError (List u32) :=
  (functions program).whole .sha512 a msg

def sha384_update (a : ℕ) (msg : List u8) : Proc Dev CryptoError Unit := sha512_update program a msg

def sha384_final (a : ℕ) : Proc Dev CryptoError (List u32) := (functions program).final .sha384 a

def sha384 (a : ℕ) (msg : List u8) : Proc Dev CryptoError (List u32) :=
  (functions program).whole .sha384 a msg

end driver

/-! ## The length -/

def MessageLength.toNat (total_len : MessageLength) : ℕ :=
  total_len.lower.toNat + 2 ^ 64 * total_len.upper.toNat

/-- A number of bytes that can be counted in bits. -/
def Fits (n : ℕ) : Prop := 8 * n < 2 ^ 128

instance : DecidablePred Fits := fun _ => inferInstanceAs (Decidable (_ < _))

/-- The carry goes to the upper half, and the check of the upper half finds out whether the bits can
be counted. -/
theorem get_new_total_len_cases (c : Sha512State) {n : ℕ} (hn : n < 2 ^ 29) :
    (∃ total_len, get_new_total_len n c = some total_len ∧
      total_len.toNat = c.total_len.toNat + 8 * n) ∨
    get_new_total_len n c = none ∧ 2 ^ 128 ≤ c.total_len.toNat + 8 * n := by
  have hbits : ((BitVec.ofNat 32 n <<< 3).setWidth 64).toNat = 8 * n := by
    rw [BitVec.toNat_setWidth, BitVec.toNat_shiftLeft, BitVec.toNat_ofNat, Nat.shiftLeft_eq]
    omega
  obtain ⟨H, block, lower, upper⟩ := c
  have hsum : (lower + (BitVec.ofNat 32 n <<< 3).setWidth 64).toNat =
      (lower.toNat + 8 * n) % 2 ^ 64 := by
    rw [BitVec.toNat_add, hbits]
  have hcarry : (upper + 1).toNat = (upper.toNat + 1) % 2 ^ 64 := BitVec.toNat_add upper 1
  unfold get_new_total_len
  dsimp only
  by_cases hover : lower + (BitVec.ofNat 32 n <<< 3).setWidth 64 < lower
  · rw [if_pos hover]
    rw [BitVec.lt_def, hsum] at hover
    by_cases hlong : upper + 1 < upper
    · refine .inr ⟨if_pos hlong, ?_⟩
      rw [BitVec.lt_def, hcarry] at hlong
      show 2 ^ 128 ≤ lower.toNat + 2 ^ 64 * upper.toNat + 8 * n
      omega
    · refine .inl ⟨_, if_neg hlong, ?_⟩
      rw [BitVec.lt_def, hcarry] at hlong
      show BitVec.toNat _ + 2 ^ 64 * BitVec.toNat _ = lower.toNat + 2 ^ 64 * upper.toNat + 8 * n
      rw [hsum, hcarry]
      omega
  · rw [if_neg hover]
    rw [BitVec.lt_def, hsum] at hover
    refine .inl ⟨_, if_neg (BitVec.lt_irrefl upper), ?_⟩
    show BitVec.toNat _ + 2 ^ 64 * upper.toNat = lower.toNat + 2 ^ 64 * upper.toNat + 8 * n
    rw [hsum]
    omega

theorem MessageLength.toNat_lt (total_len : MessageLength) : total_len.toNat < 2 ^ 128 := by
  unfold MessageLength.toNat
  omega

/-- The bytes of a length fill the same part of a block as those of its lower half. -/
theorem partial_block_len_eq {total_len : MessageLength} {n : ℕ} (h : total_len.toNat = 8 * n) :
    (partial_block_len total_len : ℕ) = n % 128 := by
  show (total_len.lower >>> 3).toNat % 128 = n % 128
  unfold MessageLength.toNat at h
  rw [BitVec.toNat_ushiftRight, Nat.shiftRight_eq_div_pow]
  omega

/-- The padding of the driver is that of the standard. -/
theorem pad_eq {m : List u8} {total_len : MessageLength} (h : total_len.toNat = 8 * m.length) :
    Sha512.pad m = m ++ pad_tail layout (m.length % 128) total_len.words := by
  have hlower := total_len.lower.isLt
  have hlo : BitVec.ofNat 64 (8 * m.length) = total_len.lower := by
    rw [← h, MessageLength.toNat, BitVec.ofNat_add, BitVec.ofNat_mul, BitVec.ofNat_toNat]
    simp
  have hhi : BitVec.ofNat 64 (8 * m.length / 2 ^ 64) = total_len.upper := by
    rw [← h, MessageLength.toNat, Nat.add_mul_div_left _ _ (by decide), Nat.div_eq_of_lt hlower,
      Nat.zero_add, BitVec.ofNat_toNat, BitVec.setWidth_eq]
  have hwords : word_bytes (total_len.words.map Memory.bswap32) =
      Sha256.be64 total_len.upper ++ Sha256.be64 total_len.lower := by
    rw [← word_bytes_length, ← word_bytes_length, ← word_bytes_append]
    rfl
  rw [pad_tail, hwords, Sha512.pad, hlo, hhi]
  simp only [List.append_assoc]
  rfl

/-! ## What a context holds -/

def Algorithm.init : Algorithm → Sha512.State
  | .sha384 => Sha512.init384
  | .sha512 => Sha512.init512

def Algorithm.digest_words : Algorithm → ℕ
  | .sha384 => kSha384DigestWords
  | .sha512 => kSha512DigestWords

/-- The words of a state as the contexts have them. -/
def pairs (s : Sha512.State) : List u32 := s.words.flatMap fun w => [hi32 w, lo32 w]

/-- The words of a state as the application has them. -/
def stored (s : Sha512.State) : List u32 := swap_pairs (pairs s)

theorem swap_pairs_stored (s : Sha512.State) : swap_pairs (stored s) = pairs s := rfl

theorem word_bytes_pairs (s : Sha512.State) :
    word_bytes ((pairs s).map Memory.bswap32) = s.words.flatMap Sha256.be64 := by
  rw [pairs, List.map_flatMap, word_bytes, List.flatMap_assoc]
  exact List.flatMap_congr fun w _ => word_bytes_length w

/-- What a context holds of the message `m`. -/
structure Tracks (k : Algorithm) (m : List u8) (c : Sha512State) : Prop where
  total_len : c.total_len.toNat = 8 * m.length
  block : c.partial_block.length = 128
  partial_block : c.partial_block.take (m.length % 128) = rest 128 m
  state : c.H = pairs (absorb 128 Sha512.compress k.init m)

/-- A context of which the message has been padded. -/
def Ended (k : Algorithm) (m : List u8) (c : Sha512State) : Prop :=
  c.H = pairs (absorb 128 Sha512.compress k.init (Sha512.pad m))

theorem Tracks.fits {k : Algorithm} {m : List u8} {c : Sha512State} (h : Tracks k m c) :
    Fits m.length := by
  rw [Fits, ← h.total_len]
  exact c.total_len.toNat_lt

theorem tracks_nil {k : Algorithm} {c : Sha512State} (hH : c.H = pairs k.init)
    (hblock : c.partial_block.length = 128) (htotal : c.total_len.toNat = 0) : Tracks k [] c where
  total_len := htotal
  block := hblock
  partial_block := by simp
  state := by rw [absorb_nil, hH]

/-- The length of the message with a piece behind it, or that it cannot be counted. -/
theorem get_new_total_len_tracks {k : Algorithm} {m msg : List u8} {c : Sha512State}
    (h : Tracks k m c) (hmsg : msg.length < 2 ^ 29) :
    (∃ total_len, get_new_total_len msg.length c = some total_len ∧
      total_len.toNat = 8 * (m ++ msg).length) ∨
    get_new_total_len msg.length c = none ∧ ¬Fits (m ++ msg).length := by
  have hcases := get_new_total_len_cases c hmsg
  rw [h.total_len, ← Nat.mul_add, ← List.length_append] at hcases
  exact hcases.imp_right fun hlong => ⟨hlong.1, not_lt.mpr hlong.2⟩

/-! ## The functions -/

section spec

variable {program : Program} {d : Dev} {k : Algorithm} {m msg : List u8} {c : Sha512State}
  {total_len : MessageLength} {a : ℕ}

/-- The application does with a block, as it lies in the buffer, what the standard says. -/
def RunsSha512 (program : Program) : Prop := program.Computes layout stored Sha512.compress

theorem new_state_within (msg : List u8) (total_len : MessageLength) (padding_needed : Bool) :
    Within SameContexts (new_state program c msg total_len padding_needed) := by
  have hwipe : Within SameContexts (otbn_dmem_sec_wipe : Proc Dev _ _) := driver_within fun _ => rfl
  refine (otbn_dmem_write_within _).bind fun _ => ?_
  refine (process_all_within program layout _ _ msg _).bind fun _ => ?_
  exact Within.get fun d => hwipe.bind fun _ => Within.pure _

/-- The block starts with the rest of the message. -/
theorem Tracks.start (h : Tracks k m c) :
    c.partial_block.take (partial_block_len c.total_len) = rest 128 m := by
  rw [partial_block_len_eq h.total_len]
  exact h.partial_block

theorem Tracks.partial_block_len_add (h : Tracks k m c)
    (htotal : total_len.toNat = 8 * (m ++ msg).length) :
    (partial_block_len total_len : ℕ) = (partial_block_len c.total_len + msg.length) % 128 := by
  rw [partial_block_len_eq htotal, partial_block_len_eq h.total_len, List.length_append]
  exact (Nat.mod_add_mod _ _ _).symm

/-- Without padding, what the context is going to hold is what it has to hold of the longer
message. -/
theorem new_state_does (hruns : RunsSha512 program) (h : Tracks k m c)
    (htotal : total_len.toNat = 8 * (m ++ msg).length) :
    Does (new_state program c msg total_len false) d fun c' _ => Tracks k (m ++ msg) c' := by
  refine Does.modify_bind ?_
  have hwritten : swap_pairs c.H = stored (absorb 128 Sha512.compress k.init m) := by
    rw [h.state, stored]
  refine Does.bind (process_all_does hruns _ msg hwritten h.block) fun block t hall => ?_
  obtain ⟨hstate, hblock, hleft⟩ := hall
  have hmod : (partial_block_len c.total_len + msg.length) % layout.block_bytes =
      (m ++ msg).length % 128 := by
    rw [← partial_block_len_eq htotal]
    exact (h.partial_block_len_add htotal).symm
  rw [h.start, hmod] at hleft
  rw [h.start] at hstate
  refine Does.get (Does.bind (R := fun _ _ => True) (Does.step trivial) fun _ _ _ => ?_)
  refine Does.pure ⟨htotal, hblock, ?_, ?_⟩
  · rw [rest_append (by decide)]
    exact hleft
  · rw [absorb_append (by decide), ← swap_pairs_stored]
    exact congrArg swap_pairs hstate

/-- With padding, it is the state after the padded message. -/
theorem new_state_padded_does (hruns : RunsSha512 program) (h : Tracks k m c)
    (htotal : total_len.toNat = 8 * (m ++ msg).length) :
    Does (new_state program c msg total_len true) d fun c' _ => Ended k (m ++ msg) c' := by
  refine Does.modify_bind ?_
  have hwritten : swap_pairs c.H = stored (absorb 128 Sha512.compress k.init m) := by
    rw [h.state, stored]
  refine Does.bind (process_all_padded_does hruns _ msg (h.partial_block_len_add htotal) rfl hwritten
    h.block) fun block t hstate => ?_
  refine Does.get (Does.bind (R := fun _ _ => True) (Does.step trivial) fun _ _ _ => ?_)
  refine Does.pure ?_
  rw [h.start, partial_block_len_eq htotal] at hstate
  rw [Ended, pad_eq htotal, List.append_assoc, absorb_append (by decide), ← List.append_assoc,
    ← swap_pairs_stored]
  exact congrArg swap_pairs hstate

/-- Whatever the context holds. -/
theorem new_state_any {padding_needed : Bool} :
    Does (new_state program c msg total_len padding_needed) d fun _ _ => True := by
  refine Does.modify_bind (Does.bind (process_all_any _ _ _ _) fun _ t _ => ?_)
  exact Does.get (Does.bind (R := fun _ _ => True) (Does.step trivial) fun _ _ _ => Does.pure trivial)

/-- A context that goes on with its message, or ends it. -/
theorem process_message_spec {padding_needed : Bool} {Q : Sha512State → Prop} (F : Fate → Prop)
    (h : Tracks k m (d.contexts a)) (hmsg : msg.length < 2 ^ 29)
    (hdoes : ∀ total_len, total_len.toNat = 8 * (m ++ msg).length → ∀ d' : Dev,
      Does (new_state program (d.contexts a) msg total_len padding_needed) d' fun c' _ => Q c') :
    Spec F (process_message program a msg padding_needed) d (fun _ => Replaced d a Q)
      (fun _ t => (F .failed ∨ ¬Fits (m ++ msg).length) ∧ t.contexts = d.contexts)
      fun _ => F .lost := by
  have hcases := get_new_total_len_tracks h hmsg
  refine (update_context_spec F (fun total_len => new_state_within msg total_len padding_needed)
    fun total_len htotal d' _ => ?_).conseq (fun _ _ => id) ?_ fun _ => id
  · rcases hcases with ⟨total_len', hsome, hlen⟩ | ⟨hnone, -⟩
    · obtain rfl := Option.some.inj (hsome.symm.trans htotal)
      exact hdoes total_len' hlen d'
    · cases hnone.symm.trans htotal
  · rintro _ t ⟨hwhy, ht⟩
    refine ⟨hwhy.imp_right fun hnone => ?_, ht⟩
    rcases hcases with ⟨total_len', hsome, -⟩ | ⟨-, hlong⟩
    · cases hnone.symm.trans hsome
    · exact hlong

/-- The context is gone, and what it held with it, whether a status comes back or not. -/
theorem state_shred_spec {F : Fate → Prop} :
    Spec F (state_shred a) d (fun _ => Replaced d a fun _ => True)
      (fun _ t => F .failed ∧ Replaced d a (fun _ => True) t) fun _ => F .lost := by
  refine Spec.get (Spec.bind ((set_context_spec (Q := fun _ => True) trivial).conseq (fun _ _ => id)
    (fun _ _ => False.elim) fun _ => False.elim) fun _ t ht => ?_)
  exact Spec.step ht (fun hF => ⟨hF, ht⟩) id

theorem get_digest_spec {F : Fate → Prop} (digest_words : ℕ) :
    Spec F (get_digest digest_words a) d
      (fun digest t => digest = ((d.contexts a).H.map Memory.bswap32).take digest_words ∧
        Replaced d a (fun _ => True) t) (fun _ _ => False) fun _ => False :=
  Spec.get (Spec.bind (set_context_spec trivial) fun _ _ ht => Spec.pure ⟨rfl, ht⟩)

theorem digest_get_eq (k : Algorithm) :
    (functions program).digest_get k a = get_digest k.digest_words a := by
  cases k with
  | sha384 => rfl
  | sha512 => rfl

end spec

/-! ## The calls -/

/-- The hashes that the driver computes. A message that was started for one algorithm may be
finished for the other. A context that has been finished counts as not started, for `state_shred`
has filled it with random words, and so does one of which the digest was refused. -/
def family : Family Algorithm u8 (List u8) where
  digest k k' m := Sha512.digest k.init (4 * k'.digest_words) m
  fits := Fits
  left := none
  keeps := false

/-- The functions of the file meet what the calls of the family ask for. -/
theorem functions_implement {program : Program} (hruns : RunsSha512 program) :
    (functions program).Implements family Tracks Ended (fun n => n < 2 ^ 29) where
  room_zero := by decide
  starts k := by
    cases k with
    | sha384 => exact tracks_nil rfl List.length_replicate rfl
    | sha512 => exact tracks_nil rfl List.length_replicate rfl
  fits h := h.fits
  goes_on F _ _ _ _ _ hmsg h :=
    process_message_spec F h hmsg fun _ htotal _ => new_state_does hruns h htotal
  ends F _ _ _ _ _ hmsg h :=
    process_message_spec F h hmsg fun _ htotal _ => new_state_padded_does hruns h htotal
  any F _ _ msg padding_needed _ :=
    (update_context_spec F (fun total_len => new_state_within msg total_len padding_needed)
      fun _ _ _ _ => new_state_any).conseq (fun _ _ => id) (fun _ _ ht => ht.2) fun _ => id
  taken F d a k := by
    unfold Functions.take_digest
    rw [digest_get_eq]
    refine Spec.bind ((get_digest_spec k.digest_words).conseq (fun _ _ => id)
      (fun _ _ => False.elim) fun _ => False.elim) fun digest t ht => ?_
    obtain ⟨rfl, ht⟩ := ht
    refine Spec.bind (state_shred_spec.conseq (fun _ _ => id) ?_ fun _ => id) fun _ u hu => ?_
    · rintro e u ⟨hF, hu⟩
      exact ⟨hF, rfl, ht.trans hu⟩
    · refine Spec.pure ⟨fun k' m hm => ?_, (ht.trans hu).mono ?_⟩
      · rw [show (d.contexts a).H = _ from hm, take_word_bytes, word_bytes_pairs]
        rfl
      · rintro c - k' ⟨⟩

/-- Callers make any calls on any contexts, in any order, for either algorithm, and some of the
operations of the machine fail. A context is started from its init to its final, whether that
returns a digest or refuses it, and of one that is not started nothing is said. Every digest of a
started one is that of what its updates took, and a call on it fails only where the machine did or
where the bits of its message cannot be counted. -/
theorem sha512_calls {program : Program} (hruns : RunsSha512 program) (d : Dev)
    (rs : List (Request Algorithm u8)) (hmemory : ∀ r ∈ rs, InMemory (fun n => n < 2 ^ 29) r.call)
    (hpower : ∀ r ∈ rs, ∀ n, r.fate n ≠ .lost) :
    Safe (Allowed family) (serve_all (functions program).serve d rs).1 :=
  (functions_implement hruns).calls_allowed d rs hmemory hpower

/-! ## An application -/

theorem le32_bswap32_word (b0 b1 b2 b3 : u8) :
    le32 (Memory.bswap32 (word b0 b1 b2 b3)) = [b3, b2, b1, b0] := by
  rw [le32_bswap32, byteOf_word _ _ _ _ _ (show 0 < 4 by decide),
    byteOf_word _ _ _ _ _ (show 1 < 4 by decide), byteOf_word _ _ _ _ _ (show 2 < 4 by decide),
    byteOf_word _ _ _ _ _ (show 3 < 4 by decide)]
  rfl

/-- The block can be had back from the buffer. -/
theorem chunk_of_chunk_of {block : List u8} (h : block.length % 8 = 0) :
    chunk_of (chunk_of block) = block := by
  fun_induction chunk_of block with
  | case1 b0 b1 b2 b3 b4 b5 b6 b7 data bytes_7to4 bytes_3to0 ih =>
      have hdata : data.length % 8 = 0 := by
        simp only [List.length_cons] at h
        omega
      simp only [bytes_7to4, bytes_3to0, le32_bswap32_word, List.cons_append, List.nil_append, chunk_of,
        ih hdata]
  | case2 block hshort =>
      match block with
      | [] => rfl
      | [_] | [_, _] | [_, _, _] | [_, _, _, _] | [_, _, _, _, _] | [_, _, _, _, _, _]
      | [_, _, _, _, _, _, _] => simp at h
      | b0 :: b1 :: b2 :: b3 :: b4 :: b5 :: b6 :: b7 :: data =>
          exact absurd rfl (hshort b0 b1 b2 b3 b4 b5 b6 b7 data)

theorem hi32_append_lo32 (x : u64) : hi32 x ++ lo32 x = x := by
  apply BitVec.eq_of_getLsbD_eq
  intro i hi
  rw [BitVec.getLsbD_append]
  by_cases hlow : i < 32
  · simp [hlow, lo32]
  · simp [hlow, hi32, show i - 32 < 32 by omega, show 32 + (i - 32) = i by omega]

/-- An application that computes SHA-512: it reads the state and the block off its words. -/
def software : Program where
  initial := []
  compress words chunk := stored (Sha512.compress
    ⟨words.getD 1 0 ++ words.getD 0 0, words.getD 3 0 ++ words.getD 2 0,
      words.getD 5 0 ++ words.getD 4 0, words.getD 7 0 ++ words.getD 6 0,
      words.getD 9 0 ++ words.getD 8 0, words.getD 11 0 ++ words.getD 10 0,
      words.getD 13 0 ++ words.getD 12 0, words.getD 15 0 ++ words.getD 14 0⟩ (chunk_of chunk))

theorem software_runs : RunsSha512 software := by
  intro s block hblock
  have hwords : block.length % 8 = 0 := by
    rw [hblock]
    rfl
  show stored (Sha512.compress ⟨hi32 s.a ++ lo32 s.a, hi32 s.b ++ lo32 s.b, hi32 s.c ++ lo32 s.c,
    hi32 s.d ++ lo32 s.d, hi32 s.e ++ lo32 s.e, hi32 s.f ++ lo32 s.f, hi32 s.g ++ lo32 s.g,
    hi32 s.h ++ lo32 s.h⟩ (chunk_of (chunk_of block))) = _
  simp only [hi32_append_lo32, chunk_of_chunk_of hwords]

/-- A message that is started for SHA-384 and finished for SHA-512, with a failure on the way. -/
def mixed : List (Request Algorithm u8) :=
  [⟨.start .sha384 0, fun _ => .done⟩, ⟨.feed 0 [0x61, 0x62], fun n => if n = 1 then .failed else .done⟩,
    ⟨.feed 0 [0x61, 0x62, 0x63], fun _ => .done⟩, ⟨.finish .sha512 0, fun _ => .done⟩]

theorem sha512_calls_mixed : Safe (Allowed family)
    (serve_all (functions software).serve
      ⟨.wiped, fun _ => ⟨[], [], 0, 0⟩, ⟨fun _ => 0, 0⟩, 0⟩ mixed).1 := by
  refine sha512_calls software_runs _ _ ?_ ?_
  · simp only [mixed, List.forall_mem_cons, List.not_mem_nil, false_imp_iff, implies_true, and_true,
      InMemory]
    decide
  · simp only [mixed, List.forall_mem_cons, List.not_mem_nil, false_imp_iff, implies_true, and_true]
    refine ⟨fun _ => by decide, fun n => ?_, fun _ => by decide, fun _ => by decide⟩
    split <;> decide

end IbexFirmware.Sha512Otbn
