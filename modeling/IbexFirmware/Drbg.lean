/-
Seed material for the CSRNG (`drbg.c`, and the commands of `entropy.c` that it is sent with).

A personalization string, an additional input or the entropy of a caller becomes the words
of a seed: its bytes with zeros behind them. `seed_material_construct` takes the bytes in
one of two ways, and its test of which way is the wrong way round: `seed_material_construct_exact`
says that the words are right either way, and that a length that is no multiple of four is
rounded up before the buffer is read. The functions of the interface do not look at the status
it returns, so a buffer that is too long leaves the seed as the stack had it.

The words written to the command register are noted in the device, and so is every byte that
is read from a buffer of a caller. The random order of the copies is in `RandomOrder`.
-/
import IbexFirmware.Bitfield
import IbexFirmware.CryptoKey
import IbexFirmware.Lib.Zoom
import IbexFirmware.Memory

set_option autoImplicit false

namespace IbexFirmware.Drbg

open Bytes Bits PowerFail Crypto HardenedMemory Json
open Memory (misalignment32_of)

/-! ## The device -/

/-- `otcrypto_const_byte_buf_t`. -/
structure ConstByteBuf where
  data : u32
  len : u32

def NULL : u32 := 0

/-- A block of random bits in the order in which its words are read, and its FIPS flag. -/
structure GenBits where
  words : List u32
  fips : Bool

/-- The memory, the addresses that have been read through pointers of a caller, the words
written to the command register of the CSRNG, the blocks it generates and how many of them
have been read, and the output buffer. -/
structure Device where
  mem : Mem
  reads : List ℕ
  entropy : EntropySource
  csrng : List u32
  genbits : ℕ → GenBits
  taken : ℕ
  output : List u32

/-- The bytes a caller has at an address. -/
def load (p : u32) (n : ℕ) : Proc Device CryptoError (List u8) := do
  Proc.modify fun s => { s with reads := s.reads ++ List.range' p.toNat n }
  let s ← Proc.get
  pure (readBytes s.mem p.toNat n)

def memshred (n : ℕ) : Proc Device CryptoError (List u32) := do
  let s ← Proc.get
  Proc.modify fun s => { s with entropy := s.entropy.after n }
  pure (s.entropy.words n)

def hardened_check (c : Prop) [Decidable c] : Proc Device CryptoError Unit :=
  if c then pure () else Proc.trap

def entropy_complex_check : Proc Device CryptoError Unit :=
  Proc.step .OTCRYPTO_RECOV_ERR fun s => ((), s)

/-! ## Seed material -/

def kEntropySeedBytes : u32 := 48
def kEntropySeedWords : u32 := 12

/-- The words at the start of an array. -/
def words (m : Mem) (n : ℕ) : List u32 := (List.range n).map fun i => readWord m (4 * i)

/-- `entropy_seed_material_t`. Behind its twelve words `data` has what follows on the stack. -/
structure SeedMaterial where
  len : u32
  data : Mem

/-- What a call finds on its stack: where the pointer of a buffer that is passed by value is
kept, and what was in the places of its variables. -/
structure Frame where
  value_data : u32
  aligned : misalignment32_of value_data = 0
  seed_material : SeedMaterial
  value_words : Mem

def seed_material_construct (frame : Frame) (value : ConstByteBuf) (seed_material : SeedMaterial) :
    Proc Device CryptoError (Except CryptoError Unit × SeedMaterial) :=
  if value.len > kEntropySeedBytes then pure (.error .OTCRYPTO_BAD_ARGS, seed_material)
  else do
    let nwords := ceil_div value.len 4
    let copied ←
      -- the pointer itself is tested, not where it points to
      (if misalignment32_of frame.value_data = 0 ∧ value.len % 4 ≠ 0 then do
        let bytes ← load value.data (4 * nwords.toNat)
        pure (writeBytes seed_material.data 0 bytes)
      else do
        let bytes ← load value.data value.len.toNat
        let copied := writeBytes seed_material.data 0 bytes
        let again ← load value.data value.len.toNat
        hardened_check
          (hardened_memeq again (readBytes copied 0 value.len.toNat) = kHardenedBoolTrue)
        pure copied)
    let unset_bytes := nwords * 4 - value.len
    let data := writeBytes copied value.len.toNat (List.replicate unset_bytes.toNat 0)
    pure (.ok (), ⟨nwords, data⟩)

def seed_material_xor (frame : Frame) (value : ConstByteBuf) (seed_material : SeedMaterial) :
    Proc Device CryptoError (Except CryptoError Unit × SeedMaterial) :=
  if value.len > kEntropySeedBytes then pure (.error .OTCRYPTO_BAD_ARGS, seed_material)
  else if value.len = 0 then pure (.ok (), seed_material)
  else do
    let nwords := ceil_div value.len 4
    let value_words := writeWord frame.value_words (4 * (nwords - 1).toNat) 0
    let bytes ← load value.data value.len.toNat
    let value_words := writeBytes value_words 0 bytes
    let again ← load value.data value.len.toNat
    hardened_check
      (hardened_memeq again (readBytes value_words 0 value.len.toNat) = kHardenedBoolTrue)
    let sum := hardened_xor_in_place (words seed_material.data nwords.toNat)
      (words value_words nwords.toNat)
    pure (.ok (), { seed_material with data := writeBytes seed_material.data 0 (word_bytes sum) })

/-! ### What the words are -/

/-- The bytes of a buffer of a caller. -/
def ConstByteBuf.bytes (b : ConstByteBuf) (mem : Mem) : List u8 :=
  readBytes mem b.data.toNat b.len.toNat

@[simp] theorem ConstByteBuf.length_bytes (b : ConstByteBuf) (mem : Mem) :
    (b.bytes mem).length = b.len.toNat := length_readBytes ..

@[simp] theorem length_words (m : Mem) (n : ℕ) : (words m n).length = n := by simp [words]

theorem words_eq_zero_padded {m : Mem} {n : ℕ} {bytes : List u8}
    (h : ∀ a < 4 * n, m a = bytes.getD a 0) : words m n = zero_padded n bytes := by
  apply List.map_congr_left
  intro i hi
  have hlt := List.mem_range.mp hi
  rw [readWord, h (4 * i) (by omega), h (4 * i + 1) (by omega), h (4 * i + 2) (by omega),
    h (4 * i + 3) (by omega)]

theorem word_bytes_words (m : Mem) (n : ℕ) : word_bytes (words m n) = readBytes m 0 (4 * n) := by
  induction n with
  | zero => rfl
  | succ n ih =>
      rw [show 4 * (n + 1) = 4 * n + 4 by omega, readBytes_add, ← ih, Nat.zero_add, ← le32_readWord]
      simp [words, word_bytes, List.range_succ]

theorem words_writeBytes (m : Mem) (ws : List u32) :
    words (writeBytes m 0 (word_bytes ws)) ws.length = ws := by
  apply word_bytes_injective
  rw [word_bytes_words, ← length_word_bytes]
  exact readBytes_writeBytes m 0 (word_bytes ws)

theorem words_add (m : Mem) (k j : ℕ) :
    words m (k + j) = words m k ++ (List.range j).map fun i => readWord m (4 * (k + i)) := by
  simp [words, List.range_add, Function.comp_def]

/-- Words stored at the start of an array, and the words behind them. -/
theorem words_store {m : Mem} {ws : List u32} {k : ℕ} (h : ws.length = k) (j : ℕ) :
    words (writeBytes m 0 (word_bytes ws)) (k + j) =
      ws ++ (List.range j).map fun i => readWord m (4 * (k + i)) := by
  subst h
  rw [words_add, words_writeBytes]
  congr 1
  apply List.map_congr_left
  intro i _
  have hkeep : ∀ a, 4 * ws.length ≤ a → writeBytes m 0 (word_bytes ws) a = m a := by
    intro a ha
    apply writeBytes_of_not_mem
    rw [length_word_bytes]
    omega
  rw [readWord, readWord, hkeep _ (by omega), hkeep _ (by omega), hkeep _ (by omega),
    hkeep _ (by omega)]

theorem zipWith_xor_zeros {ws : List u32} {n : ℕ} (h : ws.length = n) :
    List.zipWith (· ^^^ ·) ws (List.replicate n 0) = ws := by
  subst h
  apply List.ext_getElem
  · simp
  · intro i hi hlt
    simp

/-- A buffer compared with a copy of it. -/
theorem hardened_memeq_copy (m : Mem) (bytes : List u8) :
    hardened_memeq bytes (readBytes (writeBytes m 0 bytes) 0 bytes.length) =
      kHardenedBoolTrue := by
  rw [readBytes_writeBytes, hardened_memeq_eq _ _ rfl, if_pos rfl]

theorem zeros_behind (m : Mem) (bytes : List u8) {n a : ℕ} (h : bytes.length ≤ n) (ha : a < n) :
    writeBytes (writeBytes m 0 bytes) bytes.length (List.replicate (n - bytes.length) 0) a =
      bytes.getD a 0 := by
  have happend := writeBytes_append m 0 bytes (List.replicate (n - bytes.length) 0)
  rw [Nat.zero_add] at happend
  rw [happend, writeBytes, if_pos]
  · rw [Nat.sub_zero]
    by_cases hin : a < bytes.length
    · exact List.getD_append _ _ _ _ hin
    · rw [List.getD_append_right _ _ _ _ (by omega), List.getD_eq_default _ _ (by omega : bytes.length ≤ a)]
      simp
  · rw [List.length_append, List.length_replicate]
    omega

theorem toNat_ceil_div_four (len : u32) : (ceil_div len 4).toNat = (len.toNat + 3) / 4 :=
  toNat_ceil_div len 4 (by decide)

/-- A buffer of 48 bytes at most. -/
def ConstByteBuf.fits (b : ConstByteBuf) : Prop := b.len ≤ kEntropySeedBytes

instance (b : ConstByteBuf) : Decidable b.fits := inferInstanceAs (Decidable (_ ≤ _))

theorem ConstByteBuf.fits.not_gt {b : ConstByteBuf} (h : b.fits) : ¬b.len > kEntropySeedBytes := by
  rw [ConstByteBuf.fits, BitVec.le_def] at h
  rw [gt_iff_lt, BitVec.lt_def]
  omega

theorem gt_of_not_fits {b : ConstByteBuf} (h : ¬b.fits) : b.len > kEntropySeedBytes := by
  rw [ConstByteBuf.fits, BitVec.le_def] at h
  rw [gt_iff_lt, BitVec.lt_def]
  omega

theorem ConstByteBuf.fits.toNat_le {b : ConstByteBuf} (h : b.fits) : b.len.toNat ≤ 48 := h

/-- The bytes the construction of a seed reads: the words of the buffer if its length is no
multiple of four, and the bytes of it twice if it is one. -/
def ConstByteBuf.seed_reads (b : ConstByteBuf) : List ℕ :=
  if b.len % 4 ≠ 0 then List.range' b.data.toNat (4 * (ceil_div b.len 4).toNat)
  else List.range' b.data.toNat b.len.toNat ++ List.range' b.data.toNat b.len.toNat

variable {frame : Frame} {value : ConstByteBuf} {seed_material : SeedMaterial} {s : Device}
  {I : Device → Prop}

theorem load_bind {α : Type} {p : u32} {n : ℕ} {f : List u8 → Proc Device CryptoError α}
    {Q : α → Device → Prop}
    (h : Guarded (f (readBytes s.mem p.toNat n)) { s with reads := s.reads ++ List.range' p.toNat n }
      Q I) : Guarded (load p n >>= f) s Q I := by
  refine Guarded.bind (R := fun bytes t => bytes = readBytes s.mem p.toNat n ∧
    t = { s with reads := s.reads ++ List.range' p.toNat n })
    (Guarded.modify_bind (Guarded.get (Guarded.pure ⟨rfl, rfl⟩))) ?_
  rintro _ _ ⟨rfl, rfl⟩
  exact h

theorem hardened_check_bind {α : Type} {c : Prop} [Decidable c]
    {f : Unit → Proc Device CryptoError α} {Q : α → Device → Prop} (hc : c)
    (h : Guarded (f ()) s Q I) : Guarded (hardened_check c >>= f) s Q I := by
  rw [hardened_check, if_pos hc]
  exact h

/-- The words are those of the buffer on either way, but not what is read for them. -/
theorem seed_material_construct_exact (h : value.fits) :
    Guarded (seed_material_construct frame value seed_material) s (fun r t =>
      r.2.len = ceil_div value.len 4 ∧
      words r.2.data r.2.len.toNat = zero_padded r.2.len.toNat (value.bytes s.mem) ∧
      t = { s with reads := s.reads ++ value.seed_reads }) I := by
  have hlen := h.toNat_le
  have hnwords := toNat_ceil_div_four value.len
  have hunset : (ceil_div value.len 4 * 4 - value.len).toNat =
      4 * (ceil_div value.len 4).toNat - value.len.toNat := by
    have hmul : (ceil_div value.len 4 * 4).toNat = 4 * (ceil_div value.len 4).toNat := by
      rw [BitVec.toNat_mul, show (4 : u32).toNat = 4 from rfl, Nat.mod_eq_of_lt (by omega)]
      omega
    rw [BitVec.toNat_sub_of_le (by rw [BitVec.le_def]; omega), hmul]
  rw [seed_material_construct, if_neg h.not_gt]
  by_cases hmod : value.len % 4 = 0
  · refine Guarded.bind (R := fun copied t => copied = writeBytes seed_material.data 0 (value.bytes s.mem) ∧
      t = { s with reads := s.reads ++ value.seed_reads }) ?_ ?_
    · rw [if_neg fun hboth => hboth.2 hmod]
      refine load_bind (load_bind (hardened_check_bind ?_ (Guarded.pure ⟨rfl, ?_⟩)))
      · have hcopy := hardened_memeq_copy seed_material.data (value.bytes s.mem)
        rwa [ConstByteBuf.length_bytes] at hcopy
      · rw [ConstByteBuf.seed_reads, if_neg (not_not.mpr hmod), List.append_assoc]
    · rintro _ _ ⟨rfl, rfl⟩
      refine Guarded.pure ⟨rfl, words_eq_zero_padded fun a ha => ?_, rfl⟩
      have hbytes := value.length_bytes s.mem
      have hzero := zeros_behind seed_material.data (value.bytes s.mem)
        (n := 4 * (ceil_div value.len 4).toNat) (by omega) ha
      rwa [hbytes, ← hunset] at hzero
  · refine Guarded.bind (R := fun copied t =>
      copied = writeBytes seed_material.data 0
        (readBytes s.mem value.data.toNat (4 * (ceil_div value.len 4).toNat)) ∧
      t = { s with reads := s.reads ++ value.seed_reads }) ?_ ?_
    · rw [if_pos ⟨frame.aligned, hmod⟩]
      refine load_bind (Guarded.pure ⟨rfl, ?_⟩)
      rw [ConstByteBuf.seed_reads, if_pos hmod]
    · rintro _ _ ⟨rfl, rfl⟩
      refine Guarded.pure ⟨rfl, words_eq_zero_padded fun a ha => ?_, rfl⟩
      -- what has been copied from behind the buffer is overwritten
      dsimp only at ha ⊢
      unfold writeBytes
      rw [List.length_replicate, hunset, length_readBytes]
      by_cases hin : a < value.len.toNat
      · rw [if_neg (by omega), if_pos (by omega), Nat.sub_zero,
          List.getD_eq_getElem _ _ (by rw [length_readBytes]; exact ha),
          List.getD_eq_getElem _ _ (by rw [ConstByteBuf.length_bytes]; exact hin), getElem_readBytes,
          ← getElem_readBytes s.mem value.data.toNat value.len.toNat a (by rwa [length_readBytes])]
        rfl
      · rw [if_pos (by omega), List.getD_eq_default (value.bytes s.mem)]
        · simp
        · rw [ConstByteBuf.length_bytes]
          omega

/-- What is too long leaves the seed as it is. -/
theorem seed_material_construct_long (h : ¬value.fits) :
    Guarded (seed_material_construct frame value seed_material) s
      (fun r t => seed_material = r.2 ∧ s = t) I := by
  rw [seed_material_construct, if_pos (gt_of_not_fits h)]
  exact Guarded.pure ⟨rfl, rfl⟩

theorem seed_material_xor_long (h : ¬value.fits) :
    Guarded (seed_material_xor frame value seed_material) s
      (fun r t => seed_material = r.2 ∧ s = t) I := by
  rw [seed_material_xor, if_pos (gt_of_not_fits h)]
  exact Guarded.pure ⟨rfl, rfl⟩

/-- The second buffer is added to the words it has bytes in. -/
theorem seed_material_xor_exact (h : value.fits) :
    Guarded (seed_material_xor frame value seed_material) s (fun r t =>
      r.2.len = seed_material.len ∧
      words r.2.data 12 = List.zipWith (· ^^^ ·) (words seed_material.data 12)
        (zero_padded 12 (value.bytes s.mem)) ∧
      ∃ reads, t = { s with reads := s.reads ++ reads } ∧
        ∀ a ∈ reads, value.data.toNat ≤ a ∧ a < value.data.toNat + value.len.toNat) I := by
  have hlen := h.toNat_le
  have hnwords := toNat_ceil_div_four value.len
  have hbytes := value.length_bytes s.mem
  rw [seed_material_xor, if_neg h.not_gt]
  by_cases hzero : value.len = 0
  · have hnil : value.bytes s.mem = [] := by
      apply List.eq_nil_of_length_eq_zero
      rw [hbytes, hzero]
      rfl
    rw [if_pos hzero]
    refine Guarded.pure ⟨rfl, ?_, [], by rw [List.append_nil], nofun⟩
    rw [hnil, zero_padded_add (k := 0) (Nat.le_refl _) 12]
    exact (zipWith_xor_zeros (by simp)).symm
  · rw [if_neg hzero]
    have hpos : 0 < value.len.toNat := Nat.pos_of_ne_zero fun h0 => hzero (BitVec.eq_of_toNat_eq h0)
    have hlast : (ceil_div value.len 4 - 1).toNat = (ceil_div value.len 4).toNat - 1 :=
      BitVec.toNat_sub_of_le (by rw [BitVec.le_def, hnwords]; show 1 ≤ _; omega)
    refine load_bind (load_bind (hardened_check_bind ?_ (Guarded.pure ⟨rfl, ?_, _,
      by rw [List.append_assoc], ?_⟩)))
    · have hcopy := hardened_memeq_copy
        (writeWord frame.value_words (4 * (ceil_div value.len 4 - 1).toNat) 0) (value.bytes s.mem)
      rwa [hbytes] at hcopy
    · -- the last word of the array has been set to zero before the bytes are copied
      have hwords : words (writeBytes
          (writeWord frame.value_words (4 * (ceil_div value.len 4 - 1).toNat) 0) 0
          (value.bytes s.mem)) (ceil_div value.len 4).toNat =
            zero_padded (ceil_div value.len 4).toNat (value.bytes s.mem) := by
        apply words_eq_zero_padded
        intro a ha
        unfold writeBytes
        by_cases hin : a < value.len.toNat
        · rw [if_pos (by omega), Nat.sub_zero]
        · rw [if_neg (by omega), List.getD_eq_default _ _ (by omega), writeWord_of_mem _ _ _ _ (by omega)]
          exact BitVec.extractLsb'_zero
      have hsplit : 12 = (ceil_div value.len 4).toNat + (12 - (ceil_div value.len 4).toNat) := by omega
      have hxor := hardened_xor_in_place_eq
        (x := words seed_material.data (ceil_div value.len 4).toNat)
        (y := zero_padded (ceil_div value.len 4).toNat (value.bytes s.mem)) (by simp)
      show words (writeBytes seed_material.data 0 (word_bytes (hardened_xor_in_place
        (words seed_material.data (ceil_div value.len 4).toNat) (words (writeBytes
          (writeWord frame.value_words (4 * (ceil_div value.len 4 - 1).toNat) 0) 0
          (value.bytes s.mem)) (ceil_div value.len 4).toNat)))) 12 = _
      rw [hwords, hxor]
      have hsum : (hardened_xor (words seed_material.data (ceil_div value.len 4).toNat)
          (zero_padded (ceil_div value.len 4).toNat (value.bytes s.mem))).length =
            (ceil_div value.len 4).toNat := by simp
      rw [hsplit, words_store hsum, words_add, zero_padded_add (by omega),
        List.zipWith_append (by simp), zipWith_xor_zeros (by simp)]
      rfl
    · intro a ha
      rw [List.mem_append, or_self, List.mem_range'_1] at ha
      exact ha

/-! ## Commands -/

def kMultiBitBool4True : u32 := 0x6
def kMultiBitBool4False : u32 := 0x9

def kEntropyDrbgOpInstantiate : u32 := 1
def kEntropyDrbgOpReseed : u32 := 2
def kEntropyDrbgOpGenerate : u32 := 3
def kEntropyDrbgOpUninstantiate : u32 := 5

def kAppCmdFieldFlag0 : BitfieldField32 := ⟨0xf, 8⟩
def kAppCmdFieldCmdId : BitfieldField32 := ⟨0xf, 0⟩
def kAppCmdFieldCmdLen : BitfieldField32 := ⟨0xf, 4⟩
def kAppCmdFieldGlen : BitfieldField32 := ⟨0x7ffff, 12⟩

def kMaxGenerateSizeIn128BitBlocks : u32 := 0x800

/-- `entropy_csrng_cmd_t`. -/
structure CsrngCmd where
  id : u32
  disable_trng_input : u32
  seed_material : Option SeedMaterial
  generate_len : u32

def CsrngCmd.cmd_len (cmd : CsrngCmd) : u32 :=
  match cmd.seed_material with
  | none => 0
  | some seed_material => seed_material.len

/-- The words that follow the header. -/
def CsrngCmd.words (cmd : CsrngCmd) : List u32 :=
  match cmd.seed_material with
  | none => []
  | some seed_material => Drbg.words seed_material.data seed_material.len.toNat

/-- The application command header. -/
def command_header (id disable_trng_input cmd_len generate_len : u32) : u32 :=
  let reg := bitfield_field32_write 0 kAppCmdFieldCmdId id
  let reg := bitfield_field32_write reg kAppCmdFieldCmdLen cmd_len
  let reg := bitfield_field32_write reg kAppCmdFieldGlen generate_len
  let reg := bitfield_field32_write reg kAppCmdFieldFlag0 kMultiBitBool4False
  if disable_trng_input = kHardenedBoolTrue then
    bitfield_field32_write reg kAppCmdFieldFlag0 kMultiBitBool4True
  else reg

/-- For the software interface of the CSRNG, with the wait for the completion. The waits
for the interface to be ready are left out. -/
def csrng_send_app_cmd (cmd : CsrngCmd) : Proc Device CryptoError Unit :=
  if cmd.generate_len > kMaxGenerateSizeIn128BitBlocks then Proc.throw .OTCRYPTO_BAD_ARGS
  else if cmd.cmd_len &&& ~~~kAppCmdFieldCmdLen.mask ≠ 0 then Proc.throw .OTCRYPTO_RECOV_ERR
  else do
    let reg := command_header cmd.id cmd.disable_trng_input cmd.cmd_len cmd.generate_len
    Proc.modify fun s => { s with csrng := s.csrng ++ reg :: cmd.words }
    if cmd.id = kEntropyDrbgOpGenerate then pure ()
    -- the status bit of the command that is done
    else Proc.step .OTCRYPTO_RECOV_ERR fun s => ((), s)

def entropy_csrng_instantiate (disable_trng_input : u32) (seed_material : SeedMaterial) :
    Proc Device CryptoError Unit :=
  csrng_send_app_cmd ⟨kEntropyDrbgOpInstantiate, disable_trng_input, some seed_material, 0⟩

def entropy_csrng_reseed (disable_trng_input : u32) (seed_material : SeedMaterial) :
    Proc Device CryptoError Unit :=
  csrng_send_app_cmd ⟨kEntropyDrbgOpReseed, disable_trng_input, some seed_material, 0⟩

def entropy_csrng_generate_start (seed_material : SeedMaterial) (len : u32) :
    Proc Device CryptoError Unit :=
  csrng_send_app_cmd ⟨kEntropyDrbgOpGenerate, 0, some seed_material, ceil_div len 4⟩

/-- Every block is read, and the words of a block end up in reverse order. -/
def entropy_csrng_generate_data_get (len fips_check : u32) : Proc Device CryptoError Unit := do
  let s ← Proc.get
  let nblocks := (ceil_div len 4).toNat
  let blocks := (List.range nblocks).map fun i => s.genbits (s.taken + i)
  Proc.modify fun s =>
    { s with
      taken := s.taken + nblocks
      output := (blocks.flatMap fun block => block.words.reverse).take len.toNat }
  if fips_check ≠ kHardenedBoolFalse ∧ ∃ block ∈ blocks, block.fips = false then
    Proc.throw .OTCRYPTO_RECOV_ERR
  else pure ()

def entropy_csrng_generate (seed_material : SeedMaterial) (len fips_check : u32) :
    Proc Device CryptoError Unit := do
  entropy_csrng_generate_start seed_material len
  entropy_csrng_generate_data_get len fips_check

def entropy_csrng_uninstantiate : Proc Device CryptoError Unit :=
  csrng_send_app_cmd ⟨kEntropyDrbgOpUninstantiate, 0, none, 0⟩

/-! ## The interface -/

/-- The seed material of an instantiation, a reseed and their likes is shredded first. -/
def shredded (seed_material : SeedMaterial) : Proc Device CryptoError SeedMaterial := do
  let random ← memshred kEntropySeedWords.toNat
  pure { seed_material with data := writeBytes seed_material.data 0 (word_bytes random) }

def otcrypto_drbg_instantiate (frame : Frame) (perso_string : ConstByteBuf) :
    Proc Device CryptoError Unit :=
  if perso_string.len ≠ 0 ∧ perso_string.data = NULL then Proc.throw .OTCRYPTO_BAD_ARGS
  else do
    entropy_complex_check
    let seed_material ← shredded frame.seed_material
    let (_, seed_material) ← seed_material_construct frame perso_string seed_material
    entropy_csrng_uninstantiate
    entropy_csrng_instantiate kHardenedBoolFalse seed_material

def otcrypto_drbg_reseed (frame : Frame) (additional_input : ConstByteBuf) :
    Proc Device CryptoError Unit :=
  if additional_input.len ≠ 0 ∧ additional_input.data = NULL then Proc.throw .OTCRYPTO_BAD_ARGS
  else do
    entropy_complex_check
    let seed_material ← shredded frame.seed_material
    let (_, seed_material) ← seed_material_construct frame additional_input seed_material
    entropy_csrng_reseed kHardenedBoolFalse seed_material

def otcrypto_drbg_manual_instantiate (frame : Frame) (entropy perso_string : ConstByteBuf) :
    Proc Device CryptoError Unit :=
  if perso_string.len ≠ 0 ∧ perso_string.data = NULL then Proc.throw .OTCRYPTO_BAD_ARGS
  else if entropy.data = NULL ∨ entropy.len ≠ kEntropySeedBytes then
    Proc.throw .OTCRYPTO_BAD_ARGS
  else do
    let (_, seed_material) ← seed_material_construct frame entropy frame.seed_material
    let (_, seed_material) ← seed_material_xor frame perso_string seed_material
    hardened_check (seed_material.len = kEntropySeedWords)
    entropy_csrng_instantiate kHardenedBoolTrue seed_material

def otcrypto_drbg_manual_reseed (frame : Frame) (entropy additional_input : ConstByteBuf) :
    Proc Device CryptoError Unit :=
  if additional_input.len ≠ 0 ∧ additional_input.data = NULL then Proc.throw .OTCRYPTO_BAD_ARGS
  else if entropy.data = NULL ∨ entropy.len ≠ kEntropySeedBytes then
    Proc.throw .OTCRYPTO_BAD_ARGS
  else do
    let (_, seed_material) ← seed_material_construct frame entropy frame.seed_material
    let (_, seed_material) ← seed_material_xor frame additional_input seed_material
    hardened_check (seed_material.len = kEntropySeedWords)
    entropy_csrng_reseed kHardenedBoolTrue seed_material

def generate (frame : Frame) (fips_check : u32) (additional_input : ConstByteBuf)
    (drbg_output : Word32Buf) : Proc Device CryptoError Unit :=
  if drbg_output.len = 0 then pure ()
  else if additional_input.len ≠ 0 ∧ additional_input.data = NULL ∨ drbg_output.data = none then
    Proc.throw .OTCRYPTO_BAD_ARGS
  else do
    let (_, seed_material) ← seed_material_construct frame additional_input frame.seed_material
    entropy_csrng_generate seed_material drbg_output.len fips_check

def otcrypto_drbg_generate (frame : Frame) (additional_input : ConstByteBuf)
    (drbg_output : Word32Buf) : Proc Device CryptoError Unit := do
  entropy_complex_check
  let random ← memshred drbg_output.len.toNat
  Proc.modify fun s => { s with output := random }
  generate frame kHardenedBoolTrue additional_input drbg_output

def otcrypto_drbg_manual_generate (frame : Frame) (additional_input : ConstByteBuf)
    (drbg_output : Word32Buf) : Proc Device CryptoError Unit :=
  generate frame kHardenedBoolFalse additional_input drbg_output

/-! ## What is sent and what is refused -/

/-- The words are sent behind those of before, and only what is `inside` is read. -/
structure Sent (s : Device) (log : List u32) (inside : ℕ → Prop) (t : Device) : Prop where
  log : t.csrng = s.csrng ++ log
  reads : ∀ a ∈ t.reads, a ∈ s.reads ∨ inside a

/-- A call that sends the words, unless an operation fails, and reads no more in any case. -/
def Sends (p : Proc Device CryptoError Unit) (s : Device) (log : List u32)
    (inside : ℕ → Prop) : Prop :=
  ∀ F : Fate → Prop, Spec F p s (fun _ t => Sent s log inside t)
    (fun _ t => (∀ a ∈ t.reads, a ∈ s.reads ∨ inside a) ∧ (F .failed ∨ Sent s log inside t))
    fun _ => F .lost

/-- A call that is refused before any command, unless an operation fails. -/
def RefusesArgs (p : Proc Device CryptoError Unit) (s : Device) : Prop :=
  ∀ F : Fate → Prop, Spec F p s (fun _ _ => False)
    (fun e t => t.csrng = s.csrng ∧ (e = .OTCRYPTO_BAD_ARGS ∨ F .failed)) fun _ => F .lost

/-- However the call ends when no operation fails, it leaves a device with `P`. -/
def Ends (p : Proc Device CryptoError Unit) (s : Device) (P : Device → Prop) : Prop :=
  Spec (· = .done) p s (fun _ => P) (fun _ => P) fun _ => False

section ends

variable {p : Proc Device CryptoError Unit} {log : List u32} {inside : ℕ → Prop}
  {P P' : Device → Prop}

/-- Two things that hold of the one device a call leaves. -/
theorem Ends.exists_and (hp : Ends p s P) (hp' : Ends p s P') : ∃ t, P t ∧ P' t := by
  obtain ⟨hmeets, -⟩ := hp (Machine.sound s) rfl (Machine.sound_under s)
  obtain ⟨hmeets', -⟩ := hp' (Machine.sound s) rfl (Machine.sound_under s)
  generalize p (Machine.sound s) = run at hmeets hmeets'
  obtain ⟨outcome, m⟩ := run
  cases outcome with
  | ret a => exact ⟨m.mem, hmeets, hmeets'⟩
  | error e => exact ⟨m.mem, hmeets, hmeets'⟩
  | trap => exact hmeets.elim
  | lost => exact hmeets.elim

theorem Guarded.ends (h : Guarded p s (fun _ => P) I) : Ends p s P :=
  (h _).conseq (fun _ _ => id) (fun _ _ h => nomatch h.1) fun _ h => nomatch h

theorem Sends.ends (h : Sends p s log inside) : Ends p s (Sent s log inside) := by
  refine (h _).conseq (fun _ _ => id) (fun _ _ h => ?_) fun _ h => nomatch h
  obtain h | h := h.2
  · cases h
  · exact h

theorem RefusesArgs.ends (h : RefusesArgs p s) : Ends p s fun t => t.csrng = s.csrng :=
  (h _).conseq (fun _ _ => False.elim) (fun _ _ h => h.1) fun _ h => nomatch h

/-- A call that sends what it should is not one that sends nothing. -/
theorem Sends.not_silent {w : u32} {ws : List u32} (h : Sends p s (w :: ws) inside)
    (hsilent : Ends p s fun t => t.csrng = s.csrng) : False := by
  obtain ⟨t, hsent, hkept⟩ := h.ends.exists_and hsilent
  exact absurd (hsent.log.symm.trans hkept) (by simp)

theorem Guarded.sends (h : Guarded p s (fun _ => Sent s log inside)
    fun t => ∀ a ∈ t.reads, a ∈ s.reads ∨ inside a) : Sends p s log inside :=
  fun F => (h F).conseq (fun _ _ => id) (fun _ _ h => ⟨h.2, .inl h.1⟩) fun _ => id

end ends

/-! ## One command -/

theorem cmd_len_mask {len : u32} (h : len.toNat ≤ 15) : len &&& ~~~kAppCmdFieldCmdLen.mask = 0 := by
  have hall : ∀ n ≤ 15, BitVec.ofNat 32 n &&& ~~~kAppCmdFieldCmdLen.mask = 0 := by decide
  have hlen := hall len.toNat h
  rwa [BitVec.ofNat_toNat, BitVec.setWidth_eq] at hlen

def CsrngCmd.log (cmd : CsrngCmd) : List u32 :=
  command_header cmd.id cmd.disable_trng_input cmd.cmd_len cmd.generate_len :: cmd.words

theorem csrng_send_app_cmd_sends {cmd : CsrngCmd}
    (hgenerate : ¬cmd.generate_len > kMaxGenerateSizeIn128BitBlocks)
    (hlen : cmd.cmd_len.toNat ≤ 15) (hI : I { s with csrng := s.csrng ++ cmd.log }) :
    Guarded (csrng_send_app_cmd cmd) s
      (fun _ t => t = { s with csrng := s.csrng ++ cmd.log }) I := by
  rw [csrng_send_app_cmd, if_neg hgenerate, if_neg (not_not.mpr (cmd_len_mask hlen))]
  refine Guarded.modify_bind ?_
  split_ifs
  · exact Guarded.pure rfl
  · exact Guarded.step rfl hI

theorem zero_blocks : ¬(0 : u32) > kMaxGenerateSizeIn128BitBlocks := by decide

/-- A request for too many blocks is not sent. -/
theorem csrng_send_app_cmd_long {cmd : CsrngCmd}
    (hgenerate : cmd.generate_len > kMaxGenerateSizeIn128BitBlocks) :
    csrng_send_app_cmd cmd = Proc.throw .OTCRYPTO_BAD_ARGS := if_pos hgenerate

theorem entropy_csrng_generate_data_get_ends {P : Device → Prop} {F : Fate → Prop}
    {len fips_check : u32} (h : ∀ taken output, P { s with taken := taken, output := output }) :
    Spec F (entropy_csrng_generate_data_get len fips_check) s (fun _ => P) (fun _ => P)
      fun _ => False := by
  refine Spec.get (Spec.bind (R := fun _ => P) (Spec.modify (h _ _)) fun _ t ht => ?_)
  split_ifs
  · exact Spec.throw ht
  · exact Spec.pure ht

/-! ## The calls -/

inductive Call where
  | instantiate (perso_string : ConstByteBuf)
  | reseed (additional_input : ConstByteBuf)
  | manual_instantiate (entropy perso_string : ConstByteBuf)
  | manual_reseed (entropy additional_input : ConstByteBuf)
  | generate (additional_input : ConstByteBuf) (drbg_output : Word32Buf)
  | manual_generate (additional_input : ConstByteBuf) (drbg_output : Word32Buf)

namespace Call

def run (frame : Frame) : Call → Proc Device CryptoError Unit
  | instantiate perso_string => otcrypto_drbg_instantiate frame perso_string
  | reseed additional_input => otcrypto_drbg_reseed frame additional_input
  | manual_instantiate entropy perso_string =>
      otcrypto_drbg_manual_instantiate frame entropy perso_string
  | manual_reseed entropy additional_input =>
      otcrypto_drbg_manual_reseed frame entropy additional_input
  | generate additional_input drbg_output =>
      otcrypto_drbg_generate frame additional_input drbg_output
  | manual_generate additional_input drbg_output =>
      otcrypto_drbg_manual_generate frame additional_input drbg_output

/-- The buffers that are not empty are there, and so is the output. -/
def Given : Call → Prop
  | instantiate b | reseed b => b.len = 0 ∨ b.data ≠ NULL
  | manual_instantiate e b | manual_reseed e b =>
      (e.len = 0 ∨ e.data ≠ NULL) ∧ (b.len = 0 ∨ b.data ≠ NULL)
  | generate b drbg_output | manual_generate b drbg_output =>
      (b.len = 0 ∨ b.data ≠ NULL) ∧ drbg_output.len ≠ 0 ∧ drbg_output.data ≠ none

/-- A buffer is longer than the documented limit, or has not the documented length. -/
def TooLong : Call → Prop
  | instantiate b | reseed b | generate b _ | manual_generate b _ => ¬b.fits
  | manual_instantiate e b | manual_reseed e b => e.len ≠ kEntropySeedBytes ∨ ¬b.fits

/-- A header and the words of one buffer. -/
def seed (id generate_len : u32) (disable_trng_input : u32) (b : ConstByteBuf) (mem : Mem) :
    List u32 :=
  let len := ceil_div b.len 4
  command_header id disable_trng_input len generate_len :: zero_padded len.toNat (b.bytes mem)

/-- A header and the sum of the words of two buffers. -/
def manual_seed (id : u32) (e b : ConstByteBuf) (mem : Mem) : List u32 :=
  command_header id kHardenedBoolTrue kEntropySeedWords 0 ::
    List.zipWith (· ^^^ ·) (zero_padded 12 (e.bytes mem)) (zero_padded 12 (b.bytes mem))

/-- The words that a call is to send. -/
def log (mem : Mem) : Call → List u32
  | instantiate b =>
      command_header kEntropyDrbgOpUninstantiate 0 0 0 ::
        seed kEntropyDrbgOpInstantiate 0 kHardenedBoolFalse b mem
  | reseed b => seed kEntropyDrbgOpReseed 0 kHardenedBoolFalse b mem
  | manual_instantiate e b => manual_seed kEntropyDrbgOpInstantiate e b mem
  | manual_reseed e b => manual_seed kEntropyDrbgOpReseed e b mem
  | generate b drbg_output | manual_generate b drbg_output =>
      seed kEntropyDrbgOpGenerate (ceil_div drbg_output.len 4) 0 b mem

/-- The addresses of the buffers of a call. -/
def Inside : Call → ℕ → Prop
  | instantiate b, a | reseed b, a | generate b _, a | manual_generate b _, a =>
      b.data.toNat ≤ a ∧ a < b.data.toNat + b.len.toNat
  | manual_instantiate e b, a | manual_reseed e b, a =>
      (e.data.toNat ≤ a ∧ a < e.data.toNat + e.len.toNat) ∨
        (b.data.toNat ≤ a ∧ a < b.data.toNat + b.len.toNat)

/-- The seed is exact or refused. -/
def Exact (frame : Frame) (s : Device) (c : Call) : Prop :=
  (c.TooLong → RefusesArgs (c.run frame) s) ∧
    (¬c.TooLong → Sends (c.run frame) s (c.log s.mem) c.Inside)

/-- When it is. -/
def Sound : Call → Prop
  | instantiate b | reseed b => b.fits ∧ b.len % 4 = 0
  | manual_instantiate e b | manual_reseed e b => e.len ≠ kEntropySeedBytes ∨ b.fits
  | generate b drbg_output | manual_generate b drbg_output =>
      if ceil_div drbg_output.len 4 > kMaxGenerateSizeIn128BitBlocks then ¬b.fits
      else b.fits ∧ b.len % 4 = 0

end Call

/-! ## Calls that take one buffer -/

section one

variable {p : Proc Device CryptoError Unit} {log : List u32} {b : ConstByteBuf}

/-- A call that sends the words of a buffer that fits and reads what the construction reads. -/
def Seeds (p : Proc Device CryptoError Unit) (s : Device) (log : List u32)
    (b : ConstByteBuf) : Prop :=
  ∀ F : Fate → Prop, Spec F p s
    (fun _ t => t.csrng = s.csrng ++ log ∧ t.reads = s.reads ++ b.seed_reads)
    (fun _ t => (t.reads = s.reads ∨ t.reads = s.reads ++ b.seed_reads) ∧
      (F .failed ∨ t.csrng = s.csrng ++ log ∧ t.reads = s.reads ++ b.seed_reads))
    fun _ => F .lost

theorem ConstByteBuf.mem_seed_reads (h : b.len % 4 = 0) {a : ℕ} (ha : a ∈ b.seed_reads) :
    b.data.toNat ≤ a ∧ a < b.data.toNat + b.len.toNat := by
  rw [ConstByteBuf.seed_reads, if_neg (not_not.mpr h), List.mem_append, or_self,
    List.mem_range'_1] at ha
  exact ha

/-- The first byte behind the buffer. -/
theorem ConstByteBuf.end_mem_seed_reads (h : b.len % 4 ≠ 0) :
    b.data.toNat + b.len.toNat ∈ b.seed_reads := by
  have hmod : b.len.toNat % 4 ≠ 0 := fun h0 => h (BitVec.eq_of_toNat_eq h0)
  rw [ConstByteBuf.seed_reads, if_pos h, List.mem_range'_1, toNat_ceil_div_four]
  omega

theorem Seeds.sends {inside : ℕ → Prop} (h : Seeds p s log b) (hmod : b.len % 4 = 0)
    (hinside : ∀ a, b.data.toNat ≤ a → a < b.data.toNat + b.len.toNat → inside a) :
    Sends p s log inside := by
  have hreads : ∀ t : Device, t.reads = s.reads ∨ t.reads = s.reads ++ b.seed_reads →
      ∀ a ∈ t.reads, a ∈ s.reads ∨ inside a := by
    rintro t (ht | ht) a ha
    · exact .inl (ht ▸ ha)
    · rw [ht, List.mem_append] at ha
      refine ha.imp_right fun ha => ?_
      have hin := ConstByteBuf.mem_seed_reads hmod ha
      exact hinside a hin.1 hin.2
  intro F
  refine (h F).conseq (fun _ t ht => ⟨ht.1, hreads t (.inr ht.2)⟩) (fun _ t ht => ?_) fun _ => id
  exact ⟨hreads t ht.1, ht.2.imp_right fun hsent => ⟨hsent.1, hreads t (.inr hsent.2)⟩⟩

/-- A length that is no multiple of four shows in what is read. -/
theorem Seeds.reads_past {log' : List u32} (h : Seeds p s log b) (hmod : b.len % 4 ≠ 0)
    (hs : s.reads = []) : ¬Sends p s log' fun a =>
      b.data.toNat ≤ a ∧ a < b.data.toNat + b.len.toNat := by
  intro hsends
  have hends : Ends p s fun t => b.data.toNat + b.len.toNat ∈ t.reads := by
    have hmem : ∀ t : Device, t.reads = s.reads ++ b.seed_reads →
        b.data.toNat + b.len.toNat ∈ t.reads := by
      intro t ht
      rw [ht]
      exact List.mem_append_right _ (ConstByteBuf.end_mem_seed_reads hmod)
    refine (h _).conseq (fun _ t ht => hmem t ht.2) (fun _ t ht => ?_) fun _ h => nomatch h
    obtain hfailed | hsent := ht.2
    · cases hfailed
    · exact hmem t hsent.2
  obtain ⟨t, hpast, hsent⟩ := hends.exists_and hsends.ends
  obtain hold | hin := hsent.reads _ hpast
  · rw [hs] at hold
    cases hold
  · exact absurd hin.2 (Nat.lt_irrefl _)

/-- The words of a command that a buffer has been made the seed of. -/
theorem CsrngCmd.log_seed {seed_material : SeedMaterial} {mem : Mem} (id disable glen : u32)
    (hlen : seed_material.len = ceil_div b.len 4)
    (hwords : Drbg.words seed_material.data seed_material.len.toNat =
      zero_padded seed_material.len.toNat (b.bytes mem)) :
    CsrngCmd.log ⟨id, disable, some seed_material, glen⟩ = Call.seed id glen disable b mem := by
  have hlog : CsrngCmd.log ⟨id, disable, some seed_material, glen⟩ =
      command_header id disable seed_material.len glen ::
        Drbg.words seed_material.data seed_material.len.toNat := rfl
  rw [hlog, hwords, hlen]
  rfl

theorem ConstByteBuf.fits.nwords_le (h : b.fits) : (ceil_div b.len 4).toNat ≤ 15 := by
  have hlen := h.toNat_le
  rw [toNat_ceil_div_four]
  omega

/-- The entropy complex is checked and the seed shredded, in front of what is done with it. -/
theorem shredded_bind {α : Type} {f : SeedMaterial → Proc Device CryptoError α}
    {Q : α → Device → Prop} (hI : I s)
    (h : ∀ seed_material' entropy, seed_material'.len = seed_material.len →
      Guarded (f seed_material') { s with entropy := entropy } Q I) :
    Guarded (do
      entropy_complex_check
      let seed_material ← shredded seed_material
      f seed_material) s Q I := by
  have hshred : Guarded (shredded seed_material) s
      (fun r t => r.len = seed_material.len ∧ ∃ entropy, t = { s with entropy := entropy }) I := by
    refine Guarded.bind (R := fun _ t => ∃ entropy, t = { s with entropy := entropy })
      (Guarded.get (Guarded.modify_bind (Guarded.pure ⟨_, rfl⟩))) ?_
    rintro random _ ⟨entropy, rfl⟩
    exact Guarded.pure ⟨rfl, entropy, rfl⟩
  refine Guarded.step_bind (Guarded.bind hshred ?_) hI
  rintro r _ ⟨hlen, entropy, rfl⟩
  exact h r entropy hlen

end one

theorem Guarded.seeds {p : Proc Device CryptoError Unit} {log : List u32} {b : ConstByteBuf}
    (h : Guarded p s (fun _ t => t.csrng = s.csrng ++ log ∧ t.reads = s.reads ++ b.seed_reads)
      fun t => t.reads = s.reads ∨ t.reads = s.reads ++ b.seed_reads) : Seeds p s log b :=
  fun F => (h F).conseq (fun _ _ => id) (fun _ _ h => ⟨h.2, .inl h.1⟩) fun _ => id

theorem not_dangling {b : ConstByteBuf} (h : b.len = 0 ∨ b.data ≠ NULL) :
    ¬(b.len ≠ 0 ∧ b.data = NULL) := fun hd => h.elim hd.1 fun hne => hne hd.2

theorem refuses_args_throw : RefusesArgs (Proc.throw .OTCRYPTO_BAD_ARGS) s :=
  fun _ => Spec.throw ⟨rfl, .inl rfl⟩

section calls

variable {b e : ConstByteBuf} {drbg_output : Word32Buf}

theorem otcrypto_drbg_instantiate_seeds (hb : b.fits) (hgiven : b.len = 0 ∨ b.data ≠ NULL) :
    Seeds (otcrypto_drbg_instantiate frame b) s ((Call.instantiate b).log s.mem) b := by
  rw [otcrypto_drbg_instantiate, if_neg (not_dangling hgiven)]
  refine Guarded.seeds (shredded_bind (.inl rfl) fun seed_material entropy _ => ?_)
  refine Guarded.bind (seed_material_construct_exact hb) ?_
  rintro ⟨_, seed⟩ _ ⟨hlen, hwords, rfl⟩
  refine Guarded.bind (csrng_send_app_cmd_sends (by decide) (by decide) (.inr rfl)) ?_
  rintro _ _ rfl
  refine Guarded.mono (csrng_send_app_cmd_sends zero_blocks ?_ (.inr rfl)) ?_ fun _ => id
  · rw [show CsrngCmd.cmd_len ⟨_, _, some seed, _⟩ = seed.len from rfl, hlen]
    exact hb.nwords_le
  · rintro _ _ rfl
    refine ⟨?_, rfl⟩
    rw [CsrngCmd.log_seed _ _ _ hlen hwords]
    exact List.append_assoc ..

theorem otcrypto_drbg_reseed_seeds (hb : b.fits) (hgiven : b.len = 0 ∨ b.data ≠ NULL) :
    Seeds (otcrypto_drbg_reseed frame b) s ((Call.reseed b).log s.mem) b := by
  rw [otcrypto_drbg_reseed, if_neg (not_dangling hgiven)]
  refine Guarded.seeds (shredded_bind (.inl rfl) fun seed_material entropy _ => ?_)
  refine Guarded.bind (seed_material_construct_exact hb) ?_
  rintro ⟨_, seed⟩ _ ⟨hlen, hwords, rfl⟩
  refine Guarded.mono (csrng_send_app_cmd_sends zero_blocks ?_ (.inr rfl)) ?_ fun _ => id
  · rw [show CsrngCmd.cmd_len ⟨_, _, some seed, _⟩ = seed.len from rfl, hlen]
    exact hb.nwords_le
  · rintro _ _ rfl
    refine ⟨?_, rfl⟩
    rw [CsrngCmd.log_seed _ _ _ hlen hwords]
    rfl

theorem generate_seeds {fips_check : u32} (hb : b.fits) (hgiven : b.len = 0 ∨ b.data ≠ NULL)
    (hempty : drbg_output.len ≠ 0) (hnull : drbg_output.data ≠ none)
    (hlen : ¬ceil_div drbg_output.len 4 > kMaxGenerateSizeIn128BitBlocks) :
    Seeds (generate frame fips_check b drbg_output) s
      ((Call.manual_generate b drbg_output).log s.mem) b := by
  rw [generate, if_neg hempty, if_neg (not_or.mpr ⟨not_dangling hgiven, hnull⟩)]
  intro F
  refine Spec.bind (((seed_material_construct_exact (I := fun _ => False) hb) F).conseq
    (fun _ _ => id) (fun _ _ h => h.2.elim) fun _ => id) ?_
  rintro ⟨_, seed⟩ _ ⟨hseed, hwords, rfl⟩
  have hcmd : (CsrngCmd.mk kEntropyDrbgOpGenerate 0 (some seed)
      (ceil_div drbg_output.len 4)).cmd_len.toNat ≤ 15 := by
    rw [show CsrngCmd.cmd_len ⟨_, _, some seed, _⟩ = seed.len from rfl, hseed]
    exact hb.nwords_le
  refine Spec.bind (((csrng_send_app_cmd_sends
    (I := fun t => t.reads = s.reads ++ b.seed_reads) hlen hcmd rfl) F).conseq
    (fun _ _ => id) (fun _ _ h => ⟨.inr h.2, .inl h.1⟩) fun _ => id) ?_
  rintro _ _ rfl
  refine (entropy_csrng_generate_data_get_ends (P := fun t =>
    t.csrng = s.csrng ++ (Call.manual_generate b drbg_output).log s.mem ∧
      t.reads = s.reads ++ b.seed_reads) fun taken output => ⟨?_, rfl⟩).conseq
    (fun _ _ => id) (fun _ _ h => ⟨.inr h.2, .inr h⟩) fun _ => False.elim
  rw [CsrngCmd.log_seed _ _ _ hseed hwords]
  rfl

/-- The check and the shredding in front of `generate`. -/
theorem otcrypto_drbg_generate_spec {F : Fate → Prop} {Q : Unit → Device → Prop}
    {E : CryptoError → Device → Prop} {L : Device → Prop} {s : Device}
    (hE : F .failed → E .OTCRYPTO_RECOV_ERR s)
    (hL : F .lost → L s)
    (h : ∀ entropy output, Spec F (generate frame kHardenedBoolTrue b drbg_output)
      { s with entropy := entropy, output := output } Q E L) :
    Spec F (otcrypto_drbg_generate frame b drbg_output) s Q E L := by
  refine Spec.bind (R := fun _ t => s = t) (Spec.step rfl hE hL) ?_
  rintro _ _ rfl
  refine Spec.bind (R := fun _ t => ∃ entropy, t = { s with entropy := entropy })
    (Spec.get (Spec.bind (R := fun _ t => ∃ entropy, t = { s with entropy := entropy })
      (Spec.modify ⟨_, rfl⟩) fun _ _ h => Spec.pure h)) ?_
  rintro random _ ⟨entropy, rfl⟩
  refine Spec.bind (R := fun _ t => t = { s with entropy := entropy, output := random })
    (Spec.modify rfl) ?_
  rintro _ _ rfl
  exact h entropy random

/-! ### What happens to a buffer that is too long -/

/-- The command is sent with the length that the stack had. -/
theorem csrng_send_app_cmd_stale {op disable glen : u32} {seed_material : SeedMaterial}
    (hgenerate : ¬glen > kMaxGenerateSizeIn128BitBlocks) (hlen : seed_material.len = 0)
    {log : List u32} (hlog : s.csrng = log ∨ ∃ w ws, s.csrng = log ++ w :: ws) :
    Guarded (csrng_send_app_cmd ⟨op, disable, some seed_material, glen⟩) s
      (fun _ t => t.csrng ≠ log) fun _ => True := by
  refine Guarded.mono (csrng_send_app_cmd_sends hgenerate ?_ trivial) ?_ fun _ => id
  · rw [show CsrngCmd.cmd_len ⟨_, _, some seed_material, _⟩ = seed_material.len from rfl, hlen]
    decide
  · rintro _ _ rfl hsame
    obtain hs | ⟨w, ws, hs⟩ := hlog
    · rw [← hs] at hsame
      exact absurd hsame (by simp [CsrngCmd.log])
    · rw [hs, List.append_assoc] at hsame
      exact absurd hsame (by simp)

theorem otcrypto_drbg_instantiate_stale (hb : ¬b.fits) (hgiven : b.len = 0 ∨ b.data ≠ NULL)
    (hframe : frame.seed_material.len = 0) :
    Ends (otcrypto_drbg_instantiate frame b) s fun t => t.csrng ≠ s.csrng := by
  rw [otcrypto_drbg_instantiate, if_neg (not_dangling hgiven)]
  refine Guarded.ends (I := fun _ => True) (shredded_bind trivial fun seed entropy hseed => ?_)
  refine Guarded.bind (seed_material_construct_long hb) ?_
  rintro ⟨_, _⟩ _ ⟨rfl, rfl⟩
  refine Guarded.bind (csrng_send_app_cmd_sends (by decide) (by decide) trivial) ?_
  rintro _ _ rfl
  exact csrng_send_app_cmd_stale zero_blocks (hseed.trans hframe) (.inr ⟨_, _, rfl⟩)

theorem otcrypto_drbg_reseed_stale (hb : ¬b.fits) (hgiven : b.len = 0 ∨ b.data ≠ NULL)
    (hframe : frame.seed_material.len = 0) :
    Ends (otcrypto_drbg_reseed frame b) s fun t => t.csrng ≠ s.csrng := by
  rw [otcrypto_drbg_reseed, if_neg (not_dangling hgiven)]
  refine Guarded.ends (I := fun _ => True) (shredded_bind trivial fun seed entropy hseed => ?_)
  refine Guarded.bind (seed_material_construct_long hb) ?_
  rintro ⟨_, _⟩ _ ⟨rfl, rfl⟩
  exact csrng_send_app_cmd_stale zero_blocks (hseed.trans hframe) (.inl rfl)

theorem generate_stale {fips_check : u32} (hb : ¬b.fits) (hgiven : b.len = 0 ∨ b.data ≠ NULL)
    (hempty : drbg_output.len ≠ 0) (hnull : drbg_output.data ≠ none)
    (hlen : ¬ceil_div drbg_output.len 4 > kMaxGenerateSizeIn128BitBlocks)
    (hframe : frame.seed_material.len = 0) :
    Ends (generate frame fips_check b drbg_output) s fun t => t.csrng ≠ s.csrng := by
  rw [generate, if_neg hempty, if_neg (not_or.mpr ⟨not_dangling hgiven, hnull⟩)]
  refine Spec.bind (R := fun r t => frame.seed_material = r.2 ∧ s = t) ?_ ?_
  · exact ((seed_material_construct_long (I := fun _ => False) hb) _).conseq (fun _ _ => id)
      (fun _ _ h => h.2.elim) fun _ h => nomatch h
  · rintro ⟨_, _⟩ _ ⟨rfl, rfl⟩
    refine Spec.bind (R := fun _ t => t.csrng ≠ s.csrng) ?_ fun _ t ht => ?_
    · exact Guarded.ends (I := fun _ => True) (csrng_send_app_cmd_stale hlen hframe (.inl rfl))
    · exact entropy_csrng_generate_data_get_ends fun _ _ => ht

/-- A request for too many blocks is refused, whatever the buffer. -/
theorem generate_refuses {fips_check : u32} (hgiven : b.len = 0 ∨ b.data ≠ NULL)
    (hempty : drbg_output.len ≠ 0) (hnull : drbg_output.data ≠ none)
    (hlen : ceil_div drbg_output.len 4 > kMaxGenerateSizeIn128BitBlocks) :
    RefusesArgs (generate frame fips_check b drbg_output) s := by
  rw [generate, if_neg hempty, if_neg (not_or.mpr ⟨not_dangling hgiven, hnull⟩)]
  intro F
  refine Spec.bind (R := fun _ t => t.csrng = s.csrng) ?_ ?_
  · by_cases hb : b.fits
    · refine ((seed_material_construct_exact (I := fun _ => False) hb) F).conseq ?_
        (fun _ _ h => h.2.elim) fun _ => id
      rintro r t ⟨-, -, rfl⟩
      rfl
    · refine ((seed_material_construct_long (I := fun _ => False) hb) F).conseq ?_
        (fun _ _ h => h.2.elim) fun _ => id
      rintro r t ⟨-, rfl⟩
      rfl
  · rintro ⟨_, seed⟩ t ht
    refine Spec.bind (R := fun _ _ => False) ?_ fun _ _ => False.elim
    rw [entropy_csrng_generate_start, csrng_send_app_cmd_long hlen]
    exact Spec.throw ⟨ht, .inl rfl⟩

/-! ### Calls with two buffers -/

/-- The part that the manual calls share. -/
theorem manual_seed_sends {op : u32} (he : e.len = kEntropySeedBytes) (hb : b.fits) :
    Sends (do
      let (_, seed_material) ← seed_material_construct frame e frame.seed_material
      let (_, seed_material) ← seed_material_xor frame b seed_material
      hardened_check (seed_material.len = kEntropySeedWords)
      csrng_send_app_cmd ⟨op, kHardenedBoolTrue, some seed_material, 0⟩) s
      (Call.manual_seed op e b s.mem) (Call.manual_instantiate e b).Inside := by
  have hfits : e.fits := by rw [ConstByteBuf.fits, he]; exact BitVec.le_refl _
  have hmod : e.len % 4 = 0 := by rw [he]; rfl
  have hnwords : ceil_div e.len 4 = kEntropySeedWords := by rw [he]; rfl
  refine Guarded.sends (Guarded.bind (seed_material_construct_exact hfits) ?_)
  rintro ⟨_, seed⟩ _ ⟨hlen, hwords, rfl⟩
  rw [hlen, hnwords] at hwords
  refine Guarded.bind (seed_material_xor_exact hb) ?_
  rintro ⟨_, seed'⟩ _ ⟨hlen', hsum, reads, rfl, hreads⟩
  have hlen12 : seed'.len = kEntropySeedWords := hlen'.trans (hlen.trans hnwords)
  have hin : ∀ a ∈ s.reads ++ e.seed_reads ++ reads,
      a ∈ s.reads ∨ (Call.manual_instantiate e b).Inside a := by
    intro a ha
    rw [List.mem_append, List.mem_append, or_assoc] at ha
    exact ha.imp_right fun ha =>
      ha.imp (ConstByteBuf.mem_seed_reads hmod) (hreads a)
  refine hardened_check_bind hlen12 (Guarded.mono
    (csrng_send_app_cmd_sends zero_blocks ?_ hin) ?_ fun _ => id)
  · rw [show CsrngCmd.cmd_len ⟨_, _, some seed', _⟩ = seed'.len from rfl, hlen12]
    decide
  · rintro _ _ rfl
    refine ⟨?_, hin⟩
    have hlog : CsrngCmd.log ⟨op, kHardenedBoolTrue, some seed', 0⟩ =
        command_header op kHardenedBoolTrue seed'.len 0 :: words seed'.data seed'.len.toNat := rfl
    have hentropy : words seed.data 12 = zero_padded 12 (e.bytes s.mem) := hwords
    have hsent : CsrngCmd.log ⟨op, kHardenedBoolTrue, some seed', 0⟩ =
        Call.manual_seed op e b s.mem := by
      rw [hlog, hlen12, show kEntropySeedWords.toNat = 12 from rfl, hsum, hentropy]
      rfl
    rw [hsent]

theorem manual_seed_stale {op : u32} (he : e.len = kEntropySeedBytes) (hb : ¬b.fits) :
    Ends (do
      let (_, seed_material) ← seed_material_construct frame e frame.seed_material
      let (_, seed_material) ← seed_material_xor frame b seed_material
      hardened_check (seed_material.len = kEntropySeedWords)
      csrng_send_app_cmd ⟨op, kHardenedBoolTrue, some seed_material, 0⟩) s
      fun t => t.csrng ≠ s.csrng := by
  have hfits : e.fits := by rw [ConstByteBuf.fits, he]; exact BitVec.le_refl _
  have hnwords : ceil_div e.len 4 = kEntropySeedWords := by rw [he]; rfl
  refine Guarded.ends (I := fun _ => True) (Guarded.bind (seed_material_construct_exact hfits) ?_)
  rintro ⟨_, seed⟩ _ ⟨hlen, -, rfl⟩
  refine Guarded.bind (seed_material_xor_long hb) ?_
  rintro ⟨_, _⟩ _ ⟨rfl, rfl⟩
  have hlen12 : seed.len = kEntropySeedWords := hlen.trans hnwords
  refine hardened_check_bind hlen12 (Guarded.mono
    (csrng_send_app_cmd_sends zero_blocks ?_ trivial) ?_ fun _ => id)
  · rw [show CsrngCmd.cmd_len ⟨_, _, some seed, _⟩ = seed.len from rfl, hlen12]
    decide
  · rintro _ _ rfl hsame
    exact absurd hsame (by simp [CsrngCmd.log])

end calls

/-! ## Exact or refused -/

/-- A call of which this is known for one of its frames and states. -/
theorem Call.not_exact_of_sends {c : Call} (hlong : c.TooLong)
    (h : Ends (c.run frame) s fun t => t.csrng ≠ s.csrng) : ¬c.Exact frame s := by
  intro hexact
  obtain ⟨t, hkept, hsent⟩ := (hexact.1 hlong).ends.exists_and h
  exact hsent hkept

/-- A stack and a device to run a call on. -/
def frame₀ : Frame := ⟨0, rfl, ⟨0, fun _ => 0⟩, fun _ => 0⟩

def device₀ : Device := ⟨fun _ => 0, [], ⟨fun _ => 0, 0⟩, [], fun _ => ⟨[], true⟩, 0, []⟩

/-- A call that sends the seed of one buffer that fits is exact if it reads whole words of it. -/
theorem Call.exact_iff_of_seeds {c : Call} {b : ConstByteBuf} (hfits : ¬c.TooLong)
    (hinside : c.Inside = fun a => b.data.toNat ≤ a ∧ a < b.data.toNat + b.len.toNat)
    (hseeds : ∀ frame s, Seeds (c.run frame) s (c.log s.mem) b) :
    (∀ frame s, c.Exact frame s) ↔ b.len % 4 = 0 := by
  constructor
  · intro h
    by_contra hmod
    have hsends := (h frame₀ device₀).2 hfits
    rw [hinside] at hsends
    exact (hseeds frame₀ device₀).reads_past hmod rfl hsends
  · intro hmod frame s
    refine ⟨fun hlong => absurd hlong hfits, fun _ => (hseeds frame s).sends hmod ?_⟩
    intro a hlo hhi
    rw [hinside]
    exact ⟨hlo, hhi⟩

theorem Call.seeded_exact_iff {c : Call} (b : ConstByteBuf) (hlong : c.TooLong ↔ ¬b.fits)
    (hinside : c.Inside = fun a => b.data.toNat ≤ a ∧ a < b.data.toNat + b.len.toNat)
    (hseeds : b.fits → ∀ frame s, Seeds (c.run frame) s (c.log s.mem) b)
    (hstale : ¬b.fits → Ends (c.run frame₀) device₀ fun t => t.csrng ≠ device₀.csrng) :
    (∀ frame s, c.Exact frame s) ↔ b.fits ∧ b.len % 4 = 0 := by
  by_cases hfits : b.fits
  · rw [exact_iff_of_seeds (hlong.not.mpr (not_not.mpr hfits)) hinside (hseeds hfits),
      and_iff_right hfits]
  · refine iff_of_false (fun h => ?_) fun h => hfits h.1
    exact Call.not_exact_of_sends (hlong.mpr hfits) (hstale hfits) (h frame₀ device₀)

/-- What a request of random bits does, for either of the functions. -/
theorem Call.generate_exact_iff {c : Call} (b : ConstByteBuf) (drbg_output : Word32Buf)
    (hlong : c.TooLong ↔ ¬b.fits)
    (hinside : c.Inside = fun a => b.data.toNat ≤ a ∧ a < b.data.toNat + b.len.toNat)
    (hlog : ∀ mem, ∃ w ws, c.log mem = w :: ws)
    (hseeds : b.fits → ¬ceil_div drbg_output.len 4 > kMaxGenerateSizeIn128BitBlocks →
      ∀ frame s, Seeds (c.run frame) s (c.log s.mem) b)
    (hstale : ¬b.fits → ¬ceil_div drbg_output.len 4 > kMaxGenerateSizeIn128BitBlocks →
      Ends (c.run frame₀) device₀ fun t => t.csrng ≠ device₀.csrng)
    (hrefuses : ceil_div drbg_output.len 4 > kMaxGenerateSizeIn128BitBlocks →
      ∀ frame s, RefusesArgs (c.run frame) s) :
    (∀ frame s, c.Exact frame s) ↔
      if ceil_div drbg_output.len 4 > kMaxGenerateSizeIn128BitBlocks then ¬b.fits
      else b.fits ∧ b.len % 4 = 0 := by
  split_ifs with hlen
  · constructor
    · intro h hfits
      obtain ⟨w, ws, hws⟩ := hlog device₀.mem
      have hsends := (h frame₀ device₀).2 (hlong.not.mpr (not_not.mpr hfits))
      rw [hws] at hsends
      exact hsends.not_silent (hrefuses hlen frame₀ device₀).ends
    · intro hfits frame s
      exact ⟨fun _ => hrefuses hlen frame s, fun h => absurd (hlong.mpr hfits) h⟩
  · exact seeded_exact_iff b hlong hinside (fun hfits => hseeds hfits hlen) fun hfits =>
      hstale hfits hlen

/-- What a request with the caller's entropy does, for either of the functions. -/
theorem Call.manual_exact_iff {c : Call} {op : u32} (e b : ConstByteBuf)
    (hgiven : (Call.manual_instantiate e b).Given)
    (hlong : c.TooLong ↔ e.len ≠ kEntropySeedBytes ∨ ¬b.fits)
    (hinside : c.Inside = (Call.manual_instantiate e b).Inside)
    (hlog : ∀ mem, c.log mem = Call.manual_seed op e b mem)
    (hrun : ∀ frame, c.run frame =
      if b.len ≠ 0 ∧ b.data = NULL then Proc.throw .OTCRYPTO_BAD_ARGS
      else if e.data = NULL ∨ e.len ≠ kEntropySeedBytes then Proc.throw .OTCRYPTO_BAD_ARGS
      else do
        let (_, seed_material) ← seed_material_construct frame e frame.seed_material
        let (_, seed_material) ← seed_material_xor frame b seed_material
        hardened_check (seed_material.len = kEntropySeedWords)
        csrng_send_app_cmd ⟨op, kHardenedBoolTrue, some seed_material, 0⟩) :
    (∀ frame s, c.Exact frame s) ↔ e.len ≠ kEntropySeedBytes ∨ b.fits := by
  simp only [if_neg (not_dangling hgiven.2)] at hrun
  by_cases he : e.len = kEntropySeedBytes
  · have hnull : ¬(e.data = NULL ∨ e.len ≠ kEntropySeedBytes) :=
      not_or.mpr ⟨hgiven.1.resolve_left (by rw [he]; decide), not_not.mpr he⟩
    simp only [if_neg hnull] at hrun
    by_cases hfits : b.fits
    · refine iff_of_true (fun frame s => ⟨fun h => ?_, fun _ => ?_⟩) (.inr hfits)
      · exact absurd (hlong.mp h) (not_or.mpr ⟨not_not.mpr he, not_not.mpr hfits⟩)
      · rw [hrun, hlog, hinside]
        exact manual_seed_sends he hfits
    · refine iff_of_false (fun h => ?_) (not_or.mpr ⟨not_not.mpr he, hfits⟩)
      refine Call.not_exact_of_sends (hlong.mpr (.inr hfits)) ?_ (h frame₀ device₀)
      rw [hrun]
      exact manual_seed_stale he hfits
  · refine iff_of_true (fun frame s => ⟨fun _ => ?_, fun h => ?_⟩) (.inl he)
    · rw [hrun, if_pos (.inr he)]
      exact refuses_args_throw
    · exact absurd (hlong.mpr (.inl he)) h

/-- For which buffers a call sends their bytes and reads no others, or refuses them. -/
theorem drbg_seed_exact_iff (c : Call) (hgiven : c.Given) :
    (∀ frame s, c.Exact frame s) ↔ c.Sound := by
  cases c with
  | instantiate b =>
      exact Call.seeded_exact_iff b Iff.rfl rfl
        (fun hfits frame s => otcrypto_drbg_instantiate_seeds hfits hgiven)
        fun hfits => otcrypto_drbg_instantiate_stale hfits hgiven rfl
  | reseed b =>
      exact Call.seeded_exact_iff b Iff.rfl rfl
        (fun hfits frame s => otcrypto_drbg_reseed_seeds hfits hgiven)
        fun hfits => otcrypto_drbg_reseed_stale hfits hgiven rfl
  | manual_instantiate e b =>
      exact Call.manual_exact_iff e b hgiven Iff.rfl rfl (fun _ => rfl) fun _ => rfl
  | manual_reseed e b =>
      exact Call.manual_exact_iff e b hgiven Iff.rfl rfl (fun _ => rfl) fun _ => rfl
  | generate b drbg_output =>
      obtain ⟨hb, hempty, hnull⟩ := hgiven
      refine Call.generate_exact_iff b drbg_output Iff.rfl rfl (fun _ => ⟨_, _, rfl⟩)
        (fun hfits hlen frame s F => ?_) (fun hfits hlen => ?_) fun hlen frame s F => ?_
      · exact otcrypto_drbg_generate_spec (fun h => ⟨.inl rfl, .inl h⟩) id fun entropy output =>
          generate_seeds hfits hb hempty hnull hlen F
      · exact otcrypto_drbg_generate_spec nofun nofun fun entropy output =>
          generate_stale hfits hb hempty hnull hlen rfl
      · exact otcrypto_drbg_generate_spec (fun h => ⟨rfl, .inr h⟩) id fun entropy output =>
          generate_refuses hb hempty hnull hlen F
  | manual_generate b drbg_output =>
      obtain ⟨hb, hempty, hnull⟩ := hgiven
      exact Call.generate_exact_iff b drbg_output Iff.rfl rfl (fun _ => ⟨_, _, rfl⟩)
        (fun hfits hlen frame s => generate_seeds hfits hb hempty hnull hlen)
        (fun hfits hlen => generate_stale hfits hb hempty hnull hlen rfl)
        fun hlen frame s => generate_refuses hb hempty hnull hlen

/-- A full buffer is sent as it is, and a shorter one of which a word is left unfilled is not. -/
theorem drbg_seed_exact_instantiate :
    (∀ frame s, (Call.instantiate ⟨0x1000, 48⟩).Exact frame s) ∧
      ¬∀ frame s, (Call.instantiate ⟨0x1000, 47⟩).Exact frame s := by
  have hgiven : ∀ len, (Call.instantiate ⟨0x1000, len⟩).Given := fun _ =>
    .inr (show (0x1000 : u32) ≠ 0 by decide)
  have hfull : (Call.instantiate ⟨0x1000, 48⟩).Sound := ⟨by decide, by decide⟩
  refine ⟨(drbg_seed_exact_iff _ (hgiven 48)).mpr hfull, fun h => ?_⟩
  exact absurd ((drbg_seed_exact_iff _ (hgiven 47)).mp h).2 (by decide)

/-- Forty-nine bytes do not keep an instantiation from being sent. -/
theorem long_perso_string_sent :
    ¬∀ frame s, (Call.instantiate ⟨0x1000, 49⟩).Exact frame s := by
  intro h
  have hlong : (Call.instantiate ⟨0x1000, 49⟩).TooLong := by
    show ¬ConstByteBuf.fits ⟨0x1000, 49⟩
    decide
  exact Call.not_exact_of_sends hlong
    (otcrypto_drbg_instantiate_stale (b := ⟨0x1000, 49⟩) hlong (.inr (by decide)) rfl)
    (h frame₀ device₀)

end IbexFirmware.Drbg
