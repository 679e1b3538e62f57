/-
Random words from the CSRNG (`entropy.c`): a request for them, and the loop that reads them.

The CSRNG makes blocks of four words and hands them out one word at a time, in order. A
request is for whole blocks, and what one request leaves unread is the first thing that the
next one reads, so that every later output would be shifted. `Drained` says that nothing is
left. A request keeps it (`generate_answers`), also one that is refused or whose blocks are
not FIPS compliant, and `requests_answered` has it for any sequence of them.

A request for no words at all is different. It is not refused, no block is asked for, and the
wait for the first block has no end. `generate` in `drbg.c` returns before it comes to that.

The words of the command register are taken as the CSRNG takes them: a header, whose fields
say how many words follow and how many blocks are to be made. The waits for the interface to
be ready, the interrupt register and `csrng_verify` are left out, as in `Drbg`.
-/
import IbexFirmware.Drbg

set_option autoImplicit false

namespace IbexFirmware.Csrng

open Bytes PowerFail Crypto Json Session
open Drbg (CsrngCmd SeedMaterial command_header kMaxGenerateSizeIn128BitBlocks kAppCmdFieldCmdId
  kAppCmdFieldCmdLen kAppCmdFieldGlen kAppCmdFieldFlag0 kEntropyDrbgOpGenerate
  kMultiBitBool4False kMultiBitBool4True toNat_ceil_div_four)

/-! ## The device -/

def kEntropyCsrngBitsBufferNumWords : ℕ := 4

/-- The words the CSRNG makes, one after the other, and the FIPS flags of its blocks; the
header of the last command and how many words of that command are still to come; the blocks
asked for so far and the words read so far; and the buffer of the caller. -/
structure Device where
  word : ℕ → u32
  fips : ℕ → Bool
  header : u32
  following : ℕ
  requested : ℕ
  read : ℕ
  buf : ℕ → u32

namespace Device

/-- What a command does when all of it has arrived. -/
def execute (s : Device) : Device :=
  if bitfield_field32_read s.header kAppCmdFieldCmdId = kEntropyDrbgOpGenerate then
    { s with requested := s.requested + (bitfield_field32_read s.header kAppCmdFieldGlen).toNat }
  else s

/-- A word written to the command register. -/
def cmd_req (w : u32) (s : Device) : Device :=
  let s :=
    if s.following = 0 then
      { s with header := w, following := (bitfield_field32_read w kAppCmdFieldCmdLen).toNat }
    else { s with following := s.following - 1 }
  if s.following = 0 then s.execute else s

/-- Every word that was asked for has been read, and no command is unfinished. -/
structure Drained (s : Device) : Prop where
  read : s.read = 4 * s.requested
  following : s.following = 0

/-- A CSRNG that has not been asked for anything. -/
def start (word : ℕ → u32) (fips : ℕ → Bool) : Device := ⟨word, fips, 0, 0, 0, 0, fun _ => 0⟩

theorem start_drained (word : ℕ → u32) (fips : ℕ → Bool) : (start word fips).Drained := ⟨rfl, rfl⟩

end Device

/-! ## The driver -/

/-- Wait for a block, whose FIPS flag is read with the bit that says it is there. -/
def genbits_vld : Proc Device CryptoError Bool := do
  let s ← Proc.get
  if s.read < 4 * s.requested then pure (s.fips (s.read / 4)) else stop

/-- The data register. Where there is no word, it has a zero. -/
def genbits : Proc Device CryptoError u32 := do
  let s ← Proc.get
  if s.read < 4 * s.requested then do
    Proc.modify fun s => { s with read := s.read + 1 }
    pure (s.word s.read)
  else pure 0

def csrng_send_app_cmd (cmd : CsrngCmd) : Proc Device CryptoError Unit :=
  if cmd.generate_len > kMaxGenerateSizeIn128BitBlocks then Proc.throw .OTCRYPTO_BAD_ARGS
  else if cmd.cmd_len &&& ~~~kAppCmdFieldCmdLen.mask ≠ 0 then Proc.throw .OTCRYPTO_RECOV_ERR
  else do
    let reg := command_header cmd.id cmd.disable_trng_input cmd.cmd_len cmd.generate_len
    Proc.modify fun s => s.cmd_req reg
    Proc.modify fun s => cmd.words.foldl (fun s w => s.cmd_req w) s
    if cmd.id = kEntropyDrbgOpGenerate then do
      -- complete once the first block is there
      let _ ← genbits_vld
      pure ()
    else Proc.step .OTCRYPTO_RECOV_ERR fun s => ((), s)

def entropy_csrng_generate_start (seed_material : Option SeedMaterial) (len : u32) :
    Proc Device CryptoError Unit :=
  csrng_send_app_cmd ⟨kEntropyDrbgOpGenerate, 0, seed_material, ceil_div len 4⟩

def read_word (len block_idx offset : ℕ) : Proc Device CryptoError ℕ := do
  let word ← genbits
  -- in reverse word order
  let word_idx := block_idx * kEntropyCsrngBitsBufferNumWords +
    kEntropyCsrngBitsBufferNumWords - 1 - offset
  if word_idx < len then do
    Proc.modify fun s => { s with buf := Function.update s.buf word_idx word }
    pure (offset + 1)
  else pure (offset + 1)

/-- A block is read to its end whatever its flag says. -/
def read_block (len fips_check : u32) :
    ℕ × Except CryptoError Unit → Proc Device CryptoError (ℕ × Except CryptoError Unit)
  | (block_idx, res) => do
    let fips ← genbits_vld
    let res :=
      if fips_check ≠ kHardenedBoolFalse ∧ fips = false then .error .OTCRYPTO_RECOV_ERR else res
    let _ ← rounds (read_word len.toNat block_idx) kEntropyCsrngBitsBufferNumWords 0
    pure (block_idx + 1, res)

def entropy_csrng_generate_data_get (len fips_check : u32) : Proc Device CryptoError Unit := do
  let nblocks := ceil_div len 4
  let (_, res) ← rounds (read_block len fips_check) nblocks.toNat (0, .ok ())
  Proc.ofExcept res

def entropy_csrng_generate (seed_material : Option SeedMaterial) (len fips_check : u32) :
    Proc Device CryptoError Unit := do
  entropy_csrng_generate_start seed_material len
  entropy_csrng_generate_data_get len fips_check

/-! ## The header -/

theorem wide_id : kAppCmdFieldCmdId.Wide 4 := ⟨rfl, by decide⟩

theorem wide_len : kAppCmdFieldCmdLen.Wide 4 := ⟨rfl, by decide⟩

theorem wide_glen : kAppCmdFieldGlen.Wide 19 := ⟨rfl, by decide⟩

theorem wide_flag0 : kAppCmdFieldFlag0.Wide 4 := ⟨rfl, by decide⟩

section header

variable {op disable_trng_input cmd_len generate_len : u32}

/-- The flag is written last and is beside the other fields. -/
theorem read_command_header {g : BitfieldField32} {k : ℕ} (hg : g.Wide k)
    (h : kAppCmdFieldFlag0.Beside 4 g k) :
    bitfield_field32_read (command_header op disable_trng_input cmd_len generate_len) g =
      bitfield_field32_read (bitfield_field32_write (bitfield_field32_write
        (bitfield_field32_write 0 kAppCmdFieldCmdId op) kAppCmdFieldCmdLen cmd_len)
        kAppCmdFieldGlen generate_len) g := by
  have hwrite (b v : u32) : bitfield_field32_read (bitfield_field32_write b kAppCmdFieldFlag0 v) g =
      bitfield_field32_read b g := field32_read_write_of_beside wide_flag0 hg h b v
  unfold command_header
  split
  · rw [hwrite, hwrite]
  · rw [hwrite]

theorem command_header_id (h : op.toNat < 16) :
    bitfield_field32_read (command_header op disable_trng_input cmd_len generate_len)
      kAppCmdFieldCmdId = op := by
  rw [read_command_header wide_id (.inr (by decide)),
    field32_read_write_of_beside wide_glen wide_id (.inr (by decide)),
    field32_read_write_of_beside wide_len wide_id (.inr (by decide))]
  exact field32_read_write_of_lt wide_id 0 op h

theorem command_header_len (h : cmd_len.toNat < 16) :
    bitfield_field32_read (command_header op disable_trng_input cmd_len generate_len)
      kAppCmdFieldCmdLen = cmd_len := by
  rw [read_command_header wide_len (.inr (by decide)),
    field32_read_write_of_beside wide_glen wide_len (.inr (by decide))]
  exact field32_read_write_of_lt wide_len _ cmd_len h

theorem command_header_glen (h : generate_len.toNat ≤ 0x800) :
    bitfield_field32_read (command_header op disable_trng_input cmd_len generate_len)
      kAppCmdFieldGlen = generate_len := by
  rw [read_command_header wide_glen (.inl (by decide))]
  exact field32_read_write_of_lt wide_glen _ generate_len (by omega)

/-- A length that passes the test of the mask fits into its field. -/
theorem cmd_len_lt (h : cmd_len &&& ~~~kAppCmdFieldCmdLen.mask = 0) : cmd_len.toNat < 16 := by
  have hsplit : cmd_len = cmd_len &&& kAppCmdFieldCmdLen.mask := by
    apply BitVec.eq_of_getLsbD_eq
    intro i hi
    have hbit := congrArg (fun v => v.getLsbD i) h
    simp only [BitVec.getLsbD_and, BitVec.getLsbD_not, hi, decide_true, Bool.true_and] at hbit ⊢
    cases hc : cmd_len.getLsbD i <;> simp_all
  rw [hsplit, BitVec.toNat_and]
  exact Nat.lt_of_le_of_lt Nat.and_le_right (by decide)

end header

/-! ## A command -/

namespace Device

/-- The words behind a header are counted and have no other effect, and the last of them
starts the command. -/
theorem foldl_cmd_req (words : List u32) (s : Device) (h : s.following = words.length)
    (hne : words ≠ []) :
    words.foldl (fun s w => s.cmd_req w) s = { s with following := 0 }.execute := by
  induction words generalizing s with
  | nil => exact absurd rfl hne
  | cons w words ih =>
      have hfollowing : s.following ≠ 0 := by simp [h]
      rw [List.foldl_cons, cmd_req, if_neg hfollowing]
      cases words with
      | nil =>
          have hone : s.following - 1 = 0 := by simp [h]
          simp only [hone, if_true, List.foldl_nil]
      | cons v words =>
          have hmore : s.following - 1 ≠ 0 := by simp [h]
          simp only [hmore, if_false]
          exact ih _ (by simp [h]) (List.cons_ne_nil _ _)

/-- A whole command, from its header to its last word. -/
theorem command_arrives {s : Device} {reg : u32} {words : List u32} (h : s.following = 0)
    (hlen : (bitfield_field32_read reg kAppCmdFieldCmdLen).toNat = words.length) :
    words.foldl (fun s w => s.cmd_req w) (s.cmd_req reg) = { s with header := reg }.execute := by
  rw [cmd_req, if_pos h]
  cases words with
  | nil =>
      simp only [hlen, List.length_nil, if_true, List.foldl_nil]
      rw [← h]
  | cons w words =>
      have hmore : (bitfield_field32_read reg kAppCmdFieldCmdLen).toNat ≠ 0 := by simp [hlen]
      simp only [hmore, if_false]
      rw [foldl_cmd_req _ _ hlen (List.cons_ne_nil _ _)]
      rw [← h]

/-- The state after a request for `n` blocks has been taken. -/
def asked (s : Device) (reg : u32) (n : ℕ) : Device :=
  { s with header := reg, requested := s.requested + n }

end Device

@[simp] theorem length_words (cmd : CsrngCmd) : cmd.words.length = cmd.cmd_len.toNat := by
  unfold CsrngCmd.words CsrngCmd.cmd_len
  cases cmd.seed_material with
  | none => rfl
  | some seed_material => exact Drbg.length_words _ _

theorem genbits_vld_returns {s : Device} (h : s.read < 4 * s.requested) :
    Returns genbits_vld s fun fips t => t = s ∧ fips = s.fips (s.read / 4) := by
  refine Leaves.get ?_
  rw [if_pos h]
  exact Leaves.pure ⟨rfl, rfl⟩

theorem genbits_returns {s : Device} (h : s.read < 4 * s.requested) :
    Returns genbits s fun word t => t = { s with read := s.read + 1 } ∧ word = s.word s.read := by
  refine Leaves.get ?_
  rw [if_pos h]
  exact Leaves.modify_bind (Leaves.pure ⟨rfl, rfl⟩)

/-- The blocks of `len` words. -/
def nblocks (len : u32) : ℕ := (ceil_div len 4).toNat

theorem nblocks_eq (len : u32) : nblocks len = (len.toNat + 3) / 4 := toNat_ceil_div_four len

theorem nblocks_pos {len : u32} (h : len ≠ 0) : 0 < nblocks len := by
  have hpos : len.toNat ≠ 0 := fun hzero => h (BitVec.eq_of_toNat_eq hzero)
  rw [nblocks_eq]
  omega

/-- The command of a request. -/
def generate_cmd (seed_material : Option SeedMaterial) (len : u32) : CsrngCmd :=
  ⟨kEntropyDrbgOpGenerate, 0, seed_material, ceil_div len 4⟩

def generate_header (seed_material : Option SeedMaterial) (len : u32) : u32 :=
  let cmd := generate_cmd seed_material len
  command_header cmd.id cmd.disable_trng_input cmd.cmd_len cmd.generate_len

section request

variable {seed_material : Option SeedMaterial} {len fips_check : u32} {s : Device}

/-- The CSRNG takes the command as a request for exactly the blocks that were counted. -/
theorem generate_arrives (hs : s.following = 0)
    (hsize : ¬ceil_div len 4 > kMaxGenerateSizeIn128BitBlocks)
    (hseed : (generate_cmd seed_material len).cmd_len &&& ~~~kAppCmdFieldCmdLen.mask = 0) :
    (generate_cmd seed_material len).words.foldl (fun s w => s.cmd_req w)
      (s.cmd_req (generate_header seed_material len)) =
        s.asked (generate_header seed_material len) (nblocks len) := by
  have hsmall : (ceil_div len 4).toNat ≤ 0x800 := by
    rw [gt_iff_lt, BitVec.lt_def] at hsize
    exact Nat.not_lt.mp hsize
  have hlen : bitfield_field32_read (generate_header seed_material len) kAppCmdFieldCmdLen =
      (generate_cmd seed_material len).cmd_len := command_header_len (cmd_len_lt hseed)
  have hid : bitfield_field32_read (generate_header seed_material len) kAppCmdFieldCmdId =
      kEntropyDrbgOpGenerate := command_header_id (show kEntropyDrbgOpGenerate.toNat < 16 by decide)
  have hglen : bitfield_field32_read (generate_header seed_material len) kAppCmdFieldGlen =
      ceil_div len 4 := command_header_glen hsmall
  rw [Device.command_arrives hs (by rw [hlen, length_words]), Device.execute]
  simp only [hid, if_true, hglen]
  rfl

/-- The command is taken whole, and as many blocks are under way as it asks for. -/
theorem generate_start_returns (hs : s.Drained) (hlen : len ≠ 0)
    (hsize : ¬ceil_div len 4 > kMaxGenerateSizeIn128BitBlocks)
    (hseed : (generate_cmd seed_material len).cmd_len &&& ~~~kAppCmdFieldCmdLen.mask = 0) :
    Returns (entropy_csrng_generate_start seed_material len) s
      fun _ t => t = s.asked (generate_header seed_material len) (nblocks len) := by
  have harrives := generate_arrives hs.following hsize hseed
  have hpos := nblocks_pos hlen
  change Returns (csrng_send_app_cmd (generate_cmd seed_material len)) s _
  have hsize' : ¬(generate_cmd seed_material len).generate_len > kMaxGenerateSizeIn128BitBlocks :=
    hsize
  unfold csrng_send_app_cmd
  rw [if_neg hsize', if_neg (not_not.mpr hseed)]
  refine Leaves.modify_bind (Leaves.modify_bind ?_)
  rw [if_pos (show (generate_cmd seed_material len).id = kEntropyDrbgOpGenerate from rfl)]
  refine Leaves.bind (R := fun _ t =>
    t = s.asked (generate_header seed_material len) (nblocks len)) ?_ ?_
  · have hthere : (s.asked (generate_header seed_material len) (nblocks len)).read <
        4 * (s.asked (generate_header seed_material len) (nblocks len)).requested := by
      have hread := hs.read
      simp only [Device.asked]
      omega
    rw [← harrives] at hthere ⊢
    exact (genbits_vld_returns hthere).mono fun _ _ h => h.1
  · rintro _ _ rfl
    exact Leaves.pure rfl

end request

/-! ## The words of a block -/

namespace Device

/-- After `o` words of block `b` of a request. -/
def reading (s : Device) (len b o : ℕ) : Device :=
  { s with
    read := s.read + o
    buf := fun i =>
      if i < len ∧ 4 * b + 4 - o ≤ i ∧ i < 4 * b + 4 then s.word (s.read + (4 * b + 3 - i))
      else s.buf i }

/-- After the first `k` blocks of a request. -/
def taken (s : Device) (len k : ℕ) : Device :=
  { s with
    read := s.read + 4 * k
    buf := fun i =>
      if i < len ∧ i < 4 * k then s.word (s.read + 4 * (i / 4) + (3 - i % 4)) else s.buf i }

theorem reading_zero (s : Device) (len b : ℕ) : s.reading len b 0 = s := by
  have hnone (i : ℕ) : ¬(i < len ∧ 4 * b + 4 - 0 ≤ i ∧ i < 4 * b + 4) := by omega
  simp only [reading, hnone, if_false, Nat.add_zero]

theorem taken_zero (s : Device) (len : ℕ) : s.taken len 0 = s := by simp [taken]

/-- One word more, stored or left where the buffer has ended. -/
theorem reading_succ (s : Device) {len b o : ℕ} (ho : o < 4) :
    s.reading len b (o + 1) =
      { s with
        read := s.read + o + 1
        buf :=
          if 4 * b + 3 - o < len then
            Function.update (s.reading len b o).buf (4 * b + 3 - o) (s.word (s.read + o))
          else (s.reading len b o).buf } := by
  unfold reading
  congr 1
  funext i
  by_cases hi : i = 4 * b + 3 - o
  · subst hi
    by_cases hlen : 4 * b + 3 - o < len
    · have hin : 4 * b + 3 - o < len ∧ 4 * b + 4 - (o + 1) ≤ 4 * b + 3 - o ∧
          4 * b + 3 - o < 4 * b + 4 := by omega
      rw [if_pos hin, if_pos hlen, Function.update_self,
        show 4 * b + 3 - (4 * b + 3 - o) = o by omega]
    · simp [hlen]
  · have hsame : (i < len ∧ 4 * b + 4 - (o + 1) ≤ i ∧ i < 4 * b + 4) ↔
        (i < len ∧ 4 * b + 4 - o ≤ i ∧ i < 4 * b + 4) := by omega
    simp only [hsame]
    by_cases hlen : 4 * b + 3 - o < len
    · rw [if_pos hlen, Function.update_of_ne hi]
    · rw [if_neg hlen]

/-- The fourth word completes the block. -/
theorem taken_reading (s : Device) (len k : ℕ) :
    (s.taken len k).reading len k 4 = s.taken len (k + 1) := by
  unfold reading taken
  congr 1
  funext i
  by_cases hblock : i < len ∧ 4 * k ≤ i ∧ i < 4 * k + 4
  · have hplace : s.read + 4 * k + (4 * k + 3 - i) = s.read + 4 * (i / 4) + (3 - i % 4) := by omega
    rw [if_pos (by omega), if_pos (by omega), hplace]
  · rw [if_neg (by omega)]
    have hsame : (i < len ∧ i < 4 * k) ↔ (i < len ∧ i < 4 * (k + 1)) := by omega
    simp only [hsame]

end Device

/-! ## The blocks of a request -/

section blocks

variable {len fips_check : u32} {s : Device}

theorem read_word_returns {b o : ℕ} (ho : o < 4) (h : s.read + o < 4 * s.requested) :
    Returns (read_word len.toNat b o) (s.reading len.toNat b o)
      fun o' t => o' = o + 1 ∧ t = s.reading len.toNat b (o + 1) := by
  have hplace : b * kEntropyCsrngBitsBufferNumWords + kEntropyCsrngBitsBufferNumWords - 1 - o =
      4 * b + 3 - o := by
    simp only [kEntropyCsrngBitsBufferNumWords]
    omega
  refine Leaves.bind (genbits_returns (s := s.reading len.toNat b o) h) ?_
  rintro _ _ ⟨rfl, rfl⟩
  simp only [hplace]
  rw [Device.reading_succ s ho]
  by_cases hlen : 4 * b + 3 - o < len.toNat
  · rw [if_pos hlen, if_pos hlen]
    exact Leaves.modify_bind (Leaves.pure ⟨rfl, rfl⟩)
  · rw [if_neg hlen, if_neg hlen]
    exact Leaves.pure ⟨rfl, rfl⟩

/-- All four words of a block are read, those included that there is no place for. -/
theorem read_words_returns {b : ℕ} (h : s.read + 4 ≤ 4 * s.requested) :
    Returns (rounds (read_word len.toNat b) kEntropyCsrngBitsBufferNumWords 0) s
      fun _ t => t = s.reading len.toNat b 4 := by
  refine Returns.mono (Leaves.rounds_counted
    (I := fun o o' t => o' = o ∧ t = s.reading len.toNat b o) (fun _ ho o _ hI => ?_)
    ⟨rfl, (Device.reading_zero s len.toNat b).symm⟩) fun _ _ hI => hI.2
  obtain ⟨rfl, rfl⟩ := hI
  have hfour : o < 4 := ho
  exact read_word_returns hfour (by omega)

/-- What is known of the blocks read so far: an error if one of them had to be FIPS compliant
and was not. -/
def blocks_result (s : Device) (fips_check : u32) (k : ℕ) : Except CryptoError Unit :=
  if fips_check ≠ kHardenedBoolFalse ∧ ∃ b < k, s.fips (s.read / 4 + b) = false then
    .error .OTCRYPTO_RECOV_ERR
  else .ok ()

theorem blocks_result_succ (k : ℕ) :
    blocks_result s fips_check (k + 1) =
      if fips_check ≠ kHardenedBoolFalse ∧ s.fips (s.read / 4 + k) = false then
        .error .OTCRYPTO_RECOV_ERR
      else blocks_result s fips_check k := by
  unfold blocks_result
  simp only [Nat.exists_lt_succ_right]
  by_cases hlast : fips_check ≠ kHardenedBoolFalse ∧ s.fips (s.read / 4 + k) = false
  · rw [if_pos hlast, if_pos ⟨hlast.1, .inr hlast.2⟩]
  · have hsame : (fips_check ≠ kHardenedBoolFalse ∧
        ((∃ b < k, s.fips (s.read / 4 + b) = false) ∨ s.fips (s.read / 4 + k) = false)) ↔
        (fips_check ≠ kHardenedBoolFalse ∧ ∃ b < k, s.fips (s.read / 4 + b) = false) :=
      ⟨fun h => ⟨h.1, h.2.resolve_right fun hf => hlast ⟨h.1, hf⟩⟩, fun h => ⟨h.1, .inl h.2⟩⟩
    simp only [hsame, if_neg hlast]

theorem read_block_returns {k : ℕ} (h : s.read + 4 * (k + 1) ≤ 4 * s.requested) :
    Returns (read_block len fips_check (k, blocks_result s fips_check k)) (s.taken len.toNat k)
      fun r t => r = (k + 1, blocks_result s fips_check (k + 1)) ∧
        t = s.taken len.toNat (k + 1) := by
  have hvalid : (s.taken len.toNat k).read < 4 * (s.taken len.toNat k).requested := by
    simp only [Device.taken]
    omega
  have hflag : (s.taken len.toNat k).fips ((s.taken len.toNat k).read / 4) =
      s.fips (s.read / 4 + k) := by
    simp only [Device.taken]
    congr 1
    omega
  refine Leaves.bind (genbits_vld_returns hvalid) ?_
  rintro _ _ ⟨rfl, rfl⟩
  refine Leaves.bind (read_words_returns (b := k) (by simp only [Device.taken]; omega)) ?_
  rintro _ _ rfl
  refine Leaves.pure ⟨?_, Device.taken_reading s len.toNat k⟩
  rw [hflag, blocks_result_succ]

/-- The read loop ends, with every block read. -/
theorem generate_data_get_leaves (h : s.read + 4 * nblocks len ≤ 4 * s.requested) :
    Leaves (entropy_csrng_generate_data_get len fips_check) s
      (fun _ t => t = s.taken len.toNat (nblocks len) ∧
        blocks_result s fips_check (nblocks len) = .ok ())
      (fun e t => t = s.taken len.toNat (nblocks len) ∧
        blocks_result s fips_check (nblocks len) = .error e)
      fun _ => False := by
  refine Leaves.bind (R := fun r t => t = s.taken len.toNat (nblocks len) ∧
    r.2 = blocks_result s fips_check (nblocks len)) ?_ ?_
  · refine Returns.leaves (Returns.mono (Leaves.rounds_counted
      (I := fun k r t => r = (k, blocks_result s fips_check k) ∧ t = s.taken len.toNat k)
      (fun k hk _ _ hI => ?_) ⟨?_, (Device.taken_zero s len.toNat).symm⟩) fun _ _ hI =>
        ⟨hI.2, hI.1 ▸ rfl⟩)
    · obtain ⟨rfl, rfl⟩ := hI
      have hk' : k < nblocks len := hk
      exact read_block_returns (by omega)
    · simp [blocks_result]
  · rintro ⟨_, res⟩ t ⟨rfl, hres⟩
    exact Leaves.ofExcept (fun _ hok => ⟨rfl, hres.symm.trans hok⟩)
      fun e he => ⟨rfl, hres.symm.trans he⟩

end blocks

/-! ## Requests -/

/-- A call of `entropy_csrng_generate`, with what its buffer has before. -/
structure Request where
  seed_material : Option SeedMaterial
  len : u32
  fips_check : u32
  buf : ℕ → u32

namespace Request

def run (r : Request) : Proc Device CryptoError Unit := do
  Proc.modify fun s => { s with buf := r.buf }
  entropy_csrng_generate r.seed_material r.len r.fips_check

/-- The blocks are not too many and the seed is not too long. -/
structure Accepted (r : Request) : Prop where
  size : ¬ceil_div r.len 4 > kMaxGenerateSizeIn128BitBlocks
  seed : (generate_cmd r.seed_material r.len).cmd_len &&& ~~~kAppCmdFieldCmdLen.mask = 0

/-- Some block has to be FIPS compliant and is not. -/
def Incompliant (r : Request) (fips : ℕ → Bool) (s : Device) : Prop :=
  r.fips_check ≠ kHardenedBoolFalse ∧ ∃ b < nblocks r.len, fips (s.requested + b) = false

/-- What a request comes to that is made in `s`, ends with `outcome` and leaves `t`. -/
structure Answered (r : Request) (word : ℕ → u32) (fips : ℕ → Bool) (s t : Device)
    (outcome : Outcome CryptoError Unit) : Prop where
  drained : t.Drained
  stream : t.word = word ∧ t.fips = fips
  refused : ¬r.Accepted → (∃ e, outcome = .error e) ∧ t.requested = s.requested ∧ t.buf = r.buf
  requested : r.Accepted → t.requested = s.requested + nblocks r.len
  stored : r.Accepted → ∀ b < nblocks r.len, ∀ o < 4, 4 * b + 3 - o < r.len.toNat →
    t.buf (4 * b + 3 - o) = word (4 * (s.requested + b) + o)
  others : ∀ i, r.len.toNat ≤ i → t.buf i = r.buf i
  error : r.Accepted → ((∃ e, outcome = .error e) ↔ r.Incompliant fips s)
  ends : outcome = .ret () ∨ ∃ e, outcome = .error e

/-- All the blocks of a request, asked for and read. -/
theorem taken_answered {r : Request} {s : Device} (hs : s.Drained) (hr : r.Accepted)
    {outcome : Outcome CryptoError Unit} (hends : outcome = .ret () ∨ ∃ e, outcome = .error e)
    (herror : (∃ e, outcome = .error e) ↔ r.Incompliant s.fips s) (reg : u32) :
    r.Answered s.word s.fips s
      (({ s with buf := r.buf }.asked reg (nblocks r.len)).taken r.len.toNat (nblocks r.len))
      outcome where
  drained := by
    refine ⟨?_, hs.following⟩
    simp only [Device.taken, Device.asked, hs.read]
    omega
  stream := ⟨rfl, rfl⟩
  refused := fun h => absurd hr h
  requested := fun _ => rfl
  stored := fun _ b hb o ho hlen => by
    have hin : 4 * b + 3 - o < r.len.toNat ∧ 4 * b + 3 - o < 4 * nblocks r.len :=
      ⟨hlen, by omega⟩
    have hplace : s.read + 4 * ((4 * b + 3 - o) / 4) + (3 - (4 * b + 3 - o) % 4) =
        4 * (s.requested + b) + o := by
      have hread := hs.read
      omega
    simp only [Device.taken, Device.asked, if_pos hin, hplace]
  others := fun i hi => by
    have hout : ¬(i < r.len.toNat ∧ i < 4 * nblocks r.len) := by omega
    simp only [Device.taken, Device.asked, if_neg hout]
  error := fun _ => herror
  ends := hends

theorem refused_answered {r : Request} {s : Device} (hs : s.Drained) (hr : ¬r.Accepted)
    (e : CryptoError) : r.Answered s.word s.fips s { s with buf := r.buf } (.error e) where
  drained := ⟨hs.read, hs.following⟩
  stream := ⟨rfl, rfl⟩
  refused := fun _ => ⟨⟨e, rfl⟩, rfl, rfl⟩
  requested := fun h => absurd h hr
  stored := fun h => absurd h hr
  others := fun _ _ => rfl
  error := fun h => absurd h hr
  ends := .inr ⟨e, rfl⟩

end Request

/-- A request that is not accepted ends with an error before a word has been sent. -/
theorem generate_refuses {r : Request} (hr : ¬r.Accepted) :
    ∃ e, entropy_csrng_generate r.seed_material r.len r.fips_check = Proc.throw e := by
  change ∃ e, (csrng_send_app_cmd (generate_cmd r.seed_material r.len) >>= fun _ =>
    entropy_csrng_generate_data_get r.len r.fips_check) = Proc.throw e
  unfold csrng_send_app_cmd
  by_cases hsize :
      (generate_cmd r.seed_material r.len).generate_len > kMaxGenerateSizeIn128BitBlocks
  · rw [if_pos hsize]
    exact ⟨_, rfl⟩
  · have hseed : (generate_cmd r.seed_material r.len).cmd_len &&& ~~~kAppCmdFieldCmdLen.mask ≠ 0 :=
      fun h => hr ⟨hsize, h⟩
    rw [if_neg hsize, if_pos hseed]
    exact ⟨_, rfl⟩

/-- A request for at least one word is answered, and leaves the CSRNG drained. -/
theorem generate_answers {r : Request} {s : Device} (hs : s.Drained) (hlen : r.len ≠ 0) :
    Leaves r.run s (fun _ t => r.Answered s.word s.fips s t (.ret ()))
      (fun e t => r.Answered s.word s.fips s t (.error e)) fun _ => False := by
  refine Leaves.modify_bind ?_
  by_cases hr : r.Accepted
  · have hstart := generate_start_returns (s := { s with buf := r.buf }) ⟨hs.read, hs.following⟩
      hlen hr.size hr.seed
    refine Leaves.bind hstart.leaves ?_
    rintro _ _ rfl
    have hthere : s.read + 4 * nblocks r.len ≤ 4 * (s.requested + nblocks r.len) := by
      rw [hs.read]
      omega
    have hblock : s.read / 4 = s.requested := by
      rw [hs.read]
      omega
    refine Leaves.conseq (@generate_data_get_leaves r.len r.fips_check _ hthere) ?_ ?_ fun _ => id
    · rintro _ t ⟨rfl, hok⟩
      refine Request.taken_answered hs hr (.inl rfl) ⟨nofun, fun hbad => ?_⟩ _
      unfold Request.Incompliant at hbad
      simp only [blocks_result, Device.asked, hblock, if_pos hbad] at hok
      cases hok
    · rintro e t ⟨rfl, he⟩
      refine Request.taken_answered hs hr (.inr ⟨e, rfl⟩) ⟨fun _ => ?_, fun _ => ⟨e, rfl⟩⟩ _
      by_contra hgood
      unfold Request.Incompliant at hgood
      simp only [blocks_result, Device.asked, hblock, if_neg hgood] at he
      cases he
  · obtain ⟨e, hrun⟩ := generate_refuses hr
    rw [hrun]
    exact Leaves.throw (Request.refused_answered hs hr e)

/-! ## Sequences of requests -/

/-- Requests one after the other, whether or not the ones before have failed. -/
def serve : List Request → Proc Device CryptoError Unit
  | [] => pure ()
  | r :: rest => do
    let _ ← Proc.attempt r.run
    serve rest

/-- Whatever has been asked for before, the CSRNG is drained. -/
theorem serve_drains {rs : List Request} (hrs : ∀ r ∈ rs, r.len ≠ 0) {s : Device}
    (hs : s.Drained) :
    Returns (serve rs) s fun _ t => t.Drained ∧ t.word = s.word ∧ t.fips = s.fips := by
  induction rs generalizing s with
  | nil => exact Leaves.pure ⟨hs, rfl, rfl⟩
  | cons r rest ih =>
      obtain ⟨hr, hrest⟩ := List.forall_mem_cons.mp hrs
      refine Leaves.bind (R := fun _ t => t.Drained ∧ t.word = s.word ∧ t.fips = s.fips) ?_ ?_
      · refine Leaves.attempt ((generate_answers hs hr).conseq ?_ ?_ fun _ => id)
        · exact fun _ _ h => ⟨h.drained, h.stream⟩
        · exact fun _ _ h => ⟨h.drained, h.stream⟩
      · rintro _ t ⟨ht, hword, hfips⟩
        refine (ih hrest ht).mono fun _ u hu => ?_
        exact ⟨hu.1, hu.2.1.trans hword, hu.2.2.trans hfips⟩

/-- The last of any sequence of requests for at least one word each: the earlier ones have
returned, and it is answered with the words that come next. -/
theorem requests_answered (word : ℕ → u32) (fips : ℕ → Bool) (earlier : List Request)
    (r : Request) (fate : ℕ → Fate) (hearlier : ∀ q ∈ earlier, q.len ≠ 0) (hlen : r.len ≠ 0) :
    let m := (serve earlier (Machine.on (Device.start word fips) fate)).2
    (serve earlier (Machine.on (Device.start word fips) fate)).1 = .ret () ∧
      r.Answered word fips m.mem (r.run m).2.mem (r.run m).1 := by
  obtain ⟨_, hret, hdrained, hword, hfips⟩ :=
    (serve_drains hearlier (Device.start_drained word fips)).run
      (m := Machine.on (Device.start word fips) fate) rfl
  refine ⟨hret, ?_⟩
  have hends := generate_answers hdrained hlen _ rfl
  rw [hword, hfips] at hends
  cases hrun : (r.run (serve earlier (Machine.on (Device.start word fips) fate)).2).1 with
  | ret a => rwa [hrun] at hends
  | error e => rwa [hrun] at hends
  | trap => rw [hrun] at hends; exact hends.elim
  | lost => rw [hrun] at hends; exact hends.elim

/-- Five words without the FIPS flags, then six with them, where the third block lacks the flag. -/
theorem requests_answered_second :
    let earlier : List Request := [⟨none, 5, kHardenedBoolFalse, fun _ => 0⟩]
    let r : Request := ⟨none, 6, kHardenedBoolTrue, fun _ => 0⟩
    let word : ℕ → u32 := fun i => BitVec.ofNat 32 i
    let fips : ℕ → Bool := fun b => b != 2
    let m := (serve earlier (Machine.on (Device.start word fips) fun _ => .done)).2
    r.Answered word fips m.mem (r.run m).2.mem (r.run m).1 :=
  (requests_answered _ _ [⟨none, 5, kHardenedBoolFalse, fun _ => 0⟩]
    ⟨none, 6, kHardenedBoolTrue, fun _ => 0⟩ (fun _ => .done) (by decide) (by decide)).2

/-- A request for no words waits for a block that nobody has asked for. -/
theorem request_of_nothing_waits :
    let r : Request := ⟨none, 0, kHardenedBoolFalse, fun _ => 0⟩
    let m := Machine.on (Device.start (fun _ => 0) fun _ => true) fun _ => .done
    (r.run m).1 = .lost ∧
      ¬r.Answered (fun _ => 0) (fun _ => true) m.mem (r.run m).2.mem (r.run m).1 := by
  have hlost : ((⟨none, 0, kHardenedBoolFalse, fun _ => 0⟩ : Request).run
      (Machine.on (Device.start (fun _ => 0) fun _ => true) fun _ => .done)).1 = .lost := by
    decide
  refine ⟨hlost, fun h => ?_⟩
  have hends := h.ends
  rw [hlost] at hends
  obtain hret | ⟨e, he⟩ := hends
  · cases hret
  · cases he

end IbexFirmware.Csrng
