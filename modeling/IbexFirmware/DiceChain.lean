/-
The certificate page that `dice_chain.c` reads, checks and rebuilds.

`data` mirrors one flash page. Certificates are taken from it one by one, `tail_offset`
being how far they have been processed, and a push replaces everything behind that
offset. The functions run on the state with `PowerFail.Proc`: a function that returns
an error code is one that returns or stops with the code, and the state is what it has
been brought to by then. A hardened check traps.

`data` is modelled as the memory from its first byte on, without an end, and `writes`
records which ranges were written, so that a write behind the end would show there.
-/
import IbexFirmware.Lib.Bits
import IbexFirmware.Lib.Session
import IbexFirmware.PersoTlv

set_option autoImplicit false

namespace IbexFirmware.Dice

open Bytes Bits PowerFail PersoTlv Session

/-! ## State -/

/-- `FLASH_CTRL_PARAM_BYTES_PER_PAGE`. -/
def kPageSize : ℕ := 2048

/-- A public key of a stage and its id, which is a digest. -/
structure KeyId where
  pubkey_id : Vector u8 32
  pubkey_x : Vector u8 32
  pubkey_y : Vector u8 32

/-- What a read of an info page finds. -/
inductive InfoPage
  | content (m : Mem)
  | read_error
  | denied (m : Mem)

/-- What the immutable ROM_EXT passes to the mutable one. -/
structure StaticDiceCdi0 where
  uds_pubkey : KeyId
  cdi_0_pubkey : KeyId
  cert : Cert

structure DiceChain where
  data : Mem
  data_dirty : Bool
  tail_offset : ℕ
  info_page : Option ℕ
  endorsement : KeyId
  subject : KeyId
  cert_obj : PersoTlvCertObj
  cert_valid : Bool
  static_dice_cdi_0 : StaticDiceCdi0
  flash : ℕ → InfoPage
  writes : List (ℕ × ℕ)

abbrev Chain (α : Type) : Type := Proc DiceChain RomError α

/-- What a build with X.509 certificates and one with CWT certificates differ in:
`dice_cert_check_valid` reads the certificate and says if it is for the key. -/
structure Library where
  kDiceCertFormat : DiceCertFormat
  dice_cert_check_valid : (cert : List u8) → KeyId → Except RomError Bool

def Library.cert_type (lib : Library) : ℕ :=
  if lib.kDiceCertFormat = .kDiceCertFormatX509TcbInfo then kPersoObjectTypeX509Cert
  else kPersoObjectTypeCwtCert

/-! ### X.509 -/

def kCertKeyIdSizeInBytes : ℕ := 20
def kDiceX509SerialHeaderSizeBytes : ℕ := 3
def kDiceX509SerialSizeBytes : ℕ := kDiceX509SerialHeaderSizeBytes + kCertKeyIdSizeInBytes
def kDiceX509SerialOffsetBytes : ℕ := 13
def kDiceX509MinSizeBytes : ℕ := kDiceX509SerialOffsetBytes + kDiceX509SerialSizeBytes

def cert_x509_asn1_check_serial_number (cert : List u8) (pubkey : KeyId) : Except RomError Bool :=
  if cert.length < kDiceX509MinSizeBytes then .error .kErrorCertInvalidSize
  else
    let key_id := pubkey.pubkey_id.toList.take kCertKeyIdSizeInBytes
    let expected_serial := [0x02, 0x15, 0x00] ++ key_id.modifyHead (· ||| 0x80)
    .ok ((cert.drop kDiceX509SerialOffsetBytes).take kDiceX509SerialSizeBytes = expected_serial)

def dice_x509 : Library where
  kDiceCertFormat := .kDiceCertFormatX509TcbInfo
  dice_cert_check_valid := cert_x509_asn1_check_serial_number

/-! ### The current certificate -/

def empty_cert_obj : PersoTlvCertObj := ⟨0, 0, 0, 0, 0, fun _ => 0⟩

/-! ## Rounding -/

def util_round_up_to (input align_bits : u32) : u32 :=
  let mask := (1 : u32) <<< align_bits - 1
  (input + mask) &&& ~~~mask

def util_size_to_words (bytes : u32) : u32 := util_round_up_to bytes 2 / 4

/-- What `dice_chain_next_cert_obj` makes of the size of an object. -/
def next_size (obj_size : ℕ) : ℕ :=
  let cert_size := util_size_to_words (BitVec.ofNat 32 obj_size) * 4
  (util_round_up_to cert_size 3).toNat

/-! ## The page -/

/-- Write to the buffer. -/
def write_data (offset : ℕ) (bytes : List u8) (s : DiceChain) : DiceChain :=
  { s with data := writeBytes s.data offset bytes, writes := (offset, bytes.length) :: s.writes }

def dice_chain_get_tail_size : Chain ℕ := do
  let s ← .get
  if s.tail_offset ≤ kPageSize then pure (kPageSize - s.tail_offset) else .trap

def reset_cert_obj (s : DiceChain) : DiceChain :=
  { s with cert_obj := empty_cert_obj, cert_valid := false }

def dice_chain_reset_cert_obj : Chain Unit := .modify reset_cert_obj

def dice_chain_next_cert_obj : Chain Unit := do
  .modify fun s => { s with tail_offset := s.tail_offset + next_size s.cert_obj.obj_size }
  let s ← .get
  if s.tail_offset ≤ kPageSize then pure () else .trap
  dice_chain_reset_cert_obj

/-- Parse the object at the tail into `cert_obj`. -/
def get_cert_obj : Chain RomError := do
  let size ← dice_chain_get_tail_size
  let s ← .get
  let (err, cert_obj) := perso_tlv_get_cert_obj s.data s.tail_offset size s.cert_obj
  .modify fun s => { s with cert_obj }
  return err

section library

variable (lib : Library)

/-- The certificate body of an object of the page. -/
def cert_body (page : Mem) (obj : PersoTlvCertObj) : List u8 :=
  readBytes page obj.cert_body_p obj.cert_body_size

/-- The first bytes of the object's name are those of `name`, which has its terminator
with it. -/
def name_matches (obj : PersoTlvCertObj) (name : List u8) : Bool :=
  readBytes obj.name 0 name.length = name

/-- Is the object what `dice_chain_load_cert_obj` is looking for? -/
def check_cert_obj (name : Option (List u8)) : Chain Unit := do
  let s ← .get
  match name with
  | none => .modify fun s => { s with cert_valid := false }
  | some name =>
      if name_matches s.cert_obj name = false ∨ lib.cert_type ≠ s.cert_obj.obj_type then
        .modify fun s => { s with cert_valid := false }
      else do
        .modify fun s => { s with cert_valid := false }
        let cert_valid ← .ofExcept (lib.dice_cert_check_valid (cert_body s.data s.cert_obj) s.subject)
        .modify fun s => { s with cert_valid }

def dice_chain_load_cert_obj (name : Option (List u8)) : Chain Unit := do
  let err ← get_cert_obj
  if err ≠ .kErrorOk then dice_chain_reset_cert_obj
  if err = .kErrorPersoTlvCertObjNotFound then return ()
  if err ≠ .kErrorOk then .throw err
  check_cert_obj lib name

/-- Skip the object if the name matches. -/
def dice_chain_skip_cert_obj (name : List u8) : Chain Unit := do
  dice_chain_load_cert_obj lib none
  let s ← .get
  if name_matches s.cert_obj name then dice_chain_next_cert_obj

end library

def flash_ctrl_info_erase (page : ℕ) : Chain Unit :=
  .step .kErrorFlashCtrlInfoErase fun s =>
    ((), { s with flash := Function.update s.flash page (.content fun _ => 0xff) })

/-- The page was erased before. -/
def flash_ctrl_info_write (page : ℕ) : Chain Unit :=
  .step .kErrorFlashCtrlInfoWrite fun s =>
    ((), { s with flash := Function.update s.flash page (.content s.data) })

/-- A page that cannot be read without an error is read as zeros. -/
def flash_ctrl_info_read_zeros_on_read_error (page : ℕ) : Chain Unit := do
  let s ← .get
  match s.flash page with
  | .content m => .modify (write_data 0 (readBytes m 0 kPageSize))
  | .read_error => .modify (write_data 0 (List.replicate kPageSize 0))
  | .denied m => do
      .modify (write_data 0 (readBytes m 0 kPageSize))
      .throw .kErrorFlashCtrlInfoRead

def dice_chain_flush_flash : Chain Unit := do
  let s ← .get
  match s.info_page with
  | none => pure ()
  | some page =>
      if s.data_dirty then do
        flash_ctrl_info_erase page
        flash_ctrl_info_write page
        .modify fun s => { s with data_dirty := false }

def dice_chain_load_flash (page : ℕ) : Chain Unit := do
  let s ← .get
  if s.info_page = some page then .modify fun s => { s with tail_offset := 0 }
  else do
    dice_chain_flush_flash
    flash_ctrl_info_read_zeros_on_read_error page
    .modify fun s => { s with data_dirty := false, tail_offset := 0, info_page := some page }
    dice_chain_reset_cert_obj

/-- Encode the certificate into the tail buffer. -/
def build_cert_obj (name : Name) (cert_type : ℕ) (cert : Cert) (buf_size : ℕ) : Chain Unit := do
  let s ← .get
  match perso_tlv_cert_obj_build name cert_type cert.bytes s.data s.tail_offset buf_size with
  | .error e => .throw e
  | .ok (data, used) =>
      .modify fun s => { s with data, writes := (s.tail_offset, used) :: s.writes }

/-- Move the offset to the new tail. -/
def read_back_cert_obj : Chain Unit := do
  let err ← get_cert_obj
  if err ≠ .kErrorOk then .throw err
  dice_chain_next_cert_obj

def dice_chain_push_cert (lib : Library) (name : Name) (cert : Cert) : Chain Unit := do
  .modify fun s => { s with data_dirty := true }
  let size ← dice_chain_get_tail_size
  .modify fun s => write_data s.tail_offset (List.replicate size 0) s
  let cert_page_left ← dice_chain_get_tail_size
  build_cert_obj name lib.cert_type cert cert_page_left
  read_back_cert_obj

def zero_key : KeyId := ⟨Vector.replicate 32 0, Vector.replicate 32 0, Vector.replicate 32 0⟩

/-- The state of `dice_chain_init`. -/
def init_chain (static_dice_cdi_0 : StaticDiceCdi0) (flash : ℕ → InfoPage) : DiceChain where
  data := fun _ => 0
  data_dirty := false
  tail_offset := 0
  info_page := none
  endorsement := zero_key
  subject := zero_key
  cert_obj := empty_cert_obj
  cert_valid := false
  static_dice_cdi_0 := static_dice_cdi_0
  flash := flash
  writes := []

def dice_chain_init : Chain Unit := .modify fun s => init_chain s.static_dice_cdi_0 s.flash

/-! ## Sizes -/

theorem util_round_up_to_toNat (input : u32) {k : ℕ} (hk : k < 32)
    (hinput : input.toNat + 2 ^ k ≤ 2 ^ 32) :
    (util_round_up_to input (BitVec.ofNat 32 k)).toNat = (input.toNat + (2 ^ k - 1)) / 2 ^ k * 2 ^ k := by
  have hpos : 0 < 2 ^ k := Nat.two_pow_pos k
  have hpow : 2 ^ k < 2 ^ 32 := Nat.pow_lt_pow_right (by omega) hk
  have hshift : (1 : u32) <<< BitVec.ofNat 32 k = BitVec.ofNat 32 (2 ^ k) := by
    have hk' : (BitVec.ofNat 32 k).toNat = k := by
      rw [BitVec.toNat_ofNat, Nat.mod_eq_of_lt (by omega)]
    apply BitVec.eq_of_toNat_eq
    rw [BitVec.shiftLeft_eq', hk', BitVec.toNat_shiftLeft, BitVec.toNat_ofNat, Nat.shiftLeft_eq]
    simp
  have hmask : BitVec.ofNat 32 (2 ^ k) - 1 = BitVec.ofNat 32 (2 ^ k - 1) := by
    apply BitVec.eq_of_toNat_eq
    rw [BitVec.toNat_ofNat, Nat.mod_eq_of_lt (by omega)]
    bv_omega
  unfold util_round_up_to
  rw [hshift, hmask, toNat_and_not_mask _ (by omega), BitVec.toNat_add, BitVec.toNat_ofNat,
    Nat.mod_eq_of_lt (show 2 ^ k - 1 < 2 ^ 32 by omega), Nat.mod_eq_of_lt (by omega)]

/-- An object takes up its size, rounded up to flash words of eight bytes. -/
theorem next_size_eq {n : ℕ} (h : n < 4096) : next_size n = (n + 7) / 8 * 8 := by
  have hn : (BitVec.ofNat 32 n).toNat = n := by
    rw [BitVec.toNat_ofNat, Nat.mod_eq_of_lt (by omega)]
  have hround : (util_round_up_to (BitVec.ofNat 32 n) 2).toNat = (n + 3) / 4 * 4 := by
    have := util_round_up_to_toNat (BitVec.ofNat 32 n) (k := 2) (by omega) (by omega)
    rwa [hn] at this
  have hwords : (util_size_to_words (BitVec.ofNat 32 n) * 4).toNat = (n + 3) / 4 * 4 := by
    rw [util_size_to_words, BitVec.toNat_mul, BitVec.toNat_udiv, hround]
    have hfour : (4 : u32).toNat = 4 := rfl
    rw [hfour]
    omega
  have hlast := util_round_up_to_toNat (util_size_to_words (BitVec.ofNat 32 n) * 4) (k := 3)
    (by omega) (by omega)
  rw [hwords] at hlast
  refine hlast.trans ?_
  omega

/-! ## The invariant -/

/-- The writes to a mirror that was all zeros: none went outside, and a byte that none of them
covers is zero still. -/
structure Recorded (data : Mem) (writes : List (ℕ × ℕ)) : Prop where
  inside : ∀ w ∈ writes, w.1 + w.2 ≤ kPageSize
  untouched : ∀ x, (∀ w ∈ writes, x < w.1 ∨ w.1 + w.2 ≤ x) → data x = 0

theorem Recorded.write {data : Mem} {writes : List (ℕ × ℕ)} {offset : ℕ} {bytes : List u8}
    (h : Recorded data writes) (hinside : offset + bytes.length ≤ kPageSize) :
    Recorded (writeBytes data offset bytes) ((offset, bytes.length) :: writes) where
  inside w hw := by
    rcases List.mem_cons.mp hw with rfl | hw
    · exact hinside
    · exact h.inside w hw
  untouched x hx := by
    have hbeside : x < offset ∨ offset + bytes.length ≤ x := hx _ List.mem_cons_self
    rw [writeBytes_of_not_mem _ _ _ _ (by omega)]
    exact h.untouched x fun w hw => hx w (List.mem_cons_of_mem _ hw)

/-- The tail is at a flash word inside the page, and nothing was written outside. -/
structure Inv (s : DiceChain) : Prop where
  aligned : s.tail_offset % 8 = 0
  inside : s.tail_offset ≤ kPageSize
  obj_size : s.cert_obj.obj_size < 4096
  writes : Recorded s.data s.writes

/-- However `p` returns or fails, it keeps `I`. A trap is the end of the run. -/
def Keeps {α : Type} (I : DiceChain → Prop) (p : Chain α) : Prop :=
  ∀ s, I s → Leaves p s (fun _ => I) (fun _ => I) fun _ => True

theorem Keeps.bind {α β : Type} {I : DiceChain → Prop} {p : Chain β} {f : β → Chain α}
    (hp : Keeps I p) (hf : ∀ b, Keeps I (f b)) : Keeps I (p >>= f) :=
  fun s hs => Leaves.bind (hp s hs) fun b s' hs' => hf b s' hs'

/-- The state after the object at the tail is parsed. -/
def parsed (s : DiceChain) : RomError × DiceChain :=
  let (err, cert_obj) := perso_tlv_get_cert_obj s.data s.tail_offset (kPageSize - s.tail_offset)
    s.cert_obj
  (err, { s with cert_obj })

/-- The state after the tail has moved behind the object. -/
def after_next (s : DiceChain) : DiceChain :=
  reset_cert_obj { s with tail_offset := s.tail_offset + (s.cert_obj.obj_size + 7) / 8 * 8 }

/-- What the check of the object returns and leaves. -/
def checked (lib : Library) (name : Option (List u8)) (s : DiceChain) :
    Except RomError Unit × DiceChain :=
  match name with
  | none => (.ok (), { s with cert_valid := false })
  | some name =>
      if name_matches s.cert_obj name = false ∨ lib.cert_type ≠ s.cert_obj.obj_type then
        (.ok (), { s with cert_valid := false })
      else
        match lib.dice_cert_check_valid (cert_body s.data s.cert_obj) s.subject with
        | .ok cert_valid => (.ok (), { s with cert_valid })
        | .error e => (.error e, { s with cert_valid := false })

/-- What loading the object at the tail returns and leaves. -/
def loaded (lib : Library) (name : Option (List u8)) (s : DiceChain) :
    Except RomError Unit × DiceChain :=
  let (err, s) := parsed s
  if err = .kErrorPersoTlvCertObjNotFound then (.ok (), reset_cert_obj s)
  else if err ≠ .kErrorOk then (.error err, reset_cert_obj s)
  else checked lib name s

section states

variable {s : DiceChain}

/-- A size that was parsed fits its field, on every path. -/
theorem get_obj_size_lt {m : Mem} {buf size : ℕ} {obj : PersoTlvCertObj}
    (h : obj.obj_size < 4096) :
    (perso_tlv_get_cert_obj m buf size obj).2.obj_size < 4096 := by
  have hfield : PERSO_TLV_GET_FIELD objhSize (load16 m buf) < 4096 :=
    get_field_lt _ _ (by decide)
  unfold perso_tlv_get_cert_obj
  dsimp only
  split_ifs <;> first | exact h | exact hfield

theorem Inv.parsed (h : Inv s) : Inv (parsed s).2 :=
  ⟨h.aligned, h.inside, get_obj_size_lt h.obj_size, h.writes⟩

theorem Inv.reset (h : Inv s) : Inv (reset_cert_obj s) :=
  ⟨h.aligned, h.inside, show (0 : ℕ) < 4096 by decide, h.writes⟩

theorem Inv.write {offset : ℕ} {bytes : List u8} (h : Inv s)
    (hinside : offset + bytes.length ≤ kPageSize) : Inv (write_data offset bytes s) :=
  ⟨h.aligned, h.inside, h.obj_size, h.writes.write hinside⟩

theorem Inv.after_next (h : Inv s) (hinside : (after_next s).tail_offset ≤ kPageSize) :
    Inv (after_next s) := by
  have haligned := h.aligned
  refine ⟨?_, hinside, show (0 : ℕ) < 4096 by decide, h.writes⟩
  show (s.tail_offset + (s.cert_obj.obj_size + 7) / 8 * 8) % 8 = 0
  omega

theorem checked_eq (lib : Library) (name : Option (List u8)) (s : DiceChain) :
    (checked lib name s).2 = { s with cert_valid := (checked lib name s).2.cert_valid } := by
  unfold checked
  split
  · rfl
  · split
    · rfl
    · split
      · rfl
      · rfl

theorem Inv.loaded {lib : Library} {name : Option (List u8)} (h : Inv s) :
    Inv (loaded lib name s).2 := by
  have hparsed := h.parsed
  unfold Dice.loaded
  generalize Dice.parsed s = result at hparsed ⊢
  obtain ⟨err, s₁⟩ := result
  dsimp only
  split
  · exact hparsed.reset
  · split
    · exact hparsed.reset
    · rw [checked_eq]
      exact ⟨hparsed.aligned, hparsed.inside, hparsed.obj_size, hparsed.writes⟩

end states

/-! ## Runs of the functions -/

section functions

variable {m : Machine DiceChain}

theorem get_tail_size_run (htail : m.mem.tail_offset ≤ kPageSize) :
    dice_chain_get_tail_size m = (.ret (kPageSize - m.mem.tail_offset), m) := by
  unfold dice_chain_get_tail_size
  rw [Proc.get_bind, if_pos htail]
  rfl

theorem get_cert_obj_run (htail : m.mem.tail_offset ≤ kPageSize) :
    get_cert_obj m = (.ret (parsed m.mem).1, { m with mem := (parsed m.mem).2 }) := by
  unfold get_cert_obj
  rw [Proc.bind_of_ret (get_tail_size_run htail)]
  rfl

/-- The next object is behind the rounded size of this one. -/
theorem next_cert_obj_run (h : Inv m.mem) :
    dice_chain_next_cert_obj m =
      if (after_next m.mem).tail_offset ≤ kPageSize then (.ret (), { m with mem := after_next m.mem })
      else (.trap, { m with mem := { m.mem with tail_offset := (after_next m.mem).tail_offset } }) := by
  have hsize := next_size_eq h.obj_size
  unfold dice_chain_next_cert_obj
  rw [Proc.modify_bind, Proc.get_bind, hsize]
  split
  · next hinside => exact (if_pos hinside).symm
  · next hinside => exact (if_neg hinside).symm

theorem check_cert_obj_run (lib : Library) (name : Option (List u8)) (m : Machine DiceChain) :
    check_cert_obj lib name m =
      (.ofExcept (checked lib name m.mem).1, { m with mem := (checked lib name m.mem).2 }) := by
  unfold check_cert_obj checked
  rw [Proc.get_bind]
  cases name with
  | none => rfl
  | some name =>
      dsimp only
      split
      · rfl
      · rw [Proc.modify_bind]
        cases lib.dice_cert_check_valid (cert_body m.mem.data m.mem.cert_obj) m.mem.subject with
        | error e => rfl
        | ok cert_valid => rfl

theorem load_cert_obj_run (lib : Library) (name : Option (List u8))
    (htail : m.mem.tail_offset ≤ kPageSize) :
    dice_chain_load_cert_obj lib name m =
      (.ofExcept (loaded lib name m.mem).1, { m with mem := (loaded lib name m.mem).2 }) := by
  unfold dice_chain_load_cert_obj loaded
  rw [Proc.bind_of_ret (get_cert_obj_run htail)]
  generalize parsed m.mem = result
  obtain ⟨err, s⟩ := result
  by_cases hnone : err = .kErrorPersoTlvCertObjNotFound
  · subst hnone
    rfl
  · by_cases hok : err = .kErrorOk
    · subst hok
      exact check_cert_obj_run lib name { m with mem := s }
    · have hfails : err ≠ .kErrorOk := hok
      simp only [if_pos hfails, if_neg hnone]
      rfl

theorem next_cert_obj_keeps : Keeps Inv dice_chain_next_cert_obj := by
  rintro _ h m rfl
  rw [next_cert_obj_run h]
  split
  · next hinside => exact h.after_next hinside
  · trivial

theorem load_cert_obj_keeps (lib : Library) (name : Option (List u8)) :
    Keeps Inv (dice_chain_load_cert_obj lib name) := by
  rintro _ h m rfl
  rw [load_cert_obj_run lib name h.inside]
  cases (loaded lib name m.mem).1 with
  | ok _ => exact h.loaded
  | error e => exact h.loaded

theorem skip_cert_obj_keeps (lib : Library) (name : List u8) :
    Keeps Inv (dice_chain_skip_cert_obj lib name) := by
  refine (load_cert_obj_keeps lib none).bind fun _ s h => Leaves.get ?_
  split
  · exact next_cert_obj_keeps s h
  · exact Leaves.pure h

theorem flush_flash_keeps : Keeps Inv dice_chain_flush_flash := by
  intro s h
  refine Leaves.get ?_
  split
  · exact Leaves.pure h
  · split
    · -- neither operation touches the mirror, and a failed one changes nothing at all
      have hkeeps : ∀ {s : DiceChain} (flash : ℕ → InfoPage), Inv s → Inv { s with flash } :=
        fun _ hs => ⟨hs.aligned, hs.inside, hs.obj_size, hs.writes⟩
      have herase : ∀ page, Keeps Inv (flash_ctrl_info_erase page) := fun _ s hs =>
        Leaves.step (hkeeps _ hs) hs trivial
      have hwrite : ∀ page, Keeps Inv (flash_ctrl_info_write page) := fun _ s hs =>
        Leaves.step (hkeeps _ hs) hs trivial
      refine (herase _).bind (fun _ => (hwrite _).bind fun _ s hs => ?_) s h
      exact Leaves.modify ⟨hs.aligned, hs.inside, hs.obj_size, hs.writes⟩
    · exact Leaves.pure h

theorem read_zeros_keeps (page : ℕ) :
    Keeps Inv (flash_ctrl_info_read_zeros_on_read_error page) := by
  intro s h
  have hread : ∀ m, 0 + (readBytes m 0 kPageSize).length ≤ kPageSize := by
    intro m
    rw [length_readBytes, Nat.zero_add]
  refine Leaves.get ?_
  split
  · exact Leaves.modify (h.write (hread _))
  · exact Leaves.modify (h.write (by rw [List.length_replicate, Nat.zero_add]))
  · exact Leaves.modify_bind (Leaves.throw (h.write (hread _)))

theorem load_flash_keeps (page : ℕ) : Keeps Inv (dice_chain_load_flash page) := by
  intro s h
  have hzero : 0 % 8 = 0 ∧ 0 ≤ kPageSize := ⟨rfl, Nat.zero_le _⟩
  refine Leaves.get ?_
  split
  · exact Leaves.modify ⟨hzero.1, hzero.2, h.obj_size, h.writes⟩
  · refine flush_flash_keeps.bind (fun _ => (read_zeros_keeps page).bind fun _ s hs => ?_) s h
    refine Leaves.modify_bind (Leaves.modify ?_)
    exact Inv.reset ⟨hzero.1, hzero.2, hs.obj_size, hs.writes⟩

end functions

/-! ## Pushing -/

/-- The page with everything from `offset` on replaced by `bytes` and zeros. -/
def replaced (page : Mem) (offset : ℕ) (bytes : List u8) : Mem :=
  writeBytes (writeBytes page offset (List.replicate (kPageSize - offset) 0)) offset bytes

theorem replaced_of_lt (page : Mem) {offset x : ℕ} (bytes : List u8) (hx : x < offset) :
    replaced page offset bytes x = page x := by
  unfold replaced
  rw [writeBytes_of_not_mem _ _ _ _ (by omega), writeBytes_of_not_mem _ _ _ _ (by omega)]

theorem replaced_of_past (page : Mem) {offset x : ℕ} (bytes : List u8)
    (hpast : offset + bytes.length ≤ x) (hx : x < kPageSize) : replaced page offset bytes x = 0 := by
  unfold replaced
  rw [writeBytes_of_not_mem _ _ _ _ (by omega), writeBytes, List.length_replicate,
    if_pos (by omega), List.getD_eq_getElem?_getD, List.getElem?_replicate, if_pos (by omega),
    Option.getD_some]

theorem readBytes_replaced (page : Mem) (offset : ℕ) (bytes : List u8) :
    readBytes (replaced page offset bytes) offset bytes.length = bytes :=
  readBytes_writeBytes _ _ _

theorem read_object (page : Mem) (offset t : ℕ) (name cert : List u8) :
    readBytes (replaced page offset (object_bytes t name cert)) offset
      (name.length + cert.length + 4) = object_bytes t name cert := by
  rw [← length_object_bytes t]
  exact readBytes_replaced _ _ _

/-- What there is to a push that succeeds. -/
structure Pushable (lib : Library) (name : Name) (cert : List u8) (offset : ℕ) : Prop where
  name_len : name.bytes.length ≤ kCrthNameSizeFieldMask
  fits : offset + (name.bytes.length + cert.length + 4) ≤ kPageSize
  cert_len : 4 ≤ cert.length
  x509 : lib.cert_type = kPersoObjectTypeX509Cert →
    cert_x509_asn1_decode_size_header (fun i => cert.getD i 0) 0 = cert.length

/-- The state that a successful push leaves. -/
def after_push (lib : Library) (name : Name) (cert : List u8) (s : DiceChain) : DiceChain :=
  reset_cert_obj { s with
    data := replaced s.data s.tail_offset (object_bytes lib.cert_type name.bytes cert)
    data_dirty := true
    tail_offset := s.tail_offset + (name.bytes.length + cert.length + 4 + 7) / 8 * 8
    writes := (s.tail_offset, name.bytes.length + cert.length + 4) ::
      (s.tail_offset, kPageSize - s.tail_offset) :: s.writes }

/-- The bytes in front of the tail of `s` are in `s'` what they were. -/
def KeepsHead (s s' : DiceChain) : Prop := ∀ x < s.tail_offset, s'.data x = s.data x

section push

variable {lib : Library} {name : Name} {cert : Cert} {m : Machine DiceChain}

theorem cert_type_cases (lib : Library) :
    lib.cert_type = kPersoObjectTypeX509Cert ∨ lib.cert_type = kPersoObjectTypeCwtCert ∨
      lib.cert_type = kPersoObjectTypeX509Tbs := by
  unfold Library.cert_type
  split
  · exact .inl rfl
  · exact .inr (.inl rfl)

/-- The object that was pushed is parsed where it was put. -/
theorem get_of_pushable {page : Mem} {offset : ℕ} {cert : List u8}
    (h : Pushable lib name cert offset)
    (hread : readBytes page offset (name.bytes.length + cert.length + 4) =
      object_bytes lib.cert_type name.bytes cert) (obj : PersoTlvCertObj) :
    perso_tlv_get_cert_obj page offset (kPageSize - offset) obj = (.kErrorOk,
      { obj_p := offset
        obj_size := name.bytes.length + cert.length + 4
        obj_type := lib.cert_type
        cert_body_p := offset + 4 + name.bytes.length
        cert_body_size := cert.length
        name := writeBytes (writeBytes obj.name 0
          (readBytes page (offset + 4) name.bytes.length)) name.bytes.length [0] }) := by
  have hfits := h.fits
  have hpage : kPageSize = 2048 := rfl
  obtain ⟨herr, hobj⟩ := get_of_objectAt (kPageSize - offset) (objectAt_of_read hread) h.name_len
    (cert_type_cases lib) h.cert_len (by omega) (by omega) h.x509 obj
  exact Prod.ext herr hobj

/-- Encoding the object: it fits, or nothing happens. -/
theorem build_cert_obj_run (lib : Library) (name : Name) (hbeside : cert.bytes.length + 4104 ≤ 2 ^ 32) :
    name.bytes.length ≤ kCrthNameSizeFieldMask ∧
        name.bytes.length + cert.bytes.length + 4 ≤ kPageSize - m.mem.tail_offset ∧
        build_cert_obj name lib.cert_type cert (kPageSize - m.mem.tail_offset) m =
          (.ret (), { m with mem := { m.mem with
            data := writeBytes m.mem.data m.mem.tail_offset
              (object_bytes lib.cert_type name.bytes cert.bytes)
            writes := (m.mem.tail_offset, name.bytes.length + cert.bytes.length + 4) ::
              m.mem.writes } }) ∨
      ¬(name.bytes.length ≤ kCrthNameSizeFieldMask ∧
          name.bytes.length + cert.bytes.length + 4 ≤ kPageSize - m.mem.tail_offset) ∧
        ∃ e, build_cert_obj name lib.cert_type cert (kPageSize - m.mem.tail_offset) m =
          (.error e, m) := by
  have hmask : kCrthNameSizeFieldMask = 15 := rfl
  unfold build_cert_obj
  rw [Proc.get_bind]
  cases hbuild : perso_tlv_cert_obj_build name lib.cert_type cert.bytes m.mem.data
      m.mem.tail_offset (kPageSize - m.mem.tail_offset) with
  | error e =>
      refine .inr ⟨fun hfits => ?_, e, rfl⟩
      rw [build_eq (by omega), if_neg (by omega), if_neg (by omega)] at hbuild
      cases hbuild
  | ok built =>
      obtain ⟨m', used⟩ := built
      obtain ⟨hname, rfl, hfits, rfl⟩ := build_ok (build_no_wrap hbuild) hbuild
      exact .inl ⟨hname, hfits, rfl⟩

/-- The object that was put at the tail is accepted by the parser or not. -/
theorem read_back_cert_obj_run (h : Inv m.mem)
    (hname : name.bytes.length ≤ kCrthNameSizeFieldMask)
    (hfits : name.bytes.length + cert.bytes.length + 4 ≤ kPageSize - m.mem.tail_offset)
    (hread : readBytes m.mem.data m.mem.tail_offset (name.bytes.length + cert.bytes.length + 4) =
      object_bytes lib.cert_type name.bytes cert.bytes) :
    Pushable lib name cert.bytes m.mem.tail_offset ∧
        read_back_cert_obj m = (.ret (), { m with mem := reset_cert_obj { m.mem with
          tail_offset := m.mem.tail_offset + (name.bytes.length + cert.bytes.length + 4 + 7) / 8 *
            8 } }) ∨
      ¬Pushable lib name cert.bytes m.mem.tail_offset ∧
        ∃ e, read_back_cert_obj m = (.error e, { m with mem := (parsed m.mem).2 }) := by
  have hinside := h.inside
  have haligned := h.aligned
  have hpage : kPageSize = 2048 := rfl
  unfold read_back_cert_obj
  rw [Proc.bind_of_ret (get_cert_obj_run hinside)]
  by_cases hok : (parsed m.mem).1 = .kErrorOk
  · have hpushable : Pushable lib name cert.bytes m.mem.tail_offset := by
      obtain ⟨hlen, hx509⟩ := cert_of_get_ok (objectAt_of_read hread) hname
        (cert_type_cases lib) (by omega) hok
      exact ⟨hname, by omega, hlen, hx509⟩
    have hsize : (parsed m.mem).2.cert_obj.obj_size =
        name.bytes.length + cert.bytes.length + 4 :=
      congrArg (fun r => r.2.obj_size) (get_of_pushable hpushable hread m.mem.cert_obj)
    have hnext : after_next (parsed m.mem).2 = reset_cert_obj { m.mem with
        tail_offset := m.mem.tail_offset + (name.bytes.length + cert.bytes.length + 4 + 7) / 8 *
          8 } := by
      unfold after_next
      rw [hsize]
      rfl
    refine .inl ⟨hpushable, ?_⟩
    simp only [hok, ne_eq, not_true_eq_false, if_false]
    have hroom : (after_next (parsed m.mem).2).tail_offset ≤ kPageSize := by
      rw [hnext]
      show m.mem.tail_offset + (name.bytes.length + cert.bytes.length + 4 + 7) / 8 * 8 ≤ kPageSize
      omega
    refine (next_cert_obj_run h.parsed).trans ?_
    rw [if_pos hroom, hnext]
  · have hfails : (parsed m.mem).1 ≠ .kErrorOk := hok
    refine .inr ⟨fun hp => hok ?_, (parsed m.mem).1, ?_⟩
    · exact congrArg Prod.fst (get_of_pushable hp hread m.mem.cert_obj)
    · simp only [if_pos hfails]
      rfl

/-- A push either succeeds, or is an error that leaves what is in front of the tail. -/
theorem push_cert_run (lib : Library) (name : Name) (cert : Cert) (h : Inv m.mem) :
    Pushable lib name cert.bytes m.mem.tail_offset ∧
        dice_chain_push_cert lib name cert m =
          (.ret (), { m with mem := after_push lib name cert.bytes m.mem }) ∨
      ¬Pushable lib name cert.bytes m.mem.tail_offset ∧
        ∃ e s', dice_chain_push_cert lib name cert m = (.error e, { m with mem := s' }) ∧ Inv s' ∧
          KeepsHead m.mem s' := by
  have hinside := h.inside
  -- the tail is cleared
  set zeros := List.replicate (kPageSize - m.mem.tail_offset) (0 : u8) with hzeros
  set s₁ := write_data m.mem.tail_offset zeros { m.mem with data_dirty := true } with hs₁
  set m₁ : Machine DiceChain := { m with mem := s₁ } with hm₁
  have hinv₁ : Inv m₁.mem := by
    refine Inv.write ⟨h.aligned, hinside, h.obj_size, h.writes⟩ ?_
    rw [hzeros, List.length_replicate]
    omega
  have hstart : dice_chain_push_cert lib name cert m = (build_cert_obj name lib.cert_type cert
      (kPageSize - m₁.mem.tail_offset) >>= fun _ => read_back_cert_obj) m₁ := by
    unfold dice_chain_push_cert
    rw [Proc.modify_bind]
    refine (Proc.bind_of_ret (get_tail_size_run
      (m := { m with mem := { m.mem with data_dirty := true } }) hinside)).trans ?_
    exact Proc.bind_of_ret (get_tail_size_run hinv₁.inside)
  rw [hstart]
  rcases build_cert_obj_run lib name (m := m₁) cert.beside with
    ⟨hname, hfits, hbuild⟩ | ⟨hnot, e, hbuild⟩
  · rw [Proc.bind_of_ret hbuild]
    -- the object is read back
    set s₂ : DiceChain := { m₁.mem with
      data := replaced m.mem.data m.mem.tail_offset
        (object_bytes lib.cert_type name.bytes cert.bytes)
      writes := (m.mem.tail_offset, name.bytes.length + cert.bytes.length + 4) :: m₁.mem.writes }
      with hs₂
    have hfits' : name.bytes.length + cert.bytes.length + 4 ≤ kPageSize - m.mem.tail_offset := hfits
    have hinv₂ : Inv s₂ := by
      have hend : m.mem.tail_offset +
          (object_bytes lib.cert_type name.bytes cert.bytes).length ≤ kPageSize := by
        rw [length_object_bytes]
        omega
      have hwrite := hinv₁.write hend
      rwa [write_data, length_object_bytes] at hwrite
    have hread := read_object m.mem.data m.mem.tail_offset lib.cert_type name.bytes cert.bytes
    rcases read_back_cert_obj_run (m := { m₁ with mem := s₂ }) hinv₂ hname hfits hread with
      ⟨hpushable, hrun⟩ | ⟨hnot, e, hrun⟩
    · have hlen : zeros.length = kPageSize - m.mem.tail_offset := List.length_replicate
      refine .inl ⟨hpushable, hrun.trans ?_⟩
      unfold after_push
      rw [← hlen]
      rfl
    · exact .inr ⟨hnot, e, _, hrun, hinv₂.parsed, fun x hx => replaced_of_lt _ _ hx⟩
  · rw [Proc.bind_of_error hbuild]
    refine .inr ⟨fun hp => hnot ⟨hp.name_len, ?_⟩, e, m₁.mem, rfl, hinv₁, fun x hx => ?_⟩
    · have := hp.fits
      show _ ≤ kPageSize - m.mem.tail_offset
      omega
    · exact writeBytes_of_not_mem _ _ _ _ (by omega)

/-- At the tail of `s` the page of `s'` has the object that was pushed, and behind it
nothing. -/
structure Pushed (lib : Library) (name : Name) (cert : Cert) (s s' : DiceChain) : Prop where
  parses : ∀ obj,
    let (error, obj) := perso_tlv_get_cert_obj s'.data s.tail_offset (kPageSize - s.tail_offset) obj
    error = .kErrorOk ∧ obj.name_string = name.bytes ∧ obj.obj_type = lib.cert_type ∧
      readBytes s'.data obj.cert_body_p obj.cert_body_size = cert.bytes ∧
      s'.tail_offset = (s.tail_offset + obj.obj_size + 7) / 8 * 8
  empty : s'.tail_offset = kPageSize ∨
    PERSO_TLV_GET_FIELD objhSize (load16 s'.data s'.tail_offset) = 0

theorem Inv.after_push {s : DiceChain} (h : Inv s)
    (hpushable : Pushable lib name cert.bytes s.tail_offset) :
    Inv (after_push lib name cert.bytes s) := by
  have haligned := h.aligned
  have hfits := hpushable.fits
  have hpage : kPageSize = 2048 := rfl
  have hzeros : s.tail_offset + (List.replicate (kPageSize - s.tail_offset) (0 : u8)).length ≤
      kPageSize := by
    rw [List.length_replicate]
    omega
  have hobject : s.tail_offset +
      (object_bytes lib.cert_type name.bytes cert.bytes).length ≤ kPageSize := by
    rw [length_object_bytes]
    omega
  have hwritten := (h.writes.write hzeros).write hobject
  rw [List.length_replicate, length_object_bytes] at hwritten
  refine ⟨?_, ?_, show (0 : ℕ) < 4096 by decide, hwritten⟩
  · show (s.tail_offset + (name.bytes.length + cert.bytes.length + 4 + 7) / 8 * 8) % 8 = 0
    omega
  · show s.tail_offset + (name.bytes.length + cert.bytes.length + 4 + 7) / 8 * 8 ≤ kPageSize
    omega

/-- What the push wrote parses to the certificate again, and the tail behind it is empty. -/
theorem pushed_after_push {s : DiceChain} (h : Inv s)
    (hpushable : Pushable lib name cert.bytes s.tail_offset) :
    Pushed lib name cert s (after_push lib name cert.bytes s) := by
  have haligned := h.aligned
  have hfits := hpushable.fits
  have hpage : kPageSize = 2048 := rfl
  have hread : readBytes (after_push lib name cert.bytes s).data s.tail_offset _ = _ :=
    read_object s.data s.tail_offset lib.cert_type name.bytes cert.bytes
  have hobject := objectAt_of_read hread
  have htail : (after_push lib name cert.bytes s).tail_offset =
      s.tail_offset + (name.bytes.length + cert.bytes.length + 4 + 7) / 8 * 8 := rfl
  refine ⟨fun obj => ?_, ?_⟩
  · rw [get_of_pushable hpushable hread obj]
    refine ⟨rfl, name_string_eq hpushable.name_len hobject.name_bytes name.nonzero, rfl,
      hobject.cert_bytes, ?_⟩
    rw [htail]
    dsimp only
    omega
  · -- behind the object the page is as it was cleared
    by_cases hend : (after_push lib name cert.bytes s).tail_offset = kPageSize
    · exact .inl hend
    · have hzero : ∀ i < 2, (after_push lib name cert.bytes s).data
          ((after_push lib name cert.bytes s).tail_offset + i) = 0 := by
        intro i hi
        refine replaced_of_past _ _ ?_ ?_
        · rw [length_object_bytes]
          omega
        · omega
      have hheader : load16 (after_push lib name cert.bytes s).data
          (after_push lib name cert.bytes s).tail_offset = 0 := by
        rw [load16, hzero 1 (by omega)]
        have hfirst := hzero 0 (by omega)
        rw [Nat.add_zero] at hfirst
        rw [hfirst]
        rfl
      right
      rw [hheader]
      rfl

end push

/-! ## Runs -/

inductive Call
  | load_flash (page : ℕ)
  | skip_cert_obj (name : List u8)
  | load_cert_obj (name : Option (List u8))
  | next_cert_obj
  | push_cert (name : Name) (cert : Cert)
  | flush_flash

def Call.run (lib : Library) : Call → Chain Unit
  | .load_flash page => dice_chain_load_flash page
  | .skip_cert_obj name => dice_chain_skip_cert_obj lib name
  | .load_cert_obj name => dice_chain_load_cert_obj lib name
  | .next_cert_obj => dice_chain_next_cert_obj
  | .push_cert name cert => dice_chain_push_cert lib name cert
  | .flush_flash => dice_chain_flush_flash

/-- What is reached by calls that return or fail, with any flash and with changes of
the keys between them. -/
inductive Reachable (lib : Library) : DiceChain → Prop
  | init (static_dice_cdi_0 : StaticDiceCdi0) (flash : ℕ → InfoPage) :
      Reachable lib (init_chain static_dice_cdi_0 flash)
  | keys {s : DiceChain} (h : Reachable lib s) (endorsement subject : KeyId) :
      Reachable lib { s with endorsement, subject }
  | call {m : Machine DiceChain} (h : Reachable lib m.mem) (call : Call)
      (htrap : (call.run lib m).1 ≠ .trap) (hlost : (call.run lib m).1 ≠ .lost) :
      Reachable lib (call.run lib m).2.mem

theorem call_keeps (lib : Library) (call : Call) : Keeps Inv (call.run lib) := by
  cases call with
  | load_flash page => exact load_flash_keeps page
  | skip_cert_obj name => exact skip_cert_obj_keeps lib name
  | load_cert_obj name => exact load_cert_obj_keeps lib name
  | next_cert_obj => exact next_cert_obj_keeps
  | push_cert name cert =>
      rintro _ h m rfl
      rcases push_cert_run lib name cert h with
        ⟨hpushable, hrun⟩ | ⟨-, e, s', hrun, hs', -⟩
      · rw [show Call.run lib (.push_cert name cert) m = _ from hrun]
        exact h.after_push hpushable
      · rw [show Call.run lib (.push_cert name cert) m = _ from hrun]
        exact hs'
  | flush_flash => exact flush_flash_keeps

/-- The state from which each half of the boot starts. -/
theorem Inv.init (static_dice_cdi_0 : StaticDiceCdi0) (flash : ℕ → InfoPage) :
    Inv (init_chain static_dice_cdi_0 flash) where
  aligned := rfl
  inside := Nat.zero_le _
  obj_size := show (0 : ℕ) < 4096 by decide
  writes := ⟨fun _ hw => absurd hw List.not_mem_nil, fun _ _ => rfl⟩

theorem Reachable.inv {lib : Library} {s : DiceChain} (h : Reachable lib s) : Inv s := by
  induction h with
  | init static_dice_cdi_0 flash => exact Inv.init static_dice_cdi_0 flash
  | keys _ endorsement subject ih => exact ⟨ih.aligned, ih.inside, ih.obj_size, ih.writes⟩
  | call _ call htrap hlost ih =>
      exact (call_keeps lib call _ ih).mem_of_running (fun _ _ hq => hq) (fun _ _ he => he) rfl
        htrap hlost

/-- The page is well formed after any run, and a push adds its object to it. The list of writes
is the whole of them: `data` starts as zeros, and where none of them went it has zeros. -/
theorem page_well_formed {lib : Library} {s : DiceChain} (h : Reachable lib s) :
    s.tail_offset % 8 = 0 ∧ s.tail_offset ≤ kPageSize ∧
      (∀ w ∈ s.writes, w.1 + w.2 ≤ kPageSize) ∧
      (∀ x, (∀ w ∈ s.writes, x < w.1 ∨ w.1 + w.2 ≤ x) → s.data x = 0) ∧
      ∀ name cert (m : Machine DiceChain), m.mem = s →
        match dice_chain_push_cert lib name cert m with
        | (.ret (), m') => KeepsHead s m'.mem ∧ Pushed lib name cert s m'.mem
        | (.error _, m') => KeepsHead s m'.mem
        | _ => True := by
  have hinv := h.inv
  refine ⟨hinv.aligned, hinv.inside, hinv.writes.inside, hinv.writes.untouched, ?_⟩
  rintro name cert m rfl
  rcases push_cert_run lib name cert hinv with
    ⟨hpushable, hrun⟩ | ⟨-, e, s', hrun, -, hhead⟩
  · rw [hrun]
    exact ⟨fun x hx => replaced_of_lt _ _ hx, pushed_after_push hinv hpushable⟩
  · rw [hrun]
    exact hhead

/-- A certificate as short as one can be, with the serial number of a key. -/
def short_cert (key : KeyId) : Cert :=
  ⟨[0x30, 0x82, 0x00, 0x20] ++ List.replicate 9 0 ++ [0x02, 0x15, 0x00] ++
    (key.pubkey_id.toList.take kCertKeyIdSizeInBytes).modifyHead (· ||| 0x80), by
      simp [kCertKeyIdSizeInBytes]⟩

/-- A device whose pages all read as zeros. -/
def new_device : Machine DiceChain :=
  Machine.on (init_chain ⟨zero_key, zero_key, short_cert zero_key⟩ fun _ => .content fun _ => 0)
    fun _ => .done

theorem page_well_formed_uds :
    let (outcome, m') := dice_chain_push_cert dice_x509 uds_name (short_cert zero_key) new_device
    outcome = .ret () ∧ m'.mem.tail_offset = 48 ∧ KeepsHead new_device.mem m'.mem ∧
      Pushed dice_x509 uds_name (short_cert zero_key) new_device.mem m'.mem := by
  obtain ⟨-, -, -, -, hpush⟩ :=
    @page_well_formed dice_x509 _ (Reachable.init ⟨zero_key, zero_key, short_cert zero_key⟩
      fun _ => .content fun _ => 0)
  have hruns := hpush uds_name (short_cert zero_key) new_device rfl
  have hret : (dice_chain_push_cert dice_x509 uds_name (short_cert zero_key) new_device).1 =
      .ret () := by decide
  have htail : (dice_chain_push_cert dice_x509 uds_name (short_cert zero_key)
      new_device).2.mem.tail_offset = 48 := by decide
  revert hruns hret htail
  generalize dice_chain_push_cert dice_x509 uds_name (short_cert zero_key) new_device = result
  obtain ⟨outcome, m'⟩ := result
  rintro hruns rfl htail
  exact ⟨rfl, htail, hruns⟩

end IbexFirmware.Dice
