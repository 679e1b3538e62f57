/-
The certificates of a boot: what `dice_chain.c` makes of the page it finds.

The immutable ROM_EXT looks at the page and builds a CDI_0 certificate if it finds no
valid one. The mutable ROM_EXT looks again, puts that certificate on the page if it is
needed, does the same for CDI_1 and writes the page back. What the key manager and OTBN
make are the three keys of the boot. The certificate builders are parameters.

`skipped` and `find` say what the code reads off a page. `Bootable` is put together from
them, and is exactly what a page has to be for the boot to go through.
-/
import IbexFirmware.DiceChain
import IbexFirmware.PersoTlvObject

set_option autoImplicit false

namespace IbexFirmware.Dice

open Bytes PowerFail PersoTlv PersoTlvObject

/-! ## Keys and builders -/

def kFlashCtrlInfoPageFactoryCerts : ℕ := 9
def kFlashCtrlInfoPageDiceCerts : ℕ := 19

/-- The library with its builders. What else they are given does not change in a boot. -/
structure DiceLibrary extends Library where
  dice_cdi_0_cert_build : (endorsement subject : KeyId) → Cert
  dice_cdi_1_cert_build : (endorsement subject : KeyId) → Cert

/-- What `otbn_boot_cert_ecc_p256_keygen` finds in this boot. -/
structure DiceKeys where
  uds : KeyId
  cdi_0 : KeyId
  cdi_1 : KeyId

/-- A name with its terminator. -/
def terminated (name : Name) : List u8 := name.bytes ++ [0]

/-- `"CDI_0"` and `"CDI_1"`. -/
def cdi_0_name : Name := ⟨[0x43, 0x44, 0x49, 0x5f, 0x30], by decide⟩
def cdi_1_name : Name := ⟨[0x43, 0x44, 0x49, 0x5f, 0x31], by decide⟩

/-! ## The boot -/

section boot

variable (lib : DiceLibrary) (keys : DiceKeys)

def dice_chain_attestation_silicon : Chain Unit :=
  .modify fun s => { s with
    static_dice_cdi_0 := { s.static_dice_cdi_0 with uds_pubkey := keys.uds } }

def dice_chain_attestation_creator : Chain Unit := do
  .modify fun s => { s with
    static_dice_cdi_0 := { s.static_dice_cdi_0 with cdi_0_pubkey := keys.cdi_0 } }
  dice_chain_load_flash kFlashCtrlInfoPageDiceCerts
  dice_chain_skip_cert_obj lib.toLibrary (terminated uds_name)
  dice_chain_load_cert_obj lib.toLibrary (some (terminated cdi_0_name))
  .modify fun s =>
    if s.cert_valid then s
    else { s with static_dice_cdi_0 := { s.static_dice_cdi_0 with
      cert := lib.dice_cdi_0_cert_build s.static_dice_cdi_0.uds_pubkey
        s.static_dice_cdi_0.cdi_0_pubkey } }

/-- A UDS certificate that is not valid is reported on the console only. -/
def dice_chain_attestation_check_uds : Chain Unit := do
  dice_chain_load_flash kFlashCtrlInfoPageFactoryCerts
  .modify fun s => { s with
    endorsement := s.static_dice_cdi_0.uds_pubkey
    subject := s.static_dice_cdi_0.uds_pubkey }
  dice_chain_load_cert_obj lib.toLibrary (some (terminated uds_name))

/-- Move on behind a certificate that is valid, or push the one that is built. -/
def dice_chain_refresh_cert (name : Name) (cert : DiceChain → Cert) : Chain Unit := do
  dice_chain_load_cert_obj lib.toLibrary (some (terminated name))
  let s ← .get
  if s.cert_valid then dice_chain_next_cert_obj
  else dice_chain_push_cert lib.toLibrary name (cert s)

def dice_chain_attestation_check_cdi_0 : Chain Unit := do
  dice_chain_load_flash kFlashCtrlInfoPageDiceCerts
  dice_chain_skip_cert_obj lib.toLibrary (terminated uds_name)
  .modify fun s => { s with
    endorsement := s.static_dice_cdi_0.cdi_0_pubkey
    subject := s.static_dice_cdi_0.cdi_0_pubkey }
  dice_chain_refresh_cert lib cdi_0_name fun s => s.static_dice_cdi_0.cert

def dice_chain_attestation_owner : Chain Unit := do
  dice_chain_attestation_check_uds lib
  dice_chain_attestation_check_cdi_0 lib
  .modify fun s => { s with subject := keys.cdi_1 }
  dice_chain_refresh_cert lib cdi_1_name fun s =>
    lib.dice_cdi_1_cert_build s.endorsement s.subject
  .modify fun s => { s with endorsement := s.subject }

/-- The calls of the immutable and then of the mutable ROM_EXT. -/
def rom_ext_certs : Chain Unit := do
  dice_chain_init
  dice_chain_attestation_silicon keys
  dice_chain_attestation_creator lib keys
  dice_chain_init
  dice_chain_attestation_owner lib keys
  dice_chain_flush_flash

end boot

/-! ## Pages -/

/-- The content of an info page. -/
abbrev Page : Type := Vector u8 kPageSize

def Page.mem (page : Page) : Mem := fun x => if h : x < kPageSize then page[x] else 0

/-- Where the objects behind the one with this name start, if it is there. -/
def skipped (page : Mem) (offset : ℕ) (name : Name) : Except RomError ℕ :=
  let (err, obj) := perso_tlv_get_cert_obj page offset (kPageSize - offset) empty_cert_obj
  if err = .kErrorPersoTlvCertObjNotFound then .ok offset
  else if err ≠ .kErrorOk then .error err
  else if name_matches obj (terminated name) then .ok (offset + (obj.obj_size + 7) / 8 * 8)
  else .ok offset

/-- Is there a valid certificate with this name? If so, what is behind it starts at the
offset that is returned. -/
def find (lib : Library) (page : Mem) (offset : ℕ) (name : Name) (key : KeyId) :
    Except RomError (Option ℕ) :=
  let (err, obj) := perso_tlv_get_cert_obj page offset (kPageSize - offset) empty_cert_obj
  if err = .kErrorPersoTlvCertObjNotFound then .ok none
  else if err ≠ .kErrorOk then .error err
  else if name_matches obj (terminated name) = false ∨ lib.cert_type ≠ obj.obj_type then .ok none
  else
    match lib.dice_cert_check_valid (cert_body page obj) key with
    | .error e => .error e
    | .ok true => .ok (some (offset + (obj.obj_size + 7) / 8 * 8))
    | .ok false => .ok none

/-- The page with an object put at `offset` and nothing behind it. -/
def with_object (lib : Library) (page : Mem) (offset : ℕ) (name : Name) (cert : Cert) : Mem :=
  replaced page offset (object_bytes lib.cert_type name.bytes cert.bytes)

/-- An object takes up whole flash words. -/
def object_end (offset : ℕ) (name : Name) (cert : Cert) : ℕ :=
  offset + (name.bytes.length + cert.bytes.length + 4 + 7) / 8 * 8

def Fits (offset : ℕ) (name : Name) (cert : Cert) : Prop :=
  offset + (name.bytes.length + cert.bytes.length + 4) ≤ kPageSize

/-- The certificate of the object at `offset` ends in front of `next`. -/
def EndsBefore (page : Mem) (offset next : ℕ) : Prop :=
  offset + kObjectHeaderSize + certSizeAt page offset ≤ next

/-- The certificate at `offset` stays valid when an object is put at `next`: it ends in front of
it, or it is valid as well with the bytes of that object where it reached over `next`. -/
def Survives (lib : Library) (page : Mem) (offset next : ℕ) (key : KeyId) (name : Name)
    (name' : Name) (cert' : Cert) : Prop :=
  EndsBefore page offset next ∨
    find lib (with_object lib page next name' cert') offset name key = .ok (some next)

section property

variable (lib : DiceLibrary) (keys : DiceKeys)

/-- From `offset` on, the page has a CDI_0 and then a CDI_1 certificate for these keys. -/
def Certified (page : Mem) (offset : ℕ) : Prop :=
  ∃ cdi_1_offset next, find lib.toLibrary page offset cdi_0_name keys.cdi_0 = .ok (some cdi_1_offset) ∧
    find lib.toLibrary page cdi_1_offset cdi_1_name keys.cdi_1 = .ok (some next)

def info_pages (factory page : Page) : ℕ → InfoPage :=
  Function.update (Function.update (fun _ => .read_error) kFlashCtrlInfoPageFactoryCerts
    (.content factory.mem)) kFlashCtrlInfoPageDiceCerts (.content page.mem)

/-- With this page in flash the boot returns no error, and behind a UDS certificate the
page has afterwards the two certificates. -/
def boots (factory page : Page) (static_dice_cdi_0 : StaticDiceCdi0) : Prop :=
  let (outcome, m) := rom_ext_certs lib keys
    (Machine.on (init_chain static_dice_cdi_0 (info_pages factory page)) fun _ => .done)
  outcome = .ret () ∧ ∃ offset page', skipped page.mem 0 uds_name = .ok offset ∧
    m.mem.flash kFlashCtrlInfoPageDiceCerts = .content page' ∧ Certified lib keys page' offset

def cdi_0_cert : Cert := lib.dice_cdi_0_cert_build keys.uds keys.cdi_0
def cdi_1_cert : Cert := lib.dice_cdi_1_cert_build keys.cdi_0 keys.cdi_1

/-- The first object and the ones behind it can be read, what has to be added fits, and
what is kept is not damaged by it. -/
def Bootable (page : Mem) : Prop :=
  ∃ offset, skipped page 0 uds_name = .ok offset ∧
    -- the immutable ROM_EXT has not set a key yet
    ∃ before, find lib.toLibrary page offset cdi_0_name zero_key = .ok before ∧
    ∃ found, find lib.toLibrary page offset cdi_0_name keys.cdi_0 = .ok found ∧
    match found with
    | none => before = none ∧ Fits offset cdi_0_name (cdi_0_cert lib keys) ∧
        Fits (object_end offset cdi_0_name (cdi_0_cert lib keys)) cdi_1_name (cdi_1_cert lib keys)
    | some next => ∃ found_1, find lib.toLibrary page next cdi_1_name keys.cdi_1 = .ok found_1 ∧
        (found_1 = none → Fits next cdi_1_name (cdi_1_cert lib keys) ∧
          Survives lib.toLibrary page offset next keys.cdi_0 cdi_0_name cdi_1_name
            (cdi_1_cert lib keys))

end property

/-! ## What the code reads off a page -/

section read

variable {lib : Library} {s : DiceChain} {name : Name}

/-- Only the name itself counts, not what the buffer held behind it. -/
theorem name_matches_congr (old old' : Mem) (bytes : List u8) (name : Name) :
    readBytes (writeBytes (writeBytes old 0 bytes) bytes.length [0]) 0 (terminated name).length =
        terminated name ↔
      readBytes (writeBytes (writeBytes old' 0 bytes) bytes.length [0]) 0
        (terminated name).length = terminated name := by
  have hend : ∀ m : Mem, writeBytes (writeBytes m 0 bytes) bytes.length [0] bytes.length = 0 := by
    intro m
    rw [writeBytes, if_pos ⟨Nat.le_refl _, by simp⟩, Nat.sub_self]
    rfl
  have hlen : (terminated name).length = name.bytes.length + 1 := by simp [terminated]
  by_cases hlong : name.bytes.length ≤ bytes.length
  · have hsame : readBytes (writeBytes (writeBytes old 0 bytes) bytes.length [0]) 0
        (terminated name).length =
        readBytes (writeBytes (writeBytes old' 0 bytes) bytes.length [0]) 0
          (terminated name).length := by
      rw [readBytes_eq_iff]
      intro i hi
      rw [Nat.zero_add]
      rcases Nat.lt_or_ge i bytes.length with hlt | hge
      · have hin : ∀ m : Mem, writeBytes (writeBytes m 0 bytes) bytes.length [0] i =
            bytes.getD (i - 0) 0 := by
          intro m
          rw [writeBytes_of_not_mem _ _ _ _ (by omega), writeBytes,
            if_pos ⟨Nat.zero_le _, by omega⟩]
        rw [hin, hin]
      · obtain rfl : i = bytes.length := by omega
        rw [hend, hend]
    rw [hsame]
  · -- a shorter name ends where `name` goes on
    have hno : ∀ m : Mem, readBytes (writeBytes (writeBytes m 0 bytes) bytes.length [0]) 0
        (terminated name).length ≠ terminated name := by
      intro m heq
      have hi : bytes.length < name.bytes.length := by omega
      have hget := congrArg (fun l : List u8 => l[bytes.length]?) heq
      have hleft : bytes.length < (readBytes (writeBytes (writeBytes m 0 bytes) bytes.length [0]) 0
          (terminated name).length).length := by
        rw [length_readBytes]
        omega
      simp only [List.getElem?_eq_getElem hleft, getElem_readBytes, Nat.zero_add, hend] at hget
      rw [terminated, List.getElem?_append_left hi, List.getElem?_eq_getElem hi] at hget
      exact name.nonzero _ (List.getElem_mem hi) (Option.some.inj hget).symm
    exact iff_of_false (hno old) (hno old')

/-- Parsing over an old object and over an empty one differ in nothing that is used. -/
theorem get_old_obj {page : Mem} {offset size : ℕ} {old : PersoTlvCertObj}
    (hok : (perso_tlv_get_cert_obj page offset size old).1 = .kErrorOk) :
    ∃ obj obj', perso_tlv_get_cert_obj page offset size old = (.kErrorOk, obj) ∧
      perso_tlv_get_cert_obj page offset size empty_cert_obj = (.kErrorOk, obj') ∧
      obj.obj_size = obj'.obj_size ∧ obj.obj_type = obj'.obj_type ∧
      cert_body page obj = cert_body page obj' ∧ obj.obj_size ≤ size ∧ obj.obj_size < 4096 ∧
      ∀ name, name_matches obj (terminated name) = name_matches obj' (terminated name) := by
  obtain ⟨obj_size, obj_type, cert_body_size, n, -, -, hsize, hlt, hget⟩ := get_of_ok hok
  refine ⟨_, _, hget old, hget empty_cert_obj, rfl, rfl, rfl, hsize, hlt, fun name => ?_⟩
  have hlen : (readBytes page (offset + 4) n).length = n := length_readBytes _ _ _
  unfold name_matches
  rw [decide_eq_decide]
  have hcongr := name_matches_congr old.name empty_cert_obj.name (readBytes page (offset + 4) n) name
  rwa [hlen] at hcongr

/-- The state with another object loaded, at another place of the page. -/
def at_tail (s : DiceChain) (cert_obj : PersoTlvCertObj) (cert_valid : Bool) (tail_offset : ℕ) :
    DiceChain :=
  { s with cert_obj, cert_valid, tail_offset }

theorem Inv.at_tail (h : Inv s) {obj : PersoTlvCertObj} (hlt : obj.obj_size < 4096)
    (valid : Bool) {offset : ℕ} (haligned : offset % 8 = 0) (hinside : offset ≤ kPageSize) :
    Inv (at_tail s obj valid offset) :=
  ⟨haligned, hinside, hlt, h.writes⟩

/-- An object that lies inside the page has its end there, also when it is rounded up. -/
theorem next_inside {offset size : ℕ} (haligned : offset % 8 = 0) (hinside : offset ≤ kPageSize)
    (hsize : size ≤ kPageSize - offset) :
    (offset + (size + 7) / 8 * 8) % 8 = 0 ∧ offset + (size + 7) / 8 * 8 ≤ kPageSize := by
  have hpage : kPageSize = 2048 := rfl
  omega

/-- Loading the object finds what `find` finds. -/
theorem loaded_find (lib : Library) (name : Name) (h : Inv s) :
    ∃ obj valid, obj.obj_size < 4096 ∧ (loaded lib (some (terminated name)) s).2 =
        at_tail s obj valid s.tail_offset ∧
      match find lib s.data s.tail_offset name s.subject with
      | .error e => (loaded lib (some (terminated name)) s).1 = .error e
      | .ok none => (loaded lib (some (terminated name)) s).1 = .ok () ∧ valid = false
      | .ok (some next) => (loaded lib (some (terminated name)) s).1 = .ok () ∧ valid = true ∧
          next = s.tail_offset + (obj.obj_size + 7) / 8 * 8 ∧ next % 8 = 0 ∧ next ≤ kPageSize := by
  unfold loaded parsed find
  by_cases hok : (perso_tlv_get_cert_obj s.data s.tail_offset (kPageSize - s.tail_offset)
      s.cert_obj).1 = .kErrorOk
  · obtain ⟨obj, obj', hget, hget', hsize, htype, hbody, hle, hlt, hmatches⟩ := get_old_obj hok
    have hnext := next_inside h.aligned h.inside hle
    rw [hget, hget']
    unfold checked
    simp only [hmatches, htype, hbody, reduceCtorEq, if_false, ne_eq, not_true_eq_false]
    split
    · exact ⟨obj, false, hlt, rfl, rfl, rfl⟩
    · cases lib.dice_cert_check_valid (cert_body s.data obj') s.subject with
      | error e => exact ⟨obj, false, hlt, rfl, rfl⟩
      | ok valid =>
          cases valid with
          | false => exact ⟨obj, false, hlt, rfl, rfl, rfl⟩
          | true => exact ⟨obj, true, hlt, rfl, rfl, rfl, by rw [hsize], hsize ▸ hnext⟩
  · have herr := get_error_congr s.data s.tail_offset (kPageSize - s.tail_offset) s.cert_obj
      empty_cert_obj
    generalize perso_tlv_get_cert_obj s.data s.tail_offset (kPageSize - s.tail_offset)
      s.cert_obj = result at hok herr ⊢
    generalize perso_tlv_get_cert_obj s.data s.tail_offset (kPageSize - s.tail_offset)
      empty_cert_obj = result' at herr ⊢
    obtain ⟨err, obj⟩ := result
    obtain ⟨err', obj'⟩ := result'
    obtain rfl : err = err' := herr
    refine ⟨empty_cert_obj, false, show (0 : ℕ) < 4096 by decide, ?_⟩
    have hfails : err ≠ .kErrorOk := hok
    by_cases hnone : err = .kErrorPersoTlvCertObjNotFound
    · simp only [if_pos hnone]
      exact ⟨rfl, trivial, trivial⟩
    · simp only [if_neg hnone, if_pos hfails]
      exact ⟨rfl, trivial⟩

theorem next_at_tail {m : Machine DiceChain} {obj : PersoTlvCertObj} {valid : Bool} {offset : ℕ}
    (h : Inv (at_tail m.mem obj valid offset))
    (hinside : offset + (obj.obj_size + 7) / 8 * 8 ≤ kPageSize) :
    dice_chain_next_cert_obj { m with mem := at_tail m.mem obj valid offset } =
      (.ret (), { m with
        mem := at_tail m.mem empty_cert_obj false (offset + (obj.obj_size + 7) / 8 * 8) }) := by
  refine (next_cert_obj_run (m := { m with mem := at_tail m.mem obj valid offset }) h).trans ?_
  exact if_pos hinside

/-- The skip once the object is loaded. -/
theorem skip_loaded {lib : Library} (name : Name) {m : Machine DiceChain} (h : Inv m.mem)
    (obj : PersoTlvCertObj) (hlt : obj.obj_size < 4096)
    (hinside : m.mem.tail_offset + (obj.obj_size + 7) / 8 * 8 ≤ kPageSize)
    (hload : dice_chain_load_cert_obj lib none m =
      (.ret (), { m with mem := at_tail m.mem obj false m.mem.tail_offset })) :
    ∃ obj', Inv (at_tail m.mem obj' false (if name_matches obj (terminated name) then
          m.mem.tail_offset + (obj.obj_size + 7) / 8 * 8 else m.mem.tail_offset)) ∧
      dice_chain_skip_cert_obj lib (terminated name) m = (.ret (), { m with
        mem := at_tail m.mem obj' false (if name_matches obj (terminated name) then
          m.mem.tail_offset + (obj.obj_size + 7) / 8 * 8 else m.mem.tail_offset) }) := by
  have haligned := h.aligned
  have hinv := h.at_tail hlt false h.aligned h.inside
  unfold dice_chain_skip_cert_obj
  rw [Proc.bind_of_ret hload, Proc.get_bind]
  show ∃ obj', _ ∧ (if name_matches obj (terminated name) = true then dice_chain_next_cert_obj
    else pure () : Chain Unit) { m with mem := at_tail m.mem obj false m.mem.tail_offset } = _
  by_cases hname : name_matches obj (terminated name) = true
  · simp only [if_pos hname]
    exact ⟨empty_cert_obj, h.at_tail (by decide) false (by omega) hinside,
      next_at_tail hinv hinside⟩
  · simp only [if_neg hname]
    exact ⟨obj, hinv, rfl⟩

/-- The skip leaves the tail where `skipped` says. -/
theorem skip_cert_obj_run (lib : Library) (name : Name) {m : Machine DiceChain} (h : Inv m.mem) :
    match skipped m.mem.data m.mem.tail_offset name with
    | .error e => ∃ s', dice_chain_skip_cert_obj lib (terminated name) m =
        (.error e, { m with mem := s' })
    | .ok offset => ∃ obj, Inv (at_tail m.mem obj false offset) ∧
        dice_chain_skip_cert_obj lib (terminated name) m =
          (.ret (), { m with mem := at_tail m.mem obj false offset }) := by
  have hload := load_cert_obj_run lib none h.inside
  unfold skipped
  unfold loaded parsed at hload
  by_cases hok : (perso_tlv_get_cert_obj m.mem.data m.mem.tail_offset
      (kPageSize - m.mem.tail_offset) m.mem.cert_obj).1 = .kErrorOk
  · obtain ⟨obj, obj', hget, hget', hsize, -, -, hle, hlt, hmatches⟩ := get_old_obj hok
    rw [hget] at hload
    rw [hget']
    dsimp only
    rw [← hsize, ← hmatches, if_neg (by decide), if_neg (by decide)]
    have hskip := skip_loaded name h obj hlt (next_inside h.aligned h.inside hle).2 hload
    by_cases hname : name_matches obj (terminated name) = true
    · simpa only [if_pos hname] using hskip
    · simpa only [if_neg hname] using hskip
  · have herr := get_error_congr m.mem.data m.mem.tail_offset (kPageSize - m.mem.tail_offset)
      m.mem.cert_obj empty_cert_obj
    generalize perso_tlv_get_cert_obj m.mem.data m.mem.tail_offset
      (kPageSize - m.mem.tail_offset) m.mem.cert_obj = result at hok herr hload
    generalize perso_tlv_get_cert_obj m.mem.data m.mem.tail_offset
      (kPageSize - m.mem.tail_offset) empty_cert_obj = result' at herr ⊢
    obtain ⟨err, obj⟩ := result
    obtain ⟨err', obj'⟩ := result'
    obtain rfl : err = err' := herr
    have hfails : err ≠ .kErrorOk := hok
    by_cases hnone : err = .kErrorPersoTlvCertObjNotFound
    · simp only [if_pos hnone] at hload ⊢
      have hskip := skip_loaded name h empty_cert_obj (by decide) h.inside hload
      have hsame : m.mem.tail_offset + (empty_cert_obj.obj_size + 7) / 8 * 8 = m.mem.tail_offset :=
        rfl
      simpa only [hsame, ite_self] using hskip
    · simp only [if_neg hnone, if_pos hfails] at hload ⊢
      exact ⟨_, Proc.bind_of_error hload⟩

/-- Loading a certificate finds what `find` finds. -/
theorem load_find_run (lib : Library) (name : Name) {m : Machine DiceChain} (h : Inv m.mem) :
    match find lib m.mem.data m.mem.tail_offset name m.mem.subject with
    | .error e => ∃ s', dice_chain_load_cert_obj lib (some (terminated name)) m =
        (.error e, { m with mem := s' })
    | .ok none => ∃ obj, Inv (at_tail m.mem obj false m.mem.tail_offset) ∧
        dice_chain_load_cert_obj lib (some (terminated name)) m =
          (.ret (), { m with mem := at_tail m.mem obj false m.mem.tail_offset })
    | .ok (some next) => ∃ obj, Inv (at_tail m.mem obj true m.mem.tail_offset) ∧
        next = m.mem.tail_offset + (obj.obj_size + 7) / 8 * 8 ∧ next % 8 = 0 ∧ next ≤ kPageSize ∧
        dice_chain_load_cert_obj lib (some (terminated name)) m =
          (.ret (), { m with mem := at_tail m.mem obj true m.mem.tail_offset }) := by
  have hload := load_cert_obj_run lib (some (terminated name)) h.inside
  obtain ⟨obj, valid, hlt, hstate, hfind⟩ := loaded_find lib name h
  have hinv := h.at_tail hlt valid h.aligned h.inside
  rw [hstate] at hload
  generalize find lib m.mem.data m.mem.tail_offset name m.mem.subject = found at hfind
  rcases found with e | _ | next
  · rw [hfind] at hload
    exact ⟨_, hload⟩
  · obtain ⟨hret, rfl⟩ := hfind
    rw [hret] at hload
    exact ⟨obj, hinv, hload⟩
  · obtain ⟨hret, rfl, hnext, haligned, hinside⟩ := hfind
    rw [hret] at hload
    exact ⟨obj, hinv, hnext, haligned, hinside, hload⟩

/-- The three ways in which a certificate is refreshed: it is there, it is pushed, or
one of the two fails. -/
theorem refresh_cert_run (lib : DiceLibrary) (name : Name) (cert : DiceChain → Cert) (c : Cert)
    {m : Machine DiceChain} (h : Inv m.mem)
    (hcert : ∀ obj valid, cert (at_tail m.mem obj valid m.mem.tail_offset) = c) :
    (∃ next, find lib.toLibrary m.mem.data m.mem.tail_offset name m.mem.subject = .ok (some next) ∧
        Inv (at_tail m.mem empty_cert_obj false next) ∧ dice_chain_refresh_cert lib name cert m =
          (.ret (), { m with mem := at_tail m.mem empty_cert_obj false next })) ∨
      (find lib.toLibrary m.mem.data m.mem.tail_offset name m.mem.subject = .ok none ∧
        Pushable lib.toLibrary name c.bytes m.mem.tail_offset ∧
        dice_chain_refresh_cert lib name cert m =
          (.ret (), { m with mem := after_push lib.toLibrary name c.bytes m.mem })) ∨
      (∀ found, find lib.toLibrary m.mem.data m.mem.tail_offset name m.mem.subject = .ok found →
          found = none ∧ ¬Pushable lib.toLibrary name c.bytes m.mem.tail_offset) ∧
        ∃ e s', dice_chain_refresh_cert lib name cert m = (.error e, { m with mem := s' }) := by
  have hload := load_find_run lib.toLibrary name h
  unfold dice_chain_refresh_cert
  rcases hfind : find lib.toLibrary m.mem.data m.mem.tail_offset name m.mem.subject with
    e | _ | next
  · rw [hfind] at hload
    obtain ⟨s', hload⟩ := hload
    exact .inr (.inr ⟨nofun, e, s', Proc.bind_of_error hload⟩)
  · rw [hfind] at hload
    obtain ⟨obj, hinv, hload⟩ := hload
    rw [Proc.bind_of_ret hload, Proc.get_bind, hcert]
    rcases push_cert_run lib.toLibrary name c
        (m := { m with mem := at_tail m.mem obj false m.mem.tail_offset }) hinv with
      ⟨hpushable, hrun⟩ | ⟨hnot, e, s', hrun, -, -⟩
    · exact .inr (.inl ⟨rfl, hpushable, hrun⟩)
    · refine .inr (.inr ⟨fun found hfound => ⟨?_, hnot⟩, e, s', hrun⟩)
      exact (Except.ok.inj hfound).symm
  · rw [hfind] at hload
    obtain ⟨obj, hinv, hnext, haligned, hinside, hload⟩ := hload
    rw [Proc.bind_of_ret hload, Proc.get_bind]
    refine .inl ⟨next, rfl, h.at_tail (by decide) false haligned hinside, ?_⟩
    rw [hnext] at hinside ⊢
    exact next_at_tail hinv hinside

end read

/-! ## The boot step by step -/

/-- The state with a page loaded. -/
def on_page (s : DiceChain) (page : ℕ) (content : Page) : DiceChain :=
  { s with
    data := content.mem
    data_dirty := false
    tail_offset := 0
    info_page := some page
    cert_obj := empty_cert_obj
    cert_valid := false
    writes := (0, kPageSize) :: s.writes }

theorem Page.mem_of_past (page : Page) {x : ℕ} (hx : kPageSize ≤ x) : page.mem x = 0 :=
  dif_neg (by omega)

theorem Inv.on_page {s : DiceChain} (h : Inv s) (page : ℕ) (content : Page) :
    Inv (on_page s page content) := by
  refine ⟨rfl, Nat.zero_le _, show (0 : ℕ) < 4096 by decide, fun w hw => ?_, fun x hx => ?_⟩
  · rcases List.mem_cons.mp hw with rfl | hw
    · exact Nat.le_refl _
    · exact h.writes.inside w hw
  · have hbeside : x < 0 ∨ 0 + kPageSize ≤ x := hx _ List.mem_cons_self
    exact content.mem_of_past (by omega)

/-- A whole page over the mirror. -/
theorem write_page {m : Mem} (hm : ∀ x, kPageSize ≤ x → m x = 0) (page : Page) :
    writeBytes m 0 (readBytes page.mem 0 kPageSize) = page.mem := by
  funext x
  by_cases hx : x < kPageSize
  · rw [writeBytes, length_readBytes, if_pos ⟨Nat.zero_le _, by omega⟩,
      List.getD_eq_getElem _ _ (by rw [length_readBytes]; exact hx), getElem_readBytes]
    congr 1
    omega
  · rw [writeBytes_of_not_mem _ _ _ _ (by rw [length_readBytes]; omega), hm x (by omega),
      page.mem_of_past (by omega)]

section steps

variable {lib : DiceLibrary} {keys : DiceKeys} {m : Machine DiceChain}

theorem load_flash_run (page : ℕ) (content : Page) (hother : m.mem.info_page ≠ some page)
    (hclean : m.mem.data_dirty = false) (hdata : ∀ x, kPageSize ≤ x → m.mem.data x = 0)
    (hflash : m.mem.flash page = .content content.mem) :
    dice_chain_load_flash page m = (.ret (), { m with mem := on_page m.mem page content }) := by
  have hflush : dice_chain_flush_flash m = (.ret (), m) := by
    unfold dice_chain_flush_flash
    rw [Proc.get_bind, hclean]
    cases m.mem.info_page with
    | none => rfl
    | some _ => rfl
  have hread : flash_ctrl_info_read_zeros_on_read_error page m = (.ret (), { m with
      mem := { m.mem with data := content.mem, writes := (0, kPageSize) :: m.mem.writes } }) := by
    unfold flash_ctrl_info_read_zeros_on_read_error
    rw [Proc.get_bind, hflash]
    show ((.ret (), { m with mem := write_data 0 (readBytes content.mem 0 kPageSize) m.mem }) :
      Outcome RomError Unit × Machine DiceChain) = _
    rw [write_data, write_page hdata, length_readBytes]
  unfold dice_chain_load_flash
  rw [Proc.get_bind, if_neg hother, Proc.bind_of_ret hflush, Proc.bind_of_ret hread]
  rfl

/-- What the immutable ROM_EXT makes of the page. It builds the CDI_0 certificate unless
there is one for the key of zeros. -/
theorem creator_run (lib : DiceLibrary) (keys : DiceKeys)
    {static_dice_cdi_0 : StaticDiceCdi0} {flash : ℕ → InfoPage} {page : Page}
    (hm : m.mem = init_chain static_dice_cdi_0 flash)
    (hflash : flash kFlashCtrlInfoPageDiceCerts = .content page.mem) :
    (∃ offset before, skipped page.mem 0 uds_name = .ok offset ∧
        find lib.toLibrary page.mem offset cdi_0_name zero_key = .ok before ∧
        ∃ s', dice_chain_attestation_creator lib keys m = (.ret (), { m with mem := s' }) ∧
          s'.flash = flash ∧ s'.static_dice_cdi_0.uds_pubkey = static_dice_cdi_0.uds_pubkey ∧
          s'.static_dice_cdi_0.cdi_0_pubkey = keys.cdi_0 ∧
          s'.static_dice_cdi_0.cert = if before.isSome then static_dice_cdi_0.cert else
            lib.dice_cdi_0_cert_build static_dice_cdi_0.uds_pubkey keys.cdi_0) ∨
      (∀ offset before, skipped page.mem 0 uds_name = .ok offset →
          find lib.toLibrary page.mem offset cdi_0_name zero_key ≠ .ok before) ∧
        ∃ e s', dice_chain_attestation_creator lib keys m = (.error e, { m with mem := s' }) := by
  set s₁ := on_page (init_chain { static_dice_cdi_0 with cdi_0_pubkey := keys.cdi_0 } flash)
    kFlashCtrlInfoPageDiceCerts page with hs₁
  have hinv₁ : Inv s₁ := (Inv.init _ _).on_page _ _
  have hload : dice_chain_attestation_creator lib keys m =
      (dice_chain_skip_cert_obj lib.toLibrary (terminated uds_name) >>= fun _ =>
        dice_chain_load_cert_obj lib.toLibrary (some (terminated cdi_0_name)) >>= fun _ =>
        .modify fun s =>
          if s.cert_valid then s
          else { s with static_dice_cdi_0 := { s.static_dice_cdi_0 with
            cert := lib.dice_cdi_0_cert_build s.static_dice_cdi_0.uds_pubkey
              s.static_dice_cdi_0.cdi_0_pubkey } }) { m with mem := s₁ } := by
    unfold dice_chain_attestation_creator
    rw [Proc.modify_bind, hm]
    exact Proc.bind_of_ret (load_flash_run _ page (m := { m with
      mem := init_chain { static_dice_cdi_0 with cdi_0_pubkey := keys.cdi_0 } flash })
      nofun rfl (fun _ _ => rfl) hflash)
  rw [hload]
  have hskip := skip_cert_obj_run lib.toLibrary uds_name (m := { m with mem := s₁ }) hinv₁
  change match skipped page.mem 0 uds_name with
    | .error e => _
    | .ok offset => _ at hskip
  rcases hskipped : skipped page.mem 0 uds_name with e | offset
  · rw [hskipped] at hskip
    obtain ⟨s', hskip⟩ := hskip
    exact .inr ⟨nofun, e, s', Proc.bind_of_error hskip⟩
  · rw [hskipped] at hskip
    obtain ⟨obj, hinv₂, hskip⟩ := hskip
    rw [Proc.bind_of_ret hskip]
    have hfind := load_find_run lib.toLibrary cdi_0_name
      (m := { m with mem := at_tail s₁ obj false offset }) hinv₂
    change match find lib.toLibrary page.mem offset cdi_0_name zero_key with
      | .error e => _
      | .ok none => _
      | .ok (some next) => _ at hfind
    rcases hfound : find lib.toLibrary page.mem offset cdi_0_name zero_key with e | _ | next
    · rw [hfound] at hfind
      obtain ⟨s', hfind⟩ := hfind
      refine .inr ⟨fun offset' before hoffset' => ?_, e, s', Proc.bind_of_error hfind⟩
      obtain rfl := Except.ok.inj hoffset'
      rw [hfound]
      exact nofun
    · rw [hfound] at hfind
      obtain ⟨obj', -, hfind⟩ := hfind
      refine .inl ⟨offset, none, rfl, hfound, ?_⟩
      rw [Proc.bind_of_ret hfind]
      exact ⟨_, rfl, rfl, rfl, rfl, rfl⟩
    · rw [hfound] at hfind
      obtain ⟨obj', -, -, -, -, hfind⟩ := hfind
      refine .inl ⟨offset, some next, rfl, hfound, ?_⟩
      rw [Proc.bind_of_ret hfind]
      exact ⟨_, rfl, rfl, rfl, rfl, rfl⟩

/-- The check of the UDS certificate has no effect on the other page. -/
theorem check_uds_run {static_dice_cdi_0 : StaticDiceCdi0} {flash : ℕ → InfoPage} {factory : Page}
    {found : Option ℕ} (hm : m.mem = init_chain static_dice_cdi_0 flash)
    (hflash : flash kFlashCtrlInfoPageFactoryCerts = .content factory.mem)
    (hfactory : find lib.toLibrary factory.mem 0 uds_name static_dice_cdi_0.uds_pubkey = .ok found) :
    ∃ s', dice_chain_attestation_check_uds lib m = (.ret (), { m with mem := s' }) ∧ Inv s' ∧
      s'.info_page = some kFlashCtrlInfoPageFactoryCerts ∧ s'.data_dirty = false ∧
      s'.data = factory.mem ∧ s'.flash = flash ∧ s'.static_dice_cdi_0 = static_dice_cdi_0 := by
  set s₁ : DiceChain := { on_page (init_chain static_dice_cdi_0 flash)
      kFlashCtrlInfoPageFactoryCerts factory with
    endorsement := static_dice_cdi_0.uds_pubkey
    subject := static_dice_cdi_0.uds_pubkey } with hs₁
  have hpage := (Inv.init static_dice_cdi_0 flash).on_page kFlashCtrlInfoPageFactoryCerts factory
  have hinv₁ : Inv s₁ := ⟨hpage.aligned, hpage.inside, hpage.obj_size, hpage.writes⟩
  have hload : dice_chain_attestation_check_uds lib m =
      dice_chain_load_cert_obj lib.toLibrary (some (terminated uds_name)) { m with mem := s₁ } := by
    unfold dice_chain_attestation_check_uds
    refine (Proc.bind_of_ret (load_flash_run _ factory (m := m) (by rw [hm]; exact nofun) (by rw [hm]; rfl)
      (by rw [hm]; exact fun _ _ => rfl) (by rw [hm]; exact hflash))).trans ?_
    rw [hm]
    rfl
  rw [hload]
  have hfind := load_find_run lib.toLibrary uds_name (m := { m with mem := s₁ }) hinv₁
  change match find lib.toLibrary factory.mem 0 uds_name static_dice_cdi_0.uds_pubkey with
    | .error e => _
    | .ok none => _
    | .ok (some next) => _ at hfind
  rw [hfactory] at hfind
  cases found with
  | none =>
      obtain ⟨obj, hinv, hfind⟩ := hfind
      exact ⟨_, hfind, hinv, rfl, rfl, rfl, rfl, rfl⟩
  | some next =>
      obtain ⟨obj, hinv, -, -, -, hfind⟩ := hfind
      exact ⟨_, hfind, hinv, rfl, rfl, rfl, rfl, rfl⟩

/-- What is on the page in the middle of the second half, and where its tail is. -/
inductive Cdi0Page (lib : DiceLibrary) (page : Mem) (key : KeyId) (cert : Cert) (offset : ℕ) :
    (page' : Mem) → (dirty : Bool) → (next : ℕ) → Prop
  | kept {next : ℕ} (h : find lib.toLibrary page offset cdi_0_name key = .ok (some next)) :
      Cdi0Page lib page key cert offset page false next
  | pushed (h : find lib.toLibrary page offset cdi_0_name key = .ok none)
      (hpush : Pushable lib.toLibrary cdi_0_name cert.bytes offset) :
      Cdi0Page lib page key cert offset (with_object lib.toLibrary page offset cdi_0_name cert) true
        (object_end offset cdi_0_name cert)

theorem Cdi0Page.unique {lib : DiceLibrary} {page page' page'' : Mem} {key : KeyId} {cert : Cert}
    {offset next next' : ℕ} {dirty dirty' : Bool}
    (h : Cdi0Page lib page key cert offset page' dirty next)
    (h' : Cdi0Page lib page key cert offset page'' dirty' next') :
    page' = page'' ∧ dirty = dirty' ∧ next = next' := by
  cases h with
  | kept hfind =>
      cases h' with
      | kept hfind' => exact ⟨rfl, rfl, Option.some.inj (Except.ok.inj (hfind.symm.trans hfind'))⟩
      | pushed hfind' _ => exact absurd (Except.ok.inj (hfind.symm.trans hfind')) nofun
  | pushed hfind _ =>
      cases h' with
      | kept hfind' => exact absurd (Except.ok.inj (hfind.symm.trans hfind')) nofun
      | pushed _ _ => exact ⟨rfl, rfl, rfl⟩

/-- What is known of the chain when the DICE page is loaded. -/
structure OnDice (flash : ℕ → InfoPage) (page : Mem) (dirty : Bool) (tail : ℕ) (s : DiceChain) :
    Prop where
  inv : Inv s
  info_page : s.info_page = some kFlashCtrlInfoPageDiceCerts
  flash : s.flash = flash
  data : s.data = page
  dirty : s.data_dirty = dirty
  tail : s.tail_offset = tail

/-- The run of the first check: the certificate of CDI_0 is there for the key, or is put behind UDS.
-/
theorem check_cdi_0_run (lib : DiceLibrary) (page : Page) {factory : Page} (h : Inv m.mem)
    (hinfo : m.mem.info_page = some kFlashCtrlInfoPageFactoryCerts)
    (hclean : m.mem.data_dirty = false) (hdata : m.mem.data = factory.mem)
    (hflash : m.mem.flash kFlashCtrlInfoPageDiceCerts = .content page.mem) :
    (∃ offset page' dirty next, skipped page.mem 0 uds_name = .ok offset ∧
        Cdi0Page lib page.mem m.mem.static_dice_cdi_0.cdi_0_pubkey m.mem.static_dice_cdi_0.cert offset
          page' dirty next ∧
        ∃ s', dice_chain_attestation_check_cdi_0 lib m = (.ret (), { m with mem := s' }) ∧
          OnDice m.mem.flash page' dirty next s' ∧
          s'.endorsement = m.mem.static_dice_cdi_0.cdi_0_pubkey) ∨
      (∀ offset page' dirty next, skipped page.mem 0 uds_name = .ok offset →
          ¬Cdi0Page lib page.mem m.mem.static_dice_cdi_0.cdi_0_pubkey m.mem.static_dice_cdi_0.cert
            offset page' dirty next) ∧
        ∃ e s', dice_chain_attestation_check_cdi_0 lib m = (.error e, { m with mem := s' }) := by
  have hload := load_flash_run kFlashCtrlInfoPageDiceCerts page (m := m)
    (by rw [hinfo]; decide) hclean (fun x hx => by rw [hdata, factory.mem_of_past hx]) hflash
  unfold dice_chain_attestation_check_cdi_0
  rw [Proc.bind_of_ret hload]
  have hinv₁ : Inv (on_page m.mem kFlashCtrlInfoPageDiceCerts page) := h.on_page _ _
  have hskip := skip_cert_obj_run lib.toLibrary uds_name
    (m := { m with mem := on_page m.mem kFlashCtrlInfoPageDiceCerts page }) hinv₁
  change match skipped page.mem 0 uds_name with
    | .error e => _
    | .ok offset => _ at hskip
  rcases hskipped : skipped page.mem 0 uds_name with e | offset
  · rw [hskipped] at hskip
    obtain ⟨s', hskip⟩ := hskip
    exact .inr ⟨nofun, e, s', Proc.bind_of_error hskip⟩
  · rw [hskipped] at hskip
    obtain ⟨obj, hinv₂, hskip⟩ := hskip
    rw [Proc.bind_of_ret hskip, Proc.modify_bind]
    set s₂ : DiceChain := { at_tail (on_page m.mem kFlashCtrlInfoPageDiceCerts page) obj false
        offset with
      endorsement := m.mem.static_dice_cdi_0.cdi_0_pubkey
      subject := m.mem.static_dice_cdi_0.cdi_0_pubkey } with hs₂
    have hinv₃ : Inv s₂ := ⟨hinv₂.aligned, hinv₂.inside, hinv₂.obj_size, hinv₂.writes⟩
    rcases refresh_cert_run lib cdi_0_name (fun s => s.static_dice_cdi_0.cert)
        m.mem.static_dice_cdi_0.cert (m := { m with mem := s₂ }) hinv₃ (fun _ _ => rfl) with
      ⟨next, hfind, hinv, hrun⟩ | ⟨hfind, hpush, hrun⟩ | ⟨hnot, e, s', hrun⟩
    · exact .inl ⟨offset, _, _, _, rfl, .kept hfind, _, hrun, ⟨hinv, rfl, rfl, rfl, rfl, rfl⟩, rfl⟩
    · exact .inl ⟨offset, _, _, _, rfl, .pushed hfind hpush, _, hrun,
        ⟨hinv₃.after_push hpush, rfl, rfl, rfl, rfl, rfl⟩, rfl⟩
    · refine .inr ⟨fun offset' page' dirty next hoffset' hpage => ?_, e, s', hrun⟩
      obtain rfl := Except.ok.inj hoffset'
      cases hpage with
      | kept hfind => exact absurd (hnot _ hfind).1 nofun
      | pushed hfind hpush => exact (hnot _ hfind).2 hpush

/-- What the boot makes of the page. -/
inductive BootPage (lib : DiceLibrary) (keys : DiceKeys) (page : Mem) (cert : Cert) (offset : ℕ) :
    (page' : Mem) → (dirty : Bool) → Prop
  | kept {page' : Mem} {dirty : Bool} {next last : ℕ}
      (h : Cdi0Page lib page keys.cdi_0 cert offset page' dirty next)
      (hfind : find lib.toLibrary page' next cdi_1_name keys.cdi_1 = .ok (some last)) :
      BootPage lib keys page cert offset page' dirty
  | pushed {page' : Mem} {dirty : Bool} {next : ℕ}
      (h : Cdi0Page lib page keys.cdi_0 cert offset page' dirty next)
      (hfind : find lib.toLibrary page' next cdi_1_name keys.cdi_1 = .ok none)
      (hpush : Pushable lib.toLibrary cdi_1_name (cdi_1_cert lib keys).bytes next) :
      BootPage lib keys page cert offset
        (with_object lib.toLibrary page' next cdi_1_name (cdi_1_cert lib keys)) true

/-- The run behind the ROM extension: CDI_1 is checked where CDI_0 ends, and the page is written. -/
theorem owner_run (lib : DiceLibrary) (keys : DiceKeys) {static_dice_cdi_0 : StaticDiceCdi0}
    {flash : ℕ → InfoPage}
    {factory page : Page} {found : Option ℕ} (hm : m.mem = init_chain static_dice_cdi_0 flash)
    (hfactory_page : flash kFlashCtrlInfoPageFactoryCerts = .content factory.mem)
    (hpage : flash kFlashCtrlInfoPageDiceCerts = .content page.mem)
    (hfactory : find lib.toLibrary factory.mem 0 uds_name static_dice_cdi_0.uds_pubkey = .ok found)
    (hkey : static_dice_cdi_0.cdi_0_pubkey = keys.cdi_0) :
    (∃ offset page' dirty, skipped page.mem 0 uds_name = .ok offset ∧
        BootPage lib keys page.mem static_dice_cdi_0.cert offset page' dirty ∧
        ∃ s', dice_chain_attestation_owner lib keys m = (.ret (), { m with mem := s' }) ∧
          s'.info_page = some kFlashCtrlInfoPageDiceCerts ∧ s'.flash = flash ∧ s'.data = page' ∧
          s'.data_dirty = dirty) ∨
      (∀ offset page' dirty, skipped page.mem 0 uds_name = .ok offset →
          ¬BootPage lib keys page.mem static_dice_cdi_0.cert offset page' dirty) ∧
        ∃ e s', dice_chain_attestation_owner lib keys m = (.error e, { m with mem := s' }) := by
  obtain ⟨s₁, huds, hinv₁, hinfo₁, hclean₁, hdata₁, hflash₁, hstatic₁⟩ :=
    check_uds_run hm hfactory_page hfactory
  unfold dice_chain_attestation_owner
  rw [Proc.bind_of_ret huds]
  rcases check_cdi_0_run lib page (m := { m with mem := s₁ }) hinv₁ hinfo₁
      hclean₁ hdata₁ (by rw [hflash₁]; exact hpage) with
    ⟨offset, page', dirty, next, hskipped, hcdi_0, s₂, hrun, hon, hendorsement⟩ | ⟨hnot, e, s', hrun⟩
  · rw [hstatic₁, hkey] at hcdi_0
    rw [hstatic₁, hkey] at hendorsement
    rw [Proc.bind_of_ret hrun, Proc.modify_bind]
    set s₃ : DiceChain := { s₂ with subject := keys.cdi_1 } with hs₃
    have hinv₃ : Inv s₃ := ⟨hon.inv.aligned, hon.inv.inside, hon.inv.obj_size, hon.inv.writes⟩
    rcases refresh_cert_run lib cdi_1_name
        (fun s => lib.dice_cdi_1_cert_build s.endorsement s.subject) (cdi_1_cert lib keys)
        (m := { m with mem := s₃ }) hinv₃
        (fun _ _ => congrArg (lib.dice_cdi_1_cert_build · keys.cdi_1) hendorsement) with
      ⟨last, hfind, -, hrun⟩ | ⟨hfind, hpush, hrun⟩ | ⟨hnot, e, s', hrun⟩
    · change find lib.toLibrary s₂.data s₂.tail_offset cdi_1_name keys.cdi_1 = _ at hfind
      rw [hon.data, hon.tail] at hfind
      refine .inl ⟨offset, page', dirty, hskipped, .kept hcdi_0 hfind, ?_⟩
      rw [Proc.bind_of_ret hrun]
      exact ⟨_, rfl, hon.info_page, hon.flash.trans hflash₁, hon.data, hon.dirty⟩
    · change find lib.toLibrary s₂.data s₂.tail_offset cdi_1_name keys.cdi_1 = _ at hfind
      change Pushable lib.toLibrary cdi_1_name _ s₂.tail_offset at hpush
      rw [hon.data, hon.tail] at hfind
      rw [hon.tail] at hpush
      refine .inl ⟨offset, _, true, hskipped, .pushed hcdi_0 hfind hpush, ?_⟩
      rw [Proc.bind_of_ret hrun]
      refine ⟨_, rfl, hon.info_page, hon.flash.trans hflash₁, ?_, rfl⟩
      rw [← hon.data, ← hon.tail]
      rfl
    · refine .inr ⟨fun offset' page'' dirty' hoffset' hboot => ?_, e, s', Proc.bind_of_error hrun⟩
      obtain rfl := Except.ok.inj (hskipped.symm.trans hoffset')
      change ∀ found, find lib.toLibrary s₂.data s₂.tail_offset cdi_1_name keys.cdi_1 = _ →
        _ ∧ ¬Pushable lib.toLibrary cdi_1_name _ s₂.tail_offset at hnot
      rw [hon.data, hon.tail] at hnot
      cases hboot with
      | kept hcdi_0' hfind =>
          obtain ⟨rfl, rfl, rfl⟩ := hcdi_0.unique hcdi_0'
          exact absurd (hnot _ hfind).1 nofun
      | pushed hcdi_0' hfind hpush =>
          obtain ⟨rfl, rfl, rfl⟩ := hcdi_0.unique hcdi_0'
          exact (hnot _ hfind).2 hpush
  · refine .inr ⟨fun offset page' dirty hoffset hboot => ?_, e, s', Proc.bind_of_error hrun⟩
    rw [hstatic₁, hkey] at hnot
    cases hboot with
    | kept hcdi_0 _ => exact hnot _ _ _ _ hoffset hcdi_0
    | pushed hcdi_0 _ _ => exact hnot _ _ _ _ hoffset hcdi_0

/-- The page in flash at the end, when it is written if it has changed. -/
theorem flush_flash_run (hfate : ∀ n, m.fate n = .done)
    (hinfo : m.mem.info_page = some kFlashCtrlInfoPageDiceCerts) :
    ∃ m', dice_chain_flush_flash m = (.ret (), m') ∧
      m'.mem.flash kFlashCtrlInfoPageDiceCerts = if m.mem.data_dirty then .content m.mem.data
        else m.mem.flash kFlashCtrlInfoPageDiceCerts := by
  unfold dice_chain_flush_flash
  rw [Proc.get_bind, hinfo]
  cases hdirty : m.mem.data_dirty with
  | false => exact ⟨m, rfl, rfl⟩
  | true =>
      simp only [if_true]
      have hstep : ∀ (e : RomError) (g : DiceChain → Unit × DiceChain) (m' : Machine DiceChain),
          m'.fate = m.fate → Proc.step e g m' =
            (.ret (g m'.mem).1, { m' with mem := (g m'.mem).2, steps := m'.steps + 1 }) := by
        intro e g m' hm'
        exact Proc.step_of_done (by rw [hm']; exact hfate _)
      refine ⟨_, (Proc.bind_of_ret (hstep _ _ _ ?_)).trans
        ((Proc.bind_of_ret (hstep _ _ _ ?_)).trans rfl), ?_⟩
      · rfl
      · rfl
      · show Function.update (Function.update m.mem.flash kFlashCtrlInfoPageDiceCerts
          (.content fun _ => 0xff)) kFlashCtrlInfoPageDiceCerts (.content m.mem.data)
          kFlashCtrlInfoPageDiceCerts = _
        rw [Function.update_self]

/-- The whole boot. It goes through exactly if both halves do. -/
theorem rom_ext_certs_run {static_dice_cdi_0 : StaticDiceCdi0} {factory page : Page}
    {found : Option ℕ}
    (hfactory : find lib.toLibrary factory.mem 0 uds_name keys.uds = .ok found) :
    let m := Machine.on (init_chain static_dice_cdi_0 (info_pages factory page)) fun _ => .done
    (∃ offset before page' dirty, skipped page.mem 0 uds_name = .ok offset ∧
        find lib.toLibrary page.mem offset cdi_0_name zero_key = .ok before ∧
        BootPage lib keys page.mem
          (if before.isSome then static_dice_cdi_0.cert else cdi_0_cert lib keys) offset page' dirty ∧
        ∃ m', rom_ext_certs lib keys m = (.ret (), m') ∧
          m'.mem.flash kFlashCtrlInfoPageDiceCerts =
            if dirty then .content page' else .content page.mem) ∨
      (∀ offset before page' dirty, skipped page.mem 0 uds_name = .ok offset →
          find lib.toLibrary page.mem offset cdi_0_name zero_key = .ok before →
          ¬BootPage lib keys page.mem
            (if before.isSome then static_dice_cdi_0.cert else cdi_0_cert lib keys) offset page'
            dirty) ∧
        ∃ e m', rom_ext_certs lib keys m = (.error e, m') := by
  intro m
  have hpage : info_pages factory page kFlashCtrlInfoPageDiceCerts = .content page.mem :=
    Function.update_self ..
  have hfactory_page : info_pages factory page kFlashCtrlInfoPageFactoryCerts =
      .content factory.mem := by
    unfold info_pages
    rw [Function.update_of_ne (by decide), Function.update_self]
  set static_uds := { static_dice_cdi_0 with uds_pubkey := keys.uds } with hstatic_uds
  set m₀ : Machine DiceChain := { m with mem := init_chain static_uds (info_pages factory page) }
    with hm₀
  have hstart : rom_ext_certs lib keys m =
      (dice_chain_attestation_creator lib keys >>= fun _ => dice_chain_init >>= fun _ =>
        dice_chain_attestation_owner lib keys >>= fun _ => dice_chain_flush_flash) m₀ := rfl
  rw [hstart]
  rcases creator_run lib keys (m := m₀) rfl hpage with
    ⟨offset, before, hskipped, hbefore, s₁, hrun, hflash, huds, hcdi_0, hcert⟩ | ⟨hnot, e, s', hrun⟩
  · rw [Proc.bind_of_ret hrun]
    set m₁ : Machine DiceChain := { m₀ with
      mem := init_chain s₁.static_dice_cdi_0 (info_pages factory page) } with hm₁
    have hinit : (dice_chain_init >>= fun _ => dice_chain_attestation_owner lib keys >>= fun _ =>
        dice_chain_flush_flash) { m₀ with mem := s₁ } =
        (dice_chain_attestation_owner lib keys >>= fun _ => dice_chain_flush_flash) m₁ := by
      rw [hm₁, ← hflash]
      rfl
    rw [hinit]
    rcases owner_run lib keys (m := m₁) rfl hfactory_page hpage
        (by rw [huds]; exact hfactory) hcdi_0 with
      ⟨offset', page', dirty, hskipped', hboot, s₂, hrun, hinfo, hflash₂, hdata, hdirty⟩ |
        ⟨hnot, e, s', hrun⟩
    · obtain rfl := Except.ok.inj (hskipped.symm.trans hskipped')
      rw [hcert] at hboot
      obtain ⟨m₂, hflush, hpage₂⟩ := flush_flash_run (m := { m₁ with mem := s₂ }) (fun _ => rfl) hinfo
      refine .inl ⟨offset, before, page', dirty, hskipped, hbefore, hboot, m₂, ?_, ?_⟩
      · rw [Proc.bind_of_ret hrun, hflush]
      · rw [hpage₂]
        change (if s₂.data_dirty = true then InfoPage.content s₂.data
          else s₂.flash kFlashCtrlInfoPageDiceCerts) = _
        rw [hdirty, hdata, hflash₂, hpage]
    · rw [hcert] at hnot
      refine .inr ⟨fun offset' before' page' dirty hoffset' hbefore' hboot => ?_, e, _,
        Proc.bind_of_error hrun⟩
      obtain rfl := Except.ok.inj (hskipped.symm.trans hoffset')
      obtain rfl := Except.ok.inj (hbefore.symm.trans hbefore')
      exact hnot _ _ _ hoffset' hboot
  · refine .inr ⟨fun offset before page' dirty hoffset hbefore => ?_, e, _, Proc.bind_of_error hrun⟩
    exact absurd hbefore (hnot offset before hoffset)

end steps

/-! ## A page that boots -/

/-- What is relied on of a certificate that is built: it says how long it is, and it is
valid for its key. -/
structure CertFor (lib : Library) (cert : Cert) (key : KeyId) : Prop where
  cert_len : 4 ≤ cert.bytes.length
  x509 : lib.cert_type = kPersoObjectTypeX509Cert →
    cert_x509_asn1_decode_size_header (fun i => cert.bytes.getD i 0) 0 = cert.bytes.length
  valid : lib.dice_cert_check_valid cert.bytes key = .ok true

section pages

variable {lib : Library} {page : Mem} {offset next : ℕ} {name : Name} {cert : Cert} {key : KeyId}

theorem CertFor.pushable (h : CertFor lib cert key) (name : Name) (hname : name.bytes.length ≤ 15) :
    Pushable lib name cert.bytes offset ↔ Fits offset name cert :=
  ⟨Pushable.fits, fun hfits => ⟨hname, hfits, h.cert_len, h.x509⟩⟩

/-- A certificate is found where its object lies. -/
theorem find_of_object (h : CertFor lib cert key) (hpush : Pushable lib name cert.bytes offset)
    (hread : readBytes page offset (name.bytes.length + cert.bytes.length + 4) =
      object_bytes lib.cert_type name.bytes cert.bytes) :
    find lib page offset name key = .ok (some (object_end offset name cert)) := by
  have hobject := objectAt_of_read hread
  unfold find
  rw [get_of_pushable hpush hread]
  dsimp only
  rw [if_neg (by decide), if_neg (by decide), if_neg]
  · unfold cert_body
    rw [hobject.cert_bytes, h.valid]
    rfl
  · rintro (hother | hother)
    · -- the name is what was put there, with its terminator behind it
      have hname := writeBytes_append empty_cert_obj.name 0 name.bytes [0]
      have hread := readBytes_writeBytes empty_cert_obj.name 0 (name.bytes ++ [0])
      rw [← hname, Nat.zero_add] at hread
      refine of_decide_eq_false hother ?_
      rw [hobject.name_bytes]
      exact hread
    · exact hother rfl

/-- A certificate that is found is in an object that was accepted. -/
theorem get_ok_of_find (h : find lib page offset name key = .ok (some next)) :
    (perso_tlv_get_cert_obj page offset (kPageSize - offset) empty_cert_obj).1 = .kErrorOk := by
  unfold find at h
  generalize perso_tlv_get_cert_obj page offset (kPageSize - offset) empty_cert_obj = result at h ⊢
  obtain ⟨err, obj⟩ := result
  dsimp only at h ⊢
  by_contra hfails
  split at h
  · exact absurd (Except.ok.inj h) nofun
  · cases h

/-- A certificate that is found moves the tail by what the header at the tail says. -/
theorem find_next (h : find lib page offset name key = .ok (some next)) :
    next = offset + (PERSO_TLV_GET_FIELD objhSize (load16 page offset) + 7) / 8 * 8 ∧
      offset + 8 ≤ next := by
  obtain ⟨obj_size, obj_type, cert_body_size, n, hfield, hpos, -, -, hget⟩ :=
    get_of_ok (get_ok_of_find h)
  unfold find at h
  rw [hget] at h
  dsimp only at h
  rw [if_neg (by decide), if_neg (by decide)] at h
  split at h
  · exact absurd (Except.ok.inj h) nofun
  · split at h
    · cases h
    · have hnext := Option.some.inj (Except.ok.inj h)
      rw [← hfield]
      omega
    · exact absurd (Except.ok.inj h) nofun

/-- Behind an object that was put on the page nothing is found. -/
theorem find_empty (hroom : next + 2 ≤ kPageSize)
    (hzero : ∀ x, next ≤ x → x < kPageSize → page x = 0) :
    find lib page next name key = .ok none := by
  have hheader : load16 page next = 0 := by
    rw [load16, hzero next (by omega) (by omega), hzero (next + 1) (by omega) (by omega)]
    rfl
  have hsize : PERSO_TLV_GET_FIELD objhSize (load16 page next) = 0 := by
    rw [hheader]
    rfl
  unfold find perso_tlv_get_cert_obj
  rw [if_neg (by unfold kObjectHeaderSize; omega)]
  simp only [hsize, if_true]

theorem find_empty_ne_some {last : ℕ} (hzero : ∀ x, next ≤ x → x < kPageSize → page x = 0) :
    find lib page next name key ≠ .ok (some last) := by
  by_cases hroom : next + 2 ≤ kPageSize
  · rw [find_empty hroom hzero]
    exact nofun
  · unfold find perso_tlv_get_cert_obj
    rw [if_pos (by unfold kObjectHeaderSize; omega)]
    exact nofun

theorem with_object_of_lt {x : ℕ} (hx : x < offset) :
    with_object lib page offset name cert x = page x :=
  replaced_of_lt _ _ hx

theorem with_object_of_past {x : ℕ} (hpast : object_end offset name cert ≤ x)
    (hx : x < kPageSize) : with_object lib page offset name cert x = 0 := by
  unfold object_end at hpast
  refine replaced_of_past _ _ ?_ hx
  rw [length_object_bytes]
  omega

/-- What ends in front of an object that is put on the page is found as before. -/
theorem find_of_endsBefore {name' : Name} (h : find lib page offset name key = .ok (some next))
    (hends : EndsBefore page offset next) :
    find lib (with_object lib page next name' cert) offset name key = .ok (some next) := by
  have hhead : ∀ x < offset + kObjectHeaderSize + certSizeAt page offset,
      with_object lib page next name' cert x = page x :=
    fun x hx => with_object_of_lt (Nat.lt_of_lt_of_le hx hends)
  have haccepted := accepted_of_ok _ (get_ok_of_find h)
  have hbody : ∀ obj_name, cert_body (with_object lib page next name' cert)
        ⟨offset, objSizeAt page offset, objTypeAt page offset, bodyAt page offset,
          certSizeAt page offset - kCertHeaderSize - nameLenAt page offset, obj_name⟩ =
      cert_body page ⟨offset, objSizeAt page offset, objTypeAt page offset, bodyAt page offset,
        certSizeAt page offset - kCertHeaderSize - nameLenAt page offset, obj_name⟩ := by
    refine fun _ => (readBytes_eq_iff _ _ _ _ _).mpr fun i hi => hhead _ ?_
    dsimp only at hi ⊢
    unfold bodyAt
    omega
  rw [← h]
  unfold find
  rw [haccepted.congr empty_cert_obj hhead, haccepted.get_cert_obj]
  dsimp only
  rw [hbody]

/-- Putting an object behind a certificate leaves the header of that one. -/
theorem find_with_object_next {next' : ℕ} {name' : Name} {key' : KeyId}
    (h : find lib page offset name key = .ok (some next))
    (h' : find lib (with_object lib page next name' cert) offset name key' = .ok (some next')) :
    next' = next := by
  obtain ⟨hnext, hroom⟩ := find_next h
  obtain ⟨hnext', -⟩ := find_next h'
  have hheader : load16 (with_object lib page next name' cert) offset = load16 page offset := by
    rw [load16, load16, with_object_of_lt (by omega), with_object_of_lt (by omega)]
  rw [hnext', hheader, hnext]

theorem Survives.find {name' : Name} (h : Survives lib page offset next key name name' cert)
    (hfind : find lib page offset name key = .ok (some next)) :
    Dice.find lib (with_object lib page next name' cert) offset name key = .ok (some next) :=
  h.elim (find_of_endsBefore hfind) id

end pages

section boots

variable {lib : DiceLibrary} {keys : DiceKeys} {page page' page'' : Mem} {offset : ℕ} {cert : Cert}
  {dirty dirty' : Bool}

theorem BootPage.unique (h : BootPage lib keys page cert offset page' dirty)
    (h' : BootPage lib keys page cert offset page'' dirty') : page' = page'' := by
  cases h with
  | kept hcdi_0 hfind =>
      cases h' with
      | kept hcdi_0' _ => exact (hcdi_0.unique hcdi_0').1
      | pushed hcdi_0' hfind' _ =>
          obtain ⟨rfl, -, rfl⟩ := hcdi_0.unique hcdi_0'
          exact absurd (Except.ok.inj (hfind.symm.trans hfind')) nofun
  | pushed hcdi_0 hfind _ =>
      cases h' with
      | kept hcdi_0' hfind' =>
          obtain ⟨rfl, -, rfl⟩ := hcdi_0.unique hcdi_0'
          exact absurd (Except.ok.inj (hfind.symm.trans hfind')) nofun
      | pushed hcdi_0' _ _ =>
          obtain ⟨rfl, -, rfl⟩ := hcdi_0.unique hcdi_0'
          rfl

/-- A page that is not written has not changed. -/
theorem BootPage.clean (h : BootPage lib keys page cert offset page' false) : page' = page := by
  cases h with
  | kept hcdi_0 _ => cases hcdi_0 with
    | kept _ => rfl

/-- Both certificates are pushed onto a page that has none. -/
theorem both_pushed (h0 : CertFor lib.toLibrary cert keys.cdi_0)
    (h1 : CertFor lib.toLibrary (cdi_1_cert lib keys) keys.cdi_1)
    (hfind : find lib.toLibrary page offset cdi_0_name keys.cdi_0 = .ok none)
    (hfits : Fits offset cdi_0_name cert)
    (hfits_1 : Fits (object_end offset cdi_0_name cert) cdi_1_name (cdi_1_cert lib keys)) :
    ∃ page', BootPage lib keys page cert offset page' true ∧ Certified lib keys page' offset := by
  have hpush := (h0.pushable cdi_0_name (by decide)).mpr hfits
  have hpush_1 := (h1.pushable cdi_1_name (by decide)).mpr hfits_1
  refine ⟨_, .pushed (.pushed hfind hpush) (find_empty ?_ fun x hx hlt =>
    with_object_of_past hx hlt) hpush_1, _, _, find_of_object h0 hpush ?_,
    find_of_object h1 hpush_1 (read_object _ _ _ _ _)⟩
  · unfold Fits at hfits_1
    omega
  · -- the second object is behind the first
    rw [← read_object page, readBytes_eq_iff]
    intro i hi
    refine with_object_of_lt ?_
    unfold object_end
    omega

/-- A page that is bootable becomes one with both certificates, whatever was left in RAM. -/
theorem Bootable.bootPage (h0 : CertFor lib.toLibrary (cdi_0_cert lib keys) keys.cdi_0)
    (h1 : CertFor lib.toLibrary (cdi_1_cert lib keys) keys.cdi_1) (h : Bootable lib keys page)
    (stale : Cert) :
    ∃ offset before page' dirty, skipped page 0 uds_name = .ok offset ∧
      find lib.toLibrary page offset cdi_0_name zero_key = .ok before ∧
      BootPage lib keys page (if before.isSome then stale else cdi_0_cert lib keys) offset page'
        dirty ∧ Certified lib keys page' offset := by
  obtain ⟨offset, hskipped, before, hbefore, found, hfound, hrest⟩ := h
  refine ⟨offset, before, ?_⟩
  cases found with
  | none =>
      obtain ⟨rfl, hfits, hfits_1⟩ := hrest
      obtain ⟨page', hboot, hcertified⟩ := both_pushed h0 h1 hfound hfits hfits_1
      exact ⟨page', true, hskipped, hbefore, hboot, hcertified⟩
  | some next =>
      obtain ⟨found_1, hfound_1, hroom⟩ := hrest
      cases found_1 with
      | some last =>
          exact ⟨page, false, hskipped, hbefore, .kept (.kept hfound) hfound_1, next, last, hfound,
            hfound_1⟩
      | none =>
          obtain ⟨hfits, hkept⟩ := hroom rfl
          have hpush := (h1.pushable cdi_1_name (by decide)).mpr hfits
          exact ⟨_, true, hskipped, hbefore, .pushed (.kept hfound) hfound_1 hpush, next, _,
            hkept.find hfound, find_of_object h1 hpush (read_object _ _ _ _ _)⟩

/-- A boot that goes through whatever certificate was left in RAM. -/
theorem bootable_of_bootPage {before : Option ℕ} {stale : Cert} (hstale : stale.bytes.length < 4)
    (hskipped : skipped page 0 uds_name = .ok offset)
    (hbefore : find lib.toLibrary page offset cdi_0_name zero_key = .ok before)
    (h : BootPage lib keys page (if before.isSome then stale else cdi_0_cert lib keys) offset page'
      dirty) (hcertified : Certified lib keys page' offset) : Bootable lib keys page := by
  refine ⟨offset, hskipped, before, hbefore, ?_⟩
  cases h with
  | kept hcdi_0 hfind => cases hcdi_0 with
    | kept hfind_0 => exact ⟨_, hfind_0, _, hfind, fun hnone => absurd hnone nofun⟩
    | pushed _ hpush =>
        exact absurd hfind (find_empty_ne_some fun x hx hlt => with_object_of_past hx hlt)
  | pushed hcdi_0 hfind hpush_1 => cases hcdi_0 with
    | kept hfind_0 =>
        refine ⟨_, hfind_0, _, hfind, fun _ => ⟨hpush_1.fits, ?_⟩⟩
        obtain ⟨next, last, hkept, -⟩ := hcertified
        obtain rfl := find_with_object_next hfind_0 hkept
        exact .inr hkept
    | pushed hfind_0 hpush =>
        cases before with
        | some next => exact absurd hpush.cert_len (by simpa using hstale)
        | none => exact ⟨none, hfind_0, rfl, hpush.fits, hpush_1.fits⟩

end boots

section theorems

variable {lib : DiceLibrary} {keys : DiceKeys} {factory : Page} {found : Option ℕ}

/-- The boot as it was run. -/
theorem boots_run {page : Page} {static_dice_cdi_0 : StaticDiceCdi0} {m' : Machine DiceChain}
    {outcome : Outcome RomError Unit}
    (hrun : rom_ext_certs lib keys (Machine.on (init_chain static_dice_cdi_0
      (info_pages factory page)) fun _ => .done) = (outcome, m')) :
    boots lib keys factory page static_dice_cdi_0 ↔
      outcome = .ret () ∧ ∃ offset page', skipped page.mem 0 uds_name = .ok offset ∧
        m'.mem.flash kFlashCtrlInfoPageDiceCerts = .content page' ∧
        Certified lib keys page' offset := by
  unfold boots
  rw [hrun]

/-- The page in flash is the one that the boot made, also if it was not written. -/
theorem BootPage.flash {page : Page} {page' : Mem} {cert : Cert} {offset : ℕ} {dirty : Bool}
    (h : BootPage lib keys page.mem cert offset page' dirty) :
    (if dirty then InfoPage.content page' else .content page.mem) = .content page' := by
  cases dirty with
  | true => rfl
  | false =>
      rw [h.clean]
      rfl

/-- A page can stop the boot. It does not exactly if it is `Bootable`. -/
theorem boots_iff {page : Page}
    (hfactory : find lib.toLibrary factory.mem 0 uds_name keys.uds = .ok found)
    (h0 : CertFor lib.toLibrary (cdi_0_cert lib keys) keys.cdi_0)
    (h1 : CertFor lib.toLibrary (cdi_1_cert lib keys) keys.cdi_1) :
    (∀ static_dice_cdi_0, boots lib keys factory page static_dice_cdi_0) ↔
      Bootable lib keys page.mem := by
  constructor
  · intro h
    -- whatever was left in RAM, so also a certificate that cannot be pushed
    have hboots := h ⟨zero_key, zero_key, ⟨[], by decide⟩⟩
    rcases rom_ext_certs_run hfactory with
      ⟨offset, before, page', dirty, hskipped, hbefore, hboot, m', hrun, hflash⟩ | ⟨-, e, m', hrun⟩
    · obtain ⟨-, offset', page'', hskipped', hflash', hcertified⟩ := (boots_run hrun).mp hboots
      obtain rfl := Except.ok.inj (hskipped.symm.trans hskipped')
      rw [hflash, hboot.flash] at hflash'
      obtain rfl := InfoPage.content.inj hflash'
      exact bootable_of_bootPage (by decide) hskipped hbefore hboot hcertified
    · exact absurd ((boots_run hrun).mp hboots).1 nofun
  · intro h static_dice_cdi_0
    obtain ⟨offset', before', page'', dirty', hskipped', hbefore', hboot', hcertified⟩ :=
      h.bootPage h0 h1 static_dice_cdi_0.cert
    rcases rom_ext_certs_run hfactory with
      ⟨offset, before, page', dirty, hskipped, hbefore, hboot, m', hrun, hflash⟩ | ⟨hnot, -⟩
    · obtain rfl := Except.ok.inj (hskipped.symm.trans hskipped')
      obtain rfl := Except.ok.inj (hbefore.symm.trans hbefore')
      obtain rfl := hboot.unique hboot'
      rw [hboot.flash] at hflash
      exact (boots_run hrun).mpr ⟨rfl, offset, page', hskipped, hflash, hcertified⟩
    · exact absurd hboot' (hnot _ _ _ _ hskipped' hbefore')

/-- A first object that does not parse stops the boot. -/
theorem not_boots_of_skipped {page : Page} {e : RomError}
    (hfactory : find lib.toLibrary factory.mem 0 uds_name keys.uds = .ok found)
    (hskipped : skipped page.mem 0 uds_name = .error e) (static_dice_cdi_0 : StaticDiceCdi0) :
    ¬boots lib keys factory page static_dice_cdi_0 := by
  intro h
  rcases rom_ext_certs_run hfactory with ⟨_, _, _, _, -, -, -, m', hrun, -⟩ | ⟨-, e, m', hrun⟩
  · obtain ⟨-, offset, page', hok, -⟩ := (boots_run hrun).mp h
    exact absurd (hskipped.symm.trans hok) nofun
  · exact absurd ((boots_run hrun).mp h).1 nofun

/-- X.509 certificates, with the shortest that there are. -/
def short_x509 : DiceLibrary where
  toLibrary := dice_x509
  dice_cdi_0_cert_build _ subject := short_cert subject
  dice_cdi_1_cert_build _ subject := short_cert subject

def short_keys : DiceKeys := ⟨zero_key, zero_key, zero_key⟩

def blank_page : Page := Vector.replicate kPageSize 0

/-- The page after an erase without the write behind it. -/
def erased_page : Page := Vector.replicate kPageSize 0xff

/-- A new device boots, and one whose page was erased and not written does not. -/
theorem boots_iff_blank :
    (∀ static_dice_cdi_0, boots short_x509 short_keys blank_page blank_page static_dice_cdi_0) ∧
      ¬∀ static_dice_cdi_0, boots short_x509 short_keys blank_page erased_page static_dice_cdi_0 := by
  have hfor : CertFor dice_x509 (short_cert zero_key) zero_key :=
    ⟨by decide, fun _ => by decide, by decide⟩
  have hnone : ∀ key, find dice_x509 blank_page.mem 0 cdi_0_name key = .ok none := fun key =>
    find_empty (by decide) fun x _ hx => by
      rw [blank_page, Page.mem, dif_pos hx, Vector.getElem_replicate]
  have hfactory : find short_x509.toLibrary blank_page.mem 0 uds_name short_keys.uds = .ok none :=
    show _ = Except.ok none by decide
  have hiff := fun page : Page => @boots_iff short_x509 short_keys blank_page _ page hfactory hfor hfor
  refine ⟨(hiff _).mpr ⟨0, by decide, none, hnone _, none, hnone _, rfl, ?_, ?_⟩, fun h => ?_⟩
  · unfold Fits
    decide
  · unfold Fits
    decide
  · obtain ⟨offset, hskipped, -⟩ := (hiff _).mp h
    have herror : skipped erased_page.mem 0 uds_name = .error .kErrorPersoTlvInternal := by decide
    cases herror.symm.trans hskipped

/-- Its first object has a size of 4095, which is an error and not an object that is
missing. -/
theorem erased_page_does_not_boot :
    ¬boots short_x509 short_keys blank_page erased_page
      ⟨zero_key, zero_key, short_cert zero_key⟩ :=
  not_boots_of_skipped (show _ = Except.ok none by decide)
    (show _ = Except.error .kErrorPersoTlvInternal by decide) _

end theorems

end IbexFirmware.Dice
