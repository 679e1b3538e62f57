/-
Certificates as personalization objects (`perso_tlv_data.c`).

An object is a header, a certificate header, the name and the certificate. Each header
is 16 bits, big endian, with a size in the lower 12 of them: the object's own, with
the header, in the first one, and that of everything behind the first one in the second.
A size is computed as a `size_t` and stored through the mask of its field.

`perso_tlv_get_cert_obj` fills in `obj` while it checks, also on the paths that end in
an error, so it returns both. Pointers into the buffer are addresses of its memory.
-/
import IbexFirmware.RomError

set_option autoImplicit false

namespace IbexFirmware.PersoTlv

open Bytes

/-! ## Headers -/

def builtin_bswap16 (x : u16) : u16 := x <<< 8 ||| x >>> 8

/-- A 16-bit value as `memcpy` reads it. -/
def load16 (m : Mem) (a : ℕ) : u16 := (m (a + 1)).setWidth 16 <<< 8 ||| (m a).setWidth 16

/-- A 16-bit value as `memcpy` stores it. -/
def le16 (x : u16) : List u8 := [x.extractLsb' 0 8, x.extractLsb' 8 8]

/-- A field of a header: its mask and its place. -/
structure Field where
  mask : u16
  shift : ℕ

def kCrthNameSizeFieldMask : ℕ := (1 <<< 4) - 1

def objhSize : Field := ⟨0xfff, 0⟩
def objhType : Field := ⟨0xf, 12⟩
def crthSize : Field := ⟨0xfff, 0⟩
def crthNameSize : Field := ⟨0xf, 12⟩

def PERSO_TLV_SET_FIELD (field : Field) (full_value : u16) (field_value : ℕ) : u16 :=
  let fieldv := BitVec.ofNat 16 field_value &&& field.mask
  let fullv := builtin_bswap16 full_value
  let mask := field.mask <<< field.shift
  builtin_bswap16 (fullv &&& ~~~mask ||| fieldv <<< field.shift)

def PERSO_TLV_GET_FIELD (field : Field) (full_value : u16) : ℕ :=
  ((builtin_bswap16 full_value >>> field.shift) &&& field.mask).toNat

/-- `sizeof(perso_tlv_object_header_t)` and `sizeof(perso_tlv_cert_header_t)`. -/
def kObjectHeaderSize : ℕ := 2
def kCertHeaderSize : ℕ := 2

def kPersoObjectTypeX509Tbs : ℕ := 0
def kPersoObjectTypeX509Cert : ℕ := 1
def kPersoObjectTypeCwtCert : ℕ := 3

/-- `perso_tlv_cert_obj_t`. -/
structure PersoTlvCertObj where
  obj_p : ℕ
  obj_size : ℕ
  obj_type : ℕ
  cert_body_p : ℕ
  cert_body_size : ℕ
  name : Mem

/-- The bytes of a string in front of its terminator. -/
def cstring (name : Mem) : ℕ → List u8
  | 0 => []
  | n + 1 => if name 0 = 0 then [] else name 0 :: cstring (fun i => name (i + 1)) n

/-- `strlen(name)` for a `perso_tlv_cert_obj_t`. -/
def PersoTlvCertObj.name_string (obj : PersoTlvCertObj) : List u8 :=
  cstring obj.name (kCrthNameSizeFieldMask + 1)

/-! ## Parsing -/

def cert_x509_asn1_decode_size_header (m : Mem) (header : ℕ) : ℕ :=
  if m header ≠ 0x30 ∨ m (header + 1) ≠ 0x82 then 0
  else (m (header + 2)).toNat * 256 + (m (header + 3)).toNat + 4

def perso_tlv_get_cert_obj (m : Mem) (buf ltv_buf_size : ℕ) (obj : PersoTlvCertObj) :
    RomError × PersoTlvCertObj :=
  if ltv_buf_size < kObjectHeaderSize then (.kErrorPersoTlvInternal, obj)
  else
    let obj := { obj with obj_p := buf }
    let objh := load16 m buf
    let obj_size := PERSO_TLV_GET_FIELD objhSize objh
    if obj_size = 0 then (.kErrorPersoTlvCertObjNotFound, obj)
    else if obj_size > ltv_buf_size then (.kErrorPersoTlvInternal, obj)
    else
      let obj_type := PERSO_TLV_GET_FIELD objhType objh
      let obj := { obj with obj_size, obj_type }
      if obj_type ≠ kPersoObjectTypeX509Cert ∧ obj_type ≠ kPersoObjectTypeCwtCert ∧
          obj_type ≠ kPersoObjectTypeX509Tbs then (.kErrorPersoTlvCertObjNotFound, obj)
      else
        let buf := buf + kObjectHeaderSize
        let ltv_buf_size := ltv_buf_size - kObjectHeaderSize
        if ltv_buf_size < kCertHeaderSize then (.kErrorPersoTlvInternal, obj)
        else
          let crth := load16 m buf
          let name_len := PERSO_TLV_GET_FIELD crthNameSize crth
          let wrapped_cert_size := PERSO_TLV_GET_FIELD crthSize crth
          if wrapped_cert_size < kCertHeaderSize + name_len + 4 ∨
              wrapped_cert_size > ltv_buf_size then (.kErrorPersoTlvInternal, obj)
          else
            let buf := buf + kCertHeaderSize
            let ltv_buf_size := ltv_buf_size - kCertHeaderSize
            if ltv_buf_size < name_len then (.kErrorPersoTlvInternal, obj)
            else
              let obj := { obj with
                name := writeBytes (writeBytes obj.name 0 (readBytes m buf name_len)) name_len [0] }
              let buf := buf + name_len
              let obj := { obj with
                cert_body_size := wrapped_cert_size - kCertHeaderSize - name_len
                cert_body_p := buf }
              if obj_type = kPersoObjectTypeX509Cert ∧
                  cert_x509_asn1_decode_size_header m obj.cert_body_p ≠ obj.cert_body_size then
                (.kErrorPersoTlvInternal, obj)
              else (.kErrorOk, obj)

/-! ## Building -/

/-- A name as it is given, without its terminator. -/
structure Name where
  bytes : List u8
  nonzero : ∀ b ∈ bytes, b ≠ 0

/-- A certificate as it is given. It lies in memory beside the blob, which takes up
`sizeof(perso_blob_t)` bytes. -/
structure Cert where
  bytes : List u8
  beside : bytes.length + 4104 ≤ 2 ^ 32

/-- `size_t` arithmetic. -/
def size_t (n : ℕ) : ℕ := n % 2 ^ 32

/-- The memory with the object, and how much of the buffer it uses. -/
def perso_tlv_cert_obj_build (name : Name) (obj_type : ℕ) (cert : List u8) (m : Mem)
    (buf buf_size : ℕ) : Except RomError (Mem × ℕ) :=
  let name_len := name.bytes.length
  if name_len > kCrthNameSizeFieldMask then .error .kErrorPersoTlvCertNameTooLong
  else
    let wrapped_cert_size := size_t (kCertHeaderSize + name_len + cert.length)
    let obj_size := size_t (wrapped_cert_size + kObjectHeaderSize)
    if obj_size > buf_size then .error .kErrorPersoTlvOutputBufTooSmall
    else
      let obj_header := PERSO_TLV_SET_FIELD objhType 0 obj_type
      let obj_header := PERSO_TLV_SET_FIELD objhSize obj_header obj_size
      let cert_header := PERSO_TLV_SET_FIELD crthSize 0 wrapped_cert_size
      let cert_header := PERSO_TLV_SET_FIELD crthNameSize cert_header name_len
      let used := 0
      let m := writeBytes m (buf + used) (le16 obj_header)
      let used := used + kObjectHeaderSize
      let m := writeBytes m (buf + used) (le16 cert_header)
      let used := used + kCertHeaderSize
      let m := writeBytes m (buf + used) name.bytes
      let used := used + name_len
      let m := writeBytes m (buf + used) cert
      let used := used + cert.length
      .ok (m, used)

/-! ## The blob -/

/-- `perso_blob_t`, with the memory that its body lies in. -/
structure PersoBlob where
  num_objs : ℕ
  next_free : ℕ
  body : Mem

def kPersoBlobBodySize : ℕ := 4096

/-- `dice_cert_format_t`. -/
inductive DiceCertFormat
  | kDiceCertFormatX509TcbInfo
  | kDiceCertFormatCWTAndroid
  deriving DecidableEq

/-- The object type of a certificate in the blob. -/
def cert_obj_type (dice_format : DiceCertFormat) (needs_endorsement : Bool) : ℕ :=
  match dice_format, needs_endorsement with
  | .kDiceCertFormatX509TcbInfo, true => kPersoObjectTypeX509Tbs
  | .kDiceCertFormatX509TcbInfo, false => kPersoObjectTypeX509Cert
  | .kDiceCertFormatCWTAndroid, _ => kPersoObjectTypeCwtCert

def perso_tlv_push_cert_to_perso_blob (name : Name) (needs_endorsement : Bool)
    (dice_format : DiceCertFormat) (cert : Cert) (pb : PersoBlob) : RomError × PersoBlob :=
  if pb.next_free > kPersoBlobBodySize then (.kErrorPersoTlvInternal, pb)
  else
    let obj_size := kPersoBlobBodySize - pb.next_free
    match perso_tlv_cert_obj_build name (cert_obj_type dice_format needs_endorsement) cert.bytes
        pb.body pb.next_free obj_size with
    | .error e => (e, pb)
    | .ok (body, obj_size) =>
        (.kErrorOk,
          { num_objs := size_t (pb.num_objs + 1)
            next_free := size_t (pb.next_free + obj_size)
            body })

/-! ## Fields -/

theorem bswap16_bswap16 (x : u16) : builtin_bswap16 (builtin_bswap16 x) = x := by
  unfold builtin_bswap16
  -- bit by bit, so that the kernel checks it
  ext i hi
  interval_cases i <;> simp

theorem get_field_lt (field : Field) (x : u16) (hmask : field.mask.toNat < 4096) :
    PERSO_TLV_GET_FIELD field x < 4096 := by
  unfold PERSO_TLV_GET_FIELD
  rw [BitVec.toNat_and]
  exact Nat.lt_of_le_of_lt Nat.and_le_right hmask

theorem load16_le16 (m : Mem) (a : ℕ) (x : u16) (h : readBytes m a 2 = le16 x) :
    load16 m a = x := by
  have hbytes : [m a, m (a + 1)] = le16 x := h
  rw [le16, List.cons.injEq, List.cons.injEq] at hbytes
  obtain ⟨hlow, hhigh, -⟩ := hbytes
  rw [load16, hlow, hhigh]
  ext i hi
  interval_cases i <;> simp

/-- A header with its two fields. -/
def header (t n : u16) : u16 := (t &&& 0xf) <<< 12 ||| n &&& 0xfff

theorem high_and_mask (t : u16) : ((t &&& 0xf) <<< 12) &&& 0xf000#16 = (t &&& 0xf) <<< 12 := by
  ext i hi
  interval_cases i <;> simp

/-- The upper field is set first, as in the object header. -/
theorem header_size_last (t n : u16) :
    ((0#16 &&& ~~~((0xf : u16) <<< 12) ||| (t &&& 0xf) <<< 12) &&& ~~~((0xfff : u16) <<< 0) |||
      (n &&& 0xfff) <<< 0) = header t n := by
  have hmask : ~~~((0xfff : u16) <<< 0) = 0xf000#16 := by decide
  rw [BitVec.zero_and, BitVec.zero_or, hmask, high_and_mask, BitVec.shiftLeft_zero]
  rfl

/-- The lower field is set first, as in the certificate header. -/
theorem header_size_first (t n : u16) :
    ((0#16 &&& ~~~((0xfff : u16) <<< 0) ||| (n &&& 0xfff) <<< 0) &&& ~~~((0xf : u16) <<< 12) |||
      (t &&& 0xf) <<< 12) = header t n := by
  have hmask : ~~~((0xf : u16) <<< 12) = 0xfff := by decide
  rw [BitVec.zero_and, BitVec.zero_or, hmask, BitVec.shiftLeft_zero, BitVec.and_assoc,
    BitVec.and_self, BitVec.or_comm]
  rfl

theorem low_of_header (t n : u16) :
    (header t n >>> 0) &&& 0xfff = n &&& 0xfff := by
  unfold header
  ext i hi
  interval_cases i <;> simp

theorem high_of_header (t n : u16) :
    (header t n >>> 12) &&& 0xf = t &&& 0xf := by
  unfold header
  ext i hi
  interval_cases i <;> simp

theorem toNat_and_mask (x k : ℕ) (hk : k ≤ 16) :
    (BitVec.ofNat 16 x &&& BitVec.ofNat 16 (2 ^ k - 1)).toNat = x % 2 ^ k := by
  have hmask : 2 ^ k - 1 < 2 ^ 16 := by
    have := Nat.pow_le_pow_right (show 0 < 2 by omega) hk
    omega
  have hdvd : 2 ^ k ∣ 2 ^ 16 := Nat.pow_dvd_pow 2 hk
  rw [BitVec.toNat_and, BitVec.toNat_ofNat, BitVec.toNat_ofNat, Nat.mod_eq_of_lt hmask,
    Nat.and_two_pow_sub_one_eq_mod, Nat.mod_mod_of_dvd _ hdvd]

/-- The object header: the size modulo the field. -/
theorem objh_fields (t n : ℕ) :
    let objh := PERSO_TLV_SET_FIELD objhSize (PERSO_TLV_SET_FIELD objhType 0 t) n
    PERSO_TLV_GET_FIELD objhSize objh = n % 4096 ∧ PERSO_TLV_GET_FIELD objhType objh = t % 16 := by
  have hzero : builtin_bswap16 0 = 0#16 := by decide
  have hset : builtin_bswap16
      (PERSO_TLV_SET_FIELD objhSize (PERSO_TLV_SET_FIELD objhType 0 t) n) =
      header (BitVec.ofNat 16 t) (BitVec.ofNat 16 n) := by
    simp only [PERSO_TLV_SET_FIELD, objhSize, objhType, bswap16_bswap16, hzero]
    exact header_size_last _ _
  simp only [PERSO_TLV_GET_FIELD, hset]
  simp only [objhSize, objhType, low_of_header, high_of_header]
  exact ⟨toNat_and_mask n 12 (by omega), toNat_and_mask t 4 (by omega)⟩

/-- The certificate header. -/
theorem crth_fields (t n : ℕ) :
    let crth := PERSO_TLV_SET_FIELD crthNameSize (PERSO_TLV_SET_FIELD crthSize 0 n) t
    PERSO_TLV_GET_FIELD crthSize crth = n % 4096 ∧
      PERSO_TLV_GET_FIELD crthNameSize crth = t % 16 := by
  have hzero : builtin_bswap16 0 = 0#16 := by decide
  have hset : builtin_bswap16
      (PERSO_TLV_SET_FIELD crthNameSize (PERSO_TLV_SET_FIELD crthSize 0 n) t) =
      header (BitVec.ofNat 16 t) (BitVec.ofNat 16 n) := by
    simp only [PERSO_TLV_SET_FIELD, crthSize, crthNameSize, bswap16_bswap16, hzero]
    exact header_size_first _ _
  simp only [PERSO_TLV_GET_FIELD, hset]
  simp only [crthSize, crthNameSize, low_of_header, high_of_header]
  exact ⟨toNat_and_mask n 12 (by omega), toNat_and_mask t 4 (by omega)⟩

/-! ## The built object -/

def object_header (t n : ℕ) : u16 :=
  PERSO_TLV_SET_FIELD objhSize (PERSO_TLV_SET_FIELD objhType 0 t) n

def cert_header (name_len n : ℕ) : u16 :=
  PERSO_TLV_SET_FIELD crthNameSize (PERSO_TLV_SET_FIELD crthSize 0 n) name_len

/-- An object lies at `buf`: its two headers, its name and its certificate. -/
structure ObjectAt (m : Mem) (buf t : ℕ) (name cert : List u8) : Prop where
  objh : load16 m buf = object_header t (name.length + cert.length + 4)
  crth : load16 m (buf + 2) = cert_header name.length (name.length + cert.length + 2)
  name_bytes : readBytes m (buf + 4) name.length = name
  cert_bytes : readBytes m (buf + 4 + name.length) cert.length = cert

/-- The bytes of an object. -/
def object_bytes (t : ℕ) (name cert : List u8) : List u8 :=
  le16 (object_header t (name.length + cert.length + 4)) ++
    le16 (cert_header name.length (name.length + cert.length + 2)) ++ name ++ cert

theorem length_object_bytes (t : ℕ) (name cert : List u8) :
    (object_bytes t name cert).length = name.length + cert.length + 4 := by
  unfold object_bytes
  simp only [List.length_append, le16, List.length_cons, List.length_nil]
  omega

/-- Where its bytes are read, an object lies. -/
theorem objectAt_of_read {m : Mem} {buf t : ℕ} {name cert : List u8}
    (h : readBytes m buf (name.length + cert.length + 4) = object_bytes t name cert) :
    ObjectAt m buf t name cert := by
  have hlen : name.length + cert.length + 4 = 2 + 2 + name.length + cert.length := by omega
  have hsplit : readBytes m buf (name.length + cert.length + 4) = readBytes m buf 2 ++
      readBytes m (buf + 2) 2 ++ readBytes m (buf + 4) name.length ++
      readBytes m (buf + (4 + name.length)) cert.length := by
    rw [hlen, readBytes_add, readBytes_add, readBytes_add]
  rw [hsplit, object_bytes] at h
  obtain ⟨hread, hcert⟩ := List.append_inj' h (by simp)
  obtain ⟨hread, hname⟩ := List.append_inj' hread (by simp)
  obtain ⟨hobjh, hcrth⟩ := List.append_inj hread (by simp [le16])
  rw [← Nat.add_assoc] at hcert
  exact ⟨load16_le16 _ _ _ hobjh, load16_le16 _ _ _ hcrth, hname, hcert⟩

/-- What lies at `buf` after its bytes are written there. -/
theorem objectAt_write (m : Mem) (buf t : ℕ) (name cert : List u8) :
    ObjectAt (writeBytes m buf (object_bytes t name cert)) buf t name cert := by
  refine objectAt_of_read ?_
  rw [← length_object_bytes t, readBytes_writeBytes]

/-- An object is not built only for its name or for want of room. -/
theorem build_eq {name : Name} {cert : List u8}
    (hwrap : name.bytes.length + cert.length + 4 < 2 ^ 32) (t buf buf_size : ℕ) (m : Mem) :
    perso_tlv_cert_obj_build name t cert m buf buf_size =
      if name.bytes.length > kCrthNameSizeFieldMask then .error .kErrorPersoTlvCertNameTooLong
      else if name.bytes.length + cert.length + 4 > buf_size then
        .error .kErrorPersoTlvOutputBufTooSmall
      else .ok (writeBytes m buf (object_bytes t name.bytes cert),
        name.bytes.length + cert.length + 4) := by
  have hsizes : size_t (kCertHeaderSize + name.bytes.length + cert.length) =
        name.bytes.length + cert.length + 2 ∧
      size_t (name.bytes.length + cert.length + 2 + kObjectHeaderSize) =
        name.bytes.length + cert.length + 4 := by
    unfold size_t kCertHeaderSize kObjectHeaderSize
    omega
  have hlen : ∀ x : u16, (le16 x).length = 2 := fun _ => rfl
  have hwrite : ∀ objh crth : u16, writeBytes (writeBytes (writeBytes (writeBytes m (buf + 0)
      (le16 objh)) (buf + (0 + kObjectHeaderSize)) (le16 crth))
      (buf + (0 + kObjectHeaderSize + kCertHeaderSize)) name.bytes)
      (buf + (0 + kObjectHeaderSize + kCertHeaderSize + name.bytes.length)) cert =
      writeBytes m buf (le16 objh ++ le16 crth ++ name.bytes ++ cert) := by
    intro objh crth
    rw [← writeBytes_append, ← writeBytes_append, ← writeBytes_append]
    simp only [List.length_append, hlen, kObjectHeaderSize, kCertHeaderSize]
    simp only [Nat.zero_add, Nat.add_zero, Nat.add_assoc]
  have hused : 0 + kObjectHeaderSize + kCertHeaderSize + name.bytes.length + cert.length =
      name.bytes.length + cert.length + 4 := by
    unfold kObjectHeaderSize kCertHeaderSize
    omega
  unfold perso_tlv_cert_obj_build
  simp only [hsizes.1, hsizes.2, hwrite, hused]
  rfl

/-- An object that was built fits, lies at `buf`, and is all that was written. -/
theorem build_ok {name : Name} {t buf buf_size used : ℕ} {cert : List u8} {m m' : Mem}
    (hwrap : name.bytes.length + cert.length + 4 < 2 ^ 32)
    (h : perso_tlv_cert_obj_build name t cert m buf buf_size = .ok (m', used)) :
    name.bytes.length ≤ 15 ∧ used = name.bytes.length + cert.length + 4 ∧ used ≤ buf_size ∧
      m' = writeBytes m buf (object_bytes t name.bytes cert) := by
  rw [build_eq hwrap] at h
  split_ifs at h with hname hroom
  obtain ⟨rfl, rfl⟩ := Prod.mk.inj (Except.ok.inj h)
  exact ⟨Nat.not_lt.mp hname, rfl, Nat.not_lt.mp hroom, rfl⟩

/-- The sizes of an object that was built did not wrap. -/
theorem build_no_wrap {name : Name} {t buf buf_size : ℕ} {cert : Cert} {m : Mem}
    {built : Mem × ℕ}
    (h : perso_tlv_cert_obj_build name t cert.bytes m buf buf_size = .ok built) :
    name.bytes.length + cert.bytes.length + 4 < 2 ^ 32 := by
  have hbeside := cert.beside
  have hmask : kCrthNameSizeFieldMask = 15 := rfl
  by_contra hwraps
  rw [perso_tlv_cert_obj_build, if_pos (by omega)] at h
  cases h

theorem build_error {name : Name} {t buf buf_size : ℕ} {cert : List u8} {m : Mem} {e : RomError}
    (hwrap : name.bytes.length + cert.length + 4 < 2 ^ 32)
    (h : perso_tlv_cert_obj_build name t cert m buf buf_size = .error e) :
    e ≠ .kErrorOk ∧
      (name.bytes.length > kCrthNameSizeFieldMask ∨
        name.bytes.length + cert.length + 4 > buf_size) := by
  rw [build_eq hwrap] at h
  split_ifs at h with hname hroom
  · cases h
    exact ⟨nofun, .inl hname⟩
  · cases h
    exact ⟨nofun, .inr hroom⟩

/-! ## Parsing what was built -/

/-- A string is read up to its terminator. -/
theorem cstring_eq {name : Mem} {bytes : List u8} {n : ℕ} (hn : bytes.length < n)
    (hread : readBytes name 0 bytes.length = bytes) (hend : name bytes.length = 0)
    (hnonzero : ∀ b ∈ bytes, b ≠ 0) : cstring name n = bytes := by
  induction bytes generalizing name n with
  | nil =>
      obtain ⟨n, rfl⟩ : ∃ k, n = k + 1 := ⟨n - 1, by omega⟩
      have hfirst : name 0 = 0 := hend
      rw [cstring, if_pos hfirst]
  | cons b bytes ih =>
      obtain ⟨n, rfl⟩ : ∃ k, n = k + 1 := ⟨n - 1, by omega⟩
      rw [List.length_cons, Nat.add_comm, readBytes_add] at hread
      obtain ⟨hfirst, hrest⟩ := List.cons.inj hread
      have hb : name 0 = b := hfirst
      have htail : readBytes (fun i => name (i + 1)) 0 bytes.length = bytes := by
        rw [← hrest]
        apply List.ext_getElem (by simp)
        intro i hi _
        simp [readBytes, Nat.add_comm]
      rw [cstring, if_neg (by rw [hb]; exact hnonzero b (List.mem_cons_self ..)), hb,
        ih (by rw [List.length_cons] at hn; omega) htail hend
          fun c hc => hnonzero c (List.mem_cons_of_mem _ hc)]

/-- The name that the parser copies. -/
theorem name_string_eq {m name : Mem} {buf : ℕ} {bytes : List u8} (hlen : bytes.length ≤ 15)
    (hread : readBytes m buf bytes.length = bytes) (hnonzero : ∀ b ∈ bytes, b ≠ 0) :
    cstring (writeBytes (writeBytes name 0 (readBytes m buf bytes.length)) bytes.length [0])
      (kCrthNameSizeFieldMask + 1) = bytes := by
  rw [hread]
  refine cstring_eq ?_ ?_ ?_ hnonzero
  · exact Nat.lt_succ_of_le hlen
  · rw [readBytes_writeBytes_disjoint _ _ _ _ _ (by omega)]
    exact readBytes_writeBytes name 0 bytes
  · rw [writeBytes, if_pos ⟨Nat.le_refl _, by simp⟩, Nat.sub_self]
    rfl

section parse

variable {m : Mem} {buf t size : ℕ} {name cert : List u8}

variable (size) in
/-- A full object of 4096 bytes has size 0 in its header. -/
theorem get_of_full (h : ObjectAt m buf t name cert) (hsize : kObjectHeaderSize ≤ size)
    (hfull : name.length + cert.length + 4 = 4096) (obj : PersoTlvCertObj) :
    (perso_tlv_get_cert_obj m buf size obj).1 = .kErrorPersoTlvCertObjNotFound := by
  have hfield := (objh_fields t (name.length + cert.length + 4)).1
  rw [hfull] at hfield
  have hzero : PERSO_TLV_GET_FIELD objhSize (load16 m buf) = 0 := by
    rw [h.objh, hfull]
    exact hfield
  unfold perso_tlv_get_cert_obj
  rw [if_neg (by omega)]
  simp only [hzero, if_true]

/-- The header of the certificate at `p` is read from the certificate. -/
theorem decode_size_of_read {p : ℕ} (hread : readBytes m p cert.length = cert)
    (hlen : 4 ≤ cert.length) :
    cert_x509_asn1_decode_size_header m p =
      cert_x509_asn1_decode_size_header (fun i => cert.getD i 0) 0 := by
  have hbyte : ∀ i < 4, m (p + i) = cert.getD i 0 := by
    intro i hi
    have hi' : i < cert.length := by omega
    have hlt : i < (readBytes m p cert.length).length := by
      rw [length_readBytes]
      exact hi'
    have hget : (readBytes m p cert.length)[i] = m (p + i) :=
      getElem_readBytes _ _ _ _ _
    rw [List.getD_eq_getElem?_getD, List.getElem?_eq_getElem hi', Option.getD_some, ← hget]
    simp only [hread]
  have h0 := hbyte 0 (by omega)
  rw [Nat.add_zero] at h0
  unfold cert_x509_asn1_decode_size_header
  rw [h0, hbyte 1 (by omega), hbyte 2 (by omega), hbyte 3 (by omega)]

/-- What the headers of an object that was built say. -/
theorem ObjectAt.fields (h : ObjectAt m buf t name cert) (hname : name.length ≤ 15)
    (ht : t = kPersoObjectTypeX509Cert ∨ t = kPersoObjectTypeCwtCert ∨ t = kPersoObjectTypeX509Tbs)
    (hfield : name.length + cert.length + 4 < 4096) :
    PERSO_TLV_GET_FIELD objhSize (load16 m buf) = name.length + cert.length + 4 ∧
      PERSO_TLV_GET_FIELD objhType (load16 m buf) = t ∧
      PERSO_TLV_GET_FIELD crthSize (load16 m (buf + kObjectHeaderSize)) =
        name.length + cert.length + 2 ∧
      PERSO_TLV_GET_FIELD crthNameSize (load16 m (buf + kObjectHeaderSize)) = name.length := by
  rw [kObjectHeaderSize, h.objh, h.crth]
  refine ⟨(objh_fields _ _).1.trans (Nat.mod_eq_of_lt hfield), (objh_fields _ _).2.trans ?_,
    (crth_fields _ _).1.trans (Nat.mod_eq_of_lt (by omega)),
    (crth_fields _ _).2.trans (Nat.mod_eq_of_lt (by omega))⟩
  rcases ht with rfl | rfl | rfl <;> rfl

variable (size) in
/-- An object that was built is parsed as it was built. -/
theorem get_of_objectAt (h : ObjectAt m buf t name cert) (hname : name.length ≤ 15)
    (ht : t = kPersoObjectTypeX509Cert ∨ t = kPersoObjectTypeCwtCert ∨ t = kPersoObjectTypeX509Tbs)
    (hcert : 4 ≤ cert.length) (hfit : name.length + cert.length + 4 ≤ size)
    (hfield : name.length + cert.length + 4 < 4096)
    (hx509 : t = kPersoObjectTypeX509Cert →
      cert_x509_asn1_decode_size_header (fun i => cert.getD i 0) 0 = cert.length)
    (obj : PersoTlvCertObj) :
    (perso_tlv_get_cert_obj m buf size obj).1 = .kErrorOk ∧
      (perso_tlv_get_cert_obj m buf size obj).2 =
        { obj_p := buf
          obj_size := name.length + cert.length + 4
          obj_type := t
          cert_body_p := buf + 4 + name.length
          cert_body_size := cert.length
          name := writeBytes (writeBytes obj.name 0 (readBytes m (buf + 4) name.length))
            name.length [0] } := by
  obtain ⟨hobjsize, hobjtype, hcrthsize, hcrthname⟩ := h.fields hname ht hfield
  have htype : ¬(t ≠ kPersoObjectTypeX509Cert ∧ t ≠ kPersoObjectTypeCwtCert ∧
      t ≠ kPersoObjectTypeX509Tbs) := by
    tauto
  have hbodysize : name.length + cert.length + 2 - kCertHeaderSize - name.length = cert.length := by
    unfold kCertHeaderSize
    omega
  have hbuf : buf + kObjectHeaderSize + kCertHeaderSize = buf + 4 := rfl
  have hdecode : ¬(t = kPersoObjectTypeX509Cert ∧
      cert_x509_asn1_decode_size_header m (buf + 4 + name.length) ≠ cert.length) := by
    rintro ⟨htx, hne⟩
    exact hne ((decode_size_of_read h.cert_bytes hcert).trans (hx509 htx))
  unfold perso_tlv_get_cert_obj
  rw [if_neg (show ¬size < kObjectHeaderSize by unfold kObjectHeaderSize; omega)]
  simp only [hobjsize, hobjtype, hcrthsize, hcrthname, hbodysize, hbuf]
  rw [if_neg (by omega), if_neg (by omega), if_neg htype,
    if_neg (by unfold kObjectHeaderSize kCertHeaderSize; omega),
    if_neg (by unfold kObjectHeaderSize kCertHeaderSize; omega),
    if_neg (by unfold kObjectHeaderSize kCertHeaderSize; omega), if_neg hdecode]
  exact ⟨rfl, rfl⟩

/-- The parser accepts what was built only with a certificate of four bytes or more, and
one for X.509 only with its own length in front. -/
theorem cert_of_get_ok (h : ObjectAt m buf t name cert) (hname : name.length ≤ 15)
    (ht : t = kPersoObjectTypeX509Cert ∨ t = kPersoObjectTypeCwtCert ∨ t = kPersoObjectTypeX509Tbs)
    (hfield : name.length + cert.length + 4 < 4096) {obj : PersoTlvCertObj}
    (hok : (perso_tlv_get_cert_obj m buf size obj).1 = .kErrorOk) :
    4 ≤ cert.length ∧ (t = kPersoObjectTypeX509Cert →
      cert_x509_asn1_decode_size_header (fun i => cert.getD i 0) 0 = cert.length) := by
  obtain ⟨-, hobjtype, hcrthsize, hcrthname⟩ := h.fields hname ht hfield
  unfold perso_tlv_get_cert_obj at hok
  simp only [hobjtype, hcrthsize, hcrthname] at hok
  unfold kObjectHeaderSize kCertHeaderSize at hok
  split_ifs at hok with h1 h2 h3 h4 h5 hwrapped h7 hbody
  all_goals try cases hok
  have hlen : 4 ≤ cert.length := by omega
  refine ⟨hlen, fun hx509 => ?_⟩
  rw [← decode_size_of_read h.cert_bytes hlen]
  rw [not_and, not_not] at hbody
  have hsize : name.length + cert.length + 2 - 2 - name.length = cert.length := by omega
  exact (hbody hx509).trans hsize

end parse

/-- Whether an object is accepted does not depend on what `obj` held, and nor does what
is taken from it, up to the terminator of the name. -/
theorem get_of_ok {m : Mem} {buf size : ℕ} {obj : PersoTlvCertObj}
    (hok : (perso_tlv_get_cert_obj m buf size obj).1 = .kErrorOk) :
    ∃ obj_size obj_type cert_body_size n,
      obj_size = PERSO_TLV_GET_FIELD objhSize (load16 m buf) ∧ 0 < obj_size ∧ obj_size ≤ size ∧
      obj_size < 4096 ∧ ∀ obj, perso_tlv_get_cert_obj m buf size obj = (.kErrorOk,
        { obj_p := buf
          obj_size
          obj_type
          cert_body_p := buf + 4 + n
          cert_body_size
          name := writeBytes (writeBytes obj.name 0 (readBytes m (buf + 4) n)) n [0] }) := by
  unfold perso_tlv_get_cert_obj at hok ⊢
  simp only at hok ⊢
  split_ifs at hok with h1 h2 h3 h4 h5 h6 h7 h8
  all_goals try cases hok
  have hlt : PERSO_TLV_GET_FIELD objhSize (load16 m buf) < 4096 := get_field_lt _ _ (by decide)
  refine ⟨PERSO_TLV_GET_FIELD objhSize (load16 m buf), PERSO_TLV_GET_FIELD objhType (load16 m buf),
    PERSO_TLV_GET_FIELD crthSize (load16 m (buf + kObjectHeaderSize)) - kCertHeaderSize -
      PERSO_TLV_GET_FIELD crthNameSize (load16 m (buf + kObjectHeaderSize)),
    PERSO_TLV_GET_FIELD crthNameSize (load16 m (buf + kObjectHeaderSize)),
    rfl, Nat.pos_of_ne_zero h2, Nat.not_lt.mp h3, hlt, fun obj => ?_⟩
  rw [if_neg h1, if_neg h2, if_neg h3, if_neg h4, if_neg h5, if_neg h6, if_neg h7, if_neg h8]
  rfl

theorem get_error_congr (m : Mem) (buf size : ℕ) (obj obj' : PersoTlvCertObj) :
    (perso_tlv_get_cert_obj m buf size obj).1 = (perso_tlv_get_cert_obj m buf size obj').1 := by
  unfold perso_tlv_get_cert_obj
  simp only
  split_ifs <;> rfl

/-! ## The round trip -/

/-- A push reports an error and leaves the blob as it was, or the object is parsed back. -/
def round_trips (name : Name) (needs_endorsement : Bool) (dice_format : DiceCertFormat)
    (cert : Cert) (pb : PersoBlob) : Prop :=
  let (error, pb') := perso_tlv_push_cert_to_perso_blob name needs_endorsement dice_format cert pb
  error ≠ .kErrorOk ∧ pb' = pb ∨
    error = .kErrorOk ∧ ∀ obj,
      let (error, obj) := perso_tlv_get_cert_obj pb'.body pb.next_free
        (kPersoBlobBodySize - pb.next_free) obj
      error = .kErrorOk ∧ obj.name_string = name.bytes ∧
        obj.obj_type = cert_obj_type dice_format needs_endorsement ∧
        readBytes pb'.body obj.cert_body_p obj.cert_body_size = cert.bytes ∧
        pb'.next_free = pb.next_free + obj.obj_size

theorem cert_obj_type_cases (dice_format : DiceCertFormat) (needs_endorsement : Bool) :
    cert_obj_type dice_format needs_endorsement = kPersoObjectTypeX509Cert ∨
      cert_obj_type dice_format needs_endorsement = kPersoObjectTypeCwtCert ∨
      cert_obj_type dice_format needs_endorsement = kPersoObjectTypeX509Tbs := by
  cases dice_format <;> cases needs_endorsement <;> decide

section blob

variable (name : Name) (needs_endorsement : Bool) (dice_format : DiceCertFormat) (cert : Cert)
  (pb : PersoBlob)

/-- An object that fills the whole body reads as an empty one. -/
theorem not_round_trips_of_full (hzero : pb.next_free = 0)
    (hname : name.bytes.length ≤ kCrthNameSizeFieldMask)
    (hfull : name.bytes.length + cert.bytes.length + 4 = 4096) :
    ¬round_trips name needs_endorsement dice_format cert pb := by
  have hwrap : name.bytes.length + cert.bytes.length + 4 < 2 ^ 32 := by omega
  have hnot : ¬pb.next_free > 4096 := by omega
  simp only [round_trips, perso_tlv_push_cert_to_perso_blob, kPersoBlobBodySize, hnot, if_false]
  cases hbuild : perso_tlv_cert_obj_build name (cert_obj_type dice_format needs_endorsement)
      cert.bytes pb.body pb.next_free (4096 - pb.next_free) with
  | error e =>
      obtain ⟨-, hcause⟩ := build_error hwrap hbuild
      omega
  | ok built =>
      obtain ⟨m', used⟩ := built
      obtain ⟨-, -, -, rfl⟩ := build_ok hwrap hbuild
      have hobject := objectAt_write pb.body pb.next_free
        (cert_obj_type dice_format needs_endorsement) name.bytes cert.bytes
      rintro (⟨hne, -⟩ | ⟨-, hparse⟩)
      · exact hne rfl
      · have hnone := get_of_full (4096 - pb.next_free) hobject
          (by unfold kObjectHeaderSize; omega) hfull ⟨0, 0, 0, 0, 0, fun _ => 0⟩
        have hok := (hparse ⟨0, 0, 0, 0, 0, fun _ => 0⟩).1
        rw [hnone] at hok
        exact absurd hok nofun

/-- Every other object that is taken is parsed back, whatever lies around it. -/
theorem round_trips_of_fits (hfree : pb.next_free ≤ kPersoBlobBodySize)
    (hlen : 4 ≤ cert.bytes.length)
    (hx509 : cert_obj_type dice_format needs_endorsement = kPersoObjectTypeX509Cert →
      cert_x509_asn1_decode_size_header (fun i => cert.bytes.getD i 0) 0 = cert.bytes.length)
    (hname : name.bytes.length ≤ kCrthNameSizeFieldMask)
    (hfits : ¬(pb.next_free = 0 ∧ name.bytes.length + cert.bytes.length + 4 = 4096)) :
    round_trips name needs_endorsement dice_format cert pb := by
  have hbeside := cert.beside
  have hmask : kCrthNameSizeFieldMask = 15 := rfl
  rw [kPersoBlobBodySize] at hfree
  have hwrap : name.bytes.length + cert.bytes.length + 4 < 2 ^ 32 := by omega
  have hnot : ¬pb.next_free > 4096 := by omega
  simp only [round_trips, perso_tlv_push_cert_to_perso_blob, kPersoBlobBodySize, hnot, if_false]
  cases hbuild : perso_tlv_cert_obj_build name (cert_obj_type dice_format needs_endorsement)
      cert.bytes pb.body pb.next_free (4096 - pb.next_free) with
  | error e => exact .inl ⟨(build_error hwrap hbuild).1, rfl⟩
  | ok built =>
      obtain ⟨m', used⟩ := built
      obtain ⟨hlen15, hused, hroom, rfl⟩ := build_ok hwrap hbuild
      have hobject := objectAt_write pb.body pb.next_free
        (cert_obj_type dice_format needs_endorsement) name.bytes cert.bytes
      refine .inr ⟨rfl, fun obj => ?_⟩
      obtain ⟨herr, hobj⟩ := get_of_objectAt (4096 - pb.next_free) hobject hlen15
        (cert_obj_type_cases _ _) hlen (by omega) (by omega) hx509 obj
      have hnext : size_t (pb.next_free + used) = pb.next_free + used := by
        unfold size_t
        omega
      simp only [herr, hobj, hnext]
      refine ⟨trivial, ?_, trivial, hobject.cert_bytes, by omega⟩
      exact name_string_eq hlen15 hobject.name_bytes name.nonzero

/-- A name that is too long is an error. -/
theorem round_trips_of_long (hname : ¬name.bytes.length ≤ kCrthNameSizeFieldMask) :
    round_trips name needs_endorsement dice_format cert pb := by
  have hlong : name.bytes.length > kCrthNameSizeFieldMask := by omega
  unfold round_trips perso_tlv_push_cert_to_perso_blob
  split_ifs with hfree
  · exact .inl ⟨nofun, rfl⟩
  · simp only [perso_tlv_cert_obj_build, if_pos hlong]
    exact .inl ⟨nofun, trivial⟩

/-- The room in the body is the only limit: an object that fills all of it, of 4096 bytes,
is taken although its size does not fit its field, and is not found again. -/
theorem round_trips_iff (hfree : pb.next_free ≤ kPersoBlobBodySize) (hlen : 4 ≤ cert.bytes.length)
    (hx509 : cert_obj_type dice_format needs_endorsement = kPersoObjectTypeX509Cert →
      cert_x509_asn1_decode_size_header (fun i => cert.bytes.getD i 0) 0 = cert.bytes.length) :
    round_trips name needs_endorsement dice_format cert pb ↔
      ¬(pb.next_free = 0 ∧ name.bytes.length ≤ kCrthNameSizeFieldMask ∧
        name.bytes.length + cert.bytes.length + 4 = 4096) := by
  constructor
  · rintro h ⟨hzero, hname, hfull⟩
    exact not_round_trips_of_full _ _ _ _ _ hzero hname hfull h
  · intro hfits
    by_cases hname : name.bytes.length ≤ kCrthNameSizeFieldMask
    · exact round_trips_of_fits _ _ _ _ _ hfree hlen hx509 hname fun h =>
        hfits ⟨h.1, hname, h.2⟩
    · exact round_trips_of_long _ _ _ _ _ hname

/-- `"UDS"`. -/
def uds_name : Name := ⟨[0x55, 0x44, 0x53], by decide⟩

def empty_blob : PersoBlob := ⟨0, 0, fun _ => 0⟩

/-- An object of twelve bytes in the last twelve of the body. -/
theorem round_trips_iff_short :
    round_trips uds_name false .kDiceCertFormatX509TcbInfo
      ⟨[0x30, 0x82, 0x00, 0x01, 0xff], by decide⟩ { empty_blob with next_free := 4084 } :=
  (round_trips_iff _ _ _ _ _ (by decide) (by decide) fun _ => rfl).mpr fun hfull =>
    absurd hfull.1 (by decide)

/-- A certificate of 4089 bytes with a name of three. -/
theorem full_blob_does_not_round_trip :
    ¬round_trips uds_name false .kDiceCertFormatCWTAndroid
      ⟨List.replicate 4089 0xa1, by rw [List.length_replicate]; decide⟩ empty_blob := by
  refine not_round_trips_of_full _ _ _ _ _ rfl (by decide) ?_
  rw [List.length_replicate]
  rfl

end blob

end IbexFirmware.PersoTlv
