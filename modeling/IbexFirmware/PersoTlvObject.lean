/-
What `perso_tlv_get_cert_obj` accepts, and what it reads.

An object has two sizes: its own, in the first header, and that of what is behind the first
header, in the second one. Each is compared with the buffer and neither with the other, so
that an accepted certificate may end before its object does, or behind it. `Accepted` is
what the headers say when the function succeeds. The function is written down a second time
with the addresses that it reads (`perso_tlv_get_cert_obj_reads`), and all of these are in
the buffer.
-/
import IbexFirmware.PersoTlv
import IbexFirmware.Lib.Reading

set_option autoImplicit false

namespace IbexFirmware.PersoTlvObject

open Bytes PersoTlv Reading

/-! ## Reads -/

def read8 (m : Mem) (a : ℕ) : Reading ℕ u8 := ⟨m a, [a]⟩

def read16 (m : Mem) (a : ℕ) : Reading ℕ u16 := ⟨load16 m a, [a, a + 1]⟩

def readRange (m : Mem) (a n : ℕ) : Reading ℕ (List u8) :=
  ⟨readBytes m a n, (List.range n).map fun i => a + i⟩

@[simp] theorem value_read8 (m : Mem) (a : ℕ) : (read8 m a).value = m a := rfl
@[simp] theorem value_read16 (m : Mem) (a : ℕ) : (read16 m a).value = load16 m a := rfl
@[simp] theorem value_readRange (m : Mem) (a n : ℕ) :
    (readRange m a n).value = readBytes m a n := rfl

/-- An address in the buffer. -/
def InBuffer (buf ltv_buf_size a : ℕ) : Prop := buf ≤ a ∧ a < buf + ltv_buf_size

section within

variable {m : Mem} {buf ltv_buf_size a n : ℕ}

theorem within_read8 (h : InBuffer buf ltv_buf_size a) :
    Within (InBuffer buf ltv_buf_size) (read8 m a) := by
  intro place hmem
  rwa [List.mem_singleton.mp hmem]

theorem within_read16 (hlo : buf ≤ a) (hhi : a + 2 ≤ buf + ltv_buf_size) :
    Within (InBuffer buf ltv_buf_size) (read16 m a) := by
  intro place hmem
  have hplace : place = a ∨ place = a + 1 := by simpa [read16] using hmem
  unfold InBuffer
  omega

theorem within_readRange (hlo : buf ≤ a) (hhi : a + n ≤ buf + ltv_buf_size) :
    Within (InBuffer buf ltv_buf_size) (readRange m a n) := by
  intro place hmem
  obtain ⟨i, hi, rfl⟩ := List.mem_map.mp hmem
  rw [List.mem_range] at hi
  unfold InBuffer
  omega

end within

/-- The first byte that is not the expected one ends the comparison. -/
def cert_x509_asn1_decode_size_header_reads (m : Mem) (header : ℕ) : Reading ℕ ℕ := do
  let b0 ← read8 m header
  if b0 ≠ 0x30 then pure 0
  else do
    let b1 ← read8 m (header + 1)
    if b1 ≠ 0x82 then pure 0
    else do
      let b2 ← read8 m (header + 2)
      let b3 ← read8 m (header + 3)
      pure (b2.toNat * 256 + b3.toNat + 4)

/-- The sanity check on the size of the body. -/
def check_body_reads (m : Mem) (obj : PersoTlvCertObj) : Reading ℕ (RomError × PersoTlvCertObj) :=
  if obj.obj_type = kPersoObjectTypeX509Cert then do
    let decoded_cert_size ← cert_x509_asn1_decode_size_header_reads m obj.cert_body_p
    if decoded_cert_size ≠ obj.cert_body_size then pure (.kErrorPersoTlvInternal, obj)
    else pure (.kErrorOk, obj)
  else pure (.kErrorOk, obj)

/-- From the certificate header on, with the buffer behind the first header. -/
def parse_cert_reads (m : Mem) (buf ltv_buf_size : ℕ) (obj : PersoTlvCertObj) :
    Reading ℕ (RomError × PersoTlvCertObj) :=
  if ltv_buf_size < kCertHeaderSize then pure (.kErrorPersoTlvInternal, obj)
  else do
    let crth ← read16 m buf
    let name_len := PERSO_TLV_GET_FIELD crthNameSize crth
    let wrapped_cert_size := PERSO_TLV_GET_FIELD crthSize crth
    if wrapped_cert_size < kCertHeaderSize + name_len + 4 ∨ wrapped_cert_size > ltv_buf_size then
      pure (.kErrorPersoTlvInternal, obj)
    else
      let buf := buf + kCertHeaderSize
      let ltv_buf_size := ltv_buf_size - kCertHeaderSize
      if ltv_buf_size < name_len then pure (.kErrorPersoTlvInternal, obj)
      else do
        let name ← readRange m buf name_len
        check_body_reads m { obj with
          name := writeBytes (writeBytes obj.name 0 name) name_len [0]
          cert_body_size := wrapped_cert_size - kCertHeaderSize - name_len
          cert_body_p := buf + name_len }

def perso_tlv_get_cert_obj_reads (m : Mem) (buf ltv_buf_size : ℕ) (obj : PersoTlvCertObj) :
    Reading ℕ (RomError × PersoTlvCertObj) :=
  if ltv_buf_size < kObjectHeaderSize then pure (.kErrorPersoTlvInternal, obj)
  else do
    let objh ← read16 m buf
    let obj := { obj with obj_p := buf }
    let obj_size := PERSO_TLV_GET_FIELD objhSize objh
    if obj_size = 0 then pure (.kErrorPersoTlvCertObjNotFound, obj)
    else if obj_size > ltv_buf_size then pure (.kErrorPersoTlvInternal, obj)
    else
      let obj_type := PERSO_TLV_GET_FIELD objhType objh
      let obj := { obj with obj_size, obj_type }
      if obj_type ≠ kPersoObjectTypeX509Cert ∧ obj_type ≠ kPersoObjectTypeCwtCert ∧
          obj_type ≠ kPersoObjectTypeX509Tbs then pure (.kErrorPersoTlvCertObjNotFound, obj)
      else
        parse_cert_reads m (buf + kObjectHeaderSize) (ltv_buf_size - kObjectHeaderSize) obj

theorem value_decode_size_header (m : Mem) (header : ℕ) :
    (cert_x509_asn1_decode_size_header_reads m header).value =
      cert_x509_asn1_decode_size_header m header := by
  unfold cert_x509_asn1_decode_size_header
  rw [ite_or]
  refine value_ite_eq (fun _ => rfl) fun _ => ?_
  exact value_ite_eq (fun _ => rfl) fun _ => rfl

theorem value_check_body (m : Mem) (obj : PersoTlvCertObj) :
    (check_body_reads m obj).value =
      if obj.obj_type = kPersoObjectTypeX509Cert ∧
          cert_x509_asn1_decode_size_header m obj.cert_body_p ≠ obj.cert_body_size then
        (.kErrorPersoTlvInternal, obj)
      else (.kErrorOk, obj) := by
  rw [ite_and]
  refine value_ite_eq (fun _ => ?_) fun _ => rfl
  rw [← value_decode_size_header]
  exact value_ite_eq (fun _ => rfl) fun _ => rfl

/-- The second version computes what the first one does. -/
theorem value_get_cert_obj (m : Mem) (buf ltv_buf_size : ℕ) (obj : PersoTlvCertObj) :
    (perso_tlv_get_cert_obj_reads m buf ltv_buf_size obj).value =
      perso_tlv_get_cert_obj m buf ltv_buf_size obj := by
  refine value_ite_eq (fun _ => rfl) fun _ => ?_
  refine value_ite_eq (fun _ => rfl) fun _ => ?_
  refine value_ite_eq (fun _ => rfl) fun _ => ?_
  refine value_ite_eq (fun _ => rfl) fun _ => ?_
  refine value_ite_eq (fun _ => rfl) fun _ => ?_
  refine value_ite_eq (fun _ => rfl) fun _ => ?_
  refine value_ite_eq (fun _ => rfl) fun _ => ?_
  exact value_check_body m _

/-! ## Nothing behind the buffer is read -/

section within

variable {m : Mem} {buf ltv_buf_size a : ℕ}

theorem within_decode_size_header (hlo : buf ≤ a) (hhi : a + 4 ≤ buf + ltv_buf_size) :
    Within (InBuffer buf ltv_buf_size) (cert_x509_asn1_decode_size_header_reads m a) := by
  have hin : ∀ i < 4, InBuffer buf ltv_buf_size (a + i) := by
    intro i hi
    exact ⟨by omega, by omega⟩
  apply Within.bind (within_read8 (hin 0 (by omega)))
  refine Within.ite (fun _ => within_pure _) fun _ => ?_
  apply Within.bind (within_read8 (hin 1 (by omega)))
  refine Within.ite (fun _ => within_pure _) fun _ => ?_
  apply Within.bind (within_read8 (hin 2 (by omega)))
  apply Within.bind (within_read8 (hin 3 (by omega)))
  exact within_pure _

theorem within_check_body {obj : PersoTlvCertObj} (hlo : buf ≤ obj.cert_body_p)
    (hhi : obj.cert_body_p + 4 ≤ buf + ltv_buf_size) :
    Within (InBuffer buf ltv_buf_size) (check_body_reads m obj) := by
  refine Within.ite (fun _ => ?_) fun _ => within_pure _
  apply Within.bind (within_decode_size_header hlo hhi)
  exact Within.ite (fun _ => within_pure _) fun _ => within_pure _

/-- The size in the certificate header leaves four bytes for the certificate behind the
name, so the sanity check reads within the buffer too. -/
theorem within_parse_cert {n : ℕ} {obj : PersoTlvCertObj} (hlo : buf ≤ a)
    (hhi : a + n ≤ buf + ltv_buf_size) :
    Within (InBuffer buf ltv_buf_size) (parse_cert_reads m a n obj) := by
  refine Within.ite (fun _ => within_pure _) fun hheader => ?_
  unfold kCertHeaderSize at hheader
  apply Within.bind (within_read16 hlo (by omega))
  refine Within.ite (fun _ => within_pure _) fun hsize => ?_
  refine Within.ite (fun _ => within_pure _) fun hname => ?_
  rw [value_read16] at hsize hname
  unfold kCertHeaderSize at hsize hname
  apply Within.bind
  · exact within_readRange (by unfold kCertHeaderSize; omega)
      (by rw [value_read16]; unfold kCertHeaderSize; omega)
  · exact within_check_body (by simp only [value_read16, kCertHeaderSize]; omega)
      (by simp only [value_read16, kCertHeaderSize]; omega)

theorem within_get_cert_obj (obj : PersoTlvCertObj) :
    Within (InBuffer buf ltv_buf_size) (perso_tlv_get_cert_obj_reads m buf ltv_buf_size obj) := by
  refine Within.ite (fun _ => within_pure _) fun hheader => ?_
  unfold kObjectHeaderSize at hheader
  apply Within.bind (within_read16 (Nat.le_refl buf) (by omega))
  refine Within.ite (fun _ => within_pure _) fun _ => ?_
  refine Within.ite (fun _ => within_pure _) fun _ => ?_
  refine Within.ite (fun _ => within_pure _) fun _ => ?_
  exact within_parse_cert (Nat.le_add_right _ _) (by unfold kObjectHeaderSize; omega)

end within

/-! ## What is accepted -/

section accepted

variable (m : Mem) (buf : ℕ)

/-- The fields of the two headers. -/
def objSizeAt : ℕ := PERSO_TLV_GET_FIELD objhSize (load16 m buf)
def objTypeAt : ℕ := PERSO_TLV_GET_FIELD objhType (load16 m buf)
def nameLenAt : ℕ := PERSO_TLV_GET_FIELD crthNameSize (load16 m (buf + kObjectHeaderSize))
def certSizeAt : ℕ := PERSO_TLV_GET_FIELD crthSize (load16 m (buf + kObjectHeaderSize))

/-- Where the certificate starts. -/
def bodyAt : ℕ := buf + kObjectHeaderSize + kCertHeaderSize + nameLenAt m buf

/-- What the headers of an accepted object say: both sizes fit the buffer, the size of the
certificate has room for its header, the name and four bytes, and an X.509 certificate has
the size that it says itself. -/
structure Accepted (ltv_buf_size : ℕ) : Prop where
  nonempty : objSizeAt m buf ≠ 0
  fits : objSizeAt m buf ≤ ltv_buf_size
  type : objTypeAt m buf = kPersoObjectTypeX509Cert ∨ objTypeAt m buf = kPersoObjectTypeCwtCert ∨
    objTypeAt m buf = kPersoObjectTypeX509Tbs
  cert_min : kCertHeaderSize + nameLenAt m buf + 4 ≤ certSizeAt m buf
  cert_fits : kObjectHeaderSize + certSizeAt m buf ≤ ltv_buf_size
  x509_size : objTypeAt m buf = kPersoObjectTypeX509Cert →
    cert_x509_asn1_decode_size_header m (bodyAt m buf) =
      certSizeAt m buf - kCertHeaderSize - nameLenAt m buf

variable {m buf} {ltv_buf_size : ℕ} (obj : PersoTlvCertObj)

/-- An accepted object is what its headers say. -/
theorem Accepted.get_cert_obj (h : Accepted m buf ltv_buf_size) :
    perso_tlv_get_cert_obj m buf ltv_buf_size obj =
      (.kErrorOk, ⟨buf, objSizeAt m buf, objTypeAt m buf, bodyAt m buf,
        certSizeAt m buf - kCertHeaderSize - nameLenAt m buf,
        writeBytes (writeBytes obj.name 0 (readBytes m (buf + kObjectHeaderSize + kCertHeaderSize)
          (nameLenAt m buf))) (nameLenAt m buf) [0]⟩) := by
  obtain ⟨hnonempty, hfits, htype, hmin, hmax, hx509⟩ := h
  have hheaders : ¬ ltv_buf_size < kObjectHeaderSize ∧
      ¬ ltv_buf_size - kObjectHeaderSize < kCertHeaderSize ∧
      ¬ ltv_buf_size - kObjectHeaderSize - kCertHeaderSize < nameLenAt m buf := by
    omega
  have hknown : ¬ (objTypeAt m buf ≠ kPersoObjectTypeX509Cert ∧
      objTypeAt m buf ≠ kPersoObjectTypeCwtCert ∧ objTypeAt m buf ≠ kPersoObjectTypeX509Tbs) := by
    rintro ⟨h1, h2, h3⟩
    exact htype.elim h1 fun h => h.elim h2 h3
  refine (if_neg hheaders.1).trans ?_
  refine (if_neg hnonempty).trans ?_
  refine (if_neg (Nat.not_lt.mpr hfits)).trans ?_
  refine (if_neg hknown).trans ?_
  refine (if_neg hheaders.2.1).trans ?_
  refine (if_neg (show ¬ (certSizeAt m buf < kCertHeaderSize + nameLenAt m buf + 4 ∨
    certSizeAt m buf > ltv_buf_size - kObjectHeaderSize) by omega)).trans ?_
  refine (if_neg hheaders.2.2).trans ?_
  refine (if_neg (not_and.mpr fun htype => not_not.mpr (hx509 htype))).trans ?_
  rfl

/-- A check that ends in an error was passed on the way to a success. -/
theorem ok_of_ite {c : Prop} [Decidable c] {e : RomError} {o : PersoTlvCertObj}
    {y : RomError × PersoTlvCertObj} (h : (if c then (e, o) else y).1 = .kErrorOk)
    (he : e ≠ .kErrorOk) : ¬ c ∧ y.1 = .kErrorOk := by
  by_cases hc : c
  · rw [if_pos hc] at h
    exact absurd h he
  · rw [if_neg hc] at h
    exact ⟨hc, h⟩

/-- The function succeeds for nothing else. -/
theorem accepted_of_ok (hok : (perso_tlv_get_cert_obj m buf ltv_buf_size obj).1 = .kErrorOk) :
    Accepted m buf ltv_buf_size := by
  obtain ⟨hheader, hok⟩ := ok_of_ite hok nofun
  obtain ⟨hnonempty, hok⟩ := ok_of_ite hok nofun
  obtain ⟨hfits, hok⟩ := ok_of_ite hok nofun
  obtain ⟨htype, hok⟩ := ok_of_ite hok nofun
  obtain ⟨hcert, hok⟩ := ok_of_ite hok nofun
  obtain ⟨hsize, hok⟩ := ok_of_ite hok nofun
  obtain ⟨hname, hok⟩ := ok_of_ite hok nofun
  obtain ⟨hx509, -⟩ := ok_of_ite hok nofun
  change ¬ (certSizeAt m buf < kCertHeaderSize + nameLenAt m buf + 4 ∨
    certSizeAt m buf > ltv_buf_size - kObjectHeaderSize) at hsize
  obtain ⟨hmin, hmax⟩ := not_or.mp hsize
  refine ⟨hnonempty, Nat.not_lt.mp hfits, ?_, Nat.not_lt.mp hmin, by omega, ?_⟩
  · by_contra hunknown
    obtain ⟨h1, h2⟩ := not_or.mp hunknown
    exact htype ⟨h1, not_or.mp h2⟩
  · intro hx
    by_contra hne
    exact hx509 ⟨hx, hne⟩

/-- Nothing behind the end of the certificate counts. -/
theorem Accepted.congr {m' : Mem} (h : Accepted m buf ltv_buf_size)
    (hsame : ∀ x < buf + kObjectHeaderSize + certSizeAt m buf, m' x = m x) :
    perso_tlv_get_cert_obj m' buf ltv_buf_size obj =
      perso_tlv_get_cert_obj m buf ltv_buf_size obj := by
  have hmin := h.cert_min
  have hbody : bodyAt m buf = buf + kObjectHeaderSize + kCertHeaderSize + nameLenAt m buf := rfl
  have hobjh : load16 m' buf = load16 m buf := by
    rw [load16, load16, hsame _ (by omega), hsame _ (by omega)]
  have hcrth : load16 m' (buf + kObjectHeaderSize) = load16 m (buf + kObjectHeaderSize) := by
    rw [load16, load16, hsame _ (by omega), hsame _ (by omega)]
  have hsize : objSizeAt m' buf = objSizeAt m buf := by rw [objSizeAt, objSizeAt, hobjh]
  have htype : objTypeAt m' buf = objTypeAt m buf := by rw [objTypeAt, objTypeAt, hobjh]
  have hname : nameLenAt m' buf = nameLenAt m buf := by rw [nameLenAt, nameLenAt, hcrth]
  have hcert : certSizeAt m' buf = certSizeAt m buf := by rw [certSizeAt, certSizeAt, hcrth]
  have hbody' : bodyAt m' buf = bodyAt m buf := by rw [bodyAt, bodyAt, hname]
  -- the size that the certificate says is in its first four bytes
  have hx509 : cert_x509_asn1_decode_size_header m' (bodyAt m buf) =
      cert_x509_asn1_decode_size_header m (bodyAt m buf) := by
    unfold cert_x509_asn1_decode_size_header
    rw [hsame _ (by omega), hsame _ (by omega), hsame _ (by omega), hsame _ (by omega)]
  have haccepted : Accepted m' buf ltv_buf_size := by
    refine ⟨?_, ?_, ?_, ?_, ?_, ?_⟩ <;> simp only [hsize, htype, hname, hcert, hbody', hx509]
    · exact h.nonempty
    · exact h.fits
    · exact h.type
    · exact h.cert_min
    · exact h.cert_fits
    · exact h.x509_size
  have hbytes : readBytes m' (buf + kObjectHeaderSize + kCertHeaderSize) (nameLenAt m buf) =
      readBytes m (buf + kObjectHeaderSize + kCertHeaderSize) (nameLenAt m buf) :=
    (readBytes_eq_iff _ _ _ _ _).mpr fun i hi => hsame _ (by omega)
  rw [haccepted.get_cert_obj, h.get_cert_obj, hsize, htype, hname, hcert, hbody', hbytes]

end accepted

/-! ## The certificate and its object -/

/-- An accepted certificate lies in its object, and is what the headers and the name leave
of it. -/
def CertInside (m : Mem) (buf ltv_buf_size : ℕ) (obj : PersoTlvCertObj) : Prop :=
  let r := perso_tlv_get_cert_obj m buf ltv_buf_size obj
  r.1 = .kErrorOk →
    r.2.obj_size ≤ ltv_buf_size ∧
      (r.2.obj_p ≤ r.2.cert_body_p ∧
        r.2.cert_body_p + r.2.cert_body_size ≤ r.2.obj_p + r.2.obj_size) ∧
      r.2.cert_body_size + kObjectHeaderSize + kCertHeaderSize + nameLenAt m buf = r.2.obj_size

/-- No byte outside the buffer is read. -/
def ReadsInBuffer (m : Mem) (buf ltv_buf_size : ℕ) (obj : PersoTlvCertObj) : Prop :=
  Within (InBuffer buf ltv_buf_size) (perso_tlv_get_cert_obj_reads m buf ltv_buf_size obj) ∧
    (perso_tlv_get_cert_obj_reads m buf ltv_buf_size obj).value =
      perso_tlv_get_cert_obj m buf ltv_buf_size obj

/-- The certificate lies in its object exactly when the two sizes agree. The reads are in
the buffer in any case. -/
theorem cert_inside_iff (m : Mem) (buf ltv_buf_size : ℕ) (obj : PersoTlvCertObj) :
    CertInside m buf ltv_buf_size obj ∧ ReadsInBuffer m buf ltv_buf_size obj ↔
      (Accepted m buf ltv_buf_size → kObjectHeaderSize + certSizeAt m buf = objSizeAt m buf) := by
  have hreads : ReadsInBuffer m buf ltv_buf_size obj :=
    ⟨within_get_cert_obj obj, value_get_cert_obj m buf ltv_buf_size obj⟩
  rw [and_iff_left hreads]
  constructor
  · intro hinside haccepted
    have hget := haccepted.get_cert_obj obj
    have hmin := haccepted.cert_min
    unfold CertInside at hinside
    rw [hget] at hinside
    obtain ⟨-, -, hbody⟩ := hinside rfl
    change certSizeAt m buf - kCertHeaderSize - nameLenAt m buf + kObjectHeaderSize +
      kCertHeaderSize + nameLenAt m buf = objSizeAt m buf at hbody
    omega
  · intro hagree hok
    have haccepted := accepted_of_ok obj hok
    have hget := haccepted.get_cert_obj obj
    have hmin := haccepted.cert_min
    have hsizes := hagree haccepted
    rw [hget]
    simp only [bodyAt]
    have hfits := haccepted.fits
    omega

/-- An object of four bytes in a buffer of eight, with a certificate of four bytes behind
the object. -/
def overhanging : Mem := fun a => ([0x30, 0x04, 0x00, 0x06] : List u8).getD a 0

theorem overhanging_not_inside :
    ¬ (CertInside overhanging 0 8 ⟨0, 0, 0, 0, 0, fun _ => 0⟩ ∧
      ReadsInBuffer overhanging 0 8 ⟨0, 0, 0, 0, 0, fun _ => 0⟩) := by
  intro h
  have hinside := h.1 (by decide)
  exact absurd hinside.2.1.2 (by decide)

end IbexFirmware.PersoTlvObject
