/-
The encodings of PKCS #1 (RFC 8017): the mask generation function MGF1 and the encodings
EMSA-PKCS1-v1_5, EMSA-PSS and EME-OAEP, over an arbitrary hash.

A hash is a function of a string whose digests have one length. The encodings are defined as
the RFC constructs them. What a decoder needs is the other direction: `emsa_pss_iff` and
`eme_oaep_iff` say of an arbitrary string, cut where the parts of an encoding are, when it is
one, by equations that a decoder can check. In both, a mask is taken off again by adding it
once more (`xor_xor_cancel`); the one bit that PSS clears is why it needs the mask's own bit
not to matter (`clear_top_xor`).
-/
import IbexFirmware.Lib.Der

set_option autoImplicit false

namespace IbexFirmware.Pkcs1

open Bytes

/-! ## Exclusive or of strings -/

def xor_bytes (x y : List u8) : List u8 := List.zipWith (· ^^^ ·) x y

@[simp] theorem length_xor_bytes (x y : List u8) :
    (xor_bytes x y).length = min x.length y.length := by
  simp [xor_bytes]

theorem xor_xor_cancel {x y : List u8} (h : x.length = y.length) :
    xor_bytes (xor_bytes x y) y = x := by
  induction x generalizing y with
  | nil => rfl
  | cons a x ih =>
      cases y with
      | nil => cases h
      | cons b y =>
          have hrest := ih (Nat.succ.inj h)
          have hbyte : (a ^^^ b) ^^^ b = a := by
            rw [BitVec.xor_assoc, BitVec.xor_self, BitVec.xor_zero]
          unfold xor_bytes at hrest ⊢
          rw [List.zipWith_cons_cons, List.zipWith_cons_cons, hbyte, hrest]

/-- A masked string and the string under it determine each other. -/
theorem xor_eq_iff {x y mask : List u8} (hx : x.length = mask.length) (hy : y.length = mask.length) :
    xor_bytes x mask = y ↔ x = xor_bytes y mask := by
  constructor
  · rintro rfl
    exact (xor_xor_cancel hx).symm
  · rintro rfl
    exact xor_xor_cancel hy

theorem xor_bytes_append {x y a b : List u8} (h : x.length = a.length) :
    xor_bytes (x ++ y) (a ++ b) = xor_bytes x a ++ xor_bytes y b := List.zipWith_append h

theorem xor_bytes_comm (x y : List u8) : xor_bytes x y = xor_bytes y x := by
  unfold xor_bytes
  rw [List.zipWith_comm]
  simp only [BitVec.xor_comm]

/-- Zeros leave a string as it is. -/
theorem xor_zeros {x : List u8} {n : ℕ} (h : x.length = n) : xor_bytes (List.replicate n 0) x = x := by
  subst h
  induction x with
  | nil => rfl
  | cons b x ih =>
      unfold xor_bytes at ih ⊢
      rw [List.length_cons, List.replicate_succ, List.zipWith_cons_cons, ih]
      simp

/-! ## The mask generation function -/

/-- A number as four octets, the highest first. -/
def i2osp4 (n : ℕ) : List u8 :=
  [BitVec.ofNat 8 (n / 2 ^ 24), BitVec.ofNat 8 (n / 2 ^ 16), BitVec.ofNat 8 (n / 2 ^ 8),
    BitVec.ofNat 8 n]

/-- A hash, whose digests have `len` octets. -/
structure Hash where
  digest : List u8 → List u8
  len : ℕ
  length_digest : ∀ m, (digest m).length = len
  len_pos : 0 < len

variable (H : Hash)

/-- The digests that make up a mask, from counter `c` on. -/
def mgf1_blocks (seed : List u8) (c n : ℕ) : List u8 :=
  (List.range' c n).flatMap fun i => H.digest (seed ++ i2osp4 i)

/-- MGF1: the leading `len` octets of enough digests. -/
def mgf1 (seed : List u8) (len : ℕ) : List u8 :=
  (mgf1_blocks H seed 0 ((len + H.len - 1) / H.len)).take len

theorem length_mgf1_blocks (seed : List u8) (c n : ℕ) :
    (mgf1_blocks H seed c n).length = H.len * n := by
  induction n generalizing c with
  | zero => rfl
  | succ n ih =>
      have hrest := ih (c + 1)
      unfold mgf1_blocks at hrest ⊢
      rw [List.range'_succ, List.flatMap_cons, List.length_append, hrest, H.length_digest]
      ring

@[simp] theorem length_mgf1 (seed : List u8) (len : ℕ) : (mgf1 H seed len).length = len := by
  have henough := Nat.div_add_mod (len + H.len - 1) H.len
  have hrest := Nat.mod_lt (len + H.len - 1) H.len_pos
  rw [mgf1, List.length_take, length_mgf1_blocks]
  omega

/-! ## EMSA-PKCS1-v1_5 -/

/-- `DigestInfo`: a sequence of the algorithm, with a null for its parameters, and the digest. -/
def digest_info (oid digest : List u8) : List u8 :=
  Der.tlv 0x30 (Der.tlv 0x30 (Der.tlv 0x06 oid ++ Der.tlv 0x05 []) ++ Der.tlv 0x04 digest)

/-- All the lengths are in the short form. -/
theorem digest_info_short {oid digest : List u8} (h : oid.length + digest.length ≤ 110) :
    digest_info oid digest =
      [0x30, BitVec.ofNat 8 (oid.length + digest.length + 8),
        0x30, BitVec.ofNat 8 (oid.length + 4), 0x06, BitVec.ofNat 8 oid.length] ++ oid ++
        [0x05, 0x00, 0x04, BitVec.ofNat 8 digest.length] ++ digest := by
  have hoid : Der.tlv 0x06 oid = [0x06, BitVec.ofNat 8 oid.length] ++ oid := by
    rw [Der.tlv, Der.lengthOctets_short (by omega)]
  have hnull : Der.tlv 0x05 [] = [0x05, 0x00] := by
    rw [Der.tlv, List.length_nil, Der.lengthOctets_short (by omega)]
    rfl
  have hdigest : Der.tlv 0x04 digest = [0x04, BitVec.ofNat 8 digest.length] ++ digest := by
    rw [Der.tlv, Der.lengthOctets_short (by omega)]
  have halgorithm : Der.tlv 0x30 (Der.tlv 0x06 oid ++ Der.tlv 0x05 []) =
      [0x30, BitVec.ofNat 8 (oid.length + 4), 0x06, BitVec.ofNat 8 oid.length] ++ oid ++
        [0x05, 0x00] := by
    have hlen : (Der.tlv 0x06 oid ++ Der.tlv 0x05 []).length = oid.length + 4 := by
      rw [hoid, hnull]
      simp
    rw [Der.tlv, hlen, Der.lengthOctets_short (by omega), hoid, hnull]
    simp
  have hlen : (Der.tlv 0x30 (Der.tlv 0x06 oid ++ Der.tlv 0x05 []) ++ Der.tlv 0x04 digest).length =
      oid.length + digest.length + 8 := by
    rw [halgorithm, hdigest]
    simp
    omega
  rw [digest_info, Der.tlv, hlen, Der.lengthOctets_short (by omega), halgorithm, hdigest]
  simp

/-- The encoding of a digest info `t`: `00 01 ff … ff 00 t`. -/
def emsa_pkcs1_v1_5 (t : List u8) (len : ℕ) : List u8 :=
  [0x00, 0x01] ++ List.replicate (len - t.length - 3) 0xff ++ [0x00] ++ t

/-! ## EMSA-PSS -/

/-- A string with the highest bit of its first octet cleared. -/
def clear_top : List u8 → List u8
  | [] => []
  | b :: bs => (b &&& 0x7f) :: bs

/-- The highest bit of the first octet is clear. -/
def TopClear (x : List u8) : Prop := clear_top x = x

theorem clear_top_idem (x : List u8) : TopClear (clear_top x) := by
  cases x with
  | nil => rfl
  | cons b x =>
      have hbyte : b &&& 0x7f &&& 0x7f = b &&& 0x7f := by rw [BitVec.and_assoc, BitVec.and_self]
      rw [TopClear, clear_top, clear_top, hbyte]

/-- The cleared bit makes no difference under a mask that is cleared afterwards. -/
theorem clear_top_xor (x mask : List u8) :
    clear_top (xor_bytes (clear_top x) mask) = clear_top (xor_bytes x mask) := by
  cases x with
  | nil => rfl
  | cons b x =>
      cases mask with
      | nil => rfl
      | cons m mask =>
          have hbyte : ((b &&& 0x7f) ^^^ m) &&& 0x7f = (b ^^^ m) &&& 0x7f := by
            apply BitVec.eq_of_getLsbD_eq
            intro i hi
            simp only [BitVec.getLsbD_and, BitVec.getLsbD_xor]
            cases (0x7f : u8).getLsbD i <;> simp
          simp only [clear_top, xor_bytes, List.zipWith_cons_cons]
          rw [hbyte]

/-- A string whose highest bit is clear comes back from under a mask. -/
theorem unmask_cleared {x mask : List u8} (hlen : x.length = mask.length) (hx : TopClear x) :
    clear_top (xor_bytes (clear_top (xor_bytes x mask)) mask) = x := by
  rw [clear_top_xor, xor_xor_cancel hlen]
  exact hx

/-- `DB`: zeros, a one and the salt. -/
def pss_db (salt : List u8) (len : ℕ) : List u8 :=
  List.replicate (len - salt.length - 1) 0 ++ [0x01] ++ salt

/-- `H`: the digest of eight zeros, the digest of the message and the salt. -/
def pss_h (mhash salt : List u8) : List u8 := H.digest (List.replicate 8 0 ++ mhash ++ salt)

/-- The encoding of the digest `mhash` of a message, with a given salt, for a modulus of
`8 * len` bits. -/
def emsa_pss (mhash salt : List u8) (len : ℕ) : List u8 :=
  let h := pss_h H mhash salt
  let db_len := len - H.len - 1
  clear_top (xor_bytes (pss_db salt db_len) (mgf1 H h db_len)) ++ h ++ [0xbc]

theorem length_pss_db {salt : List u8} {len : ℕ} (h : salt.length < len) :
    (pss_db salt len).length = len := by
  simp [pss_db]
  omega

theorem topClear_pss_db (salt : List u8) (len : ℕ) : TopClear (pss_db salt len) := by
  unfold pss_db
  cases len - salt.length - 1 with
  | zero => rfl
  | succ n => rfl

/-- When a string, cut into a masked `DB`, an `H` and a last octet, is an encoding with some
salt of length `salt_len`. -/
theorem emsa_pss_iff {mhash masked h : List u8} {last : u8} {len salt_len : ℕ}
    (hlen : salt_len + H.len + 2 ≤ len) (hmasked : masked.length = len - H.len - 1)
    (hh : h.length = H.len) :
    (∃ salt, salt.length = salt_len ∧ masked ++ h ++ [last] = emsa_pss H mhash salt len) ↔
      last = 0xbc ∧ TopClear masked ∧ ∃ salt, salt.length = salt_len ∧
        clear_top (xor_bytes masked (mgf1 H h (len - H.len - 1))) =
          pss_db salt (len - H.len - 1) ∧
        h = pss_h H mhash salt := by
  have hmask : (mgf1 H h (len - H.len - 1)).length = len - H.len - 1 := length_mgf1 ..
  constructor
  · rintro ⟨salt, hsalt, heq⟩
    have hdb : (pss_db salt (len - H.len - 1)).length = len - H.len - 1 :=
      length_pss_db (by omega)
    obtain ⟨hfront, hlast⟩ := List.append_inj' heq rfl
    obtain ⟨hdbeq, hheq⟩ := List.append_inj' hfront (hh.trans (H.length_digest _).symm)
    subst hheq
    refine ⟨List.singleton_inj.mp hlast, ?_, salt, hsalt, ?_, rfl⟩
    · rw [hdbeq]
      exact clear_top_idem _
    · rw [hdbeq]
      exact unmask_cleared (hdb.trans hmask.symm) (topClear_pss_db salt _)
  · rintro ⟨rfl, htop, salt, hsalt, hdb, rfl⟩
    refine ⟨salt, hsalt, ?_⟩
    simp only [emsa_pss]
    rw [← hdb, unmask_cleared (hmasked.trans hmask.symm) htop]

/-! ## EME-OAEP -/

/-- `DB`: the digest of the label, zeros, a one and the message. -/
def oaep_db (lhash message : List u8) (len : ℕ) : List u8 :=
  lhash ++ List.replicate (len - lhash.length - message.length - 1) 0 ++ [0x01] ++ message

/-- The encoding of a message under a label, with a given seed, in `len` octets. -/
def eme_oaep (label message seed : List u8) (len : ℕ) : List u8 :=
  let db_len := len - H.len - 1
  let masked_db := xor_bytes (oaep_db (H.digest label) message db_len) (mgf1 H seed db_len)
  [0x00] ++ xor_bytes seed (mgf1 H masked_db H.len) ++ masked_db

theorem length_oaep_db {lhash message : List u8} {len : ℕ}
    (h : lhash.length + message.length < len) : (oaep_db lhash message len).length = len := by
  simp [oaep_db]
  omega

/-- When a string, cut into a first octet, a masked seed and a masked `DB`, is the encoding of
a message with some seed. -/
theorem eme_oaep_iff {label message masked_seed masked_db : List u8} {first : u8} {len : ℕ}
    (hlen : message.length + 2 * H.len + 2 ≤ len) (hseed : masked_seed.length = H.len)
    (hdb : masked_db.length = len - H.len - 1) :
    (∃ seed, seed.length = H.len ∧
      [first] ++ masked_seed ++ masked_db = eme_oaep H label message seed len) ↔
      first = 0x00 ∧
        xor_bytes masked_db (mgf1 H (xor_bytes masked_seed (mgf1 H masked_db H.len))
          (len - H.len - 1)) = oaep_db (H.digest label) message (len - H.len - 1) := by
  have hmask (seed : List u8) : (mgf1 H seed (len - H.len - 1)).length = len - H.len - 1 :=
    length_mgf1 ..
  have hseedmask : (mgf1 H masked_db H.len).length = H.len := length_mgf1 ..
  have hdblen : (oaep_db (H.digest label) message (len - H.len - 1)).length = len - H.len - 1 :=
    length_oaep_db (by rw [H.length_digest]; omega)
  constructor
  · rintro ⟨seed, hs, heq⟩
    have hfirst : ([first] ++ masked_seed).length = ([0x00] ++ xor_bytes seed (mgf1 H (xor_bytes
        (oaep_db (H.digest label) message (len - H.len - 1)) (mgf1 H seed (len - H.len - 1)))
        H.len)).length := by
      simp [hseed, hs]
    obtain ⟨hfront, hback⟩ := List.append_inj heq hfirst
    obtain ⟨hzero, hmasked⟩ := List.cons_eq_cons.mp hfront
    refine ⟨hzero, ?_⟩
    have hrest : masked_seed = xor_bytes seed (mgf1 H masked_db H.len) := by
      rw [hback]
      exact hmasked
    have hseedeq : xor_bytes masked_seed (mgf1 H masked_db H.len) = seed := by
      rw [hrest]
      exact xor_xor_cancel (hs.trans hseedmask.symm)
    rw [hseedeq, hback]
    exact xor_xor_cancel (hdblen.trans (hmask seed).symm)
  · rintro ⟨rfl, heq⟩
    have hback := (xor_eq_iff (hdb.trans (hmask _).symm) (hdblen.trans (hmask _).symm)).mp heq
    refine ⟨xor_bytes masked_seed (mgf1 H masked_db H.len), by simp [hseed], ?_⟩
    simp only [eme_oaep]
    rw [← hback, xor_xor_cancel (hseed.trans hseedmask.symm)]

end IbexFirmware.Pkcs1
