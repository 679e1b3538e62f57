/-
RSA modular exponentiation on the processor core (`mod_exp_ibex.c`).

Numbers are buffers of `kSigVerifyRsaNumWords` words, least significant first, and each
loop over the words is a recursion over the lists of words it goes through. Every loop has
one equation between the numbers it reads and the number it leaves
(`subtract_modulus_value`, `greater_equal_modulus_iff`, `shift_left_value`,
`mont_mul_step_value`), carries and borrows included; from there on the proof is about
numbers. `mont_mul` keeps its result below `R` and not below the modulus, so only the
comparison at the end makes the result the least residue.

The loop of `calc_r_square` that subtracts the modulus until the number is below it has
no bound in the source, and takes one here: it gives `none` if the bound is too small.
-/
import IbexFirmware.RomError
import IbexFirmware.Lib.Montgomery

set_option autoImplicit false

namespace IbexFirmware.ModExp

open Bytes Montgomery

/-! ## Data -/

def kSigVerifyRsaNumBits : ℕ := 3072
def kSigVerifyRsaNumBytes : ℕ := kSigVerifyRsaNumBits / 8
def kSigVerifyRsaNumWords : ℕ := kSigVerifyRsaNumBytes / 4

structure SigverifyRsaBuffer where
  data : Vector u32 kSigVerifyRsaNumWords

structure SigverifyRsaKey where
  n : SigverifyRsaBuffer
  n0_inv : Vector u32 8

namespace SigverifyRsaBuffer

/-- The words of a buffer in the order of the loops that go up. -/
def words (a : SigverifyRsaBuffer) : List u32 := a.data.toList

/-- The number in a buffer. -/
def value (a : SigverifyRsaBuffer) : ℕ := Limbs.value a.words

/-- The buffer of a list of as many words as a buffer has. -/
def ofWords (ws : List u32) (h : ws.length = kSigVerifyRsaNumWords) : SigverifyRsaBuffer :=
  ⟨⟨ws.toArray, h⟩⟩

@[simp] theorem words_ofWords (ws : List u32) (h : ws.length = kSigVerifyRsaNumWords) :
    (ofWords ws h).words = ws := rfl

@[simp] theorem value_ofWords (ws : List u32) (h : ws.length = kSigVerifyRsaNumWords) :
    (ofWords ws h).value = Limbs.value ws := rfl

@[simp] theorem length_words (a : SigverifyRsaBuffer) :
    a.words.length = kSigVerifyRsaNumWords := by
  simp [words]

/-- A buffer is known by its number. -/
theorem value_injective {a b : SigverifyRsaBuffer} (h : a.value = b.value) : a = b := by
  have hwords : a.words = b.words := Limbs.value_injective (by simp) h
  obtain ⟨a⟩ := a
  obtain ⟨b⟩ := b
  rw [SigverifyRsaBuffer.mk.injEq]
  exact Vector.toList_inj.mp hwords

end SigverifyRsaBuffer

/-- `memset` to zero. -/
def zero_buffer : SigverifyRsaBuffer :=
  .ofWords (List.replicate kSigVerifyRsaNumWords 0) (by simp)

/-- The radix, one more than the largest number of a buffer. -/
def R : ℕ := 2 ^ kSigVerifyRsaNumBits

theorem pow_words : (2 ^ 32) ^ kSigVerifyRsaNumWords = R := by
  have hbits : kSigVerifyRsaNumBits = 32 * kSigVerifyRsaNumWords := rfl
  rw [R, hbits, pow_mul]

theorem value_lt_R (a : SigverifyRsaBuffer) : a.value < R := by
  have h := Limbs.value_lt a.words
  rwa [a.length_words, pow_words] at h

/-! ## The loops -/

/-- The loop of `subtract_modulus`. -/
def subtract_modulus_words (borrow : u32) : List u32 → List u32 → List u32 × u32
  | a :: as, n :: ns =>
      let temp := a - borrow
      let borrow := (if a < borrow then 1 else 0) + (if temp < n then 1 else 0)
      let rest := subtract_modulus_words borrow as ns
      ((temp - n) :: rest.1, rest.2)
  | _, _ => ([], borrow)

theorem length_subtract_modulus_words {as ns : List u32} (hlen : as.length = ns.length)
    (borrow : u32) : (subtract_modulus_words borrow as ns).1.length = as.length := by
  induction as generalizing ns borrow with
  | nil => rfl
  | cons a as ih =>
      cases ns with
      | nil => exact absurd hlen (by simp)
      | cons n ns =>
          simp only [subtract_modulus_words, List.length_cons]
          rw [ih (by simpa using hlen)]

/-- `a -= n`, and the borrow. -/
def subtract_modulus (key : SigverifyRsaKey) (a : SigverifyRsaBuffer) : SigverifyRsaBuffer × u32 :=
  let r := subtract_modulus_words 0 a.words key.n.words
  (.ofWords r.1 (by
    rw [length_subtract_modulus_words (by simp)]
    exact a.length_words), r.2)

/-- The loop of `greater_equal_modulus`, from the most significant word down. -/
def greater_equal_modulus_words : List u32 → List u32 → Bool
  | a :: as, n :: ns => if a ≠ n then n < a else greater_equal_modulus_words as ns
  | _, _ => true

def greater_equal_modulus (key : SigverifyRsaKey) (a : SigverifyRsaBuffer) : Bool :=
  greater_equal_modulus_words a.words.reverse key.n.words.reverse

/-- Each word takes in the most significant bit of the word below it. -/
def shift_left_words (below : u32) : List u32 → List u32
  | [] => []
  | a :: as => (a <<< 1 ||| below >>> 31) :: shift_left_words a as

@[simp] theorem length_shift_left_words (below : u32) (as : List u32) :
    (shift_left_words below as).length = as.length := by
  induction as generalizing below with
  | nil => rfl
  | cons a as ih => simp [shift_left_words, ih]

/-- `a <<= 1`, and the most significant bit. Below the least significant word there is
nothing to take in. -/
def shift_left (a : SigverifyRsaBuffer) : SigverifyRsaBuffer × u32 :=
  let msb := a.data.get ⟨kSigVerifyRsaNumWords - 1, by decide⟩ >>> 31
  (.ofWords (shift_left_words 0 a.words) (by simp), msb)

/-- The accumulators of one column of `mont_mul`: the sum of the first two addends of
step 2.2, and the entire sum. -/
def mont_mul_column (x_i u_i y n r : u32) (acc : u64 × u64) : u64 × u64 :=
  let acc0 := x_i.setWidth 64 * y.setWidth 64 + r.setWidth 64 + acc.1 >>> 32
  let acc1 := u_i.setWidth 64 * n.setWidth 64 + (lo32 acc0).setWidth 64 + acc.2 >>> 32
  (acc0, acc1)

/-- The loop over `j`. A word of the result is written one place below where it is read. -/
def mont_mul_words (x_i u_i : u32) :
    List u32 → List u32 → List u32 → u64 × u64 → List u32 × (u64 × u64)
  | y :: ys, n :: ns, r :: rs, acc =>
      let acc := mont_mul_column x_i u_i y n r acc
      let rest := mont_mul_words x_i u_i ys ns rs acc
      (lo32 acc.2 :: rest.1, rest.2)
  | _, _, _, acc => ([], acc)

theorem length_mont_mul_words (x_i u_i : u32) {ys ns rs : List u32}
    (hn : ns.length = ys.length) (hr : rs.length = ys.length) (acc : u64 × u64) :
    (mont_mul_words x_i u_i ys ns rs acc).1.length = ys.length := by
  induction ys generalizing ns rs acc with
  | nil => rfl
  | cons y ys ih =>
      obtain ⟨n, ns, rfl⟩ : ∃ n ns', ns = n :: ns' := List.exists_cons_of_length_eq_add_one hn
      obtain ⟨r, rs, rfl⟩ : ∃ r rs', rs = r :: rs' := List.exists_cons_of_length_eq_add_one hr
      simp only [mont_mul_words, List.length_cons]
      rw [ih (by simpa using hn) (by simpa using hr)]

/-- What `mont_mul` does for the digit `x_i` before it looks at the carry: the words of the
result, and `acc0`, whose upper word is the carry. -/
def mont_mul_digit (n0_inv : u32) (n y : List u32) (result : List u32) (x_i : u32) :
    List u32 × u64 :=
  match y, n, result with
  | y0 :: ys, n0 :: ns, r0 :: rs =>
      let acc0 := x_i.setWidth 64 * y0.setWidth 64 + r0.setWidth 64
      let u_i := lo32 acc0 * n0_inv
      let acc1 := u_i.setWidth 64 * n0.setWidth 64 + (lo32 acc0).setWidth 64
      let row := mont_mul_words x_i u_i ys ns rs (acc0, acc1)
      let acc0 := row.2.1 >>> 32 + row.2.2 >>> 32
      (row.1 ++ [lo32 acc0], acc0)
  | _, _, _ => (result, 0)

theorem length_mont_mul_digit (n0_inv x_i : u32) {n y result : List u32}
    (hn : n.length = y.length) (hr : result.length = y.length) :
    (mont_mul_digit n0_inv n y result x_i).1.length = y.length := by
  cases y with
  | nil => exact hr
  | cons y0 ys =>
      obtain ⟨n0, ns, rfl⟩ : ∃ n0 ns, n = n0 :: ns := List.exists_cons_of_length_eq_add_one hn
      obtain ⟨r0, rs, rfl⟩ : ∃ r0 rs, result = r0 :: rs := List.exists_cons_of_length_eq_add_one hr
      simp only [mont_mul_digit, List.length_append, List.length_cons, List.length_nil]
      rw [length_mont_mul_words _ _ (by simpa using hn) (by simpa using hr)]

/-- One run of the loop over `i`. -/
def mont_mul_step (key : SigverifyRsaKey) (y result : SigverifyRsaBuffer) (x_i : u32) :
    SigverifyRsaBuffer :=
  let r := mont_mul_digit key.n0_inv[0] key.n.words y.words result.words x_i
  let result := SigverifyRsaBuffer.ofWords r.1 (by
    rw [length_mont_mul_digit _ _ (by simp) (by simp)]
    exact y.length_words)
  if r.2 >>> 32 ≠ 0 then (subtract_modulus key result).1 else result

def mont_mul (key : SigverifyRsaKey) (x y : SigverifyRsaBuffer) : SigverifyRsaBuffer :=
  x.words.foldl (mont_mul_step key y) zero_buffer

/-- Subtracts until `buf < n`, in at most `fuel` tests. -/
def reduce_modulus (key : SigverifyRsaKey) : ℕ → u32 → SigverifyRsaBuffer → Option SigverifyRsaBuffer
  | 0, _, _ => none
  | fuel + 1, msb, buf =>
      if 0 < msb ∨ greater_equal_modulus key buf then
        let r := subtract_modulus key buf
        reduce_modulus key fuel (msb - r.2) r.1
      else some buf

/-- One run of the loop of `calc_r_square`: doubles `buf` and reduces modulo `n`. -/
def double_modulus (fuel : ℕ) (key : SigverifyRsaKey) (buf : SigverifyRsaBuffer) :
    Option SigverifyRsaBuffer :=
  let r := shift_left buf
  reduce_modulus key fuel r.2 r.1

def calc_r_square (fuel : ℕ) (key : SigverifyRsaKey) : Option SigverifyRsaBuffer := do
  let buf := (subtract_modulus key zero_buffer).1
  let buf ← (List.range 96).foldlM (fun buf _ => double_modulus fuel key buf) buf
  let result := mont_mul key buf buf
  some ((List.range 2).foldl (fun result _ =>
    let buf := mont_mul key result result
    mont_mul key buf buf) result)

/-- The result code and what `*result` holds then. -/
def sigverify_mod_exp_ibex (fuel : ℕ) (key : SigverifyRsaKey) (sig result : SigverifyRsaBuffer) :
    Option (RomError × SigverifyRsaBuffer) :=
  if greater_equal_modulus key sig then some (.kErrorSigverifyLargeRsaSignature, result)
  else do
    let result ← calc_r_square fuel key
    let buf := mont_mul key sig result
    let buf := (List.range 8).foldl (fun buf _ =>
      let result := mont_mul key buf buf
      mont_mul key result result) buf
    let result := mont_mul key buf sig
    let result := if greater_equal_modulus key result then (subtract_modulus key result).1
      else result
    some (.kErrorOk, result)

/-! ## Subtraction and comparison -/

/-- One word with its borrow: the difference and what the word above lends it. -/
theorem subtract_word (a n borrow : u32) (hb : borrow.toNat ≤ 1) :
    (a - borrow - n).toNat + n.toNat + borrow.toNat = a.toNat + 2 ^ 32 *
        ((if a < borrow then 1 else 0) + (if a - borrow < n then 1 else 0) : u32).toNat ∧
      ((if a < borrow then 1 else 0) + (if a - borrow < n then 1 else 0) : u32).toNat ≤ 1 := by
  have hone : ((1 : u32) + 0).toNat = 1 ∧ ((0 : u32) + 1).toNat = 1 ∧ ((0 : u32) + 0).toNat = 0 := by
    decide
  by_cases habove : a < borrow
  · -- the word is 0, so its difference with the borrow is the largest one
    have hbelow : ¬ a - borrow < n := by
      simp only [BitVec.lt_def, BitVec.toNat_sub] at habove ⊢
      omega
    rw [if_pos habove, if_neg hbelow, hone.1]
    simp only [BitVec.lt_def, BitVec.toNat_sub] at habove ⊢
    omega
  · by_cases hbelow : a - borrow < n
    · rw [if_neg habove, if_pos hbelow, hone.2.1]
      simp only [BitVec.lt_def, BitVec.toNat_sub] at habove hbelow ⊢
      omega
    · rw [if_neg habove, if_neg hbelow, hone.2.2]
      simp only [BitVec.lt_def, BitVec.toNat_sub] at habove hbelow ⊢
      omega

/-- A borrow is a limb that is missing above. -/
theorem subtract_modulus_words_value {as ns : List u32} (hlen : as.length = ns.length)
    {borrow : u32} (hb : borrow.toNat ≤ 1) :
    let r := subtract_modulus_words borrow as ns
    Limbs.value r.1 + Limbs.value ns + borrow.toNat =
        Limbs.value as + (2 ^ 32) ^ as.length * r.2.toNat ∧ r.2.toNat ≤ 1 := by
  induction as generalizing ns borrow with
  | nil =>
      cases ns with
      | nil => simpa [subtract_modulus_words] using hb
      | cons n ns => exact absurd hlen (by simp)
  | cons a as ih =>
      cases ns with
      | nil => exact absurd hlen (by simp)
      | cons n ns =>
          obtain ⟨hword, hb'⟩ := subtract_word a n borrow hb
          have htail : as.length = ns.length := by simpa using hlen
          obtain ⟨hrest, hlast⟩ := ih htail hb'
          refine ⟨?_, hlast⟩
          simp only [subtract_modulus_words, Limbs.value_cons, List.length_cons]
          rw [pow_succ' (2 ^ 32) as.length, Nat.mul_assoc]
          -- the borrow into this word and the one out of it meet in `hword`
          generalize ((if a < borrow then 1 else 0) + (if a - borrow < n then 1 else 0) : u32) = out
            at hword hrest ⊢
          generalize subtract_modulus_words out as ns = r at hrest ⊢
          generalize (2 ^ 32) ^ as.length * r.2.toNat = top at hrest ⊢
          omega

/-- The difference, the modulus and the borrow. -/
theorem subtract_modulus_value (key : SigverifyRsaKey) (a : SigverifyRsaBuffer) :
    (subtract_modulus key a).1.value + key.n.value =
        a.value + R * (subtract_modulus key a).2.toNat ∧
      (subtract_modulus key a).2.toNat ≤ 1 := by
  have hlen : a.words.length = key.n.words.length := by simp
  have hzero : (0 : u32).toNat ≤ 1 := by simp
  have h := subtract_modulus_words_value hlen hzero
  rw [a.length_words, pow_words] at h
  simpa [subtract_modulus, SigverifyRsaBuffer.value] using h

/-- Without a borrow the modulus was not above the number. -/
theorem subtract_modulus_of_le {key : SigverifyRsaKey} {a : SigverifyRsaBuffer}
    (h : key.n.value ≤ a.value) :
    (subtract_modulus key a).2 = 0#32 ∧ (subtract_modulus key a).1.value = a.value - key.n.value := by
  obtain ⟨hval, hb⟩ := subtract_modulus_value key a
  have hlt := value_lt_R (subtract_modulus key a).1
  have hzero : (subtract_modulus key a).2.toNat = 0 := by
    by_contra hne
    have hone : (subtract_modulus key a).2.toNat = 1 := by omega
    rw [hone] at hval
    omega
  refine ⟨BitVec.eq_of_toNat_eq hzero, ?_⟩
  rw [hzero] at hval
  omega

/-- Below the modulus the subtraction borrows from above the buffer. -/
theorem subtract_modulus_of_lt {key : SigverifyRsaKey} {a : SigverifyRsaBuffer}
    (h : a.value < key.n.value) :
    (subtract_modulus key a).2 = 1#32 ∧
      (subtract_modulus key a).1.value = a.value + R - key.n.value := by
  obtain ⟨hval, hb⟩ := subtract_modulus_value key a
  have hone : (subtract_modulus key a).2.toNat = 1 := by
    by_contra hne
    have hzero : (subtract_modulus key a).2.toNat = 0 := by omega
    rw [hzero] at hval
    omega
  refine ⟨BitVec.eq_of_toNat_eq hone, ?_⟩
  rw [hone] at hval
  omega

theorem greater_equal_modulus_words_iff {as ns : List u32} (hlen : as.length = ns.length) :
    greater_equal_modulus_words as ns = true ↔
      Limbs.value ns.reverse ≤ Limbs.value as.reverse := by
  induction as generalizing ns with
  | nil =>
      cases ns with
      | nil => simp [greater_equal_modulus_words]
      | cons n ns => exact absurd hlen (by simp)
  | cons a as ih =>
      cases ns with
      | nil => exact absurd hlen (by simp)
      | cons n ns =>
          have hlen' : as.reverse.length = ns.reverse.length := by simpa using hlen
          simp only [greater_equal_modulus_words, List.reverse_cons]
          by_cases hword : a = n
          · subst hword
            rw [if_neg (by simp), ih (by simpa using hlen)]
            exact (Limbs.value_append_singleton_le_iff a hlen'.symm).symm
          · rw [if_pos hword, decide_eq_true_iff]
            -- the first words that differ decide
            by_cases hlt : n < a
            · exact iff_of_true hlt (Limbs.value_append_singleton_lt hlen'.symm hlt).le
            · have hgt : a < n := BitVec.lt_of_le_ne (BitVec.not_lt.mp hlt) hword
              exact iff_of_false hlt (Nat.not_le.mpr (Limbs.value_append_singleton_lt hlen' hgt))

theorem greater_equal_modulus_iff (key : SigverifyRsaKey) (a : SigverifyRsaBuffer) :
    greater_equal_modulus key a = true ↔ key.n.value ≤ a.value := by
  unfold greater_equal_modulus
  rw [greater_equal_modulus_words_iff (by simp), List.reverse_reverse, List.reverse_reverse]
  rfl

/-! ## Doubling -/

/-- One word shifted: its top bit leaves and the top bit of the word below enters. -/
theorem shift_left_word (a below : u32) :
    (a <<< 1 ||| below >>> 31).toNat + 2 ^ 32 * (a >>> 31).toNat =
      2 * a.toNat + (below >>> 31).toNat := by
  have hdisjoint : a <<< 1 &&& below >>> 31 = 0#32 := by
    apply BitVec.eq_of_getLsbD_eq
    intro i hi
    by_cases hzero : i = 0
    · simp [hzero]
    · have htop : below.getLsbD (31 + i) = false := BitVec.getLsbD_of_ge below _ (by omega)
      simp [htop]
  rw [← BitVec.add_eq_or_of_and_eq_zero _ _ hdisjoint]
  simp only [BitVec.toNat_add, BitVec.toNat_shiftLeft, BitVec.toNat_ushiftRight,
    Nat.shiftLeft_eq, Nat.shiftRight_eq_div_pow]
  omega

theorem shift_left_words_value (below : u32) (as : List u32) :
    Limbs.value (shift_left_words below as) +
        (2 ^ 32) ^ as.length * (((below :: as).getLast (by simp)) >>> 31).toNat =
      2 * Limbs.value as + (below >>> 31).toNat := by
  induction as generalizing below with
  | nil => simp [shift_left_words]
  | cons a as ih =>
      have hword := shift_left_word a below
      have hrest := ih a
      simp only [shift_left_words, Limbs.value_cons, List.length_cons, List.getLast_cons_cons]
      rw [pow_succ' (2 ^ 32) as.length, Nat.mul_assoc]
      generalize (2 ^ 32) ^ as.length * (((a :: as).getLast (by simp)) >>> 31).toNat = top
        at hrest ⊢
      omega

/-- The shifted number and the bit that did not fit. -/
theorem shift_left_value (a : SigverifyRsaBuffer) :
    (shift_left a).2.toNat * R + (shift_left a).1.value = 2 * a.value := by
  have h := shift_left_words_value 0 a.words
  have hlast : (0 :: a.words).getLast (by simp) =
      a.data.get ⟨kSigVerifyRsaNumWords - 1, by decide⟩ := by
    have hne : a.words ≠ [] := by
      apply List.ne_nil_of_length_pos
      rw [a.length_words]
      decide
    rw [List.getLast_cons hne, List.getLast_eq_getElem]
    simp [SigverifyRsaBuffer.words, Vector.get]
  rw [a.length_words, pow_words, hlast] at h
  have hzero : ((0 : u32) >>> 31).toNat = 0 := by decide
  rw [hzero, Nat.add_zero, Nat.add_comm, Nat.mul_comm] at h
  exact h

/-! ## Montgomery multiplication -/

/-- A double word is its lower word and its upper one. -/
theorem lo32_add_hi (x : u64) : (lo32 x).toNat + 2 ^ 32 * (x >>> 32).toNat = x.toNat := by
  simp only [lo32, BitVec.toNat_setWidth, BitVec.toNat_ushiftRight, Nat.shiftRight_eq_div_pow]
  exact Nat.mod_add_div _ _

theorem hi_lt (x : u64) : (x >>> 32).toNat < 2 ^ 32 := by
  simp only [BitVec.toNat_ushiftRight, Nat.shiftRight_eq_div_pow]
  omega

/-- A product of two words, a word and a carry do not wrap. -/
theorem toNat_mul_add_add (x y r : u32) {c : u64} (hc : c.toNat < 2 ^ 32) :
    (x.setWidth 64 * y.setWidth 64 + r.setWidth 64 + c).toNat =
      x.toNat * y.toNat + r.toNat + c.toNat := by
  have hbound := Limbs.mul_add_add_lt x.isLt y.isLt r.isLt hc
  have hw : ∀ z : u32, (z.setWidth 64).toNat = z.toNat := fun z =>
    BitVec.toNat_setWidth_of_le (by omega)
  rw [BitVec.toNat_add, BitVec.toNat_add, BitVec.toNat_mul, hw, hw, hw]
  generalize x.toNat * y.toNat = p at hbound ⊢
  rw [Nat.mod_eq_of_lt (show p < 2 ^ 64 by omega),
    Nat.mod_eq_of_lt (show p + r.toNat < 2 ^ 64 by omega), Nat.mod_eq_of_lt (by omega)]

/-- One column: the word that is written and the two carries hold the whole sum. -/
theorem mont_mul_column_value (x_i u_i y n r : u32) (acc : u64 × u64) :
    let acc' := mont_mul_column x_i u_i y n r acc
    (lo32 acc'.2).toNat + 2 ^ 32 * ((acc'.1 >>> 32).toNat + (acc'.2 >>> 32).toNat) =
      x_i.toNat * y.toNat + r.toNat + u_i.toNat * n.toNat +
        (acc.1 >>> 32).toNat + (acc.2 >>> 32).toNat := by
  intro acc'
  have h0 : acc'.1.toNat = x_i.toNat * y.toNat + r.toNat + (acc.1 >>> 32).toNat :=
    toNat_mul_add_add x_i y r (hi_lt acc.1)
  have h1 : acc'.2.toNat = u_i.toNat * n.toNat + (lo32 acc'.1).toNat + (acc.2 >>> 32).toNat :=
    toNat_mul_add_add u_i n (lo32 acc'.1) (hi_lt acc.2)
  have hsplit0 := lo32_add_hi acc'.1
  have hsplit1 := lo32_add_hi acc'.2
  omega

/-- The row of one limb: what is added is x_i times y and u_i times n, and what is carried fits. -/
theorem mont_mul_words_value (x_i u_i : u32) {ys ns rs : List u32}
    (hn : ns.length = ys.length) (hr : rs.length = ys.length) (acc : u64 × u64) :
    let row := mont_mul_words x_i u_i ys ns rs acc
    Limbs.value row.1 +
        (2 ^ 32) ^ ys.length * ((row.2.1 >>> 32).toNat + (row.2.2 >>> 32).toNat) =
      x_i.toNat * Limbs.value ys + Limbs.value rs + u_i.toNat * Limbs.value ns +
        (acc.1 >>> 32).toNat + (acc.2 >>> 32).toNat := by
  induction ys generalizing ns rs acc with
  | nil =>
      obtain rfl := List.length_eq_zero_iff.mp hn
      obtain rfl := List.length_eq_zero_iff.mp hr
      simp [mont_mul_words]
  | cons y ys ih =>
      obtain ⟨n, ns, rfl⟩ : ∃ n ns', ns = n :: ns' := List.exists_cons_of_length_eq_add_one hn
      obtain ⟨r, rs, rfl⟩ : ∃ r rs', rs = r :: rs' := List.exists_cons_of_length_eq_add_one hr
      have hcolumn := mont_mul_column_value x_i u_i y n r acc
      have hn' : ns.length = ys.length := by simpa using hn
      have hr' : rs.length = ys.length := by simpa using hr
      have hrest := ih hn' hr' (mont_mul_column x_i u_i y n r acc)
      simp only [mont_mul_words, Limbs.value_cons, List.length_cons] at hcolumn hrest ⊢
      rw [pow_succ' (2 ^ 32) ys.length, Nat.mul_assoc, Nat.mul_add x_i.toNat,
        Nat.mul_add u_i.toNat, Nat.mul_left_comm x_i.toNat, Nat.mul_left_comm u_i.toNat]
      generalize mont_mul_column x_i u_i y n r acc = acc' at hcolumn hrest ⊢
      generalize mont_mul_words x_i u_i ys ns rs acc' = row at hrest ⊢
      generalize (2 ^ 32) ^ ys.length * ((row.2.1 >>> 32).toNat + (row.2.2 >>> 32).toNat) = top
        at hrest ⊢
      omega

/-- What a key promises: an odd modulus of full length, and the negative of its inverse. -/
structure SigverifyRsaKey.WellFormed (key : SigverifyRsaKey) : Prop where
  odd : Odd key.n.value
  n0_inv : ((key.n0_inv[0].toNat : ℕ) : ZMod (2 ^ 32)) = -((key.n.value : ℕ) : ZMod (2 ^ 32))⁻¹
  lower : R / 2 < key.n.value
  upper : key.n.value < R

section key

variable {key : SigverifyRsaKey}

theorem SigverifyRsaKey.WellFormed.coprime (h : key.WellFormed) (k : ℕ) :
    (2 ^ k).Coprime key.n.value :=
  (Nat.coprime_two_left.mpr h.odd).pow_left k

theorem SigverifyRsaKey.WellFormed.coprime_R (h : key.WellFormed) : R.Coprime key.n.value :=
  h.coprime kSigVerifyRsaNumBits

/-- The word `n0_inv[0]` times the modulus is `-1` modulo the base. -/
theorem SigverifyRsaKey.WellFormed.dvd (h : key.WellFormed) :
    2 ^ 32 ∣ key.n.value * key.n0_inv[0].toNat + 1 := by
  rw [← ZMod.natCast_eq_zero_iff]
  push_cast
  rw [h.n0_inv, mul_neg, ZMod.coe_mul_inv_eq_one _ (h.coprime 32).symm]
  exact neg_add_cancel 1

/-- A digit of `x`: the words that are written and the carry are the running sum, with a
multiple of the modulus added and the digit that this clears dropped. -/
theorem mont_mul_digit_value {n0_inv x_i y0 n0 r0 : u32} {ys ns rs : List u32}
    (hn : ns.length = ys.length) (hr : rs.length = ys.length)
    (hinv : 2 ^ 32 ∣ n0.toNat * n0_inv.toNat + 1) :
    let r := mont_mul_digit n0_inv (n0 :: ns) (y0 :: ys) (r0 :: rs) x_i
    ∃ u < 2 ^ 32,
      2 ^ 32 * (Limbs.value r.1 + (2 ^ 32) ^ (ys.length + 1) * (r.2 >>> 32).toNat) =
        Limbs.value (r0 :: rs) + x_i.toNat * Limbs.value (y0 :: ys) +
          u * Limbs.value (n0 :: ns) := by
  intro r
  let acc0 : u64 := x_i.setWidth 64 * y0.setWidth 64 + r0.setWidth 64
  let u_i : u32 := lo32 acc0 * n0_inv
  let acc1 : u64 := u_i.setWidth 64 * n0.setWidth 64 + (lo32 acc0).setWidth 64
  let row := mont_mul_words x_i u_i ys ns rs (acc0, acc1)
  have hacc0 : acc0.toNat = x_i.toNat * y0.toNat + r0.toNat := by
    have h := toNat_mul_add_add x_i y0 r0 (c := 0#64) (by decide)
    rwa [BitVec.add_zero] at h
  have hacc1 : acc1.toNat = u_i.toNat * n0.toNat + (lo32 acc0).toNat := by
    have h := toNat_mul_add_add u_i n0 (lo32 acc0) (c := 0#64) (by decide)
    rwa [BitVec.add_zero] at h
  -- the choice of `u_i` clears the word that is dropped
  have hclear : (lo32 acc1).toNat = 0 := by
    have hdvd : 2 ^ 32 ∣ (lo32 acc0).toNat + u_i.toNat * n0.toNat :=
      dvd_add_mul hinv (by simp [u_i])
    rw [Nat.add_comm, ← hacc1] at hdvd
    exact Nat.mod_eq_zero_of_dvd hdvd
  have hrow : Limbs.value row.1 +
        (2 ^ 32) ^ ys.length * ((row.2.1 >>> 32).toNat + (row.2.2 >>> 32).toNat) =
      x_i.toNat * Limbs.value ys + Limbs.value rs + u_i.toNat * Limbs.value ns +
        (acc0 >>> 32).toNat + (acc1 >>> 32).toNat :=
    mont_mul_words_value x_i u_i hn hr (acc0, acc1)
  have hlast : r.2.toNat = (row.2.1 >>> 32).toNat + (row.2.2 >>> 32).toNat := by
    have h1 := hi_lt row.2.1
    have h2 := hi_lt row.2.2
    change (row.2.1 >>> 32 + row.2.2 >>> 32).toNat = _
    rw [BitVec.toNat_add, Nat.mod_eq_of_lt (by omega)]
  have hwords : Limbs.value r.1 = Limbs.value row.1 + (2 ^ 32) ^ ys.length * (lo32 r.2).toNat := by
    have hlen : row.1.length = ys.length := length_mont_mul_words x_i u_i hn hr (acc0, acc1)
    rw [← hlen]
    exact Limbs.value_append_singleton row.1 (lo32 r.2)
  refine ⟨u_i.toNat, u_i.isLt, ?_⟩
  calc 2 ^ 32 * (Limbs.value r.1 + (2 ^ 32) ^ (ys.length + 1) * (r.2 >>> 32).toNat)
      = 2 ^ 32 * (Limbs.value row.1 +
          (2 ^ 32) ^ ys.length * ((lo32 r.2).toNat + 2 ^ 32 * (r.2 >>> 32).toNat)) := by
        rw [hwords]
        ring
    _ = 2 ^ 32 * (x_i.toNat * Limbs.value ys + Limbs.value rs + u_i.toNat * Limbs.value ns +
          (acc0 >>> 32).toNat + (acc1 >>> 32).toNat) := by
        rw [lo32_add_hi, hlast, hrow]
    _ = x_i.toNat * (2 ^ 32 * Limbs.value ys) + 2 ^ 32 * Limbs.value rs +
          u_i.toNat * (2 ^ 32 * Limbs.value ns) + (2 ^ 32 * (acc0 >>> 32).toNat +
            2 ^ 32 * (acc1 >>> 32).toNat) := by
        ring
    _ = x_i.toNat * (2 ^ 32 * Limbs.value ys) + 2 ^ 32 * Limbs.value rs +
          u_i.toNat * (2 ^ 32 * Limbs.value ns) +
            (x_i.toNat * y0.toNat + r0.toNat + u_i.toNat * n0.toNat) := by
        have hsplit0 := lo32_add_hi acc0
        have hsplit1 := lo32_add_hi acc1
        omega
    _ = Limbs.value (r0 :: rs) + x_i.toNat * Limbs.value (y0 :: ys) +
          u_i.toNat * Limbs.value (n0 :: ns) := by
        simp only [Limbs.value_cons]
        ring

/-- The first word of a buffer, and the others. -/
theorem words_eq_cons (a : SigverifyRsaBuffer) :
    ∃ a0 as, a.words = a0 :: as ∧ as.length + 1 = kSigVerifyRsaNumWords := by
  cases hw : a.words with
  | nil =>
      have h := a.length_words
      rw [hw] at h
      exact absurd h (by decide)
  | cons a0 as =>
      refine ⟨a0, as, rfl, ?_⟩
      rw [← a.length_words, hw, List.length_cons]

/-- One run of the loop over `i`: the result times the base is the running sum, up to a
multiple of the modulus. The sum is below `R + n`, so a carry means that the modulus can be
subtracted without looking at it. -/
theorem mont_mul_step_value (h : key.WellFormed) (y result : SigverifyRsaBuffer) (x_i : u32) :
    ((mont_mul_step key y result x_i).value : ZMod key.n.value) * (2 ^ 32 : ℕ) =
      result.value + x_i.toNat * y.value := by
  obtain ⟨y0, ys, hy, hylen⟩ := words_eq_cons y
  obtain ⟨n0, ns, hn, hnlen⟩ := words_eq_cons key.n
  obtain ⟨r0, rs, hr, hrlen⟩ := words_eq_cons result
  have hinv : 2 ^ 32 ∣ n0.toNat * key.n0_inv[0].toNat + 1 := by
    have hdvd := h.dvd
    have hvalue : key.n.value = n0.toNat + 2 ^ 32 * Limbs.value ns := by
      rw [SigverifyRsaBuffer.value, hn, Limbs.value_cons]
    rw [hvalue, Nat.add_mul, Nat.add_right_comm, Nat.mul_assoc] at hdvd
    exact (Nat.dvd_add_left (Nat.dvd_mul_right _ _)).mp hdvd
  obtain ⟨u, hu, hsum⟩ := @mont_mul_digit_value key.n0_inv[0] x_i y0 n0 r0 ys ns rs (by omega)
    (by omega) hinv
  rw [← hy, ← hn, ← hr, hylen, pow_words] at hsum
  let r := mont_mul_digit key.n0_inv[0] key.n.words y.words result.words x_i
  have hlen : r.1.length = kSigVerifyRsaNumWords := by
    rw [length_mont_mul_digit _ _ (by simp) (by simp)]
    exact y.length_words
  let words : SigverifyRsaBuffer := .ofWords r.1 hlen
  let s := words.value + R * (r.2 >>> 32).toNat
  have hsum' : 2 ^ 32 * s = result.value + x_i.toNat * y.value + u * key.n.value := hsum
  have hbound : s < R + key.n.value :=
    step_lt (value_lt_R result) x_i.isLt (value_lt_R y) hu hsum'
  -- whether the modulus was subtracted or not, what is left is the sum modulo `n`
  have hvalue : ((mont_mul_step key y result x_i).value : ZMod key.n.value) = (s : ZMod _) := by
    by_cases hcarry : r.2 >>> 32 = 0
    · have hstep : mont_mul_step key y result x_i = words := if_neg (not_not.mpr hcarry)
      have hs : s = words.value := by simp [s, hcarry]
      rw [hstep, hs]
    · have hstep : mont_mul_step key y result x_i = (subtract_modulus key words).1 := if_pos hcarry
      have hpos : (r.2 >>> 32).toNat ≠ 0 := fun hzero => hcarry (BitVec.eq_of_toNat_eq hzero)
      have hone : (r.2 >>> 32).toNat = 1 := by
        have hupper := h.upper
        by_contra hne
        have htwo : R * 2 ≤ R * (r.2 >>> 32).toNat := Nat.mul_le_mul_left R (by omega)
        omega
      have hs : s = words.value + R := by rw [← Nat.mul_one R, ← hone]
      have hlt : words.value < key.n.value := by omega
      have hupper := h.upper
      have hsub : (subtract_modulus key words).1.value + key.n.value = s := by
        rw [(subtract_modulus_of_lt hlt).2]
        omega
      rw [hstep, ← hsub]
      simp
  rw [hvalue]
  have hcast := congrArg (Nat.cast (R := ZMod key.n.value)) hsum'
  push_cast at hcast ⊢
  rw [ZMod.natCast_self, mul_zero, add_zero] at hcast
  rw [mul_comm, hcast]

/-- `mont_mul` computes a Montgomery product. -/
theorem mont_mul_product (h : key.WellFormed) (x y : SigverifyRsaBuffer) :
    Product key.n.value R x.value y.value (mont_mul key x y).value := by
  have hfold := @foldl_mul_pow _ _ _ _ SigverifyRsaBuffer.value (mont_mul_step key y)
    (mont_mul_step_value h y) x.words zero_buffer
  have hzero : zero_buffer.value = 0 := Limbs.value_replicate_zero kSigVerifyRsaNumWords
  rw [x.length_words, pow_words, hzero, Nat.cast_zero, zero_add] at hfold
  exact hfold

/-! ## The square of the radix -/

/-- Subtracting the modulus until it no longer fits leaves the remainder. Each run takes one
modulus off the number that `msb` and the buffer hold together. -/
theorem reduce_modulus_value (h : key.WellFormed) {fuel : ℕ} {msb : u32}
    {buf : SigverifyRsaBuffer} (hfuel : msb.toNat * R + buf.value < fuel * key.n.value) :
    ∃ buf', reduce_modulus key fuel msb buf = some buf' ∧
      buf'.value = (msb.toNat * R + buf.value) % key.n.value := by
  have hupper := h.upper
  induction fuel generalizing msb buf with
  | zero => exact absurd hfuel (by omega)
  | succ fuel ih =>
      have hpos : (0 < msb ∨ greater_equal_modulus key buf = true) ↔
          key.n.value ≤ msb.toNat * R + buf.value := by
        rw [greater_equal_modulus_iff]
        by_cases hzero : msb.toNat = 0
        · have hnot : ¬ 0 < msb := by
            rw [BitVec.lt_def, hzero]
            exact Nat.lt_irrefl 0
          rw [hzero, Nat.zero_mul, Nat.zero_add]
          exact or_iff_right hnot
        · have hmul : R ≤ msb.toNat * R := Nat.le_mul_of_pos_left R (by omega)
          have hlt : 0 < msb := BitVec.lt_def.mpr (Nat.pos_of_ne_zero hzero)
          exact iff_of_true (.inl hlt) (by omega)
      unfold reduce_modulus
      by_cases hge : key.n.value ≤ msb.toNat * R + buf.value
      · rw [if_pos (hpos.mpr hge)]
        have hsub : (msb - (subtract_modulus key buf).2).toNat * R +
            (subtract_modulus key buf).1.value = msb.toNat * R + buf.value - key.n.value := by
          by_cases hle : key.n.value ≤ buf.value
          · obtain ⟨hborrow, hvalue⟩ := subtract_modulus_of_le hle
            rw [hborrow, BitVec.sub_zero, hvalue]
            omega
          · obtain ⟨hborrow, hvalue⟩ := subtract_modulus_of_lt (Nat.not_le.mp hle)
            have hmsb : msb.toNat ≠ 0 := by
              intro hzero
              rw [hzero] at hge
              omega
            have hpred : (msb - 1#32).toNat + 1 = msb.toNat := by
              rw [BitVec.toNat_sub]
              simp only [BitVec.toNat_ofNat]
              omega
            rw [hborrow, hvalue, ← hpred, Nat.add_mul, Nat.one_mul]
            omega
        obtain ⟨buf', hsome, hmod⟩ := @ih (msb - (subtract_modulus key buf).2)
          (subtract_modulus key buf).1 (by rw [hsub]; rw [Nat.succ_mul] at hfuel; omega)
        refine ⟨buf', hsome, ?_⟩
        rw [hmod, hsub, Nat.mod_eq_sub_mod hge]
      · rw [if_neg (mt hpos.mp hge)]
        have hlt : msb.toNat * R + buf.value < key.n.value := Nat.not_le.mp hge
        have hzero : msb.toNat * R = 0 := by
          by_contra hne
          have hmul : R ≤ msb.toNat * R :=
            Nat.le_mul_of_pos_left R (Nat.pos_of_ne_zero fun h0 => hne (by rw [h0, Nat.zero_mul]))
          omega
        exact ⟨buf, rfl, by rw [Nat.mod_eq_of_lt hlt, hzero, Nat.zero_add]⟩

/-- A reduced number doubles in two tests. -/
theorem double_modulus_value (h : key.WellFormed) {fuel : ℕ} (hfuel : 2 ≤ fuel)
    {buf : SigverifyRsaBuffer} (hbuf : buf.value < key.n.value) :
    ∃ buf', double_modulus fuel key buf = some buf' ∧ buf'.value = 2 * buf.value % key.n.value := by
  have hshift := shift_left_value buf
  have hmul : 2 * key.n.value ≤ fuel * key.n.value := Nat.mul_le_mul_right _ hfuel
  obtain ⟨buf', hsome, hvalue⟩ := @reduce_modulus_value key h fuel (shift_left buf).2
    (shift_left buf).1 (by omega)
  exact ⟨buf', hsome, by rw [hvalue, hshift]⟩

/-- The loop that doubles keeps the number below the modulus. -/
theorem double_loop_value (h : key.WellFormed) {fuel : ℕ} (hfuel : 2 ≤ fuel) (l : List ℕ)
    {buf : SigverifyRsaBuffer} (hbuf : buf.value < key.n.value) :
    ∃ buf', l.foldlM (fun buf _ => double_modulus fuel key buf) buf = some buf' ∧
      (buf'.value : ZMod key.n.value) = 2 ^ l.length * buf.value := by
  induction l generalizing buf with
  | nil => exact ⟨buf, rfl, by simp⟩
  | cons i l ih =>
      obtain ⟨next, hnext, hvalue⟩ := double_modulus_value h hfuel hbuf
      have hlt : next.value < key.n.value := by
        rw [hvalue]
        exact Nat.mod_lt _ (by omega)
      obtain ⟨buf', hsome, hcast⟩ := ih hlt
      refine ⟨buf', by rw [List.foldlM_cons, hnext]; exact hsome, ?_⟩
      rw [hcast, hvalue, ZMod.natCast_mod, List.length_cons]
      push_cast
      ring

/-- A round of two squarings raises to the fourth power. -/
theorem square_loop_form (h : key.WellFormed) (l : List ℕ) {r : SigverifyRsaBuffer}
    {a : ZMod key.n.value} (hr : Form key.n.value R r.value a) :
    Form key.n.value R
      (l.foldl (fun r _ =>
        let s := mont_mul key r r
        mont_mul key s s) r).value (a ^ 4 ^ l.length) := by
  induction l generalizing r a with
  | nil => simpa using hr
  | cons i l ih =>
      have hs := (mont_mul_product h r r).form h.coprime_R hr hr
      have hnext := (mont_mul_product h _ _).form h.coprime_R hs hs
      have hpow : a ^ 4 ^ (i :: l).length = (a * a * (a * a)) ^ 4 ^ l.length := by
        rw [List.length_cons, pow_succ', pow_mul]
        congr 1
        ring
      rw [hpow, List.foldl_cons]
      exact ih hnext

/-- `R - n` is reduced, since the modulus is above `R / 2`. -/
theorem subtract_modulus_zero (h : key.WellFormed) :
    (subtract_modulus key zero_buffer).1.value = R - key.n.value := by
  have hlower := h.lower
  have hzero : zero_buffer.value = 0 := Limbs.value_replicate_zero kSigVerifyRsaNumWords
  have hlt : zero_buffer.value < key.n.value := by omega
  rw [(subtract_modulus_of_lt hlt).2, hzero, Nat.zero_add]

/-- `calc_r_square` leaves the square of `R`: `R` doubled 96 times, and that squared five
times as a Montgomery form, since `96 * 32` is the number of bits. -/
theorem calc_r_square_form (h : key.WellFormed) {fuel : ℕ} (hfuel : 2 ≤ fuel) :
    ∃ result, calc_r_square fuel key = some result ∧
      Form key.n.value R result.value (R : ZMod key.n.value) := by
  have hlower := h.lower
  have hupper := h.upper
  have hstart := subtract_modulus_zero h
  obtain ⟨buf, hsome, hcast⟩ := @double_loop_value key h fuel hfuel (List.range 96)
    (subtract_modulus key zero_buffer).1 (by omega)
  have hbuf : Form key.n.value R buf.value (2 ^ 96) := by
    unfold Form
    rw [hcast, hstart, List.length_range, Nat.cast_sub hupper.le, ZMod.natCast_self, sub_zero]
  have hsquare := (mont_mul_product h buf buf).form h.coprime_R hbuf hbuf
  have hresult := square_loop_form h (List.range 2) hsquare
  have hR : ((2 ^ 96 * 2 ^ 96) ^ 4 ^ (List.range 2).length : ZMod key.n.value) = (R : ℕ) := by
    have hbits : kSigVerifyRsaNumBits = (96 + 96) * 4 ^ (List.range 2).length := rfl
    rw [← pow_add, ← pow_mul, ← hbits, R, Nat.cast_pow, Nat.cast_ofNat]
  rw [hR] at hresult
  refine ⟨_, ?_, hresult⟩
  simp only [calc_r_square, hsome, Option.bind_eq_bind, Option.bind_some]

/-! ## The exponentiation -/

/-- The final comparison makes a number below `R` the least residue. -/
theorem final_subtract_value (h : key.WellFormed) (result : SigverifyRsaBuffer) :
    (if greater_equal_modulus key result then (subtract_modulus key result).1
      else result).value = result.value % key.n.value := by
  have hlower := h.lower
  have hlt := value_lt_R result
  by_cases hge : key.n.value ≤ result.value
  · rw [if_pos ((greater_equal_modulus_iff key result).mpr hge), (subtract_modulus_of_le hge).2,
      Nat.mod_eq_sub_mod hge, Nat.mod_eq_of_lt (by omega)]
  · rw [if_neg (mt (greater_equal_modulus_iff key result).mp hge),
      Nat.mod_eq_of_lt (Nat.not_le.mp hge)]

/-- A signature that is not below the modulus is rejected before anything is computed. -/
theorem mod_exp_large {sig : SigverifyRsaBuffer} (result : SigverifyRsaBuffer) (fuel : ℕ)
    (hlarge : key.n.value ≤ sig.value) :
    sigverify_mod_exp_ibex fuel key sig result =
      some (.kErrorSigverifyLargeRsaSignature, result) :=
  if_pos ((greater_equal_modulus_iff key sig).mpr hlarge)

/-- Of any other signature the power is left, reduced. -/
theorem mod_exp_small (h : key.WellFormed) {sig : SigverifyRsaBuffer}
    (result : SigverifyRsaBuffer) {fuel : ℕ} (hfuel : 2 ≤ fuel)
    (hsmall : sig.value < key.n.value) :
    ∃ result', sigverify_mod_exp_ibex fuel key sig result = some (.kErrorOk, result') ∧
      result'.value = sig.value ^ 65537 % key.n.value := by
  obtain ⟨rr, hsome, hrr⟩ := calc_r_square_form h hfuel
  have hsig : Form key.n.value R (mont_mul key sig rr).value (sig.value : ZMod key.n.value) :=
    (mont_mul_product h sig rr).enter h.coprime_R hrr
  have hpower := square_loop_form h (List.range 8) hsig
  have hlast := (mont_mul_product h _ sig).leave h.coprime_R hpower
  let last := mont_mul key ((List.range 8).foldl (fun r _ =>
    let s := mont_mul key r r
    mont_mul key s s) (mont_mul key sig rr)) sig
  have hrun : sigverify_mod_exp_ibex fuel key sig result = some (.kErrorOk,
      if greater_equal_modulus key last then (subtract_modulus key last).1 else last) := by
    unfold sigverify_mod_exp_ibex
    rw [if_neg (mt (greater_equal_modulus_iff key sig).mp (Nat.not_le.mpr hsmall))]
    simp only [hsome, Option.bind_eq_bind, Option.bind_some]
    rfl
  refine ⟨_, hrun, ?_⟩
  have hexp : 4 ^ (List.range 8).length + 1 = 65537 := rfl
  rw [← pow_succ, hexp, ← Nat.cast_pow] at hlast
  rw [final_subtract_value h]
  exact (ZMod.natCast_eq_natCast_iff' _ _ _).mp hlast

/-- The exponentiation returns, whatever the signature: it rejects one that is not below
the modulus, and leaves the least residue of the power of any other. -/
theorem mod_exp_exact (h : key.WellFormed) (sig result : SigverifyRsaBuffer) :
    ∃ fuel₀, ∀ fuel ≥ fuel₀, ∃ e result',
      sigverify_mod_exp_ibex fuel key sig result = some (e, result') ∧
        (e = .kErrorSigverifyLargeRsaSignature ↔ key.n.value ≤ sig.value) ∧
        (sig.value < key.n.value →
          e = .kErrorOk ∧ result'.value = sig.value ^ 65537 % key.n.value) := by
  refine ⟨2, fun fuel hfuel => ?_⟩
  by_cases hlarge : key.n.value ≤ sig.value
  · exact ⟨_, _, mod_exp_large result fuel hlarge, iff_of_true rfl hlarge, fun hlt =>
      absurd hlarge (Nat.not_le.mpr hlt)⟩
  · obtain ⟨result', hrun, hvalue⟩ := mod_exp_small h result hfuel (Nat.not_le.mp hlarge)
    exact ⟨_, _, hrun, iff_of_false nofun hlarge, fun _ => ⟨rfl, hvalue⟩⟩

/-- The modulus of all ones. -/
def ones_key : SigverifyRsaKey where
  n := .ofWords (List.replicate kSigVerifyRsaNumWords (BitVec.allOnes 32)) (by simp)
  n0_inv := #v[1, 0, 0, 0, 0, 0, 0, 0]

theorem ones_key_value : ones_key.n.value + 1 = R := by
  rw [← pow_words]
  exact Limbs.value_replicate_allOnes kSigVerifyRsaNumWords

theorem ones_key_wellFormed : ones_key.WellFormed := by
  have hvalue := ones_key_value
  have hbits : 2 ≤ kSigVerifyRsaNumBits := by decide
  have hbig : 2 ^ 2 ≤ R := by
    unfold R
    exact Nat.pow_le_pow_right (by decide) hbits
  obtain ⟨k, hk⟩ : 2 ∣ R := by
    unfold R
    exact dvd_pow_self 2 (by omega)
  refine ⟨⟨k - 1, by omega⟩, ?_, by omega, by omega⟩
  have hneg : ((ones_key.n.value : ℕ) : ZMod (2 ^ 32)) = -1 := by
    have hdvd : 2 ^ 32 ∣ R := pow_dvd_pow 2 (by decide)
    have hcast := congrArg (Nat.cast (R := ZMod (2 ^ 32))) hvalue
    rw [(ZMod.natCast_eq_zero_iff R (2 ^ 32)).mpr hdvd, Nat.cast_add, Nat.cast_one] at hcast
    exact eq_neg_of_add_eq_zero_left hcast
  rw [hneg, ZMod.inv_eq_of_mul_eq_one (2 ^ 32) (-1) (-1) (by ring), neg_neg]
  exact Nat.cast_one

def two_buffer : SigverifyRsaBuffer := .ofWords (2 :: List.replicate 95 0) (by simp; rfl)

/-- For that modulus the signature two gives a power of two, and the modulus itself is too large. -/
theorem mod_exp_exact_ones :
    ∃ fuel₀, ∀ fuel ≥ fuel₀,
      (∃ result', sigverify_mod_exp_ibex fuel ones_key two_buffer zero_buffer =
        some (.kErrorOk, result') ∧ result'.value = 2 ^ 1025) ∧
      ∃ result', sigverify_mod_exp_ibex fuel ones_key ones_key.n zero_buffer =
        some (.kErrorSigverifyLargeRsaSignature, result') := by
  obtain ⟨fuel₀, hsmall⟩ := mod_exp_exact ones_key_wellFormed two_buffer zero_buffer
  obtain ⟨fuel₁, hlarge⟩ := mod_exp_exact ones_key_wellFormed ones_key.n zero_buffer
  refine ⟨max fuel₀ fuel₁, fun fuel hfuel => ⟨?_, ?_⟩⟩
  · obtain ⟨e, result', hrun, -, hpower⟩ := hsmall fuel (le_trans (le_max_left _ _) hfuel)
    obtain ⟨rfl, hvalue⟩ := hpower (by decide +kernel)
    exact ⟨result', hrun, hvalue.trans (by decide +kernel)⟩
  · obtain ⟨e, result', hrun, hiff, -⟩ := hlarge fuel (le_trans (le_max_right _ _) hfuel)
    obtain rfl := hiff.mpr le_rfl
    exact ⟨result', hrun⟩

end key

end IbexFirmware.ModExp
