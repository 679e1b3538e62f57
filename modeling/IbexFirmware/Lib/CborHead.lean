/-
The head of a CBOR data item.

A head is one initial byte, with the major type in its three high bits, and an argument.
An argument below 24 is in the low five bits of the initial byte; otherwise these bits say
how many bytes the argument takes behind it, the most significant first. The format lets
an argument take more bytes than it needs, and `decode` reads these heads too. `head` is
the one that takes no more: `decode_head` recovers what it stands for, with any bytes
behind it, and `head_shortest` says that no other head of the same item is shorter.
-/
import IbexFirmware.Lib.Bytes

set_option autoImplicit false

namespace IbexFirmware.CborHead

open Bytes

/-! ## Big-endian arguments -/

/-- The `k` low bytes of `n`, the most significant first. -/
def be : ℕ → ℕ → List u8
  | 0, _ => []
  | k + 1, n => be k (n / 256) ++ [BitVec.ofNat 8 n]

/-- The number that big-endian bytes stand for. -/
def ofBe (bytes : List u8) : ℕ := bytes.foldl (fun n b => n * 256 + b.toNat) 0

@[simp] theorem length_be (k n : ℕ) : (be k n).length = k := by
  induction k generalizing n with
  | zero => rfl
  | succ k ih => simp [be, ih]

/-- The first of `k + 1` bytes. -/
theorem be_succ (k n : ℕ) : be (k + 1) n = BitVec.ofNat 8 (n / 256 ^ k) :: be k n := by
  induction k generalizing n with
  | zero => simp [be]
  | succ k ih =>
      rw [be, ih, Nat.div_div_eq_div_mul, ← Nat.pow_succ', List.cons_append]
      rfl

theorem ofBe_snoc (bytes : List u8) (b : u8) : ofBe (bytes ++ [b]) = ofBe bytes * 256 + b.toNat := by
  simp [ofBe]

theorem ofBe_be (k n : ℕ) : ofBe (be k n) = n % 256 ^ k := by
  induction k generalizing n with
  | zero => simp [be, ofBe, Nat.mod_one]
  | succ k ih =>
      have hlast : (BitVec.ofNat 8 n).toNat = n % 256 := by simp
      rw [be, ofBe_snoc, ih, hlast, Nat.pow_succ', Nat.mod_mul]
      ring

theorem ofBe_lt (bytes : List u8) : ofBe bytes < 256 ^ bytes.length := by
  induction bytes using List.reverseRecOn with
  | nil => simp [ofBe]
  | append_singleton bytes b ih =>
      have hb : b.toNat < 256 := b.isLt
      rw [ofBe_snoc, List.length_append, List.length_singleton, Nat.pow_succ]
      nlinarith

/-! ## Heads -/

/-- The bytes that an argument takes behind the initial byte. -/
def argLength (n : ℕ) : ℕ :=
  if n < 24 then 0
  else if n < 2 ^ 8 then 1
  else if n < 2 ^ 16 then 2
  else if n < 2 ^ 32 then 4
  else 8

/-- The low bits of the initial byte. -/
def additional (n : ℕ) : ℕ :=
  if n < 24 then n
  else if n < 2 ^ 8 then 24
  else if n < 2 ^ 16 then 25
  else if n < 2 ^ 32 then 26
  else 27

/-- The shortest head. -/
def head (major n : ℕ) : List u8 :=
  BitVec.ofNat 8 (major * 32 + additional n) :: be (argLength n) n

theorem length_head (major n : ℕ) : (head major n).length = 1 + argLength n := by
  simp [head, Nat.add_comm]

/-- Split an argument of `k` bytes off what follows the initial byte. -/
def takeArg (major k : ℕ) (bytes : List u8) : Option (ℕ × ℕ × List u8) :=
  if bytes.length < k then none else some (major, ofBe (bytes.take k), bytes.drop k)

/-- The major type, the argument and the bytes behind the head. The values 28 to 30 of the
low bits are reserved and 31 has no argument. -/
def decode : List u8 → Option (ℕ × ℕ × List u8)
  | [] => none
  | b :: bytes =>
      if b.toNat % 32 < 24 then some (b.toNat / 32, b.toNat % 32, bytes)
      else if b.toNat % 32 = 24 then takeArg (b.toNat / 32) 1 bytes
      else if b.toNat % 32 = 25 then takeArg (b.toNat / 32) 2 bytes
      else if b.toNat % 32 = 26 then takeArg (b.toNat / 32) 4 bytes
      else if b.toNat % 32 = 27 then takeArg (b.toNat / 32) 8 bytes
      else none

/-! ## Round trip -/

theorem takeArg_be (major k n : ℕ) (rest : List u8) (h : n < 256 ^ k) :
    takeArg major k (be k n ++ rest) = some (major, n, rest) := by
  have hlen : ¬ (be k n ++ rest).length < k := by simp
  have htake : (be k n ++ rest).take k = be k n := List.take_left' (length_be k n)
  have hdrop : (be k n ++ rest).drop k = rest := List.drop_left' (length_be k n)
  rw [takeArg, if_neg hlen, htake, hdrop, ofBe_be, Nat.mod_eq_of_lt h]

theorem additional_lt (n : ℕ) : additional n < 32 := by
  unfold additional
  split_ifs <;> omega

/-- The forms of a head: the argument in the initial byte, or in one, two, four or eight behind. -/
theorem head_forms {n : ℕ} (hn : n < 2 ^ 64) :
    n < 24 ∧ additional n = n ∧ argLength n = 0 ∨
      additional n = 24 ∧ argLength n = 1 ∧ n < 256 ^ 1 ∨
      additional n = 25 ∧ argLength n = 2 ∧ n < 256 ^ 2 ∨
      additional n = 26 ∧ argLength n = 4 ∧ n < 256 ^ 4 ∨
      additional n = 27 ∧ argLength n = 8 ∧ n < 256 ^ 8 := by
  unfold additional argLength
  split_ifs <;> omega

/-- A decoder reads the head back and stops behind it. -/
theorem decode_head {major n : ℕ} (hmajor : major < 8) (hn : n < 2 ^ 64) (rest : List u8) :
    decode (head major n ++ rest) = some (major, n, rest) := by
  have hlow := additional_lt n
  have hbyte : (BitVec.ofNat 8 (major * 32 + additional n)).toNat = major * 32 + additional n := by
    rw [BitVec.toNat_ofNat]
    omega
  have hmod : (major * 32 + additional n) % 32 = additional n := by omega
  have hdiv : (major * 32 + additional n) / 32 = major := by omega
  rw [head, List.cons_append, decode, hbyte, hmod, hdiv]
  rcases head_forms hn with ⟨hinside, hlow, harg⟩ | ⟨hlow, harg, hfits⟩ | ⟨hlow, harg, hfits⟩ |
    ⟨hlow, harg, hfits⟩ | ⟨hlow, harg, hfits⟩
  · rw [hlow, harg, if_pos hinside]
    rfl
  all_goals
    rw [hlow, harg]
    exact takeArg_be major _ n rest hfits

/-! ## Shortest -/

theorem argLength_le {k n : ℕ} (hk : k = 1 ∨ k = 2 ∨ k = 4 ∨ k = 8) (h : n < 256 ^ k) :
    argLength n ≤ k := by
  unfold argLength
  obtain rfl | rfl | rfl | rfl := hk
  · split_ifs <;> omega
  · split_ifs <;> omega
  · split_ifs <;> omega
  · split_ifs <;> omega

theorem takeArg_longer {major k m n : ℕ} {bytes rest : List u8}
    (hk : k = 1 ∨ k = 2 ∨ k = 4 ∨ k = 8) (h : takeArg m k bytes = some (major, n, rest)) :
    argLength n + rest.length ≤ bytes.length := by
  unfold takeArg at h
  split_ifs at h with hlen
  obtain ⟨-, rfl, rfl⟩ := h
  have hn := ofBe_lt (bytes.take k)
  rw [List.length_take, Nat.min_eq_left (by omega)] at hn
  have hle := argLength_le hk hn
  rw [List.length_drop]
  omega

/-- Whatever a decoder reads the same item from is at least as long. -/
theorem head_shortest {major n : ℕ} {bytes rest : List u8}
    (h : decode bytes = some (major, n, rest)) :
    (head major n).length + rest.length ≤ bytes.length := by
  rw [length_head]
  match bytes, h with
  | b :: bytes, h =>
      have hlonger : argLength n + rest.length ≤ bytes.length := by
        rw [decode] at h
        split_ifs at h with h0
        · simp only [Option.some.injEq, Prod.mk.injEq] at h
          obtain ⟨-, rfl, rfl⟩ := h
          simp [argLength, h0]
        · exact takeArg_longer (by decide) h
        · exact takeArg_longer (by decide) h
        · exact takeArg_longer (by decide) h
        · exact takeArg_longer (by decide) h
      rw [List.length_cons]
      omega

/-! ## Integers -/

/-- A non-negative integer is of major type 0, and a negative one `-1 - n` of type 1. -/
def decodeInt (bytes : List u8) : Option (ℤ × List u8) :=
  match decode bytes with
  | some (0, n, rest) => some (n, rest)
  | some (1, n, rest) => some (-1 - n, rest)
  | _ => none

/-- The shortest head of an integer. -/
def intHead (v : ℤ) : List u8 := if v < 0 then head 1 (-1 - v).toNat else head 0 v.toNat

theorem decodeInt_intHead {v : ℤ} (hlo : -2 ^ 63 ≤ v) (hhi : v < 2 ^ 63) (rest : List u8) :
    decodeInt (intHead v ++ rest) = some (v, rest) := by
  by_cases hneg : v < 0
  · rw [intHead, if_pos hneg, decodeInt, decode_head (by decide) (by omega)]
    simp only [Option.some.injEq, Prod.mk.injEq, and_true]
    omega
  · rw [intHead, if_neg hneg, decodeInt, decode_head (by decide) (by omega)]
    simp only [Option.some.injEq, Prod.mk.injEq, and_true]
    omega

theorem intHead_shortest {v : ℤ} {bytes rest : List u8} (h : decodeInt bytes = some (v, rest)) :
    (intHead v).length + rest.length ≤ bytes.length := by
  unfold decodeInt at h
  split at h
  · rename_i n left hdecode
    obtain ⟨rfl, rfl⟩ := h
    rw [intHead, if_neg (by omega), Int.toNat_natCast]
    exact head_shortest hdecode
  · rename_i n left hdecode
    obtain ⟨rfl, rfl⟩ := h
    have hback : (-1 - (-1 - (n : ℤ))).toNat = n := by omega
    rw [intHead, if_pos (by omega), hback]
    exact head_shortest hdecode
  · exact absurd h (by simp)

end IbexFirmware.CborHead
