/-
The memory functions of the base library (`memory.c`).

Each function splits its buffers into a head, a body of aligned words and a tail, and is one
loop for each. `memory_functions_bytewise` says that they do what the walk over the bytes does,
and that they access nothing but the buffers, words only where these are aligned.

A pointer is a 32-bit word, and so is an index: where a buffer runs on over the end of the
address space, so does the walk over its bytes. Every access is logged with its size.
-/
import IbexFirmware.Lib.Bits
import IbexFirmware.Lib.Cells
import IbexFirmware.Lib.Scan

set_option autoImplicit false

namespace IbexFirmware.Memory

open Bytes Bits Cells Scan

def NULL : u32 := 0
def UINT8_MAX : u32 := 255

/-- A load or a store of `size` bytes. -/
structure Access where
  addr : u32
  size : ℕ
  deriving DecidableEq

structure World where
  mem : Mem
  log : List Access

/-- What the functions are made of: an early `return` is an exception. -/
abbrev Prog (α β : Type) := ExceptT α (StateM World) β

variable {α β γ : Type}

def load_8 (p : u32) : Prog α u8 := do
  let s ← get
  set (World.mk s.mem (s.log ++ [⟨p, 1⟩]))
  return s.mem p.toNat

def store_8 (b : u8) (p : u32) : Prog α Unit :=
  modify fun s => ⟨Function.update s.mem p.toNat b, s.log ++ [⟨p, 1⟩]⟩

def read_32 (p : u32) : Prog α u32 := do
  let s ← get
  set (World.mk s.mem (s.log ++ [⟨p, 4⟩]))
  return readWord s.mem p.toNat

def write_32 (value p : u32) : Prog α Unit :=
  modify fun s => ⟨writeWord s.mem p.toNat value, s.log ++ [⟨p, 4⟩]⟩

/-- `for (; i < stop; i += step)`. -/
def for_up (step stop : u32) (body : u32 → Prog α Unit) : (fuel : ℕ) → (i : u32) → Prog α u32
  | 0, i => pure i
  | fuel + 1, i =>
      if i < stop then do
        body i
        for_up step stop body fuel (i + step)
      else pure i

/-- `for (; end > stop; end -= step)`, with `end - step` for `i`. -/
def for_down (step stop : u32) (body : u32 → Prog α Unit) : (fuel : ℕ) → (i : u32) → Prog α u32
  | 0, i => pure i
  | fuel + 1, i =>
      if i > stop then do
        body (i - step)
        for_down step stop body fuel (i - step)
      else pure i

/-- `if (c) return a;` -/
def return_if (c : Prop) [Decidable c] (a : α) : Prog α Unit := if c then throw a else pure ()

/-- The value that a function returns, early or at its end. -/
def finish (p : Prog α α) (s : World) : α × World :=
  match p.run s with
  | (.ok a, s) => (a, s)
  | (.error a, s) => (a, s)

/-! ## The alignment -/

def misalignment32_of (addr : u32) : u32 := addr % 4

def compute_num_leading_bytes (left right len : u32) : u32 :=
  if len < 4 then len
  else
    let left_ahead := misalignment32_of left
    let right_ahead := misalignment32_of right
    if right = NULL ∨ left_ahead = right_ahead then (4 - left_ahead) &&& 0x3
    else len

/-- The offsets of the body and of the tail. -/
def compute_alignment (left right len : u32) : u32 × u32 :=
  let num_leading_bytes := compute_num_leading_bytes left right len
  let num_words := (len - num_leading_bytes) / 4
  (num_leading_bytes, num_leading_bytes + num_words * 4)

def repeat_byte_to_u32 (byte : u8) : u32 :=
  let word : u32 := byte.setWidth 32
  word <<< 24 ||| word <<< 16 ||| word <<< 8 ||| word

/-- `__builtin_bswap32`. -/
def bswap32 (w : u32) : u32 := word (byteOf w 3) (byteOf w 2) (byteOf w 1) (byteOf w 0)

/-! ## The functions

A round takes the index at least one on, so that `len` rounds are enough for each loop. -/

def copy_byte (dest src i : u32) : Prog α Unit := do
  let b ← load_8 (src + i)
  store_8 b (dest + i)

def copy_word (dest src i : u32) : Prog α Unit := do
  let word ← read_32 (src + i)
  write_32 word (dest + i)

def memcpy (dest src len : u32) : World → u32 × World := finish do
  return_if (dest = NULL ∨ src = NULL) dest
  let (body_offset, tail_offset) := compute_alignment dest src len
  let i ← for_up 1 body_offset (copy_byte dest src) len.toNat 0
  let i ← for_up 4 tail_offset (copy_word dest src) len.toNat i
  let _ ← for_up 1 len (copy_byte dest src) len.toNat i
  return dest

/-- The value is an `int`. -/
def memset (dest value len : u32) : World → u32 × World := finish do
  let value8 : u8 := value.setWidth 8
  let (body_offset, tail_offset) := compute_alignment dest NULL len
  let i ← for_up 1 body_offset (fun i => store_8 value8 (dest + i)) len.toNat 0
  let value32 := repeat_byte_to_u32 value8
  let i ← for_up 4 tail_offset (fun i => write_32 value32 (dest + i)) len.toNat i
  let _ ← for_up 1 len (fun i => store_8 value8 (dest + i)) len.toNat i
  return dest

def kMemCmpEq : ℤ := 0
def kMemCmpLt : ℤ := -42
def kMemCmpGt : ℤ := 42

/-- The two comparisons of a round. -/
def compare {w : ℕ} (left right : BitVec w) : Prog ℤ Unit :=
  if left < right then throw kMemCmpLt
  else if left > right then throw kMemCmpGt
  else pure ()

def compare_byte (lhs rhs i : u32) : Prog ℤ Unit := do
  let left ← load_8 (lhs + i)
  let right ← load_8 (rhs + i)
  compare left right

def compare_word (lhs rhs i : u32) : Prog ℤ Unit := do
  let left ← read_32 (lhs + i)
  let right ← read_32 (rhs + i)
  compare left right

def compare_word_bswap (lhs rhs i : u32) : Prog ℤ Unit := do
  let left ← read_32 (lhs + i)
  let right ← read_32 (rhs + i)
  compare (bswap32 left) (bswap32 right)

def memcmp (lhs rhs len : u32) : World → ℤ × World := finish do
  let (body_offset, tail_offset) := compute_alignment lhs rhs len
  let i ← for_up 1 body_offset (compare_byte lhs rhs) len.toNat 0
  let i ← for_up 4 tail_offset (compare_word_bswap lhs rhs) len.toNat i
  let _ ← for_up 1 len (compare_byte lhs rhs) len.toNat i
  return kMemCmpEq

def memrcmp (lhs rhs len : u32) : World → ℤ × World := finish do
  let (body_offset, tail_offset) := compute_alignment lhs rhs len
  let e ← for_down 1 tail_offset (compare_byte lhs rhs) len.toNat len
  let e ← for_down 4 body_offset (compare_word lhs rhs) len.toNat e
  let _ ← for_down 1 0 (compare_byte lhs rhs) len.toNat e
  return kMemCmpEq

def match_byte (value8 : u8) (ptr i : u32) : Prog u32 Unit := do
  let b ← load_8 (ptr + i)
  return_if (b = value8) (ptr + i)

/-- Whether byte `k` of a word has all its bits. -/
def all_eq (bits_eq : u32) (k : ℕ) : Prop := (bits_eq >>> (8 * k)) &&& UINT8_MAX = UINT8_MAX

instance (bits_eq : u32) (k : ℕ) : Decidable (all_eq bits_eq k) :=
  inferInstanceAs (Decidable (_ = _))

def match_word (value32 ptr i : u32) : Prog u32 Unit := do
  let word ← read_32 (ptr + i)
  let bits_eq := ~~~(word ^^^ value32)
  return_if (all_eq bits_eq 0) (ptr + i)
  return_if (all_eq bits_eq 1) (ptr + (i + 1))
  return_if (all_eq bits_eq 2) (ptr + (i + 2))
  return_if (all_eq bits_eq 3) (ptr + (i + 3))

def match_word_last (value32 ptr i : u32) : Prog u32 Unit := do
  let word ← read_32 (ptr + i)
  let bits_eq := ~~~(word ^^^ value32)
  return_if (all_eq bits_eq 3) (ptr + (i + 3))
  return_if (all_eq bits_eq 2) (ptr + (i + 2))
  return_if (all_eq bits_eq 1) (ptr + (i + 1))
  return_if (all_eq bits_eq 0) (ptr + i)

def memchr (ptr value len : u32) : World → u32 × World := finish do
  let value8 : u8 := value.setWidth 8
  let (body_offset, tail_offset) := compute_alignment ptr NULL len
  let i ← for_up 1 body_offset (match_byte value8 ptr) len.toNat 0
  let value32 := repeat_byte_to_u32 value8
  let i ← for_up 4 tail_offset (match_word value32 ptr) len.toNat i
  let _ ← for_up 1 len (match_byte value8 ptr) len.toNat i
  return NULL

def memrchr (ptr value len : u32) : World → u32 × World := finish do
  let value8 : u8 := value.setWidth 8
  let (body_offset, tail_offset) := compute_alignment ptr NULL len
  let e ← for_down 1 tail_offset (match_byte value8 ptr) len.toNat len
  let value32 := repeat_byte_to_u32 value8
  let e ← for_down 4 body_offset (match_word_last value32 ptr) len.toNat e
  let _ ← for_down 1 0 (match_byte value8 ptr) len.toNat e
  return NULL

/-! ## What a program does -/

/-- In every world the program takes the step, accesses what it may, and returns `b` if the step
has no result. -/
def Does (ok : Access → Prop) (p : Prog α β) (f : Step Mem α) (b : β) : Prop :=
  ∀ s : World, ∃ log : List Access, (∀ x ∈ log, ok x) ∧
    p.run s = match f s.mem with
      | (some a, m) => (.error a, ⟨m, s.log ++ log⟩)
      | (none, m) => (.ok b, ⟨m, s.log ++ log⟩)

variable {ok : Access → Prop} {f g : Step Mem α} {a : α} {b : β} {c : γ}

theorem Does.pure : Does ok (pure b : Prog α β) skip b := fun s =>
  ⟨[], nofun, by rw [List.append_nil]; rfl⟩

theorem Does.throw : Does ok (throw a : Prog α β) (fun m => (some a, m)) b := fun s =>
  ⟨[], nofun, by rw [List.append_nil]; rfl⟩

theorem Does.return_if {c : Prop} [Decidable c] :
    Does ok (return_if c a) (fun m => (if c then some a else none, m)) () := by
  unfold Memory.return_if
  split_ifs with hc
  · exact Does.throw
  · exact Does.pure

/-- Silent or returning, the first program leaves its accesses in front of those of the second. -/
theorem Does.bind {p : Prog α β} {k : β → Prog α γ} (hp : Does ok p f b) (hk : Does ok (k b) g c) :
    Does ok (p >>= k) (andThen f g) c := by
  intro s
  obtain ⟨log, hlog, hrun⟩ := hp s
  have hbind : (p >>= k).run s =
      match p.run s with
      | (.ok b, s) => (k b).run s
      | (.error a, s) => (.error a, s) := by
    show ExceptT.bind p k s = _
    simp only [ExceptT.bind, ExceptT.mk, ExceptT.run]
    show (match p s with | (x, s) => ExceptT.bindCont k x s) = _
    generalize p s = r
    obtain ⟨x, s⟩ := r
    cases x with
    | ok b => rfl
    | error a => rfl
  rw [hbind, hrun, andThen]
  generalize f s.mem = r
  obtain ⟨_ | a, m⟩ := r
  · obtain ⟨log', hlog', hrun'⟩ := hk ⟨m, s.log ++ log⟩
    refine ⟨log ++ log', ?_, ?_⟩
    · intro x hx
      obtain hx | hx := List.mem_append.mp hx
      · exact hlog x hx
      · exact hlog' x hx
    · dsimp only at hrun' ⊢
      rw [hrun', ← List.append_assoc]
  · exact ⟨log, hlog, rfl⟩

theorem Does.finish {p : Prog α α} (hp : Does ok p f a) (s : World) :
    ∃ log : List Access, (∀ x ∈ log, ok x) ∧
      finish p s = (((f s.mem).1.getD a), ⟨(f s.mem).2, s.log ++ log⟩) := by
  obtain ⟨log, hlog, hrun⟩ := hp s
  refine ⟨log, hlog, ?_⟩
  rw [Memory.finish, hrun]
  generalize f s.mem = r
  obtain ⟨_ | a, m⟩ := r
  · rfl
  · rfl

/-- A program that does the same step in other words. -/
theorem Does.congr {p : Prog α β} (hp : Does ok p f b) (h : ∀ m, f m = g m) : Does ok p g b := by
  rw [← funext h]
  exact hp

theorem Does.load_8 {p : u32} {k : u8 → Prog α γ} {h : u8 → Step Mem α} (hok : ok ⟨p, 1⟩)
    (hk : ∀ v, Does ok (k v) (h v) c) :
    Does ok (load_8 p >>= k) (fun m => h (m p.toNat) m) c := by
  intro s
  obtain ⟨log, hlog, hrun⟩ := hk (s.mem p.toNat) ⟨s.mem, s.log ++ [⟨p, 1⟩]⟩
  refine ⟨⟨p, 1⟩ :: log, List.forall_mem_cons.mpr ⟨hok, hlog⟩, ?_⟩
  rw [List.append_cons]
  exact hrun

theorem Does.read_32 {p : u32} {k : u32 → Prog α γ} {h : u32 → Step Mem α} (hok : ok ⟨p, 4⟩)
    (hk : ∀ v, Does ok (k v) (h v) c) :
    Does ok (read_32 p >>= k) (fun m => h (readWord m p.toNat) m) c := by
  intro s
  obtain ⟨log, hlog, hrun⟩ := hk (readWord s.mem p.toNat) ⟨s.mem, s.log ++ [⟨p, 4⟩]⟩
  refine ⟨⟨p, 4⟩ :: log, List.forall_mem_cons.mpr ⟨hok, hlog⟩, ?_⟩
  rw [List.append_cons]
  exact hrun

theorem Does.store_8 {p : u32} {v : u8} (hok : ok ⟨p, 1⟩) :
    Does ok (store_8 v p : Prog α Unit) (fun m => (none, Function.update m p.toNat v)) () := fun _ =>
  ⟨[⟨p, 1⟩], List.forall_mem_singleton.mpr hok, rfl⟩

theorem Does.write_32 {p v : u32} (hok : ok ⟨p, 4⟩) :
    Does ok (write_32 v p : Prog α Unit) (fun m => (none, writeWord m p.toNat v)) () := fun _ =>
  ⟨[⟨p, 4⟩], List.forall_mem_singleton.mpr hok, rfl⟩

/-! ## Loops -/

section loops

variable {steps : ℕ → Step Mem α} {step stop : u32} {body : u32 → Prog α Unit} {P : ℕ → Prop}

/-- A loop whose rounds do the steps of `step` indices each. -/
theorem Does.for_up (hpos : 0 < step.toNat) (hP : ∀ j, P j → P (j + step.toNat))
    (hbody : ∀ i : u32, P i.toNat → i.toNat + step.toNat ≤ stop.toNat →
      Does ok (body i) (scan ((List.range' i.toNat step.toNat).map steps)) ())
    {n fuel : ℕ} {i : u32} (hi : n = 0 ∨ P i.toNat) (hstop : stop.toNat = i.toNat + n * step.toNat)
    (hfuel : n ≤ fuel) :
    Does ok (for_up step stop body fuel i)
      (scan ((List.range' i.toNat (n * step.toNat)).map steps)) stop := by
  induction n generalizing fuel i with
  | zero =>
      obtain rfl : stop = i := BitVec.eq_of_toNat_eq (by omega)
      rw [Nat.zero_mul]
      cases fuel with
      | zero => exact Does.pure
      | succ fuel =>
          rw [Memory.for_up, if_neg (BitVec.lt_irrefl stop)]
          exact Does.pure
  | succ n ih =>
      obtain ⟨fuel, rfl⟩ : ∃ k, fuel = k + 1 := ⟨fuel - 1, by omega⟩
      have hP' : P i.toNat := hi.resolve_left (Nat.succ_ne_zero n)
      rw [Nat.succ_mul, Nat.add_comm (n * step.toNat)] at hstop ⊢
      have hlt : i < stop := by
        rw [BitVec.lt_def]
        omega
      have hnext : (i + step).toNat = i.toNat + step.toNat := by
        rw [BitVec.toNat_add, Nat.mod_eq_of_lt]
        omega
      rw [Memory.for_up, if_pos hlt, ← List.range'_append_1, List.map_append, scan_append]
      apply Does.bind (hbody i hP' (by omega))
      rw [← hnext]
      apply ih
      · rw [hnext]
        exact .inr (hP _ hP')
      · omega
      · omega

/-- A loop that comes down. -/
theorem Does.for_down {top : ℕ} (hpos : 0 < step.toNat) (hP : ∀ j, P (j + step.toNat) → P j)
    (hbody : ∀ i : u32, P i.toNat → i.toNat + step.toNat ≤ top →
      Does ok (body i) (scan ((List.range' i.toNat step.toNat).reverse.map steps)) ())
    {n fuel : ℕ} {i : u32} (hi : n = 0 ∨ P i.toNat) (hstop : i.toNat = stop.toNat + n * step.toNat)
    (htop : i.toNat ≤ top) (hfuel : n ≤ fuel) :
    Does ok (for_down step stop body fuel i)
      (scan ((List.range' stop.toNat (n * step.toNat)).reverse.map steps)) stop := by
  induction n generalizing fuel i with
  | zero =>
      obtain rfl : stop = i := BitVec.eq_of_toNat_eq (by omega)
      rw [Nat.zero_mul]
      cases fuel with
      | zero => exact Does.pure
      | succ fuel =>
          rw [Memory.for_down, if_neg (BitVec.lt_irrefl stop)]
          exact Does.pure
  | succ n ih =>
      obtain ⟨fuel, rfl⟩ : ∃ k, fuel = k + 1 := ⟨fuel - 1, by omega⟩
      rw [Nat.succ_mul] at hstop ⊢
      have hlt : i > stop := by
        show stop.toNat < i.toNat
        omega
      have hprev : (i - step).toNat = stop.toNat + n * step.toNat := by
        rw [BitVec.toNat_sub_of_le]
        · omega
        · rw [BitVec.le_def]
          omega
      have hPprev : P (i - step).toNat := by
        apply hP
        rw [hprev, Nat.add_assoc, ← hstop]
        exact hi.resolve_left (Nat.succ_ne_zero n)
      rw [Memory.for_down, if_pos hlt, ← List.range'_append_1, List.reverse_append, List.map_append,
        scan_append, ← hprev]
      apply Does.bind (hbody (i - step) hPprev (by omega))
      exact ih (.inr hPprev) hprev (by omega) (by omega)

end loops

/-! ## Head, body and tail -/

/-- The body is a number of words, aligned unless there is none. -/
structure Split (left right len body_offset tail_offset : u32) : Prop where
  words : ∃ n, tail_offset.toNat = body_offset.toNat + n * 4
  le : tail_offset.toNat ≤ len.toNat
  aligned : body_offset.toNat < tail_offset.toNat → (left.toNat + body_offset.toNat) % 4 = 0 ∧
    (right = NULL ∨ (right.toNat + body_offset.toNat) % 4 = 0)

theorem split_of_leading {left right len lead : u32} (hle : lead.toNat ≤ len.toNat)
    (haligned : lead.toNat < len.toNat → (left.toNat + lead.toNat) % 4 = 0 ∧
      (right = NULL ∨ (right.toNat + lead.toNat) % 4 = 0)) :
    Split left right len lead (lead + (len - lead) / 4 * 4) := by
  have hsub : (len - lead).toNat = len.toNat - lead.toNat := BitVec.toNat_sub_of_le hle
  have hdiv : ((len - lead) / 4).toNat = (len.toNat - lead.toNat) / 4 := by
    rw [BitVec.toNat_udiv, hsub]
    rfl
  have hmul : ((len - lead) / 4 * 4).toNat = (len.toNat - lead.toNat) / 4 * 4 := by
    rw [BitVec.toNat_mul, hdiv, show (4 : u32).toNat = 4 from rfl]
    have hbound := len.isLt
    omega
  have htail : (lead + (len - lead) / 4 * 4).toNat =
      lead.toNat + (len.toNat - lead.toNat) / 4 * 4 := by
    rw [BitVec.toNat_add, hmul]
    omega
  refine ⟨⟨_, htail⟩, by omega, fun hlt => haligned (by omega)⟩

theorem toNat_misalignment32_of (p : u32) : (misalignment32_of p).toNat = p.toNat % 4 := by
  rw [misalignment32_of, BitVec.toNat_umod]
  rfl

/-- All bytes lead, or those up to the next word, and then both pointers reach one there. -/
theorem leading_cases (left right len : u32) :
    compute_num_leading_bytes left right len = len ∨
      4 ≤ len.toNat ∧
        (compute_num_leading_bytes left right len).toNat = (4 - left.toNat % 4) % 4 ∧
        (right = NULL ∨ left.toNat % 4 = right.toNat % 4) := by
  have hunfold : compute_num_leading_bytes left right len =
      if len < 4 then len
      else if right = NULL ∨ misalignment32_of left = misalignment32_of right then
        (4 - misalignment32_of left) &&& 0x3
      else len := rfl
  rw [hunfold]
  split_ifs with hshort hsame
  · exact .inl rfl
  · refine .inr ⟨Nat.le_of_not_lt hshort, ?_, hsame.imp_right fun h => ?_⟩
    · rw [BitVec.toNat_and, show (0x3 : u32).toNat = 2 ^ 2 - 1 from rfl,
        Nat.and_two_pow_sub_one_eq_mod, BitVec.toNat_sub_of_le, toNat_misalignment32_of]
      · rfl
      · rw [BitVec.le_def, toNat_misalignment32_of, show (4 : u32).toNat = 4 from rfl]
        omega
    · rw [← toNat_misalignment32_of, ← toNat_misalignment32_of, h]
  · exact .inl rfl

theorem compute_alignment_split (left right len : u32) :
    Split left right len (compute_alignment left right len).1
      (compute_alignment left right len).2 := by
  have hcases := leading_cases left right len
  apply split_of_leading
  · obtain hlead | ⟨hlong, hlead, -⟩ := hcases
    · exact le_of_eq (congrArg BitVec.toNat hlead)
    · show (compute_num_leading_bytes left right len).toNat ≤ len.toNat
      omega
  · show (compute_num_leading_bytes left right len).toNat < len.toNat → _
    intro hlt
    obtain hlead | ⟨-, hlead, hsame⟩ := hcases
    · exact absurd hlt (by rw [hlead]; exact lt_irrefl _)
    · show (left.toNat + (compute_num_leading_bytes left right len).toNat) % 4 = 0 ∧
        (right = NULL ∨ (right.toNat + (compute_num_leading_bytes left right len).toNat) % 4 = 0)
      rw [hlead]
      exact ⟨by omega, hsame.imp_right fun h => by omega⟩

/-! ## Byte by byte -/

/-- The address of byte `i` of a buffer. -/
def byte_at (p : u32) (i : ℕ) : ℕ := (p + BitVec.ofNat 32 i).toNat

def memcpy_bytewise (dest src len : u32) (m : Mem) : Mem :=
  (List.range len.toNat).foldl
    (fun m i => Function.update m (byte_at dest i) (m (byte_at src i))) m

def memset_bytewise (dest value len : u32) (m : Mem) : Mem :=
  (List.range len.toNat).foldl
    (fun m i => Function.update m (byte_at dest i) (value.setWidth 8)) m

/-- What two bytes that differ say about the buffers. -/
def compare_at (lhs rhs : u32) (m : Mem) (i : ℕ) : ℤ :=
  if m (byte_at lhs i) < m (byte_at rhs i) then kMemCmpLt else kMemCmpGt

/-- By the first byte that differs. -/
def memcmp_bytewise (lhs rhs len : u32) (m : Mem) : ℤ :=
  ((List.range len.toNat).find? fun i => m (byte_at lhs i) ≠ m (byte_at rhs i)).elim kMemCmpEq
    (compare_at lhs rhs m)

/-- By the last byte that differs. -/
def memrcmp_bytewise (lhs rhs len : u32) (m : Mem) : ℤ :=
  ((List.range len.toNat).reverse.find? fun i =>
    m (byte_at lhs i) ≠ m (byte_at rhs i)).elim kMemCmpEq (compare_at lhs rhs m)

def memchr_bytewise (ptr value len : u32) (m : Mem) : u32 :=
  ((List.range len.toNat).find? fun i => m (byte_at ptr i) = value.setWidth 8).elim NULL
    fun i => ptr + BitVec.ofNat 32 i

def memrchr_bytewise (ptr value len : u32) (m : Mem) : u32 :=
  ((List.range len.toNat).reverse.find? fun i => m (byte_at ptr i) = value.setWidth 8).elim NULL
    fun i => ptr + BitVec.ofNat 32 i

section steps

variable (dest src lhs rhs ptr : u32) (value8 : u8)

def copy_step (i : ℕ) : Step Mem α := fun m =>
  (none, Function.update m (byte_at dest i) (m (byte_at src i)))

def set_step (i : ℕ) : Step Mem α := fun m => (none, Function.update m (byte_at dest i) value8)

/-- What two numbers say about their order. -/
def order (x y : ℕ) : Option ℤ :=
  if x < y then some kMemCmpLt else if x > y then some kMemCmpGt else none

def compare_step (i : ℕ) : Step Mem ℤ := fun m =>
  (order (m (byte_at lhs i)).toNat (m (byte_at rhs i)).toNat, m)

def match_step (i : ℕ) : Step Mem u32 := fun m =>
  (if m (byte_at ptr i) = value8 then some (ptr + BitVec.ofNat 32 i) else none, m)

end steps

/-! ### Words -/

section words

variable {p q i : u32} {k : ℕ} (m : Mem)

theorem byte_at_of_aligned (h : (p.toNat + i.toNat) % 4 = 0) (hk : k < 4) :
    byte_at p (i.toNat + k) = (p + i).toNat + k := by
  rw [byte_at, BitVec.toNat_add, BitVec.toNat_ofNat, BitVec.toNat_add]
  omega

theorem toNat_add_mod_four (h : (p.toNat + i.toNat) % 4 = 0) : (p + i).toNat % 4 = 0 := by
  rw [BitVec.toNat_add]
  omega

/-- A store of a word into four cells of a byte. -/
theorem foldl_update_four {a : ℕ} {g : ℕ → Mem → u8}
    (hg : Local a 1 4 fun j m => [g j m]) (w : u32)
    (hw : le32 w = (List.range 4).map fun j => g j m) :
    (List.range 4).foldl (fun m j => Function.update m (a + j) (g j m)) m = writeWord m a w := by
  have hcells := hg.foldl_range le_rfl m
  rw [writeWord_eq_writeBytes, hw, List.map_eq_flatMap, ← hcells]
  apply List.foldl_ext
  intro m' j _
  rw [update_eq_writeBytes, write_cell, Nat.one_mul]

/-- Two aligned words are the same or have no byte in common. -/
theorem scan_copy_step (hp : (p.toNat + i.toNat) % 4 = 0) (hq : (q.toNat + i.toNat) % 4 = 0) :
    scan ((List.range' i.toNat 4).map (copy_step (α := α) p q)) m =
      (none, writeWord m (p + i).toNat (readWord m (q + i).toNat)) := by
  have hpa := toNat_add_mod_four hp
  have hqa := toNat_add_mod_four hq
  have hlocal : Local (p + i).toNat 1 4 fun j m => [m ((q + i).toNat + j)] := by
    refine ⟨fun _ _ => rfl, fun j hj m m' hm => ?_⟩
    rw [hm]
    rintro j' hj' hne ⟨hle, hlt⟩
    omega
  have hword := foldl_update_four m hlocal (readWord m (q + i).toNat) (by
    rw [le32_readWord]
    rfl)
  rw [← hword, ← scan_silent (α := α)]
  congr 1
  rw [List.range'_eq_map_range, List.map_map]
  apply List.map_congr_left
  intro j hj
  rw [List.mem_range] at hj
  funext m'
  rw [Function.comp_apply, copy_step, byte_at_of_aligned hp hj, byte_at_of_aligned hq hj]

theorem byteOf_repeat_byte (v : u8) {k : ℕ} (hk : k < 4) : byteOf (repeat_byte_to_u32 v) k = v := by
  have hunfold : repeat_byte_to_u32 v =
      v.setWidth 32 <<< (8 * 3) ||| v.setWidth 32 <<< (8 * 2) ||| v.setWidth 32 <<< (8 * 1) |||
        v.setWidth 32 <<< (8 * 0) := by
    rw [Nat.mul_zero, BitVec.shiftLeft_zero]
    rfl
  rw [hunfold, byteOf_or, byteOf_or, byteOf_or, byteOf_shiftLeft v hk, byteOf_shiftLeft v hk,
    byteOf_shiftLeft v hk, byteOf_shiftLeft v hk]
  interval_cases k
  · simp
  · simp
  · simp
  · simp

theorem scan_set_step (hp : (p.toNat + i.toNat) % 4 = 0) (v : u8) :
    scan ((List.range' i.toNat 4).map (set_step (α := α) p v)) m =
      (none, writeWord m (p + i).toNat (repeat_byte_to_u32 v)) := by
  have hlocal : Local (p + i).toNat 1 4 fun (_ : ℕ) (_ : Mem) => [v] :=
    ⟨fun _ _ => rfl, fun _ _ _ _ _ => rfl⟩
  have hword := foldl_update_four m hlocal (repeat_byte_to_u32 v) (by
    rw [le32, byteOf_repeat_byte v (by omega), byteOf_repeat_byte v (by omega),
      byteOf_repeat_byte v (by omega), byteOf_repeat_byte v (by omega)]
    rfl)
  rw [← hword, ← scan_silent (α := α)]
  congr 1
  rw [List.range'_eq_map_range, List.map_map]
  apply List.map_congr_left
  intro j hj
  rw [List.mem_range] at hj
  funext m'
  rw [Function.comp_apply, set_step, byte_at_of_aligned hp hj]

/-- The order of two numbers is that of their upper digits, or else that of the lowest ones. -/
theorem order_digits {x y X Y : ℕ} (hx : x < 256) (hy : y < 256) :
    order (x + 256 * X) (y + 256 * Y) = (order X Y).or (order x y) := by
  obtain hlt | rfl | hgt := lt_trichotomy X Y
  · have hlt' : x + 256 * X < y + 256 * Y := by omega
    rw [order, if_pos hlt', order, if_pos hlt]
    rfl
  · have hnone : order X X = none := by simp [order]
    rw [hnone, Option.none_or, order, order]
    simp only [Nat.add_lt_add_iff_right, gt_iff_lt]
  · have hgt' : x + 256 * X > y + 256 * Y := by omega
    rw [order, if_neg (by omega), if_pos hgt', order, if_neg (by omega), if_pos hgt]
    rfl

/-- Words are compared by their upper bytes first. -/
theorem order_word (l r : u32) :
    order l.toNat r.toNat =
      [3, 2, 1, 0].findSome? fun k => order (byteOf l k).toNat (byteOf r k).toNat := by
  have hbyte : ∀ (w : u32) (k : ℕ), (byteOf w k).toNat < 256 := fun w k => (byteOf w k).isLt
  rw [toNat_eq_bytes l, toNat_eq_bytes r, order_digits (hbyte _ _) (hbyte _ _),
    order_digits (hbyte _ _) (hbyte _ _), order_digits (hbyte _ _) (hbyte _ _)]
  simp only [List.findSome?_cons, List.findSome?_nil]
  generalize order (byteOf l 3).toNat (byteOf r 3).toNat = o3
  generalize order (byteOf l 2).toNat (byteOf r 2).toNat = o2
  generalize order (byteOf l 1).toNat (byteOf r 1).toNat = o1
  generalize order (byteOf l 0).toNat (byteOf r 0).toNat = o0
  cases o3 <;> cases o2 <;> cases o1 <;> cases o0 <;> rfl

theorem byteOf_bswap32 (w : u32) {k : ℕ} (hk : k < 4) : byteOf (bswap32 w) k = byteOf w (3 - k) := by
  rw [bswap32, byteOf_word _ _ _ _ _ hk]
  interval_cases k
  · rfl
  · rfl
  · rfl
  · rfl

/-- Words with their bytes the other way around are compared by their lower bytes first. -/
theorem order_bswap32 (l r : u32) :
    order (bswap32 l).toNat (bswap32 r).toNat =
      [0, 1, 2, 3].findSome? fun k => order (byteOf l k).toNat (byteOf r k).toNat := by
  rw [order_word]
  simp only [List.findSome?_cons, List.findSome?_nil, byteOf_bswap32 l (show 3 < 4 by omega),
    byteOf_bswap32 r (show 3 < 4 by omega), byteOf_bswap32 l (show 2 < 4 by omega),
    byteOf_bswap32 r (show 2 < 4 by omega), byteOf_bswap32 l (show 1 < 4 by omega),
    byteOf_bswap32 r (show 1 < 4 by omega), byteOf_bswap32 l (show 0 < 4 by omega),
    byteOf_bswap32 r (show 0 < 4 by omega)]

theorem load_of_aligned (h : (p.toNat + i.toNat) % 4 = 0) (hk : k < 4) :
    m (byte_at p (i.toNat + k)) = byteOf (readWord m (p + i).toNat) k := by
  rw [byte_at_of_aligned h hk, byteOf_readWord _ _ _ hk]

variable {lhs rhs ptr : u32} (hl : (lhs.toNat + i.toNat) % 4 = 0)
  (hr : (rhs.toNat + i.toNat) % 4 = 0)

include hl hr in
/-- The tests of four bytes are tests of the bytes of two words. -/
theorem findSome?_order (ks : List ℕ) (hks : ∀ k ∈ ks, k < 4) :
    (ks.map (i.toNat + ·)).findSome? (fun j =>
        order (m (byte_at lhs j)).toNat (m (byte_at rhs j)).toNat) =
      ks.findSome? fun k => order (byteOf (readWord m (lhs + i).toNat) k).toNat
        (byteOf (readWord m (rhs + i).toNat) k).toNat := by
  induction ks with
  | nil => rfl
  | cons k ks ih =>
      obtain ⟨hk, hks⟩ := List.forall_mem_cons.mp hks
      rw [List.map_cons, List.findSome?_cons, List.findSome?_cons, ih hks, load_of_aligned m hl hk,
        load_of_aligned m hr hk]

include hl hr in
theorem scan_compare_step :
    scan ((List.range' i.toNat 4).map (compare_step lhs rhs)) m =
      (order (bswap32 (readWord m (lhs + i).toNat)).toNat
        (bswap32 (readWord m (rhs + i).toNat)).toNat, m) := by
  refine (scan_test (fun (m : Mem) (j : ℕ) =>
    order (m (byte_at lhs j)).toNat (m (byte_at rhs j)).toNat) (List.range' i.toNat 4) m).trans ?_
  rw [order_bswap32, ← findSome?_order m hl hr [0, 1, 2, 3] (by decide)]
  rfl

include hl hr in
theorem scan_compare_step_reverse :
    scan ((List.range' i.toNat 4).reverse.map (compare_step lhs rhs)) m =
      (order (readWord m (lhs + i).toNat).toNat (readWord m (rhs + i).toNat).toNat, m) := by
  refine (scan_test (fun (m : Mem) (j : ℕ) =>
    order (m (byte_at lhs j)).toNat (m (byte_at rhs j)).toNat) (List.range' i.toNat 4).reverse
      m).trans ?_
  rw [order_word, ← findSome?_order m hl hr [3, 2, 1, 0] (by decide)]
  rfl

/-- The test of `memchr` for byte `k` of a word. -/
theorem all_eq_iff (w : u32) (v : u8) (hk : k < 4) :
    all_eq (~~~(w ^^^ repeat_byte_to_u32 v)) k ↔ byteOf w k = v := by
  have hmask : ∀ x : u32, all_eq x k ↔ byteOf x k = 255 := by
    intro x
    have hnum : ((x >>> (8 * k)) &&& UINT8_MAX).toNat = (byteOf x k).toNat := by
      rw [BitVec.toNat_and, show UINT8_MAX.toNat = 2 ^ 8 - 1 from rfl, Nat.and_two_pow_sub_one_eq_mod,
        byteOf, BitVec.extractLsb'_toNat, BitVec.toNat_ushiftRight]
    rw [all_eq, ← BitVec.toNat_inj, hnum, ← BitVec.toNat_inj]
    rfl
  rw [hmask, byteOf_not _ hk, byteOf_xor, byteOf_repeat_byte v hk]
  have hones : (255 : u8) = ~~~0 := by decide
  rw [hones, BitVec.not_inj]
  exact BitVec.xor_eq_zero_iff

end words

/-! ## Whole buffers -/

section buffers

variable {left right len body_offset tail_offset : u32} {steps : ℕ → Step Mem α}
  {byte word : u32 → Prog α Unit}

/-- Both pointers reach a word at offset `j`. -/
def Aligned (left right : u32) (j : ℕ) : Prop :=
  (left.toNat + j) % 4 = 0 ∧ (right = NULL ∨ (right.toNat + j) % 4 = 0)

theorem Aligned.add {j : ℕ} (h : Aligned left right j) (n : ℕ) : Aligned left right (j + n * 4) :=
  ⟨by have := h.1; omega, h.2.imp_right fun h => by omega⟩

theorem Aligned.sub {j : ℕ} (h : Aligned left right (j + 4)) : Aligned left right j :=
  ⟨by have := h.1; omega, h.2.imp_right fun h => by omega⟩

theorem Split.range (hsplit : Split left right len body_offset tail_offset) :
    ∃ n, tail_offset.toNat = body_offset.toNat + n * 4 ∧
      (n = 0 ∨ Aligned left right body_offset.toNat) ∧
      List.range len.toNat = List.range' 0 body_offset.toNat ++
        (List.range' body_offset.toNat (n * 4) ++
          List.range' tail_offset.toNat (len.toNat - tail_offset.toNat)) := by
  obtain ⟨⟨n, htail⟩, hle, haligned⟩ := hsplit
  have hlen : len.toNat = body_offset.toNat + (n * 4 + (len.toNat - tail_offset.toNat)) := by omega
  refine ⟨n, htail, ?_, ?_⟩
  · by_cases hn : n = 0
    · exact .inl hn
    · exact .inr (haligned (by omega))
  · rw [List.range_eq_range', htail, List.range'_append_1, ← htail]
    nth_rewrite 1 [hlen]
    rw [← List.range'_append_1, Nat.zero_add]

/-- The bytes in front of the body or behind it, one at a time. -/
theorem Does.bytes_up {i stop : u32} (hle : i.toNat ≤ stop.toNat) (hstop : stop.toNat ≤ len.toNat)
    (hbyte : ∀ i : u32, i.toNat + 1 ≤ len.toNat →
      Does ok (byte i) (scan ((List.range' i.toNat 1).map steps)) ()) :
    Does ok (Memory.for_up 1 stop byte len.toNat i)
      (scan ((List.range' i.toNat (stop.toNat - i.toNat)).map steps)) stop := by
  have hone : (1 : u32).toNat = 1 := rfl
  rw [← Nat.mul_one (stop.toNat - i.toNat)]
  apply Does.for_up (P := fun _ => True) (by decide) (fun _ _ => trivial)
  · intro j _ hj
    exact hbyte j (by omega)
  · exact .inr trivial
  · rw [hone]
    omega
  · omega

/-- The same from the end. -/
theorem Does.bytes_down {i stop : u32} (hle : stop.toNat ≤ i.toNat) (hi : i.toNat ≤ len.toNat)
    (hbyte : ∀ i : u32, i.toNat + 1 ≤ len.toNat →
      Does ok (byte i) (scan ((List.range' i.toNat 1).map steps)) ()) :
    Does ok (Memory.for_down 1 stop byte len.toNat i)
      (scan ((List.range' stop.toNat (i.toNat - stop.toNat)).reverse.map steps)) stop := by
  have hone : (1 : u32).toNat = 1 := rfl
  rw [← Nat.mul_one (i.toNat - stop.toNat)]
  apply Does.for_down (P := fun _ => True) (by decide) (fun _ _ => trivial)
  · exact fun j _ hj => hbyte j hj
  · exact .inr trivial
  · rw [hone]
    omega
  · exact hi
  · omega

/-- Head, body and tail are the whole buffer. -/
theorem Does.split_up (hsplit : Split left right len body_offset tail_offset)
    (hbyte : ∀ i : u32, i.toNat + 1 ≤ len.toNat →
      Does ok (byte i) (scan ((List.range' i.toNat 1).map steps)) ())
    (hword : ∀ i : u32, Aligned left right i.toNat → i.toNat + 4 ≤ len.toNat →
      Does ok (word i) (scan ((List.range' i.toNat 4).map steps)) ()) :
    Does ok (do
        let i ← Memory.for_up 1 body_offset byte len.toNat 0
        let i ← Memory.for_up 4 tail_offset word len.toNat i
        let _ ← Memory.for_up 1 len byte len.toNat i
        return b)
      (scan ((List.range len.toNat).map steps)) b := by
  have hle := hsplit.le
  obtain ⟨n, htail, haligned, hrange⟩ := hsplit.range
  have hfour : (4 : u32).toNat = 4 := rfl
  rw [hrange, List.map_append, List.map_append, scan_append, scan_append]
  apply Does.bind (Does.bytes_up (Nat.zero_le _) (by omega) hbyte)
  apply Does.bind
  · apply Does.for_up (P := Aligned left right) (by decide)
    · exact fun j h => h.add 1
    · intro i hP hi
      exact hword i hP (by omega)
    · exact haligned
    · rw [hfour, htail]
    · omega
  rw [← andThen_skip (scan _)]
  exact Does.bind (Does.bytes_up hle le_rfl hbyte) Does.pure

/-- The same from the end. -/
theorem Does.split_down (hsplit : Split left right len body_offset tail_offset)
    (hbyte : ∀ i : u32, i.toNat + 1 ≤ len.toNat →
      Does ok (byte i) (scan ((List.range' i.toNat 1).map steps)) ())
    (hword : ∀ i : u32, Aligned left right i.toNat → i.toNat + 4 ≤ len.toNat →
      Does ok (word i) (scan ((List.range' i.toNat 4).reverse.map steps)) ()) :
    Does ok (do
        let e ← Memory.for_down 1 tail_offset byte len.toNat len
        let e ← Memory.for_down 4 body_offset word len.toNat e
        let _ ← Memory.for_down 1 0 byte len.toNat e
        return b)
      (scan ((List.range len.toNat).reverse.map steps)) b := by
  have hle := hsplit.le
  obtain ⟨n, htail, haligned, hrange⟩ := hsplit.range
  have hfour : (4 : u32).toNat = 4 := rfl
  rw [hrange, List.reverse_append, List.reverse_append, List.append_assoc, List.map_append,
    List.map_append, scan_append, scan_append]
  apply Does.bind (Does.bytes_down hle le_rfl hbyte)
  apply Does.bind
  · apply Does.for_down (P := Aligned left right) (by decide)
    · exact fun j h => h.sub
    · intro i hP hi
      exact hword i hP (le_trans hi hle)
    · exact haligned.imp_right fun h => by rw [htail]; exact h.add n
    · rw [hfour, htail]
    · exact le_rfl
    · omega
  rw [← andThen_skip (scan _)]
  exact Does.bind (Does.bytes_down (Nat.zero_le _) (by omega) hbyte) Does.pure

end buffers

/-! ## The functions -/

/-- The `len` bytes from `ptr` on. -/
structure Buffer where
  ptr : u32
  len : u32

/-- A buffer that has a byte is not at the null pointer. -/
def Buffer.Valid (b : Buffer) : Prop := b.len ≠ 0 → b.ptr ≠ NULL

/-- A word is aligned, and all bytes lie in one of the buffers. -/
def Within (bufs : List Buffer) (x : Access) : Prop :=
  (x.size = 4 → x.addr.toNat % 4 = 0) ∧
    ∃ b ∈ bufs, ∃ i, i + x.size ≤ b.len.toNat ∧ x.addr = b.ptr + BitVec.ofNat 32 i

/-- The function returns `r` and leaves `m`, and accesses the buffers only. -/
def Yields {ρ : Type} (run : World → ρ × World) (bufs : List Buffer) (r : Mem → ρ)
    (m : Mem → Mem) : Prop :=
  ∀ s : World, ∃ log : List Access, (∀ x ∈ log, Within bufs x) ∧
    run s = (r s.mem, ⟨m s.mem, s.log ++ log⟩)

section accesses

variable {bufs : List Buffer} {buf : Buffer} {i : u32}

theorem within_byte (hbuf : buf ∈ bufs) (hi : i.toNat + 1 ≤ buf.len.toNat) :
    Within bufs ⟨buf.ptr + i, 1⟩ :=
  ⟨nofun, buf, hbuf, i.toNat, hi, by rw [BitVec.ofNat_toNat, BitVec.setWidth_eq]⟩

theorem within_word (hbuf : buf ∈ bufs) (halign : (buf.ptr.toNat + i.toNat) % 4 = 0)
    (hi : i.toNat + 4 ≤ buf.len.toNat) : Within bufs ⟨buf.ptr + i, 4⟩ :=
  ⟨fun _ => toNat_add_mod_four halign, buf, hbuf, i.toNat, hi, by
    rw [BitVec.ofNat_toNat, BitVec.setWidth_eq]⟩

theorem byte_at_toNat (p i : u32) : byte_at p i.toNat = (p + i).toNat := by
  rw [byte_at, BitVec.ofNat_toNat, BitVec.setWidth_eq]

/-- A single step. -/
theorem Does.one {p : Prog α β} {steps : ℕ → Step Mem α} {i : ℕ} (hp : Does ok p (steps i) b) :
    Does ok p (scan ((List.range' i 1).map steps)) b := by
  show Does ok p (andThen (steps i) skip) b
  rw [andThen_skip]
  exact hp

end accesses

/-- A function that is done with its walk returns what the walk found, or else its last value. -/
theorem yields_of_does {bufs : List Buffer} {p : Prog α α} (hp : Does (Within bufs) p f a)
    {r : Mem → α} {m : Mem → Mem} (hr : ∀ s, (f s).1.getD a = r s) (hm : ∀ s, (f s).2 = m s) :
    Yields (finish p) bufs r m := by
  intro s
  obtain ⟨log, hlog, hrun⟩ := hp.finish s
  exact ⟨log, hlog, by rw [hrun, hr, hm]⟩

section bodies

variable {bufs : List Buffer} {dest src lhs rhs ptr len i : u32} (v : u8)

theorem does_copy_byte (hdest : ⟨dest, len⟩ ∈ bufs) (hsrc : ⟨src, len⟩ ∈ bufs)
    (hi : i.toNat + 1 ≤ len.toNat) :
    Does (Within bufs) (copy_byte dest src i : Prog α Unit)
      (scan ((List.range' i.toNat 1).map (copy_step dest src))) () := by
  apply Does.one
  refine (Does.load_8 (within_byte hsrc hi) fun v => Does.store_8 (within_byte hdest hi)).congr ?_
  intro m
  rw [copy_step, byte_at_toNat, byte_at_toNat]

theorem does_copy_word (hdest : ⟨dest, len⟩ ∈ bufs) (hsrc : ⟨src, len⟩ ∈ bufs)
    (hd : (dest.toNat + i.toNat) % 4 = 0) (hs : (src.toNat + i.toNat) % 4 = 0)
    (hi : i.toNat + 4 ≤ len.toNat) :
    Does (Within bufs) (copy_word dest src i : Prog α Unit)
      (scan ((List.range' i.toNat 4).map (copy_step dest src))) () := by
  refine (Does.read_32 (within_word hsrc hs hi) fun v =>
    Does.write_32 (within_word hdest hd hi)).congr ?_
  intro m
  rw [scan_copy_step m hd hs]

theorem does_set_byte (hdest : ⟨dest, len⟩ ∈ bufs) (hi : i.toNat + 1 ≤ len.toNat) :
    Does (Within bufs) (store_8 v (dest + i) : Prog α Unit)
      (scan ((List.range' i.toNat 1).map (set_step dest v))) () := by
  apply Does.one
  refine (Does.store_8 (within_byte hdest hi)).congr ?_
  intro m
  rw [set_step, byte_at_toNat]

theorem does_set_word (hdest : ⟨dest, len⟩ ∈ bufs) (hd : (dest.toNat + i.toNat) % 4 = 0)
    (hi : i.toNat + 4 ≤ len.toNat) :
    Does (Within bufs) (write_32 (repeat_byte_to_u32 v) (dest + i) : Prog α Unit)
      (scan ((List.range' i.toNat 4).map (set_step dest v))) () := by
  refine (Does.write_32 (within_word hdest hd hi)).congr ?_
  intro m
  rw [scan_set_step m hd]

theorem does_compare {w : ℕ} {ok : Access → Prop} (left right : BitVec w) :
    Does ok (compare left right) (fun m => (order left.toNat right.toNat, m)) () := by
  rw [compare, order]
  by_cases hlt : left < right
  · have hlt' : left.toNat < right.toNat := hlt
    rw [if_pos hlt, if_pos hlt']
    exact Does.throw
  · have hlt' : ¬left.toNat < right.toNat := hlt
    rw [if_neg hlt, if_neg hlt']
    by_cases hgt : left > right
    · have hgt' : left.toNat > right.toNat := hgt
      rw [if_pos hgt, if_pos hgt']
      exact Does.throw
    · have hgt' : ¬left.toNat > right.toNat := hgt
      rw [if_neg hgt, if_neg hgt']
      exact Does.pure

theorem does_compare_byte (hlhs : ⟨lhs, len⟩ ∈ bufs) (hrhs : ⟨rhs, len⟩ ∈ bufs)
    (hi : i.toNat + 1 ≤ len.toNat) :
    Does (Within bufs) (compare_byte lhs rhs i)
      (scan ((List.range' i.toNat 1).map (compare_step lhs rhs))) () := by
  apply Does.one
  refine (Does.load_8 (within_byte hlhs hi) fun l => Does.load_8 (within_byte hrhs hi) fun r =>
    does_compare l r).congr ?_
  intro m
  rw [compare_step, byte_at_toNat, byte_at_toNat]

theorem does_compare_word_bswap (hlhs : ⟨lhs, len⟩ ∈ bufs) (hrhs : ⟨rhs, len⟩ ∈ bufs)
    (hl : (lhs.toNat + i.toNat) % 4 = 0) (hr : (rhs.toNat + i.toNat) % 4 = 0)
    (hi : i.toNat + 4 ≤ len.toNat) :
    Does (Within bufs) (compare_word_bswap lhs rhs i)
      (scan ((List.range' i.toNat 4).map (compare_step lhs rhs))) () := by
  refine (Does.read_32 (within_word hlhs hl hi) fun l => Does.read_32 (within_word hrhs hr hi)
    fun r => does_compare (bswap32 l) (bswap32 r)).congr ?_
  intro m
  rw [scan_compare_step m hl hr]

theorem does_compare_word (hlhs : ⟨lhs, len⟩ ∈ bufs) (hrhs : ⟨rhs, len⟩ ∈ bufs)
    (hl : (lhs.toNat + i.toNat) % 4 = 0) (hr : (rhs.toNat + i.toNat) % 4 = 0)
    (hi : i.toNat + 4 ≤ len.toNat) :
    Does (Within bufs) (compare_word lhs rhs i)
      (scan ((List.range' i.toNat 4).reverse.map (compare_step lhs rhs))) () := by
  refine (Does.read_32 (within_word hlhs hl hi) fun l => Does.read_32 (within_word hrhs hr hi)
    fun r => does_compare l r).congr ?_
  intro m
  rw [scan_compare_step_reverse m hl hr]

theorem does_match_byte (hptr : ⟨ptr, len⟩ ∈ bufs) (hi : i.toNat + 1 ≤ len.toNat) :
    Does (Within bufs) (match_byte v ptr i)
      (scan ((List.range' i.toNat 1).map (match_step ptr v))) () := by
  apply Does.one
  refine (Does.load_8 (within_byte hptr hi) fun b => Does.return_if).congr ?_
  intro m
  rw [match_step, byte_at_toNat, BitVec.ofNat_toNat, BitVec.setWidth_eq]

/-- The test for byte `k` of a word that was read at offset `i`. -/
def word_test (v : u8) (ptr i w : u32) (k : ℕ) : Option u32 :=
  if all_eq (~~~(w ^^^ repeat_byte_to_u32 v)) k then some (ptr + (i + BitVec.ofNat 32 k)) else none

/-- The test of a byte of a word is the test of that byte in memory. -/
theorem findSome?_word_test (m : Mem) (hp : (ptr.toNat + i.toNat) % 4 = 0) (ks : List ℕ)
    (hks : ∀ k ∈ ks, k < 4) :
    ks.findSome? (word_test v ptr i (readWord m (ptr + i).toNat)) =
      (ks.map (i.toNat + ·)).findSome? fun j =>
        if m (byte_at ptr j) = v then some (ptr + BitVec.ofNat 32 j) else none := by
  induction ks with
  | nil => rfl
  | cons k ks ih =>
      obtain ⟨hk, hks⟩ := List.forall_mem_cons.mp hks
      rw [List.map_cons, List.findSome?_cons, List.findSome?_cons, ih hks, load_of_aligned m hp hk,
        word_test, ← BitVec.ofNat_add_ofNat, BitVec.ofNat_toNat, BitVec.setWidth_eq]
      simp only [all_eq_iff _ _ hk]

theorem does_word_test {ok : Access → Prop} (w : u32) (k : ℕ) :
    Does ok (return_if (all_eq (~~~(w ^^^ repeat_byte_to_u32 v)) k) (ptr + (i + BitVec.ofNat 32 k)))
      (fun m => (word_test v ptr i w k, m)) () :=
  Does.return_if

/-- A word is read, and its bytes are tested in the order `ks`. -/
theorem does_word_tests (hptr : ⟨ptr, len⟩ ∈ bufs) (hp : (ptr.toNat + i.toNat) % 4 = 0)
    (hi : i.toNat + 4 ≤ len.toNat) {tests : u32 → Prog u32 Unit} (ks : List ℕ)
    (hks : ∀ k ∈ ks, k < 4)
    (htests : ∀ w, Does (Within bufs) (tests w)
      (scan (ks.map fun k m => (word_test v ptr i w k, m))) ()) :
    Does (Within bufs) (read_32 (ptr + i) >>= tests)
      (scan ((ks.map (i.toNat + ·)).map (match_step ptr v))) () := by
  refine (Does.read_32 (within_word hptr hp hi) htests).congr fun m => ?_
  refine (scan_test _ ks m).trans ?_
  rw [findSome?_word_test v m hp ks hks]
  exact (scan_test (fun (m : Mem) j =>
    if m (byte_at ptr j) = v then some (ptr + BitVec.ofNat 32 j) else none) _ m).symm

theorem does_match_word (hptr : ⟨ptr, len⟩ ∈ bufs) (hp : (ptr.toNat + i.toNat) % 4 = 0)
    (hi : i.toNat + 4 ≤ len.toNat) :
    Does (Within bufs) (match_word (repeat_byte_to_u32 v) ptr i)
      (scan ((List.range' i.toNat 4).map (match_step ptr v))) () := by
  have hzero : ptr + i = ptr + (i + BitVec.ofNat 32 0) := by rw [BitVec.add_zero]
  refine does_word_tests v hptr hp hi [0, 1, 2, 3] (by decide) fun w => ?_
  rw [hzero]
  apply Does.bind (does_word_test v w 0)
  apply Does.bind (does_word_test v w 1)
  apply Does.bind (does_word_test v w 2)
  exact (does_word_test v w 3).congr fun m => (congrFun (andThen_skip _) m).symm

theorem does_match_word_last (hptr : ⟨ptr, len⟩ ∈ bufs) (hp : (ptr.toNat + i.toNat) % 4 = 0)
    (hi : i.toNat + 4 ≤ len.toNat) :
    Does (Within bufs) (match_word_last (repeat_byte_to_u32 v) ptr i)
      (scan ((List.range' i.toNat 4).reverse.map (match_step ptr v))) () := by
  have hzero : ptr + i = ptr + (i + BitVec.ofNat 32 0) := by rw [BitVec.add_zero]
  refine does_word_tests v hptr hp hi [3, 2, 1, 0] (by decide) fun w => ?_
  rw [hzero]
  apply Does.bind (does_word_test v w 3)
  apply Does.bind (does_word_test v w 2)
  apply Does.bind (does_word_test v w 1)
  exact (does_word_test v w 0).congr fun m => (congrFun (andThen_skip _) m).symm

end bodies

theorem ne_zero_of_le {len : u32} {n : ℕ} (h : n + 4 ≤ len.toNat) : len ≠ 0 := by
  rintro rfl
  exact absurd h (by simp)

/-- Word by word in the middle, and the same bytes as one by one. -/
theorem memcpy_yields {dest src len : u32} (hdest : Buffer.Valid ⟨dest, len⟩)
    (hsrc : Buffer.Valid ⟨src, len⟩) :
    Yields (memcpy dest src len) [⟨dest, len⟩, ⟨src, len⟩] (fun _ => dest)
      (memcpy_bytewise dest src len) := by
  have hd : (⟨dest, len⟩ : Buffer) ∈ [⟨dest, len⟩, ⟨src, len⟩] := List.mem_cons_self
  have hs : (⟨src, len⟩ : Buffer) ∈ [⟨dest, len⟩, ⟨src, len⟩] := by simp
  have hsilent := scan_silent (α := u32)
    (fun (m : Mem) i => Function.update m (byte_at dest i) (m (byte_at src i))) (List.range len.toNat)
  have hnull : ∀ s : Mem, andThen
      (fun m => (if dest = NULL ∨ src = NULL then some dest else none, m))
        (scan ((List.range len.toNat).map (copy_step dest src))) s =
      (if dest = NULL ∨ src = NULL then some dest else none, memcpy_bytewise dest src len s) := by
    intro s
    by_cases h : dest = NULL ∨ src = NULL
    · -- there is nothing to be copied
      have hlen : len = 0 := by
        by_contra hne
        exact h.elim (hdest hne) (hsrc hne)
      rw [andThen, if_pos h, memcpy_bytewise, hlen]
      rfl
    · rw [andThen, if_neg h]
      exact hsilent s
  refine yields_of_does (f := andThen
      (fun m => (if dest = NULL ∨ src = NULL then some dest else none, m))
        (scan ((List.range len.toNat).map (copy_step dest src))))
    (Does.bind Does.return_if (Does.split_up (compute_alignment_split dest src len)
      (fun i hi => does_copy_byte hd hs hi)
      (fun i hal hi => does_copy_word hd hs hal.1
        (hal.2.resolve_left (hsrc (ne_zero_of_le hi))) hi))) ?_ ?_
  · intro s
    rw [hnull]
    split_ifs
    · rfl
    · rfl
  · intro s
    rw [hnull]

theorem memset_yields (dest value len : u32) :
    Yields (memset dest value len) [⟨dest, len⟩] (fun _ => dest)
      (memset_bytewise dest value len) := by
  have hbuf : (⟨dest, len⟩ : Buffer) ∈ [(⟨dest, len⟩ : Buffer)] := List.mem_singleton_self _
  have hsilent := scan_silent (α := u32)
    (fun (m : Mem) i => Function.update m (byte_at dest i) (value.setWidth 8)) (List.range len.toNat)
  refine yields_of_does (Does.split_up (compute_alignment_split dest NULL len)
    (fun i hi => does_set_byte (value.setWidth 8) hbuf hi)
    (fun i hal hi => does_set_word (value.setWidth 8) hbuf hal.1 hi)) ?_ ?_
  · exact fun s => congrArg (fun r => r.1.getD dest) (hsilent s)
  · exact fun s => congrArg Prod.snd (hsilent s)

theorem order_eq (x y : ℕ) :
    order x y = if x ≠ y then some (if x < y then kMemCmpLt else kMemCmpGt) else none := by
  obtain hlt | rfl | hgt := lt_trichotomy x y
  · rw [order, if_pos hlt, if_pos hlt.ne, if_pos hlt]
  · simp [order]
  · rw [order, if_neg hgt.not_gt, if_pos hgt, if_pos hgt.ne', if_neg hgt.not_gt]

/-- What the walk over two buffers that are compared finds. -/
theorem scan_compare (lhs rhs : u32) (is : List ℕ) (m : Mem) :
    scan (is.map (compare_step lhs rhs)) m =
      ((is.find? fun i => m (byte_at lhs i) ≠ m (byte_at rhs i)).map (compare_at lhs rhs m), m) := by
  refine (scan_test (fun (m : Mem) j =>
    order (m (byte_at lhs j)).toNat (m (byte_at rhs j)).toNat) is m).trans ?_
  rw [← findSome?_eq_find?]
  congr 2
  funext i
  rw [order_eq, compare_at]
  simp only [decide_eq_true_eq, ne_eq, BitVec.toNat_inj, BitVec.lt_def]

theorem getD_map {ι : Type} (o : Option ι) (g : ι → α) (a : α) : (o.map g).getD a = o.elim a g := by
  cases o with
  | none => rfl
  | some i => rfl

theorem memcmp_yields {lhs rhs len : u32} (hrhs : Buffer.Valid ⟨rhs, len⟩) :
    Yields (memcmp lhs rhs len) [⟨lhs, len⟩, ⟨rhs, len⟩] (memcmp_bytewise lhs rhs len) id := by
  have hl : (⟨lhs, len⟩ : Buffer) ∈ [⟨lhs, len⟩, ⟨rhs, len⟩] := List.mem_cons_self
  have hr : (⟨rhs, len⟩ : Buffer) ∈ [⟨lhs, len⟩, ⟨rhs, len⟩] := by simp
  refine yields_of_does (Does.split_up (compute_alignment_split lhs rhs len)
    (fun i hi => does_compare_byte hl hr hi)
    (fun i hal hi => does_compare_word_bswap hl hr hal.1
      (hal.2.resolve_left (hrhs (ne_zero_of_le hi))) hi)) ?_ ?_
  · intro s
    rw [scan_compare, getD_map]
    rfl
  · intro s
    rw [scan_compare]
    rfl

theorem memrcmp_yields {lhs rhs len : u32} (hrhs : Buffer.Valid ⟨rhs, len⟩) :
    Yields (memrcmp lhs rhs len) [⟨lhs, len⟩, ⟨rhs, len⟩] (memrcmp_bytewise lhs rhs len) id := by
  have hl : (⟨lhs, len⟩ : Buffer) ∈ [⟨lhs, len⟩, ⟨rhs, len⟩] := List.mem_cons_self
  have hr : (⟨rhs, len⟩ : Buffer) ∈ [⟨lhs, len⟩, ⟨rhs, len⟩] := by simp
  refine yields_of_does (Does.split_down (compute_alignment_split lhs rhs len)
    (fun i hi => does_compare_byte hl hr hi)
    (fun i hal hi => does_compare_word hl hr hal.1
      (hal.2.resolve_left (hrhs (ne_zero_of_le hi))) hi)) ?_ ?_
  · intro s
    rw [scan_compare, getD_map]
    rfl
  · intro s
    rw [scan_compare]
    rfl

theorem scan_match (ptr : u32) (v : u8) (is : List ℕ) (m : Mem) :
    scan (is.map (match_step ptr v)) m =
      ((is.find? fun i => m (byte_at ptr i) = v).map fun i => ptr + BitVec.ofNat 32 i, m) := by
  refine (scan_test (fun (m : Mem) j =>
    if m (byte_at ptr j) = v then some (ptr + BitVec.ofNat 32 j) else none) is m).trans ?_
  rw [← findSome?_eq_find?]
  simp only [decide_eq_true_eq]

theorem memchr_yields (ptr value len : u32) :
    Yields (memchr ptr value len) [⟨ptr, len⟩] (memchr_bytewise ptr value len) id := by
  have hbuf : (⟨ptr, len⟩ : Buffer) ∈ [(⟨ptr, len⟩ : Buffer)] := List.mem_singleton_self _
  refine yields_of_does (Does.split_up (compute_alignment_split ptr NULL len)
    (fun i hi => does_match_byte (value.setWidth 8) hbuf hi)
    (fun i hal hi => does_match_word (value.setWidth 8) hbuf hal.1 hi)) ?_ ?_
  · intro s
    rw [scan_match, getD_map]
    rfl
  · intro s
    rw [scan_match]
    rfl

theorem memrchr_yields (ptr value len : u32) :
    Yields (memrchr ptr value len) [⟨ptr, len⟩] (memrchr_bytewise ptr value len) id := by
  have hbuf : (⟨ptr, len⟩ : Buffer) ∈ [(⟨ptr, len⟩ : Buffer)] := List.mem_singleton_self _
  refine yields_of_does (Does.split_down (compute_alignment_split ptr NULL len)
    (fun i hi => does_match_byte (value.setWidth 8) hbuf hi)
    (fun i hal hi => does_match_word_last (value.setWidth 8) hbuf hal.1 hi)) ?_ ?_
  · intro s
    rw [scan_match, getD_map]
    rfl
  · intro s
    rw [scan_match]
    rfl

/-- Each function returns what the walk over the bytes returns and leaves the memory as the walk
does, and it accesses its buffers only, words where they are aligned. A copy is the walk from the
first byte on also where the buffers overlap. -/
theorem memory_functions_bytewise (len : u32) :
    (∀ dest src, Buffer.Valid ⟨dest, len⟩ → Buffer.Valid ⟨src, len⟩ →
      Yields (memcpy dest src len) [⟨dest, len⟩, ⟨src, len⟩] (fun _ => dest)
        (memcpy_bytewise dest src len)) ∧
    (∀ dest value, Yields (memset dest value len) [⟨dest, len⟩] (fun _ => dest)
      (memset_bytewise dest value len)) ∧
    (∀ lhs rhs, Buffer.Valid ⟨lhs, len⟩ → Buffer.Valid ⟨rhs, len⟩ →
      Yields (memcmp lhs rhs len) [⟨lhs, len⟩, ⟨rhs, len⟩] (memcmp_bytewise lhs rhs len) id ∧
      Yields (memrcmp lhs rhs len) [⟨lhs, len⟩, ⟨rhs, len⟩] (memrcmp_bytewise lhs rhs len) id) ∧
    ∀ ptr value,
      Yields (memchr ptr value len) [⟨ptr, len⟩] (memchr_bytewise ptr value len) id ∧
      Yields (memrchr ptr value len) [⟨ptr, len⟩] (memrchr_bytewise ptr value len) id :=
  ⟨fun _ _ hdest hsrc => memcpy_yields hdest hsrc, fun dest value => memset_yields dest value len,
    fun _ _ _ hrhs => ⟨memcmp_yields hrhs, memrcmp_yields hrhs⟩,
    fun ptr value => ⟨memchr_yields ptr value len, memrchr_yields ptr value len⟩⟩

/-- Eleven bytes, with two in front of the first word. -/
theorem memory_functions_bytewise_eleven :
    (memcpy 0x102 0x206 11 ⟨fun a => BitVec.ofNat 8 a, []⟩).1 = 0x102 ∧
      readBytes (memcpy 0x102 0x206 11 ⟨fun a => BitVec.ofNat 8 a, []⟩).2.mem 0x102 11 =
        [6, 7, 8, 9, 10, 11, 12, 13, 14, 15, 16] := by
  have hvalid : ∀ p : u32, p ≠ NULL → Buffer.Valid ⟨p, 11⟩ := fun _ hp _ => hp
  obtain ⟨log, -, hrun⟩ := (memory_functions_bytewise 11).1 0x102 0x206 (hvalid _ (by decide))
    (hvalid _ (by decide)) ⟨fun a => BitVec.ofNat 8 a, []⟩
  have hcopied : readBytes (memcpy_bytewise 0x102 0x206 11 fun a => BitVec.ofNat 8 a) 0x102 11 =
      [6, 7, 8, 9, 10, 11, 12, 13, 14, 15, 16] := by
    decide
  rw [hrun]
  exact ⟨rfl, hcopied⟩

end IbexFirmware.Memory
