/-
Random traversal orders (`random_order.c`) and the loops of `hardened_memory.c` that follow
them.

A traversal starts at a random index and goes once round, with the step over the end chosen
by masks instead of a branch. `advances_visit` says that it visits every index once. The loops
write one cell of a buffer in each turn, or collect one difference, and for either the order
makes no difference: `Cells.foldl_cells` for the writes, and for the differences that they are
joined by `|||` and `&&&`. So each function does what a straight loop does
(`hardened_memory_plain`), with none of its checks firing.

`HardenedMemory` has the same functions without the order, on lists.
-/
import IbexFirmware.HardenedMemory
import IbexFirmware.Lib.Bits
import IbexFirmware.Lib.Cells
import IbexFirmware.Lib.Cyclic

set_option autoImplicit false

namespace IbexFirmware.Traversal

open Bytes Bits Cells
open HardenedMemory (EntropySource memeq_step memeq_pass memeq_pass_eq_zero_iff)

/-! ## Selection without a branch -/

/-- All ones if `a` is negative. -/
def ct_sltz32 (a : u32) : u32 := a.sshiftRight 31

def ct_sltu32 (a b : u32) : u32 := ct_sltz32 (~~~a &&& b ||| (~~~a ||| b) &&& (a - b))

def ct_cmov32 (c a b : u32) : u32 := c &&& a ||| ~~~c &&& b

theorem ct_sltz32_eq (a : u32) : ct_sltz32 a = if a.msb then BitVec.allOnes 32 else 0 := by
  apply BitVec.eq_of_getLsbD_eq
  intro i hi
  have hbit : (ct_sltz32 a).getLsbD i = a.msb := by
    rw [ct_sltz32, BitVec.getLsbD_sshiftRight, BitVec.msb_eq_getLsbD_last]
    by_cases hi0 : i = 0
    · subst hi0
      simp
    · simp [show ¬31 + i < 32 by omega, show ¬32 ≤ i by omega]
  rw [hbit]
  cases a.msb with
  | false => simp
  | true => rw [if_pos rfl, BitVec.getLsbD_allOnes, decide_eq_true hi]

/-- With equal sign bits the difference has its sign bit set exactly when it borrows. -/
theorem msb_borrow (a b : u32) :
    (~~~a &&& b ||| (~~~a ||| b) &&& (a - b)).msb = decide (a < b) := by
  have hmsb : (~~~a &&& b ||| (~~~a ||| b) &&& (a - b)).msb =
      (!a.msb && b.msb || (!a.msb || b.msb) && (a - b).msb) := by
    simp [BitVec.msb_or, BitVec.msb_and, BitVec.msb_not]
  have hsub : (a - b).toNat = (2 ^ 32 - b.toNat + a.toNat) % 2 ^ 32 := BitVec.toNat_sub a b
  have hlt : a < b ↔ a.toNat < b.toNat := Iff.rfl
  rw [hmsb, BitVec.msb_eq_decide a, BitVec.msb_eq_decide b]
  by_cases ha' : 2 ^ (32 - 1) ≤ a.toNat
  · by_cases hb' : 2 ^ (32 - 1) ≤ b.toNat
    · rw [decide_eq_true ha', decide_eq_true hb', BitVec.msb_eq_decide (a - b), hsub]
      simp only [Bool.not_true, Bool.false_and, Bool.false_or, Bool.true_and, decide_eq_decide, hlt]
      omega
    · rw [decide_eq_true ha', decide_eq_false hb', decide_eq_false (p := a < b) (by rw [hlt]; omega)]
      rfl
  · by_cases hb' : 2 ^ (32 - 1) ≤ b.toNat
    · rw [decide_eq_false ha', decide_eq_true hb', decide_eq_true (p := a < b) (by rw [hlt]; omega)]
      rfl
    · rw [decide_eq_false ha', decide_eq_false hb', BitVec.msb_eq_decide (a - b), hsub]
      simp only [Bool.not_false, Bool.true_or, Bool.and_false, Bool.false_or, Bool.true_and,
        decide_eq_decide, hlt]
      omega

theorem ct_sltu32_eq (a b : u32) : ct_sltu32 a b = if a < b then BitVec.allOnes 32 else 0 := by
  rw [ct_sltu32, ct_sltz32_eq, msb_borrow]
  simp only [decide_eq_true_eq]

theorem ct_cmov32_eq (p : Prop) [Decidable p] (a b : u32) :
    ct_cmov32 (if p then BitVec.allOnes 32 else 0) a b = if p then a else b := by
  have hones : ~~~BitVec.allOnes 32 = 0#32 := rfl
  have hzero : ~~~(0 : u32) = BitVec.allOnes 32 := rfl
  have hand : ∀ x : u32, 0 &&& x = 0#32 := fun x => BitVec.zero_and
  split_ifs
  · rw [ct_cmov32, hones, BitVec.allOnes_and, BitVec.zero_and, BitVec.or_zero]
  · rw [ct_cmov32, hzero, BitVec.allOnes_and, hand, BitVec.zero_or]

/-! ## Traversals -/

/-- The next random word. -/
def draw (e : EntropySource) : u32 × EntropySource := (e.word e.drawn, e.after 1)

/-- `random_order_t`. -/
structure RandomOrder where
  state : u32
  max : u32
  ctr : u32

def random_order_init (min_len : u32) (e : EntropySource) : RandomOrder × EntropySource :=
  if min_len > 0 then
    let (word, e) := draw e
    (⟨word % min_len, min_len, 0⟩, e)
  else (⟨0, min_len, 0⟩, e)

def random_order_advance (ctx : RandomOrder) : Option (u32 × RandomOrder) := do
  let out := ctx.state
  let next := ctx.state + 1
  let next_overflow := next - ctx.max
  let which := ct_sltu32 next ctx.max
  let state := ct_cmov32 which next next_overflow
  hardened_check (state ≤ ctx.max)
  pure (out, ⟨state, ctx.max, ctx.ctr + 1⟩)

/-- `n` calls of `random_order_advance`. -/
def advances : ℕ → RandomOrder → Option (List u32 × RandomOrder)
  | 0, ctx => some ([], ctx)
  | n + 1, ctx => do
      let (i, ctx) ← random_order_advance ctx
      let (is, ctx) ← advances n ctx
      pure (i :: is, ctx)

/-- `RANDOM_ORDER_HARDENED_CHECK_DONE`. -/
def random_order_check_done (ctx : RandomOrder) : Option Unit := hardened_check (ctx.max = ctx.ctr)

/-- Advancing goes to the next place of the cycle, and counts. -/
theorem random_order_advance_eq {ctx : RandomOrder} (h : ctx.state < ctx.max) :
    random_order_advance ctx =
      some (ctx.state,
        ⟨BitVec.ofNat 32 (Cyclic.next ctx.max.toNat ctx.state.toNat), ctx.max, ctx.ctr + 1⟩) := by
  have hlt : ctx.state.toNat < ctx.max.toNat := h
  have hnext : (ctx.state + 1).toNat = ctx.state.toNat + 1 := by
    rw [BitVec.toNat_add, show (1 : u32).toNat = 1 from rfl]
    exact Nat.mod_eq_of_lt (by omega)
  -- behind the last index the difference is zero
  have hstate : ct_cmov32 (ct_sltu32 (ctx.state + 1) ctx.max) (ctx.state + 1)
      (ctx.state + 1 - ctx.max) =
        BitVec.ofNat 32 (Cyclic.next ctx.max.toNat ctx.state.toNat) := by
    rw [ct_sltu32_eq, ct_cmov32_eq, Cyclic.next]
    have hiff : ctx.state + 1 < ctx.max ↔ ctx.state.toNat + 1 < ctx.max.toNat := by
      rw [BitVec.lt_def, hnext]
    simp only [hiff]
    split_ifs with hin
    · rw [← hnext, BitVec.ofNat_toNat, BitVec.setWidth_eq]
    · have heq : ctx.state + 1 = ctx.max := BitVec.eq_of_toNat_eq (by omega)
      rw [heq, BitVec.sub_self]
  have hle : BitVec.ofNat 32 (Cyclic.next ctx.max.toNat ctx.state.toNat) ≤ ctx.max := by
    have hnlt : Cyclic.next ctx.max.toNat ctx.state.toNat < ctx.max.toNat :=
      Cyclic.next_lt (by omega)
    rw [BitVec.le_def, BitVec.toNat_ofNat, Nat.mod_eq_of_lt (by omega)]
    omega
  simp only [random_order_advance, hstate]
  rw [hardened_check, if_pos hle]
  rfl

theorem random_order_init_max (min_len : u32) (e : EntropySource) :
    (random_order_init min_len e).1.max = min_len := by
  unfold random_order_init
  split_ifs <;> rfl

theorem random_order_init_ctr (min_len : u32) (e : EntropySource) :
    (random_order_init min_len e).1.ctr = 0 := by
  unfold random_order_init
  split_ifs <;> rfl

theorem random_order_init_lt {min_len : u32} (h : 0 < min_len) (e : EntropySource) :
    (random_order_init min_len e).1.state < min_len := by
  have hpos : 0 < min_len.toNat := h
  rw [random_order_init, if_pos h]
  show e.word e.drawn % min_len < min_len
  rw [BitVec.lt_def, BitVec.toNat_umod]
  exact Nat.mod_lt _ hpos

/-- The indices that a traversal visits, in its order. -/
def visits (len : u32) (e : EntropySource) : List ℕ :=
  Cyclic.cycle len.toNat len.toNat (random_order_init len e).1.state.toNat

/-- Wherever it starts, it visits every index once. -/
theorem visits_perm (len : u32) (e : EntropySource) :
    (visits len e).Perm (List.range len.toNat) := by
  by_cases hlen : 0 < len
  · exact Cyclic.cycle_perm (random_order_init_lt hlen e)
  · have hzero : len.toNat = 0 := by
      rw [BitVec.lt_def] at hlen
      exact Nat.eq_zero_of_not_pos hlen
    rw [visits, hzero]
    exact List.Perm.refl _

theorem advances_eq (n : ℕ) {ctx : RandomOrder} (h : n = 0 ∨ ctx.state < ctx.max) :
    ∃ ctx', advances n ctx =
      some ((Cyclic.cycle ctx.max.toNat n ctx.state.toNat).map (BitVec.ofNat 32), ctx') := by
  induction n generalizing ctx with
  | zero => exact ⟨ctx, rfl⟩
  | succ n ih =>
      have hlt : ctx.state < ctx.max := h.resolve_left (Nat.succ_ne_zero n)
      have hnext : Cyclic.next ctx.max.toNat ctx.state.toNat < ctx.max.toNat :=
        Cyclic.next_lt (Nat.lt_of_le_of_lt (Nat.zero_le _) hlt)
      have hmod : (BitVec.ofNat 32 (Cyclic.next ctx.max.toNat ctx.state.toNat)).toNat =
          Cyclic.next ctx.max.toNat ctx.state.toNat := by
        rw [BitVec.toNat_ofNat, Nat.mod_eq_of_lt (hnext.trans ctx.max.isLt)]
      obtain ⟨ctx', hrest⟩ := @ih ⟨BitVec.ofNat 32 (Cyclic.next ctx.max.toNat ctx.state.toNat),
        ctx.max, ctx.ctr + 1⟩ (.inr (by rw [BitVec.lt_def, hmod]; exact hnext))
      refine ⟨ctx', ?_⟩
      simp only [advances, random_order_advance_eq hlt, Option.bind_eq_bind, Option.bind_some,
        hrest, hmod]
      rw [Cyclic.cycle, List.map_cons, BitVec.ofNat_toNat, BitVec.setWidth_eq]
      rfl

theorem advances_visit (len : u32) (e : EntropySource) :
    ∃ ctx, advances len.toNat (random_order_init len e).1 =
      some ((visits len e).map (BitVec.ofNat 32), ctx) := by
  have hstart : len.toNat = 0 ∨
      (random_order_init len e).1.state < (random_order_init len e).1.max := by
    rw [random_order_init_max]
    by_cases hlen : 0 < len
    · exact .inr (random_order_init_lt hlen e)
    · rw [BitVec.lt_def] at hlen
      exact .inl (Nat.eq_zero_of_not_pos hlen)
  obtain ⟨ctx, hctx⟩ := advances_eq len.toNat hstart
  rw [random_order_init_max] at hctx
  exact ⟨ctx, hctx⟩

/-! ## The functions -/

/-- The loop that the functions share, from `count` on. Its body is run at every index of the
traversal. A turn more than `len` of them is enough for the test that ends it. -/
def order_loop {σ : Type} (len : u32) (body : u32 → σ → σ) :
    ℕ → u32 → RandomOrder → σ → Option (u32 × RandomOrder × σ)
  | 0, _, _, _ => none
  | fuel + 1, count, order, s =>
      if count < len then do
        let (idx, order) ← random_order_advance order
        order_loop len body fuel (count + 1) order (body idx s)
      else some (count, order, s)

def order_pass {σ : Type} (len : u32) (body : u32 → σ → σ) (order : RandomOrder) (s : σ) :
    Option (u32 × RandomOrder × σ) :=
  order_loop len body (len.toNat + 1) 0 order s

/-- The memory, and the source of the random words. The status that the functions return is
always the same and is left out. -/
structure World where
  mem : Mem
  entropy : EntropySource

def hardened_memcpy (dest src word_len : u32) (w : World) : Option World := do
  let (order, entropy) := random_order_init word_len w.entropy
  let (count, order, mem) ←
    order_pass word_len
      (fun idx mem =>
        let byte_idx := idx * 4
        writeWord mem (dest + byte_idx).toNat (readWord mem (src + byte_idx).toNat))
      order w.mem
  random_order_check_done order
  hardened_check (count = word_len)
  pure ⟨mem, entropy⟩

def hardened_memshred (dest word_len : u32) (w : World) : Option World := do
  let (order, entropy) := random_order_init word_len w.entropy
  let (count, order, w) ←
    order_pass word_len
      (fun idx (w : World) =>
        let byte_idx := idx * 4
        let (word, entropy) := draw w.entropy
        ⟨writeWord w.mem (dest + byte_idx).toNat word, entropy⟩)
      order ⟨w.mem, entropy⟩
  random_order_check_done order
  hardened_check (count = word_len)
  pure w

/-- The end of the two comparisons. -/
def memeq_result (acc : u32 × u32) : Option u32 :=
  let (zeros, ones) := acc
  if zeros = 0 then do
    hardened_check (ones = BitVec.allOnes 32)
    pure kHardenedBoolTrue
  else do
    hardened_check (ones ≠ BitVec.allOnes 32)
    pure kHardenedBoolFalse

def hardened_memeq (lhs rhs word_len : u32) (w : World) : Option (u32 × World) := do
  let (order, entropy) := random_order_init word_len w.entropy
  let (count, order, acc) ←
    order_pass word_len
      (fun idx acc =>
        let byte_idx := idx * 4
        memeq_step acc
          (readWord w.mem (lhs + byte_idx).toNat, readWord w.mem (rhs + byte_idx).toNat))
      order (0, BitVec.allOnes 32)
  random_order_check_done order
  hardened_check (count = word_len)
  let result ← memeq_result acc
  pure (result, ⟨w.mem, entropy⟩)

/-- The traversal itself is not checked here. -/
def consttime_memeq_byte (lhs rhs len : u32) (w : World) : Option (u32 × World) := do
  let (order, entropy) := random_order_init len w.entropy
  let (count, _, acc) ←
    order_pass len
      (fun byte_idx acc =>
        memeq_step acc
          ((w.mem (lhs + byte_idx).toNat).setWidth 32, (w.mem (rhs + byte_idx).toNat).setWidth 32))
      order (0, BitVec.allOnes 32)
  hardened_check (count = len)
  let result ← memeq_result acc
  pure (result, ⟨w.mem, entropy⟩)

/-- The array `rand` is a memory of its own, `stack` being what it holds at first. -/
def hardened_xor (stack : Mem) (x y word_len dest : u32) (w : World) : Option World := do
  let w ← hardened_memshred dest word_len w
  let rand ← hardened_memshred 0 word_len ⟨stack, w.entropy⟩
  let (order, entropy) := random_order_init word_len rand.entropy
  let (count, order, mem) ←
    order_pass word_len
      (fun idx mem =>
        let byte_idx := idx * 4
        let xv := (x + byte_idx).toNat
        let yv := (y + byte_idx).toNat
        let destv := (dest + byte_idx).toNat
        let randv := (0 + byte_idx).toNat
        let mem := writeWord mem destv (readWord mem xv ^^^ readWord rand.mem randv)
        let mem := writeWord mem destv (readWord mem destv ^^^ readWord mem yv)
        writeWord mem destv (readWord mem destv ^^^ readWord rand.mem randv))
      order w.mem
  random_order_check_done order
  hardened_check (count = word_len)
  pure ⟨mem, entropy⟩

def hardened_xor_in_place (x y word_len : u32) (w : World) : Option World := do
  let (order, entropy) := random_order_init word_len w.entropy
  let (count, order, mem) ←
    order_pass word_len
      (fun idx mem =>
        let byte_idx := idx * 4
        let xv := (x + byte_idx).toNat
        writeWord mem xv (readWord mem xv ^^^ readWord mem (y + byte_idx).toNat))
      order w.mem
  random_order_check_done order
  hardened_check (count = word_len)
  pure ⟨mem, entropy⟩

def randomized_bytecopy (dest src byte_len : u32) (w : World) : Option World := do
  let (order, entropy) := random_order_init byte_len w.entropy
  let (count, order, mem) ←
    order_pass byte_len
      (fun byte_idx mem =>
        Function.update mem (dest + byte_idx).toNat (mem (src + byte_idx).toNat))
      order w.mem
  random_order_check_done order
  hardened_check (count = byte_len)
  pure ⟨mem, entropy⟩

def randomized_bytexor_in_place (x y byte_len : u32) (w : World) : Option World := do
  let (order, entropy) := random_order_init byte_len w.entropy
  let (count, order, mem) ←
    order_pass byte_len
      (fun byte_idx (mem : Mem) =>
        let x_byte := (x + byte_idx).toNat
        Function.update mem x_byte (mem x_byte ^^^ mem (y + byte_idx).toNat))
      order w.mem
  random_order_check_done order
  hardened_check (count = byte_len)
  pure ⟨mem, entropy⟩

/-! ## One pass -/

variable {σ : Type} {len : u32} {body : u32 → σ → σ}

/-- The induction is on the turns that are left: the indices are those of the cycle. -/
theorem order_loop_eq (k : ℕ) {count : u32} {order : RandomOrder} (s : σ)
    (hk : count.toNat + k = len.toNat) (hmax : order.max = len) (hctr : order.ctr = count)
    (hlt : k = 0 ∨ order.state < len) :
    ∃ order', order'.max = order'.ctr ∧ order_loop len body (k + 1) count order s =
      some (len, order', (Cyclic.cycle len.toNat k order.state.toNat).foldl
        (fun s i => body (BitVec.ofNat 32 i) s) s) := by
  induction k generalizing count order s with
  | zero =>
      have hcount : count = len := BitVec.eq_of_toNat_eq hk
      refine ⟨order, by rw [hmax, hctr, hcount], ?_⟩
      rw [order_loop, if_neg (by rw [hcount, BitVec.lt_def]; omega), hcount]
      rfl
  | succ k ih =>
      have hcount : count < len := by
        rw [BitVec.lt_def]
        omega
      have hstate : order.state < order.max := by
        rw [hmax]
        exact hlt.resolve_left (Nat.succ_ne_zero k)
      have hnext : Cyclic.next len.toNat order.state.toNat < len.toNat :=
        Cyclic.next_lt (by omega)
      have hmod : (BitVec.ofNat 32 (Cyclic.next len.toNat order.state.toNat)).toNat =
          Cyclic.next len.toNat order.state.toNat := by
        rw [BitVec.toNat_ofNat, Nat.mod_eq_of_lt (hnext.trans len.isLt)]
      have hsucc : (count + 1).toNat = count.toNat + 1 := by
        rw [BitVec.toNat_add, show (1 : u32).toNat = 1 from rfl]
        exact Nat.mod_eq_of_lt (by have := len.isLt; omega)
      obtain ⟨order', hdone, hrest⟩ := @ih (count + 1)
        ⟨BitVec.ofNat 32 (Cyclic.next len.toNat order.state.toNat), len, order.ctr + 1⟩
        (body order.state s) (by omega) rfl (by rw [hctr])
        (.inr (by rw [BitVec.lt_def, hmod]; exact hnext))
      refine ⟨order', hdone, ?_⟩
      rw [order_loop, if_pos hcount, random_order_advance_eq hstate, hmax]
      simp only [Option.bind_eq_bind, Option.bind_some]
      rw [hrest, hmod, Cyclic.cycle, List.foldl_cons, BitVec.ofNat_toNat, BitVec.setWidth_eq]

/-- A pass runs the body at every index once and leaves the traversal done. -/
theorem order_pass_eq (len : u32) (body : u32 → σ → σ) (e : EntropySource) (s : σ) :
    ∃ order, order.max = order.ctr ∧ order_pass len body (random_order_init len e).1 s =
      some (len, order, (visits len e).foldl (fun s i => body (BitVec.ofNat 32 i) s) s) := by
  have hlt : len.toNat = 0 ∨ (random_order_init len e).1.state < len := by
    by_cases hlen : 0 < len
    · exact .inr (random_order_init_lt hlen e)
    · rw [BitVec.lt_def] at hlen
      exact .inl (Nat.eq_zero_of_not_pos hlen)
  exact order_loop_eq len.toNat s (Nat.zero_add _) (random_order_init_max len e)
    (random_order_init_ctr len e) hlt

/-- A pass whose body writes cells of a table. -/
theorem order_pass_cells {g : ℕ → Mem → List u8} {dst w : ℕ} (hg : Local dst w len.toNat g)
    (body : u32 → Mem → Mem)
    (hbody : ∀ i < len.toNat, ∀ m, body (BitVec.ofNat 32 i) m = write_cell dst w g m i)
    (e : EntropySource) (m : Mem) :
    ∃ order, order.max = order.ctr ∧ order_pass len body (random_order_init len e).1 m =
      some (len, order, writeBytes m dst ((List.range len.toNat).flatMap fun i => g i m)) := by
  obtain ⟨order, hdone, hpass⟩ := order_pass_eq len body e m
  refine ⟨order, hdone, ?_⟩
  have hcells : (visits len e).foldl (fun m i => body (BitVec.ofNat 32 i) m) m =
      (visits len e).foldl (write_cell dst w g) m := by
    apply List.foldl_ext
    intro m i hi
    exact hbody i (List.mem_range.mp ((visits_perm len e).subset hi)) m
  rw [hpass, hcells, foldl_cells hg (visits_perm len e)]

/-! ## Buffers -/

/-- The `n` bytes from `p` on are in the address space. -/
def Fits (p : u32) (n : ℕ) : Prop := p.toNat + n ≤ 2 ^ 32

/-- The `n` bytes from `p` on and those from `q` on have none in common. -/
def Apart (p q : u32) (n : ℕ) : Prop := p.toNat + n ≤ q.toNat ∨ q.toNat + n ≤ p.toNat

theorem word_addr {p : u32} {n i : ℕ} (h : Fits p (4 * n)) (hi : i < n) :
    (p + BitVec.ofNat 32 i * 4).toNat = p.toNat + 4 * i := by
  have hlt : p.toNat + 4 * i < 2 ^ 32 := by
    have hfits : p.toNat + 4 * n ≤ 2 ^ 32 := h
    omega
  have hi32 : (BitVec.ofNat 32 i).toNat = i := by
    rw [BitVec.toNat_ofNat, Nat.mod_eq_of_lt (by omega)]
  have hmul : (BitVec.ofNat 32 i * 4).toNat = 4 * i := by
    rw [BitVec.toNat_mul, hi32, show (4 : u32).toNat = 4 from rfl, Nat.mul_comm,
      Nat.mod_eq_of_lt (by omega)]
  rw [BitVec.toNat_add, hmul, Nat.mod_eq_of_lt hlt]

theorem byte_addr {p : u32} {n i : ℕ} (h : Fits p (1 * n)) (hi : i < n) :
    (p + BitVec.ofNat 32 i).toNat = p.toNat + 1 * i := by
  have hlt : p.toNat + i < 2 ^ 32 := by
    have hfits : p.toNat + 1 * n ≤ 2 ^ 32 := h
    omega
  rw [BitVec.toNat_add, BitVec.toNat_ofNat, Nat.mod_eq_of_lt (by omega : i < 2 ^ 32),
    Nat.mod_eq_of_lt hlt, Nat.one_mul]

/-- Cell `i` of a buffer that is apart from the table is in no cell of the table. -/
theorem not_inCell_of_apart {p q : u32} {w n i j k : ℕ} (h : Apart p q (w * n)) (hi : i < n)
    (hj : j < n) (hk : k < w) : ¬InCell p.toNat w j (q.toNat + w * i + k) := by
  have hi' : w * (i + 1) ≤ w * n := Nat.mul_le_mul_left w hi
  have hj' : w * (j + 1) ≤ w * n := Nat.mul_le_mul_left w hj
  rw [Nat.mul_succ] at hi' hj'
  rintro ⟨hle, hlt⟩
  obtain hpq | hqp := h
  · omega
  · omega

theorem not_inCell_of_ne {dst w i j k : ℕ} (hne : j ≠ i) (hk : k < w) :
    ¬InCell dst w j (dst + w * i + k) := fun hin =>
  hne (hin.eq ⟨Nat.le_add_right _ _, Nat.add_lt_add_left hk _⟩)

theorem local_copy {dest src : u32} {w n : ℕ} (h : Apart dest src (w * n)) :
    Local dest.toNat w n fun i m => readBytes m (src.toNat + w * i) w where
  length _ _ := length_readBytes _ _ _
  reads i hi m m' hm := by
    rw [readBytes_eq_iff]
    intro k hk
    exact hm _ fun j hj _ => not_inCell_of_apart h hi hj hk

/-- The bytes of two buffers added up. -/
def xor_bytes (m : Mem) (x y n : ℕ) : List u8 :=
  List.zipWith (· ^^^ ·) (readBytes m x n) (readBytes m y n)

/-- The first buffer may be the table itself. -/
theorem local_xor {dest x y : u32} {w n : ℕ} (hx : x = dest ∨ Apart dest x (w * n))
    (hy : Apart dest y (w * n)) :
    Local dest.toNat w n fun i m => xor_bytes m (x.toNat + w * i) (y.toNat + w * i) w where
  length _ _ := by
    rw [xor_bytes, List.length_zipWith, length_readBytes, length_readBytes, Nat.min_self]
  reads i hi m m' hm := by
    have hxs : readBytes m (x.toNat + w * i) w = readBytes m' (x.toNat + w * i) w := by
      rw [readBytes_eq_iff]
      intro k hk
      obtain rfl | hx := hx
      · exact hm _ fun j _ hne => not_inCell_of_ne hne hk
      · exact hm _ fun j hj _ => not_inCell_of_apart hx hi hj hk
    have hys : readBytes m (y.toNat + w * i) w = readBytes m' (y.toNat + w * i) w := by
      rw [readBytes_eq_iff]
      intro k hk
      exact hm _ fun j hj _ => not_inCell_of_apart hy hi hj hk
    rw [xor_bytes, xor_bytes, hxs, hys]

theorem flatMap_xor_bytes (m : Mem) (x y w n : ℕ) :
    ((List.range n).flatMap fun i => xor_bytes m (x + w * i) (y + w * i) w) =
      xor_bytes m x y (w * n) :=
  flatMap_zipWith _ m x y w n

/-! ## Copies -/

/-- `copy` copies `len` cells of `w` bytes, and none of its checks fires. -/
def Copies (w : ℕ) (copy : u32 → u32 → u32 → World → Option World) : Prop :=
  ∀ (dest src len : u32) (s : World), Fits dest (w * len.toNat) → Fits src (w * len.toNat) →
    Apart dest src (w * len.toNat) →
      ∃ entropy, copy dest src len s =
        some ⟨writeBytes s.mem dest.toNat (readBytes s.mem src.toNat (w * len.toNat)), entropy⟩

theorem hardened_memcpy_copies : Copies 4 hardened_memcpy := by
  intro dest src len s hdest hsrc hapart
  obtain ⟨order, hdone, hpass⟩ := order_pass_cells (local_copy hapart)
    (fun idx mem =>
      writeWord mem (dest + idx * 4).toNat (readWord mem (src + idx * 4).toNat))
    (fun i hi m => by
      rw [word_addr hdest hi, word_addr hsrc hi, writeWord_eq_writeBytes, le32_readWord, write_cell])
    s.entropy s.mem
  refine ⟨(random_order_init len s.entropy).2, ?_⟩
  rw [flatMap_readBytes] at hpass
  simp only [hardened_memcpy, hpass, random_order_check_done, hardened_check, hdone, if_true,
    Option.bind_eq_bind, Option.bind_some]
  rfl

theorem randomized_bytecopy_copies : Copies 1 randomized_bytecopy := by
  intro dest src len s hdest hsrc hapart
  obtain ⟨order, hdone, hpass⟩ := order_pass_cells (local_copy hapart)
    (fun idx mem => Function.update mem (dest + idx).toNat (mem (src + idx).toNat))
    (fun i hi m => by
      rw [byte_addr hdest hi, byte_addr hsrc hi, update_eq_writeBytes, write_cell]
      rfl)
    s.entropy s.mem
  refine ⟨(random_order_init len s.entropy).2, ?_⟩
  rw [flatMap_readBytes] at hpass
  simp only [randomized_bytecopy, hpass, random_order_check_done, hardened_check, hdone, if_true,
    Option.bind_eq_bind, Option.bind_some]
  rfl

/-! ## Comparisons -/

/-- `memeq` says whether two buffers of `len` cells of `w` bytes hold the same, and none of its
checks fires. -/
def Compares (w : ℕ) (memeq : u32 → u32 → u32 → World → Option (u32 × World)) : Prop :=
  ∀ (lhs rhs len : u32) (s : World), Fits lhs (w * len.toNat) → Fits rhs (w * len.toNat) →
    ∃ entropy, memeq lhs rhs len s =
      some (if readBytes s.mem lhs.toNat (w * len.toNat) = readBytes s.mem rhs.toNat (w * len.toNat)
        then kHardenedBoolTrue else kHardenedBoolFalse, ⟨s.mem, entropy⟩)

theorem memeq_step_comm (acc p q : u32 × u32) :
    memeq_step (memeq_step acc p) q = memeq_step (memeq_step acc q) p := by
  simp only [memeq_step, Prod.mk.injEq]
  constructor
  · rw [BitVec.or_assoc, BitVec.or_comm (p.1 ^^^ p.2), ← BitVec.or_assoc]
  · rw [BitVec.and_assoc, BitVec.and_comm (p.1 ^^^ ~~~p.2), ← BitVec.and_assoc]

/-- One collection of the differences is the complement of the other. -/
theorem memeq_pass_snd (lhs rhs : List u32) :
    (memeq_pass lhs rhs).2 = ~~~(memeq_pass lhs rhs).1 := by
  have hfold : ∀ (ps : List (u32 × u32)) (acc : u32 × u32), acc.2 = ~~~acc.1 →
      (ps.foldl memeq_step acc).2 = ~~~(ps.foldl memeq_step acc).1 := by
    intro ps
    induction ps with
    | nil => exact fun _ h => h
    | cons p ps ih =>
        intro acc h
        apply ih
        rw [memeq_step, h, BitVec.not_or, BitVec.not_xor_right]
  exact hfold _ _ rfl

theorem memeq_result_pass (lhs rhs : List u32) (hlen : lhs.length = rhs.length) :
    memeq_result (memeq_pass lhs rhs) =
      some (if lhs = rhs then kHardenedBoolTrue else kHardenedBoolFalse) := by
  have hones : (memeq_pass lhs rhs).2 = BitVec.allOnes 32 ↔ lhs = rhs := by
    rw [memeq_pass_snd, ← memeq_pass_eq_zero_iff lhs rhs hlen]
    constructor
    · intro h
      rw [← BitVec.not_not (b := (memeq_pass lhs rhs).1), h]
      rfl
    · intro h
      rw [h]
      rfl
  have hzeros := memeq_pass_eq_zero_iff lhs rhs hlen
  by_cases h : lhs = rhs
  · have hz : (memeq_pass lhs rhs).1 = 0 := hzeros.mpr h
    simp only [memeq_result, hz, hardened_check, hones.mpr h, if_true, if_pos h]
    rfl
  · have hz : ¬(memeq_pass lhs rhs).1 = 0 := fun hz => h (hzeros.mp hz)
    have ho : (memeq_pass lhs rhs).2 ≠ BitVec.allOnes 32 := fun ho => h (hones.mp ho)
    simp only [memeq_result, if_neg hz, hardened_check, if_pos ho, if_neg h]
    rfl

/-- A pass that compares `f i` with `g i` at index `i`. -/
theorem order_pass_memeq (len : u32) (body : u32 → u32 × u32 → u32 × u32) {f g : ℕ → u32}
    (hbody : ∀ i < len.toNat, ∀ acc, body (BitVec.ofNat 32 i) acc = memeq_step acc (f i, g i))
    (e : EntropySource) :
    ∃ order, order.max = order.ctr ∧
      order_pass len body (random_order_init len e).1 (0, BitVec.allOnes 32) =
        some (len, order,
          memeq_pass ((List.range len.toNat).map f) ((List.range len.toNat).map g)) := by
  obtain ⟨order, hdone, hpass⟩ := order_pass_eq len body e (0, BitVec.allOnes 32)
  refine ⟨order, hdone, ?_⟩
  have hvisits := visits_perm len e
  have hsteps : (visits len e).foldl (fun acc i => body (BitVec.ofNat 32 i) acc)
        (0, BitVec.allOnes 32) =
      (visits len e).foldl (fun acc i => memeq_step acc (f i, g i)) (0, BitVec.allOnes 32) := by
    apply List.foldl_ext
    intro acc i hi
    exact hbody i (List.mem_range.mp (hvisits.subset hi)) acc
  rw [hpass, hsteps, hvisits.foldl_eq' (fun _ _ _ _ acc => memeq_step_comm acc _ _), memeq_pass,
    List.zip_map', List.foldl_map]
  rfl

theorem hardened_memeq_compares : Compares 4 hardened_memeq := by
  intro lhs rhs len s hlhs hrhs
  obtain ⟨order, hdone, hpass⟩ := order_pass_memeq len
    (fun idx acc =>
      memeq_step acc (readWord s.mem (lhs + idx * 4).toNat, readWord s.mem (rhs + idx * 4).toNat))
    (f := fun i => readWord s.mem (lhs.toNat + 4 * i))
    (g := fun i => readWord s.mem (rhs.toNat + 4 * i))
    (fun i hi acc => by rw [word_addr hlhs hi, word_addr hrhs hi]) s.entropy
  have hwords : ∀ a, ((List.range len.toNat).map fun i => readWord s.mem (a + 4 * i)).flatMap le32 =
      readBytes s.mem a (4 * len.toNat) := by
    intro a
    rw [List.flatMap_map, ← flatMap_readBytes]
    simp only [le32_readWord]
  have hiff : (((List.range len.toNat).map fun i => readWord s.mem (lhs.toNat + 4 * i)) =
      (List.range len.toNat).map fun i => readWord s.mem (rhs.toNat + 4 * i)) ↔
        readBytes s.mem lhs.toNat (4 * len.toNat) = readBytes s.mem rhs.toNat (4 * len.toNat) := by
    rw [← hwords, ← hwords]
    exact ⟨fun h => by rw [h], flatMap_le32_injective⟩
  refine ⟨(random_order_init len s.entropy).2, ?_⟩
  simp only [hardened_memeq, hpass, random_order_check_done, hardened_check, hdone, if_true,
    Option.bind_eq_bind, Option.bind_some]
  rw [memeq_result_pass _ _ (by simp)]
  simp only [hiff]
  rfl

theorem consttime_memeq_byte_compares : Compares 1 consttime_memeq_byte := by
  intro lhs rhs len s hlhs hrhs
  obtain ⟨order, -, hpass⟩ := order_pass_memeq len
    (fun idx acc =>
      memeq_step acc
        ((s.mem (lhs + idx).toNat).setWidth 32, (s.mem (rhs + idx).toNat).setWidth 32))
    (f := fun i => (s.mem (lhs.toNat + 1 * i)).setWidth 32)
    (g := fun i => (s.mem (rhs.toNat + 1 * i)).setWidth 32)
    (fun i hi acc => by rw [byte_addr hlhs hi, byte_addr hrhs hi]) s.entropy
  have hiff : (((List.range len.toNat).map fun i => (s.mem (lhs.toNat + 1 * i)).setWidth 32) =
      (List.range len.toNat).map fun i => (s.mem (rhs.toNat + 1 * i)).setWidth 32) ↔
        readBytes s.mem lhs.toNat (1 * len.toNat) = readBytes s.mem rhs.toNat (1 * len.toNat) := by
    rw [readBytes_eq_iff, List.map_inj_left]
    simp only [List.mem_range, Nat.one_mul]
    refine forall₂_congr fun i _ => ⟨fun h => ?_, fun h => by rw [h]⟩
    have hback := congrArg (BitVec.setWidth 8) h
    simpa using hback
  refine ⟨(random_order_init len s.entropy).2, ?_⟩
  simp only [consttime_memeq_byte, hpass, hardened_check, if_true, Option.bind_eq_bind,
    Option.bind_some]
  rw [memeq_result_pass _ _ (by simp)]
  simp only [hiff]
  rfl

/-! ## Sums -/

/-- `xor` adds `len` cells of `w` bytes of the second buffer to the first, and none of its checks
fires. -/
def XorsInPlace (w : ℕ) (xor : u32 → u32 → u32 → World → Option World) : Prop :=
  ∀ (x y len : u32) (s : World), Fits x (w * len.toNat) → Fits y (w * len.toNat) →
    Apart x y (w * len.toNat) →
      ∃ entropy, xor x y len s =
        some ⟨writeBytes s.mem x.toNat (xor_bytes s.mem x.toNat y.toNat (w * len.toNat)), entropy⟩

theorem hardened_xor_in_place_xors : XorsInPlace 4 hardened_xor_in_place := by
  intro x y len s hx hy hapart
  obtain ⟨order, hdone, hpass⟩ := order_pass_cells (local_xor (.inl rfl) hapart)
    (fun idx mem =>
      writeWord mem (x + idx * 4).toNat
        (readWord mem (x + idx * 4).toNat ^^^ readWord mem (y + idx * 4).toNat))
    (fun i hi m => by
      rw [word_addr hx hi, word_addr hy hi, writeWord_eq_writeBytes, le32_xor, le32_readWord,
        le32_readWord, write_cell, xor_bytes])
    s.entropy s.mem
  refine ⟨(random_order_init len s.entropy).2, ?_⟩
  rw [flatMap_xor_bytes] at hpass
  simp only [hardened_xor_in_place, hpass, random_order_check_done, hardened_check, hdone, if_true,
    Option.bind_eq_bind, Option.bind_some]
  rfl

theorem randomized_bytexor_in_place_xors : XorsInPlace 1 randomized_bytexor_in_place := by
  intro x y len s hx hy hapart
  obtain ⟨order, hdone, hpass⟩ := order_pass_cells (local_xor (.inl rfl) hapart)
    (fun idx mem =>
      Function.update mem (x + idx).toNat (mem (x + idx).toNat ^^^ mem (y + idx).toNat))
    (fun i hi m => by
      rw [byte_addr hx hi, byte_addr hy hi, update_eq_writeBytes, write_cell]
      rfl)
    s.entropy s.mem
  refine ⟨(random_order_init len s.entropy).2, ?_⟩
  rw [flatMap_xor_bytes] at hpass
  simp only [randomized_bytexor_in_place, hpass, random_order_check_done, hardened_check, hdone,
    if_true, Option.bind_eq_bind, Option.bind_some]
  rfl

/-- Nothing but the buffer is shredded. -/
theorem hardened_memshred_frame {dest len : u32} (s : World) (hdest : Fits dest (4 * len.toNat)) :
    ∃ s', hardened_memshred dest len s = some s' ∧
      ∀ a, ¬(dest.toNat ≤ a ∧ a < dest.toNat + 4 * len.toNat) → s'.mem a = s.mem a := by
  obtain ⟨order, hdone, hpass⟩ := order_pass_eq len
    (fun idx (s : World) =>
      ⟨writeWord s.mem (dest + idx * 4).toNat (draw s.entropy).1, (draw s.entropy).2⟩)
    s.entropy ⟨s.mem, (random_order_init len s.entropy).2⟩
  have hframe : ∀ (is : List ℕ) (s : World) (a : ℕ), (∀ i ∈ is, i < len.toNat) →
      ¬(dest.toNat ≤ a ∧ a < dest.toNat + 4 * len.toNat) →
        (is.foldl (fun (s : World) i =>
          (⟨writeWord s.mem (dest + BitVec.ofNat 32 i * 4).toNat (draw s.entropy).1,
            (draw s.entropy).2⟩ : World)) s).mem a = s.mem a := by
    intro is
    induction is with
    | nil => exact fun _ _ _ _ => rfl
    | cons i is ih =>
        intro s a his ha
        have hi := his i List.mem_cons_self
        rw [List.foldl_cons, ih _ a (fun j hj => his j (List.mem_cons_of_mem i hj)) ha]
        apply writeWord_of_not_mem
        rw [word_addr hdest hi]
        omega
  refine ⟨_, ?_, fun a ha => hframe (visits len s.entropy)
    ⟨s.mem, (random_order_init len s.entropy).2⟩ a
    (fun i hi => List.mem_range.mp ((visits_perm len s.entropy).subset hi)) ha⟩
  simp only [hardened_memshred, hpass, random_order_check_done, hardened_check, hdone, if_true,
    Option.bind_eq_bind, Option.bind_some]
  rfl

/-- The mask that is added first is added again last. -/
theorem masked_xor (x y r : u32) : ((x ^^^ r) ^^^ y) ^^^ r = x ^^^ y := by
  rw [BitVec.xor_assoc x r y, BitVec.xor_comm r y, ← BitVec.xor_assoc, BitVec.xor_assoc,
    BitVec.xor_self, BitVec.xor_zero]

/-- The three stores of a turn of `hardened_xor` are one. -/
theorem xor_turn {m rand : Mem} {destv xv yv randv : ℕ}
    (hy : destv + 4 ≤ yv ∨ yv + 4 ≤ destv) :
    (let mem := writeWord m destv (readWord m xv ^^^ readWord rand randv)
      let mem := writeWord mem destv (readWord mem destv ^^^ readWord mem yv)
      writeWord mem destv (readWord mem destv ^^^ readWord rand randv)) =
        writeWord m destv (readWord m xv ^^^ readWord m yv) := by
  dsimp only
  rw [readWord_writeWord, readWord_writeWord, readWord_writeWord_of_apart _ _ hy,
    writeWord_writeWord, writeWord_writeWord, masked_xor]

/-- The sum of two buffers of words, in a third one. -/
theorem hardened_xor_xors (stack : Mem) (x y len dest : u32) (s : World)
    (hx : Fits x (4 * len.toNat)) (hy : Fits y (4 * len.toNat)) (hdest : Fits dest (4 * len.toNat))
    (hdx : Apart dest x (4 * len.toNat)) (hdy : Apart dest y (4 * len.toNat)) :
    ∃ entropy, hardened_xor stack x y len dest s =
      some ⟨writeBytes s.mem dest.toNat (xor_bytes s.mem x.toNat y.toNat (4 * len.toNat)),
        entropy⟩ := by
  obtain ⟨s1, hshred, hframe⟩ := hardened_memshred_frame s hdest
  have hzero : Fits 0 (4 * len.toNat) := by
    have hfits : x.toNat + 4 * len.toNat ≤ 2 ^ 32 := hx
    show 0 + 4 * len.toNat ≤ 2 ^ 32
    omega
  obtain ⟨rand, hrand, -⟩ := hardened_memshred_frame ⟨stack, s1.entropy⟩ hzero
  obtain ⟨order, hdone, hpass⟩ := order_pass_cells (local_xor (.inr hdx) hdy)
    (fun idx mem =>
      let mem := writeWord mem (dest + idx * 4).toNat
        (readWord mem (x + idx * 4).toNat ^^^ readWord rand.mem (0 + idx * 4).toNat)
      let mem := writeWord mem (dest + idx * 4).toNat
        (readWord mem (dest + idx * 4).toNat ^^^ readWord mem (y + idx * 4).toNat)
      writeWord mem (dest + idx * 4).toNat
        (readWord mem (dest + idx * 4).toNat ^^^ readWord rand.mem (0 + idx * 4).toNat))
    (fun i hi m => by
      have hapart : dest.toNat + 4 * i + 4 ≤ y.toNat + 4 * i ∨
          y.toNat + 4 * i + 4 ≤ dest.toNat + 4 * i := by
        obtain h | h := hdy
        · left
          omega
        · right
          omega
      rw [word_addr hx hi, word_addr hy hi, word_addr hdest hi, xor_turn hapart,
        writeWord_eq_writeBytes, le32_xor, le32_readWord, le32_readWord, write_cell, xor_bytes])
    rand.entropy s1.mem
  rw [flatMap_xor_bytes] at hpass
  -- what is added up has not been shredded, and what has been shredded is overwritten
  have hsame : ∀ p : u32, Apart dest p (4 * len.toNat) →
      readBytes s1.mem p.toNat (4 * len.toNat) = readBytes s.mem p.toNat (4 * len.toNat) := by
    intro p hp
    rw [readBytes_eq_iff]
    intro i hi
    apply hframe
    obtain h | h := hp
    · omega
    · omega
  have hbytes : xor_bytes s1.mem x.toNat y.toNat (4 * len.toNat) =
      xor_bytes s.mem x.toNat y.toNat (4 * len.toNat) := by
    rw [xor_bytes, xor_bytes, hsame x hdx, hsame y hdy]
  have hstore : writeBytes s1.mem dest.toNat (xor_bytes s1.mem x.toNat y.toNat (4 * len.toNat)) =
      writeBytes s.mem dest.toNat (xor_bytes s.mem x.toNat y.toNat (4 * len.toNat)) := by
    rw [hbytes]
    apply writeBytes_congr
    intro a ha
    apply hframe
    rwa [xor_bytes, List.length_zipWith, length_readBytes, length_readBytes, Nat.min_self] at ha
  refine ⟨(random_order_init len rand.entropy).2, ?_⟩
  simp only [hardened_xor, hshred, hrand, hpass, random_order_check_done, hardened_check, hdone,
    if_true, Option.bind_eq_bind, Option.bind_some, hstore]
  rfl

/-! ## The order does not show -/

/-- A traversal visits each index once, and the functions that follow one copy, compare and add
up like straight loops. -/
theorem hardened_memory_plain :
    (∀ (len : u32) (e : EntropySource), ∃ is ctx,
      advances len.toNat (random_order_init len e).1 = some (is, ctx) ∧
        (is.map BitVec.toNat).Perm (List.range len.toNat)) ∧
    Copies 4 hardened_memcpy ∧ Compares 4 hardened_memeq ∧ Compares 1 consttime_memeq_byte ∧
    (∀ (stack : Mem) (x y len dest : u32) (s : World), Fits x (4 * len.toNat) →
      Fits y (4 * len.toNat) → Fits dest (4 * len.toNat) → Apart dest x (4 * len.toNat) →
      Apart dest y (4 * len.toNat) → ∃ entropy, hardened_xor stack x y len dest s =
        some ⟨writeBytes s.mem dest.toNat (xor_bytes s.mem x.toNat y.toNat (4 * len.toNat)),
          entropy⟩) ∧
    XorsInPlace 4 hardened_xor_in_place ∧ Copies 1 randomized_bytecopy ∧
    XorsInPlace 1 randomized_bytexor_in_place := by
  refine ⟨?_, hardened_memcpy_copies, hardened_memeq_compares, consttime_memeq_byte_compares,
    hardened_xor_xors, hardened_xor_in_place_xors, randomized_bytecopy_copies,
    randomized_bytexor_in_place_xors⟩
  intro len e
  obtain ⟨ctx, hctx⟩ := advances_visit len e
  have hvisits := visits_perm len e
  have hback : ((visits len e).map (BitVec.ofNat 32)).map BitVec.toNat = visits len e := by
    rw [List.map_map]
    refine (List.map_congr_left fun i hi => ?_).trans (List.map_id _)
    have hlt := List.mem_range.mp (hvisits.subset hi)
    exact (BitVec.toNat_ofNat i 32).trans (Nat.mod_eq_of_lt (hlt.trans len.isLt))
  refine ⟨_, ctx, hctx, ?_⟩
  rwa [hback]

/-- Every byte is the last one of its address. -/
def numbered_world : World := ⟨fun a => BitVec.ofNat 8 a, ⟨BitVec.ofNat 32, 0⟩⟩

/-- Three words are copied, compared with equal and with other words, and added. -/
theorem hardened_memory_plain_three_words :
    (∃ entropy, hardened_memcpy 0x100 0x204 3 numbered_world = some
      ⟨writeBytes numbered_world.mem 0x100 [4, 5, 6, 7, 8, 9, 10, 11, 12, 13, 14, 15], entropy⟩) ∧
    (∃ entropy, hardened_memeq 0x100 0x200 3 numbered_world =
      some (kHardenedBoolTrue, ⟨numbered_world.mem, entropy⟩)) ∧
    (∃ entropy, hardened_memeq 0x100 0x204 3 numbered_world =
      some (kHardenedBoolFalse, ⟨numbered_world.mem, entropy⟩)) ∧
    ∃ entropy, hardened_xor (fun _ => 0) 0x200 0x304 3 0x100 numbered_world = some
      ⟨writeBytes numbered_world.mem 0x100 [4, 4, 4, 4, 12, 12, 12, 12, 4, 4, 4, 4], entropy⟩ := by
  obtain ⟨-, hcopies, hcompares, -, hxors, -⟩ := hardened_memory_plain
  have hfits : ∀ p : u32, p ≤ 0x304 → Fits p (4 * (3 : u32).toNat) := fun p hp => by
    have hnat : p.toNat ≤ 0x304 := hp
    show p.toNat + 12 ≤ 2 ^ 32
    omega
  exact ⟨hcopies 0x100 0x204 3 numbered_world (hfits _ (by decide)) (hfits _ (by decide))
      (.inl (by decide)),
    hcompares 0x100 0x200 3 numbered_world (hfits _ (by decide)) (hfits _ (by decide)),
    hcompares 0x100 0x204 3 numbered_world (hfits _ (by decide)) (hfits _ (by decide)),
    hxors (fun _ => 0) 0x200 0x304 3 0x100 numbered_world (hfits _ (by decide)) (hfits _ (by decide))
      (hfits _ (by decide)) (.inl (by decide)) (.inl (by decide))⟩

end IbexFirmware.Traversal
