/-
The hardened memory functions (`hardened_memory.c`).

They visit their buffers in a random order and draw their masks from an entropy source.
The order shows in no result and is left out. The source is a stream of words, of which
every call takes the next ones, so that a statement about every stream is a statement
about every choice of masks.

`hardened_memeq` collects the differences of two buffers twice, once in zeros and once
in ones, and checks one against the other: `memeq_pass` says that the two always agree
and that the result is the equality of the buffers.
-/
import IbexFirmware.RomError

set_option autoImplicit false

namespace IbexFirmware.HardenedMemory

open Bytes

/-! ## Random words -/

/-- A stream of random words and how many of them have been taken. -/
structure EntropySource where
  word : ℕ → u32
  drawn : ℕ

/-- The next `n` words. -/
def EntropySource.words (e : EntropySource) (n : ℕ) : List u32 :=
  (List.range n).map fun i => e.word (e.drawn + i)

/-- The source with `n` words taken. -/
def EntropySource.after (e : EntropySource) (n : ℕ) : EntropySource :=
  { e with drawn := e.drawn + n }

@[simp] theorem EntropySource.length_words (e : EntropySource) (n : ℕ) :
    (e.words n).length = n := by
  simp [EntropySource.words]

/-! ## Comparing buffers -/

variable {w : ℕ}

/-- One position of `hardened_memeq` or `consttime_memeq_byte`: the bits in which the two
buffers differ are set in the first word and cleared in the second. -/
def memeq_step (acc : BitVec w × BitVec w) (p : BitVec w × BitVec w) : BitVec w × BitVec w :=
  (acc.1 ||| (p.1 ^^^ p.2), acc.2 &&& (p.1 ^^^ ~~~p.2))

/-- The two words after a pass. -/
def memeq_pass (lhs rhs : List (BitVec w)) : BitVec w × BitVec w :=
  (lhs.zip rhs).foldl memeq_step (0#w, BitVec.allOnes w)

def hardened_memeq (lhs rhs : List (BitVec w)) : u32 :=
  if (memeq_pass lhs rhs).1 = 0#w then kHardenedBoolTrue else kHardenedBoolFalse

theorem memeq_pass_eq_zero_iff (lhs rhs : List (BitVec w)) (hlen : lhs.length = rhs.length) :
    (memeq_pass lhs rhs).1 = 0#w ↔ lhs = rhs := by
  have hfold : ∀ (lhs rhs : List (BitVec w)) (acc : BitVec w × BitVec w),
      lhs.length = rhs.length →
        (((lhs.zip rhs).foldl memeq_step acc).1 = 0#w ↔ acc.1 = 0#w ∧ lhs = rhs) := by
    intro lhs
    induction lhs with
    | nil =>
        intro rhs acc h
        obtain rfl := List.length_eq_zero_iff.mp h.symm
        simp
    | cons x xs ih =>
        intro rhs acc h
        cases rhs with
        | nil => simp at h
        | cons y ys =>
            rw [List.zip_cons_cons, List.foldl_cons, ih ys _ (by simpa using h), memeq_step,
              BitVec.or_eq_zero_iff, BitVec.xor_eq_zero_iff, List.cons.injEq, and_assoc]
  rw [memeq_pass, hfold lhs rhs _ hlen]
  simp

/-- The comparison says whether the buffers are the same. -/
theorem hardened_memeq_eq (lhs rhs : List (BitVec w)) (hlen : lhs.length = rhs.length) :
    hardened_memeq lhs rhs = if lhs = rhs then kHardenedBoolTrue else kHardenedBoolFalse := by
  unfold hardened_memeq
  simp only [memeq_pass_eq_zero_iff lhs rhs hlen]

/-! ## Masks -/

/-- `hardened_xor`: the random word that is added first is added again last. -/
def hardened_xor (x y : List u32) : List u32 := x.zipWith (· ^^^ ·) y

/-- `hardened_xor_in_place`: the first words of `x`, as many as `y` has. -/
def hardened_xor_in_place (x y : List u32) : List u32 :=
  x.mapIdx fun i word => word ^^^ y.getD i 0

@[simp] theorem length_hardened_xor (x y : List u32) :
    (hardened_xor x y).length = min x.length y.length := by
  simp [hardened_xor]

@[simp] theorem length_hardened_xor_in_place (x y : List u32) :
    (hardened_xor_in_place x y).length = x.length := by
  simp [hardened_xor_in_place]

/-- In place or not, buffers of one length are added word by word. -/
theorem hardened_xor_in_place_eq {x y : List u32} (hlen : x.length = y.length) :
    hardened_xor_in_place x y = hardened_xor x y := by
  apply List.ext_getElem
  · simp [hlen]
  · intro i hi _
    rw [length_hardened_xor_in_place] at hi
    simp [hardened_xor_in_place, hardened_xor, List.getD_eq_getElem?_getD,
      List.getElem?_eq_getElem (hlen ▸ hi)]

/-- A mask shows in every word that it is not zero in. -/
theorem hardened_xor_in_place_eq_self_iff {x y : List u32} (hlen : x.length = y.length) :
    hardened_xor_in_place x y = x ↔ ∀ word ∈ y, word = 0 := by
  constructor
  · intro h word hword
    obtain ⟨i, hi, rfl⟩ := List.getElem_of_mem hword
    have hget : (hardened_xor_in_place x y)[i]? = x[i]? := by rw [h]
    have hx : i < x.length := hlen ▸ hi
    simp only [hardened_xor_in_place, List.getElem?_mapIdx, List.getElem?_eq_getElem hx,
      Option.map_some, Option.some.injEq, List.getD_eq_getElem?_getD,
      List.getElem?_eq_getElem hi, Option.getD_some] at hget
    calc y[i] = x[i] ^^^ (x[i] ^^^ y[i]) := by rw [← BitVec.xor_assoc, BitVec.xor_self, BitVec.zero_xor]
      _ = x[i] ^^^ x[i] := by rw [hget]
      _ = 0 := BitVec.xor_self
  · intro h
    apply List.ext_getElem
    · simp
    · intro i hi hx
      have hy : i < y.length := hlen ▸ hx
      have hzero : y[i] = 0 := h _ (List.getElem_mem hy)
      simp [hardened_xor_in_place, List.getD_eq_getElem?_getD, List.getElem?_eq_getElem hy, hzero]

end IbexFirmware.HardenedMemory
