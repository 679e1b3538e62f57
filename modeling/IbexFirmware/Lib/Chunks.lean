/-
Cutting a text into full blocks and a rest.

An implementation that takes a text in pieces works off the full blocks that it has and
keeps the rest for the next piece. `full_append` and `rest_append` say that it comes out
the same as for the text in one piece.

A sender cuts a text into pieces. All of them but the last are full, and whether the last is
may depend on whether the other side needs to see a piece that is not (`CutInto`). It goes
by what is left: a piece is `xs.take n`, and `following` are the ones behind it.
-/
import Mathlib.Tactic

set_option autoImplicit false

namespace IbexFirmware.Chunks

variable {α : Type} (n : ℕ)

/-- The full blocks of a text. -/
def full (xs : List α) : List α := xs.take (n * (xs.length / n))

/-- What is left behind them. -/
def rest (xs : List α) : List α := xs.drop (n * (xs.length / n))

theorem full_append_rest (xs : List α) : full n xs ++ rest n xs = xs := List.take_append_drop _ xs

theorem length_full (xs : List α) : (full n xs).length = n * (xs.length / n) := by
  rw [full, List.length_take]
  exact Nat.min_eq_left (Nat.mul_div_le _ _)

theorem length_full_mod (xs : List α) : (full n xs).length % n = 0 := by
  rw [length_full]
  exact Nat.mul_mod_right _ _

theorem length_rest (xs : List α) : (rest n xs).length = xs.length % n := by
  rw [rest, List.length_drop]
  have h := Nat.div_add_mod xs.length n
  omega

theorem length_rest_lt {n : ℕ} (hn : 0 < n) (xs : List α) : (rest n xs).length < n := by
  rw [length_rest]
  exact Nat.mod_lt _ hn

@[simp] theorem full_nil : full n ([] : List α) = [] := by simp [full]

@[simp] theorem rest_nil : rest n ([] : List α) = [] := by simp [rest]

/-- Nothing but full blocks. -/
theorem full_of_mod {xs : List α} (h : xs.length % n = 0) : full n xs = xs := by
  rw [full, Nat.mul_div_cancel' (Nat.dvd_of_mod_eq_zero h), List.take_length]

/-- Less than a block is all rest. -/
theorem full_of_lt {xs : List α} (h : xs.length < n) : full n xs = [] := by
  rw [full, Nat.div_eq_of_lt h, Nat.mul_zero, List.take_zero]

theorem rest_of_lt {xs : List α} (h : xs.length < n) : rest n xs = xs := by
  rw [rest, Nat.div_eq_of_lt h, Nat.mul_zero, List.drop_zero]

variable {n}

/-- Full blocks stay what they are when more follows. -/
theorem full_append_of_mod {xs : List α} (hn : 0 < n) (h : xs.length % n = 0) (ys : List α) :
    full n (xs ++ ys) = xs ++ full n ys := by
  obtain ⟨k, hk⟩ := Nat.dvd_of_mod_eq_zero h
  have hdiv : n * ((xs ++ ys).length / n) = xs.length + n * (ys.length / n) := by
    rw [List.length_append, hk, Nat.mul_add_div hn, Nat.mul_add]
  rw [full, hdiv, List.take_length_add_append, full]

theorem rest_append_of_mod {xs : List α} (hn : 0 < n) (h : xs.length % n = 0) (ys : List α) :
    rest n (xs ++ ys) = rest n ys := by
  obtain ⟨k, hk⟩ := Nat.dvd_of_mod_eq_zero h
  have hdiv : n * ((xs ++ ys).length / n) = xs.length + n * (ys.length / n) := by
    rw [List.length_append, hk, Nat.mul_add_div hn, Nat.mul_add]
  rw [rest, hdiv, List.drop_length_add_append, rest]

theorem full_append (hn : 0 < n) (xs ys : List α) :
    full n (xs ++ ys) = full n xs ++ full n (rest n xs ++ ys) := by
  calc full n (xs ++ ys) = full n (full n xs ++ (rest n xs ++ ys)) := by
        rw [← List.append_assoc, full_append_rest]
    _ = full n xs ++ full n (rest n xs ++ ys) := full_append_of_mod hn (length_full_mod n xs) _

theorem rest_append (hn : 0 < n) (xs ys : List α) :
    rest n (xs ++ ys) = rest n (rest n xs ++ ys) := by
  calc rest n (xs ++ ys) = rest n (full n xs ++ (rest n xs ++ ys)) := by
        rw [← List.append_assoc, full_append_rest]
    _ = rest n (rest n xs ++ ys) := rest_append_of_mod hn (length_full_mod n xs) _

/-- The first block and what follows it. -/
theorem full_cons_block {xs : List α} (hn : 0 < n) (h : n ≤ xs.length) :
    full n xs = xs.take n ++ full n (xs.drop n) := by
  have hlen : (xs.take n).length = n := by rw [List.length_take]; omega
  calc full n xs = full n (xs.take n ++ xs.drop n) := by rw [List.take_append_drop]
    _ = xs.take n ++ full n (xs.drop n) :=
        full_append_of_mod hn (by rw [hlen, Nat.mod_self]) _

theorem rest_cons_block {xs : List α} (hn : 0 < n) (h : n ≤ xs.length) :
    rest n xs = rest n (xs.drop n) := by
  have hlen : (xs.take n).length = n := by rw [List.length_take]; omega
  calc rest n xs = rest n (xs.take n ++ xs.drop n) := by rw [List.take_append_drop]
    _ = rest n (xs.drop n) := rest_append_of_mod hn (by rw [hlen, Nat.mod_self]) _

/-! ## Pieces -/

/-- The pieces of `xs` are `n` long, in order, and only the last may be shorter. It is when the
length asks for it, or when `short` does. -/
structure CutInto (n : ℕ) (xs : List α) (short : Bool) (pieces : List (List α)) : Prop where
  flatten : pieces.flatten = xs
  full : ∀ p ∈ pieces.dropLast, p.length = n
  last :
    ∃ p ∈ pieces.getLast?, p.length ≤ n ∧
      (p.length < n ↔ ¬n ∣ xs.length ∨ xs.length = 0 ∨ short = true)

/-- `k` full pieces, and what is left if there is something or if `short` asks for it. -/
def cut (n : ℕ) (short : Bool) : ℕ → List α → List (List α)
  | 0, xs => if xs = [] ∧ short = false then [] else [xs]
  | k + 1, xs => xs.take n :: cut n short k (xs.drop n)

/-- What follows a piece when `xs` is left. -/
def following (n : ℕ) (short : Bool) (piece xs : List α) : List (List α) :=
  if piece.length < n then [] else cut n short (xs.length / n) xs

/-- The pieces of a text. -/
def pieces (n : ℕ) (short : Bool) (xs : List α) : List (List α) :=
  xs.take n :: following n short (xs.take n) (xs.drop n)

@[simp] theorem following_nil {piece : List α} :
    following n false piece ([] : List α) = [] := by simp [following, cut]

theorem following_of_lt {short : Bool} {piece : List α} (h : piece.length < n) (xs : List α) :
    following n short piece xs = [] := if_pos h

/-- Where there is something to send or `short` asks for it, the pieces are those of the cut. -/
theorem cut_eq_pieces {short : Bool} {xs : List α} (hn : 0 < n) (h : xs ≠ [] ∨ short = true) :
    cut n short (xs.length / n) xs = pieces n short xs := by
  by_cases hlt : xs.length < n
  · have hone : ¬(xs = [] ∧ short = false) := by
      rintro ⟨hnil, hshort⟩
      rcases h with h | h
      · exact h hnil
      · simp [hshort] at h
    have htake : xs.take n = xs := List.take_of_length_le (by omega)
    rw [Nat.div_eq_of_lt hlt, cut, if_neg hone, pieces, htake, following_of_lt hlt]
  · have hlen : (xs.take n).length = n := by rw [List.length_take]; omega
    have hdiv : xs.length / n = (xs.drop n).length / n + 1 := by
      rw [List.length_drop, ← Nat.add_div_right _ hn, Nat.sub_add_cancel (by omega)]
    rw [hdiv, cut, pieces, following, if_neg (by omega)]

/-- One more piece follows a full one, and then what follows it. -/
theorem following_eq_pieces {short : Bool} {piece xs : List α} (hn : 0 < n)
    (hpiece : ¬piece.length < n) (h : xs ≠ [] ∨ short = true) :
    following n short piece xs = pieces n short xs := by
  rw [following, if_neg hpiece, cut_eq_pieces hn h]

/-- A text that is shorter than a piece is its only piece. -/
theorem cutInto_of_lt {short : Bool} {xs : List α} (h : xs.length < n) :
    CutInto n xs short [xs] := by
  refine ⟨by simp, by simp, xs, rfl, by omega, iff_of_true h ?_⟩
  by_cases hzero : xs.length = 0
  · exact .inr (.inl hzero)
  · exact .inl (Nat.not_dvd_of_pos_of_lt (by omega) h)

/-- So is one that is just as long, when nothing asks for another. -/
theorem cutInto_of_eq {xs : List α} (hn : 0 < n) (h : xs.length = n) :
    CutInto n xs false [xs] := by
  refine ⟨by simp, by simp, xs, rfl, by omega, iff_of_false (by omega) ?_⟩
  rw [h]
  rintro (hdvd | hzero | hshort)
  · exact hdvd (dvd_refl n)
  · omega
  · cases hshort

/-- A full piece in front of the pieces of what is left. -/
theorem CutInto.cons {short : Bool} {xs : List α} {ps : List (List α)} (hn : 0 < n)
    (hge : n ≤ xs.length) (hnext : xs.drop n ≠ [] ∨ short = true)
    (h : CutInto n (xs.drop n) short ps) : CutInto n xs short (xs.take n :: ps) := by
  obtain ⟨p, hp, hple, hshort⟩ := h.last
  have hne : ps ≠ [] := by
    rintro rfl
    cases hp
  have hdrop : (xs.drop n).length + n = xs.length := by rw [List.length_drop]; omega
  refine ⟨?_, fun q hq => ?_, p, ?_, hple, ?_⟩
  · rw [List.flatten_cons, h.flatten, List.take_append_drop]
  · rw [List.dropLast_cons_of_ne_nil hne] at hq
    rcases List.mem_cons.mp hq with rfl | hq
    · rw [List.length_take]
      omega
    · exact h.full q hq
  · rw [List.getLast?_cons, Option.mem_def, Option.mem_def.mp hp]
    rfl
  · have hdvd : n ∣ xs.length ↔ n ∣ (xs.drop n).length := by
      rw [← hdrop]
      exact Nat.dvd_add_self_right
    rw [hshort, hdvd]
    by_cases hzero : (xs.drop n).length = 0
    · have hs : short = true := hnext.resolve_left (by simp [List.length_eq_zero_iff.mp hzero])
      simp [hs]
    · simp only [hzero, show xs.length ≠ 0 by omega, false_or]

/-- Cutting by counting is cutting in the sense of the relation. -/
theorem cutInto_cut {short : Bool} {k : ℕ} {xs : List α} (hn : 0 < n) (hk : k = xs.length / n)
    (h : xs ≠ [] ∨ short = true) : CutInto n xs short (cut n short k xs) := by
  induction k generalizing xs with
  | zero =>
      have hlt : xs.length < n := by
        by_contra hge
        have hpos := Nat.div_pos (Nat.not_lt.mp hge) hn
        omega
      have hone : ¬(xs = [] ∧ short = false) := by
        rintro ⟨hnil, hshort⟩
        rcases h with h | h
        · exact h hnil
        · simp [hshort] at h
      rw [cut, if_neg hone]
      exact cutInto_of_lt hlt
  | succ k ih =>
      have hge : n ≤ xs.length := by
        by_contra hlt
        rw [Nat.div_eq_of_lt (by omega)] at hk
        omega
      have hdiv : k = (xs.drop n).length / n := by
        have hsucc : xs.length / n = (xs.drop n).length / n + 1 := by
          rw [List.length_drop, ← Nat.add_div_right _ hn, Nat.sub_add_cancel hge]
        omega
      rw [cut]
      by_cases hnext : xs.drop n ≠ [] ∨ short = true
      · exact (ih hdiv hnext).cons hn hge hnext
      · -- the piece takes all there is, and nothing is to follow
        push Not at hnext
        obtain ⟨hnil, hfalse⟩ := hnext
        have hshort : short = false := by simpa using hfalse
        have hlen : xs.length = n := by
          have hzero := congrArg List.length hnil
          rw [List.length_drop, List.length_nil] at hzero
          omega
        have hk0 : k = 0 := by rw [hdiv, hnil]; simp
        rw [hk0, hnil, hshort, cut, if_pos ⟨rfl, rfl⟩, List.take_of_length_le (by omega)]
        exact cutInto_of_eq hn hlen

/-- The pieces are as `CutInto` has them. -/
theorem cutInto_pieces (short : Bool) (hn : 0 < n) (xs : List α) :
    CutInto n xs short (pieces n short xs) := by
  by_cases h : xs ≠ [] ∨ short = true
  · rw [← cut_eq_pieces hn h]
    exact cutInto_cut hn rfl h
  · push Not at h
    obtain ⟨rfl, -⟩ := h
    have hlt : ([] : List α).length < n := hn
    rw [pieces, List.take_nil, following_of_lt hlt]
    exact cutInto_of_lt hlt

/-- Where nothing asks for a shorter piece, all are full. -/
theorem CutInto.length_eq {xs : List α} {ps : List (List α)} (h : CutInto n xs false ps)
    (hdvd : n ∣ xs.length) (hne : xs.length ≠ 0) : ∀ p ∈ ps, p.length = n := by
  intro p hp
  obtain ⟨q, hq, hle, hshort⟩ := h.last
  rw [← List.dropLast_append_getLast? q hq] at hp
  rcases List.mem_append.mp hp with hp | hp
  · exact h.full p hp
  · rw [List.mem_singleton.mp hp]
    have hfull : ¬q.length < n := by
      rw [hshort]
      rintro (hnot | hzero | hs)
      · exact hnot hdvd
      · exact hne hzero
      · cases hs
    omega

end IbexFirmware.Chunks
