/-
When a hexdump is what it should be.

`LinesUp` says what the text of a dump is to be: every byte once in hex and once as a character,
and the characters of each line in the column in which the format puts them. `HexdumpOk` adds
that the dump ends, whatever the sink does. A line that ends early breaks one or the other
(`hexdump_ok_iff`).
-/
import IbexFirmware.Hexdump

set_option autoImplicit false

namespace IbexFirmware.Hexdump

open Bytes Sinks Json Print

variable (fmt : HexdumpFmt) (buf : List u8)

/-- A line for `bytes`. The characters begin behind the address, as many places as a full line
has for its words, and two blanks: the same column for every line. -/
def IsLine (address : ℕ) (bytes line : List u8) : Prop :=
  ∃ hex, line = address_text address ++
      (hex ++ (text "  " ++ (bytes.map fmt.alphabet ++ text "\n"))) ∧
    hex.length = 2 * line_bytes fmt + fmt.words_per_line.toNat ∧
    hex.filter (· ≠ chr ' ') = dump_text false kDigitsLow bytes

/-- The number of lines. -/
def line_count : ℕ := (buf.length + line_bytes fmt - 1) / line_bytes fmt

/-- The bytes of line `k`. -/
def bytes_of_line (k : ℕ) : List u8 := (buf.drop (k * line_bytes fmt)).take (line_bytes fmt)

def LinesUp (text : List u8) : Prop :=
  ∃ line : ℕ → List u8, text = (List.range (line_count fmt buf)).flatMap line ∧
    ∀ k < line_count fmt buf, IsLine fmt (k * line_bytes fmt) (bytes_of_line fmt buf k) (line k)

/-- A dump ends with every sink, and what a sink is handed that takes everything lines up. -/
def HexdumpOk : Prop :=
  (∀ (σ : Type) (out : Option (SinkFunc σ)) (s : σ), ∃ n₀, ∀ passes ≥ n₀,
    ∃ r, base_fhexdump_with passes out fmt buf (BitVec.ofNat 32 buf.length) s = .ok r) ∧
  ∃ n₀ text, LinesUp fmt buf text ∧ ∀ passes ≥ n₀, ∃ n,
    base_fhexdump_with passes (some recorder) fmt buf (BitVec.ofNat 32 buf.length) [] = .ok (n, text)

/-! ## The hex of a line -/

variable {fmt buf}

theorem dump_text_append (xs ys : List u8) :
    dump_text false kDigitsLow (xs ++ ys) = dump_text false kDigitsLow xs ++
      dump_text false kDigitsLow ys := List.flatMap_append

/-- No digit is a blank or the end of a line. -/
theorem dump_text_digits {bytes : List u8} {c : u8} (h : c ∈ dump_text false kDigitsLow bytes) :
    c ≠ chr ' ' ∧ c ≠ chr '\n' := by
  have hglyph : ∀ d : Fin 16, glyph kDigitsLow d ≠ chr ' ' ∧ glyph kDigitsLow d ≠ chr '\n' := by
    decide
  obtain ⟨b, -, hb⟩ := List.mem_flatMap.mp h
  rcases List.mem_pair.mp hb with rfl | rfl
  · exact hglyph ⟨_, nibble_lt _⟩
  · exact hglyph ⟨_, nibble_lt _⟩

theorem filter_dump_text (bytes : List u8) :
    (dump_text false kDigitsLow bytes).filter (· ≠ chr ' ') = dump_text false kDigitsLow bytes :=
  List.filter_eq_self.mpr fun _ hc => decide_eq_true (dump_text_digits hc).1

/-- The bytes of the first `j` words, whatever blanks are between them. -/
theorem filter_words_text (line j : ℕ) :
    (words_text fmt buf line j).filter (· ≠ chr ' ') =
      dump_text false kDigitsLow ((buf.drop line).take (j * fmt.bytes_per_word.toNat)) := by
  induction j with
  | zero => simp [words_text, dump_text, dump_order]
  | succ j ih =>
      rw [words_text, List.range_succ, List.flatMap_append, List.flatMap_singleton,
        List.filter_append, ← words_text, ih, word_text, List.filter_cons_of_neg (by simp),
        filter_dump_text, Nat.add_mul, Nat.one_mul, List.take_add, dump_text_append, List.drop_drop]

theorem length_words_text (line j : ℕ) :
    (words_text fmt buf line j).length =
      j + 2 * min (j * fmt.bytes_per_word.toNat) (buf.length - line) := by
  induction j with
  | zero => simp [words_text]
  | succ j ih =>
      rw [words_text, List.range_succ, List.flatMap_append, List.flatMap_singleton,
        List.length_append, ← words_text, ih, word_text, List.length_cons, length_dump_text,
        List.length_take, List.length_drop, Nat.add_mul, Nat.one_mul]
      omega

/-! ## Dumps with full lines only -/

theorem full_line_isLine {k : ℕ} (hk : k * line_bytes fmt + line_bytes fmt ≤ buf.length) :
    IsLine fmt (k * line_bytes fmt) (bytes_of_line fmt buf k) (full_line fmt buf k) := by
  have hmul : fmt.words_per_line.toNat * fmt.bytes_per_word.toNat = line_bytes fmt := Nat.mul_comm _ _
  refine ⟨words_text fmt buf (k * line_bytes fmt) fmt.words_per_line.toNat, rfl, ?_, ?_⟩
  · rw [length_words_text, hmul]
    omega
  · rw [filter_words_text, hmul, bytes_of_line]

theorem lines_done {σ : Type} (out : SinkFunc σ) (s : σ) (len line bytes_written : u32)
    (passes n : ℕ) (h : ¬ line < len) :
    lines_loop out fmt buf len passes (n + 1) line bytes_written s = .ok (bytes_written, s) := by
  rw [lines_loop, if_neg h]
  rfl

/-- Where every line is full, no loop looks at what the sink takes. -/
theorem full_dump_hands (hlen : buf.length < 2 ^ 32) (hpos : 0 < line_bytes fmt)
    (h : line_bytes fmt ∣ buf.length) :
    ∃ cs : List (List u8),
      cs.flatten = (List.range (line_count fmt buf)).flatMap (full_line fmt buf) ∧
      ∀ (σ : Type) (out : Option (SinkFunc σ)) (s : σ) (passes : ℕ), 2 ^ 32 < passes →
        base_fhexdump_with passes out fmt buf (BitVec.ofNat 32 buf.length) s =
          .ok (deliver (out.getD base_dev_null) cs s) := by
  obtain ⟨q, hq⟩ := h
  have hnat : (BitVec.ofNat 32 buf.length).toNat = buf.length := toNat_ofNat_of_lt hlen
  have hcount : line_count fmt buf = q := by
    rw [line_count, hq]
    exact Nat.div_eq_of_lt_le (by rw [Nat.mul_comm]; omega)
      (by rw [Nat.add_mul, Nat.one_mul, Nat.mul_comm q]; omega)
  rw [hcount]
  rcases Nat.eq_zero_or_pos q with rfl | hqpos
  · refine ⟨[], rfl, fun σ out s passes hpasses => ?_⟩
    obtain ⟨n, rfl⟩ : ∃ n, passes = n + 1 := ⟨passes - 1, by omega⟩
    refine lines_done _ s _ 0 0 _ n ?_
    rw [hq, Nat.mul_zero]
    exact BitVec.lt_irrefl _
  · have hbytes : line_bytes fmt < 2 ^ 32 := by
      have hle : line_bytes fmt ≤ line_bytes fmt * q := Nat.le_mul_of_pos_right _ hqpos
      omega
    have hqle : q ≤ buf.length := by
      rw [hq]
      exact Nat.le_mul_of_pos_left q hpos
    rw [Nat.mul_comm] at hq
    obtain ⟨cs, hcs, hrun⟩ := lines_run hnat hbytes hpos q (le_of_eq hq.symm)
    refine ⟨cs, hcs, fun σ out s passes hpasses => ?_⟩
    obtain ⟨n, rfl⟩ : ∃ n, passes = q + (n + 1) := ⟨passes - q - 1, by omega⟩
    have hend : ¬ BitVec.ofNat 32 (q * line_bytes fmt) < BitVec.ofNat 32 buf.length := by
      rw [hq]
      exact BitVec.lt_irrefl _
    refine (hrun σ (out.getD base_dev_null) s _ (n + 1) 0 hpasses).trans ?_
    rw [lines_done _ _ _ _ _ _ _ hend]
    exact congrArg (fun n => Except.ok (n, _)) (BitVec.zero_add _)

theorem hexdumpOk_of_dvd (hlen : buf.length < 2 ^ 32) (hpos : 0 < line_bytes fmt)
    (h : line_bytes fmt ∣ buf.length) : HexdumpOk fmt buf := by
  obtain ⟨cs, hcs, hrun⟩ := full_dump_hands hlen hpos h
  refine ⟨fun σ out s => ⟨2 ^ 32 + 1, fun passes hpasses => ⟨_, hrun σ out s passes hpasses⟩⟩,
    2 ^ 32 + 1, cs.flatten, ⟨full_line fmt buf, hcs, fun k hk => full_line_isLine ?_⟩,
    fun passes hpasses => ⟨((cs.flatten.length : ℕ) : u32), ?_⟩⟩
  · obtain ⟨q, hq⟩ := h
    have hk' : (k + 1) * line_bytes fmt ≤ q * line_bytes fmt := by
      apply Nat.mul_le_mul_right
      rw [line_count, hq] at hk
      exact Nat.lt_of_lt_of_le hk (Nat.le_of_lt_succ (Nat.div_lt_of_lt_mul
        (by rw [Nat.mul_succ]; omega)))
    rw [Nat.add_mul, Nat.one_mul] at hk'
    rw [hq, Nat.mul_comm _ q]
    exact hk'
  · refine (hrun _ (some recorder) [] passes hpasses).trans ?_
    rw [Option.getD_some, recorder, deliver_accept]
    rfl

/-! ## A line that is to be filled up -/

theorem bind_error {σ α β : Type} {p : Printing σ α} {f : α → Printing σ β} {s : σ} {e : Fault}
    (h : p s = .error e) : (p >>= f) s = .error e := by
  have hbind : (p >>= f) s = (p s >>= fun x => f x.1 x.2) := rfl
  rw [hbind, h]
  rfl

/-- A sink that is full. -/
def full : SinkFunc Unit := fun s _ => (0, s)

theorem deliver_full (cs : List (List u8)) (s : Unit) : deliver full cs s = (0, s) := by
  induction cs with
  | nil => rfl
  | cons c cs ih =>
      rw [deliver, full, ih]
      rfl

/-- The loop waits for a sink that is full. -/
theorem fill_loop_full {chars_per_line : u32} (h : 0 < chars_per_line) (passes : ℕ) :
    fill_loop full chars_per_line passes 0 () = .error .diverge := by
  induction passes with
  | zero => rfl
  | succ passes ih =>
      let to_print := if chars_per_line - 0 > 16 then 16 else chars_per_line - 0
      have hle : to_print.toNat ≤ spaces.length := by
        have hspaces : spaces.length = 16 := List.length_replicate
        have hsixteen : (16 : u32).toNat = 16 := rfl
        show (if chars_per_line - 0 > 16 then 16 else chars_per_line - 0).toNat ≤ _
        rw [hspaces]
        split
        · decide
        · next hlt => rw [gt_iff_lt, BitVec.lt_def, hsixteen] at hlt; omega
      have hprint := hands_buffer hle Unit full ()
      rw [deliver_full] at hprint
      rw [fill_loop, if_pos h, bind_ok hprint]
      exact ih

/-- A dump that begins behind its buffer. -/
theorem hex_dump_past {σ : Type} (out : SinkFunc σ) (s : σ) {n : u32} (hn : 0 < n.toNat) :
    hex_dump out [] n n (chr '0') false kDigitsLow s = .error .past_object := by
  obtain ⟨m, hm⟩ : ∃ m, n.toNat = m + 1 := ⟨n.toNat - 1, by omega⟩
  rw [hex_dump, if_neg (BitVec.lt_irrefl n), hm]
  rfl

/-! ## What a line adds to the text -/

/-- The text of a sink that takes everything only grows. -/
def Grows {α : Type} (p : Printing (List u8) α) : Prop :=
  ∀ s r s', p s = .ok (r, s') → s <+: s'

theorem Grows.pure {α : Type} (a : α) : Grows (Pure.pure a : Printing (List u8) α) := by
  rintro s r s' ⟨⟩
  exact List.prefix_rfl

theorem Grows.throw {α : Type} (e : Fault) : Grows (MonadExcept.throw e : Printing (List u8) α) :=
  fun _ _ _ h => nomatch h

theorem Grows.lift {α : Type} (e : Except Fault α) : Grows (liftM e : Printing (List u8) α) := by
  cases e with
  | error e => exact fun _ _ _ h => nomatch h
  | ok a => exact Grows.pure a

theorem bind_inv {σ α β : Type} {p : Printing σ α} {f : α → Printing σ β} {s s' : σ} {r : β}
    (h : (p >>= f) s = .ok (r, s')) : ∃ a t, p s = .ok (a, t) ∧ f a t = .ok (r, s') := by
  cases hp : p s with
  | error e =>
      rw [bind_error hp] at h
      cases h
  | ok result =>
      obtain ⟨a, t⟩ := result
      rw [bind_ok hp] at h
      exact ⟨a, t, rfl, h⟩

theorem Grows.bind {α β : Type} {p : Printing (List u8) α} {f : α → Printing (List u8) β}
    (hp : Grows p) (hf : ∀ a, Grows (f a)) : Grows (p >>= f) := by
  intro s r s' h
  obtain ⟨a, t, hat, hrest⟩ := bind_inv h
  exact (hp s a t hat).trans (hf a t r s' hrest)

theorem Grows.ite {α : Type} {c : Prop} [Decidable c] {p q : Printing (List u8) α} (hp : Grows p)
    (hq : Grows q) : Grows (if c then p else q) := by
  split
  · exact hp
  · exact hq

/-- What reaches a sink that takes everything. -/
theorem run_recorder {p : Caller} {cs : List (List u8)} (h : Hands p cs) (s : List u8) :
    p _ recorder s = .ok (((cs.flatten.length : ℕ) : u32), s ++ cs.flatten) := by
  refine (h _ recorder s).trans ?_
  rw [recorder, deliver_accept]
  rfl

theorem grows_of_hands {p : Caller} {cs : List (List u8)} (h : Hands p cs) :
    Grows (p _ recorder) := by
  intro s r s' hrun
  rw [run_recorder h] at hrun
  obtain ⟨-, rfl⟩ := Prod.mk.inj (Except.ok.inj hrun)
  exact List.prefix_append s _

theorem grows_fill_loop (chars_per_line : u32) (passes : ℕ) (lbw : u32) :
    Grows (fill_loop recorder chars_per_line passes lbw) := by
  induction passes generalizing lbw with
  | zero => exact Grows.throw _
  | succ passes ih =>
      refine Grows.ite (Grows.bind ?_ fun n => ih _) (Grows.pure _)
      have hle : (if chars_per_line - lbw > 16 then 16 else chars_per_line - lbw).toNat ≤
          spaces.length := by
        have hspaces : spaces.length = 16 := List.length_replicate
        have hsixteen : (16 : u32).toNat = 16 := rfl
        rw [hspaces]
        split
        · decide
        · next hlt => rw [gt_iff_lt, BitVec.lt_def, hsixteen] at hlt; omega
      exact grows_of_hands (hands_buffer hle)

theorem grows_emit (buf : List u8) : Grows (emit recorder buf) := grows_of_hands (hands_emit buf)

theorem grows_dump_loop (bytes : List u8) (len : ℕ) (big_endian : Bool) (glyphs : List u8)
    (left : ℕ) (buf : List u8) :
    Grows (dump_loop recorder bytes len big_endian glyphs left buf) := by
  induction left generalizing buf with
  | zero => exact Grows.ite (grows_emit buf) (Grows.pure _)
  | succ left ih =>
      exact Grows.bind (Grows.lift _) fun _ => Grows.bind (Grows.lift _) fun _ =>
        Grows.bind (Grows.lift _) fun _ => Grows.ite (Grows.throw _)
          (Grows.ite (Grows.bind (grows_emit _) fun _ => Grows.bind (ih _) fun _ => Grows.pure _)
            (ih _))

theorem grows_hex_dump (bytes : List u8) (n : u32) :
    Grows (hex_dump recorder bytes n n (chr '0') false kDigitsLow) := by
  rw [hex_dump, if_neg (BitVec.lt_irrefl n)]
  exact Grows.bind (Grows.pure _) fun _ => Grows.bind
    (Grows.bind (grows_dump_loop _ _ _ _ _ _) fun _ => Grows.bind (Grows.pure _) fun _ => Grows.pure _)
    fun _ => Grows.pure _

theorem grows_words_loop (len : u32) (passes : ℕ) (line bytes_per_line chars_per_line : u32) (n : ℕ)
    (word lbw : u32) :
    Grows (words_loop recorder fmt buf len passes line bytes_per_line chars_per_line n word lbw) := by
  induction n generalizing word lbw with
  | zero => exact Grows.throw _
  | succ n ih =>
      exact Grows.ite (Grows.ite (grows_fill_loop _ _ _)
        (Grows.bind (grows_of_hands hands_blank) fun _ => Grows.bind (grows_hex_dump _ _) fun _ =>
          ih _ _)) (Grows.pure _)

section early

variable {len : u32}

/-- A line that is written, whatever its words are. -/
theorem write_line_inv (hlen : len.toNat = buf.length) {line : ℕ} (hline : line ≤ buf.length)
    {passes : ℕ} (hpasses : (fmt.bytes_per_word * fmt.words_per_line).toNat < passes)
    {s s' : List u8} {n : u32}
    (h : write_line recorder fmt buf len passes (BitVec.ofNat 32 line) s = .ok (n, s')) :
    ∃ words k, words_loop recorder fmt buf len passes (BitVec.ofNat 32 line)
        (fmt.bytes_per_word * fmt.words_per_line)
        (fmt.bytes_per_word * fmt.words_per_line * 2 + fmt.words_per_line) passes 0 0
        (s ++ address_text line) = .ok (k, s ++ address_text line ++ words) ∧
      s' = s ++ (address_text line ++ (words ++ (text "  " ++
        (glyphs_text fmt buf line (fmt.bytes_per_word * fmt.words_per_line).toNat ++
          text "\n")))) := by
  obtain ⟨gs, hgs, hglyphs⟩ := write_glyphs_hands fmt hlen hline
    (fmt.bytes_per_word * fmt.words_per_line)
  have haddress := run_recorder (hands_address (BitVec.ofNat 32 line)) s
  have hflatten : [digits_text (BitVec.ofNat 32 line) 8 (chr '0') 16 kDigitsLow, text ":"].flatten =
      address_text line := by simp [address_text]
  rw [hflatten] at haddress
  rw [write_line] at h
  obtain ⟨a, t, hat, h⟩ := bind_inv h
  obtain ⟨-, rfl⟩ := Prod.mk.inj (Except.ok.inj (haddress.symm.trans hat))
  obtain ⟨b, u, h, hret⟩ := bind_inv h
  obtain ⟨k, t, hwords, h⟩ := bind_inv h
  obtain ⟨words, rfl⟩ := grows_words_loop _ _ _ _ _ _ _ _ _ _ _ hwords
  refine ⟨words, k, hwords, ?_⟩
  obtain ⟨c, v, h, hret'⟩ := bind_inv h
  have htail : Hands (fun _ out => in_turn
      [base_fprintf (some out) (text "  " ++ [0]) [],
        write_glyphs out fmt buf len passes (BitVec.ofNat 32 line)
          (fmt.bytes_per_word * fmt.words_per_line),
        base_fprintf (some out) (text "\n" ++ [0]) []])
      ([text "  "] ++ (gs ++ ([text "\n"] ++ []))) :=
    hands_in_turn_cons hands_blanks (hands_in_turn_cons (hglyphs passes hpasses)
      (hands_in_turn_cons hands_newline hands_nothing))
  have hrest := run_recorder htail (s ++ address_text line ++ words)
  obtain ⟨-, rfl⟩ := Prod.mk.inj (Except.ok.inj (hrest.symm.trans h))
  cases hret
  cases hret'
  simp [hgs]

theorem grows_lines_loop (hlen : len.toNat = buf.length) {passes : ℕ}
    (hpasses : (fmt.bytes_per_word * fmt.words_per_line).toNat < passes) (n : ℕ)
    (line bytes_written : u32) :
    Grows (lines_loop recorder fmt buf len passes n line bytes_written) := by
  induction n generalizing line bytes_written with
  | zero => exact Grows.throw _
  | succ n ih =>
      intro s r s' h
      by_cases hin : line < len
      · rw [lines_loop, if_pos hin] at h
        obtain ⟨a, t, hline, hrest⟩ := bind_inv h
        have hline' : line.toNat ≤ buf.length := by rw [BitVec.lt_def] at hin; omega
        have hline'' : write_line recorder fmt buf len passes (BitVec.ofNat 32 line.toNat) s =
            .ok (a, t) := by
          rw [BitVec.ofNat_toNat, BitVec.setWidth_eq]
          exact hline
        obtain ⟨words, k, -, rfl⟩ := write_line_inv hlen hline' hpasses hline''
        exact (List.prefix_append s _).trans (ih _ _ _ _ _ hrest)
      · rw [lines_done _ _ _ _ _ _ _ hin] at h
        obtain ⟨-, rfl⟩ := Prod.mk.inj (Except.ok.inj h)
        exact List.prefix_rfl

theorem IsLine.length_eq {address : ℕ} {bytes line : List u8} (h : IsLine fmt address bytes line) :
    line.length = (address_text address).length +
      (2 * line_bytes fmt + fmt.words_per_line.toNat + (2 + (bytes.length + 1))) := by
  obtain ⟨hex, rfl, hhex, -⟩ := h
  have htwo : (text "  ").length = 2 := rfl
  have hone : (text "\n").length = 1 := rfl
  simp only [List.length_append, List.length_map, hhex, htwo, hone]

theorem length_flatMap_congr {f g : ℕ → List u8} {n : ℕ}
    (h : ∀ k < n, (f k).length = (g k).length) :
    ((List.range n).flatMap f).length = ((List.range n).flatMap g).length := by
  rw [List.length_flatMap, List.length_flatMap]
  congr 1
  apply List.map_congr_left
  intro k hk
  exact h k (List.mem_range.mp hk)

/-- The text of a dump that lines up, from its last line on. The lines before are full. -/
theorem early_line (hlen : len.toNat = buf.length) {q : ℕ} (hq : q * line_bytes fmt < buf.length)
    (hcount : line_count fmt buf = q + 1)
    (hfull : ∀ k < q, k * line_bytes fmt + line_bytes fmt ≤ buf.length)
    {text' : List u8} (hup : LinesUp fmt buf text') {passes n : ℕ}
    (hpasses : (fmt.bytes_per_word * fmt.words_per_line).toNat < passes) {bw count : u32}
    (hrun : lines_loop recorder fmt buf len passes (n + 1) (BitVec.ofNat 32 (q * line_bytes fmt)) bw
      ((List.range q).flatMap (full_line fmt buf)) = .ok (count, text')) :
    ∃ words more hex s k t bw',
      words_loop recorder fmt buf len passes (BitVec.ofNat 32 (q * line_bytes fmt))
        (fmt.bytes_per_word * fmt.words_per_line)
        (fmt.bytes_per_word * fmt.words_per_line * 2 + fmt.words_per_line) passes 0 0 s =
          .ok (k, s ++ words) ∧
      lines_loop recorder fmt buf len passes n (BitVec.ofNat 32 (q * line_bytes fmt) +
        fmt.bytes_per_word * fmt.words_per_line) bw' t = .ok (count, t ++ more) ∧
      words ++ (text "  " ++ (glyphs_text fmt buf (q * line_bytes fmt)
          (fmt.bytes_per_word * fmt.words_per_line).toNat ++ (text "\n" ++ more))) =
        hex ++ (text "  " ++ ((bytes_of_line fmt buf q).map fmt.alphabet ++ text "\n")) ∧
      hex.length = 2 * line_bytes fmt + fmt.words_per_line.toNat ∧
      hex.filter (· ≠ chr ' ') = dump_text false kDigitsLow (bytes_of_line fmt buf q) := by
  have hin : BitVec.ofNat 32 (q * line_bytes fmt) < len := by
    rw [BitVec.lt_def, toNat_ofNat_of_lt (by omega)]
    omega
  rw [lines_loop, if_pos hin] at hrun
  obtain ⟨a, t, hline, hrest⟩ := bind_inv hrun
  obtain ⟨words, k, hwords, rfl⟩ := write_line_inv hlen (le_of_lt hq) hpasses hline
  obtain ⟨more, rfl⟩ := grows_lines_loop hlen hpasses _ _ _ _ _ _ hrest
  obtain ⟨line, htext, hlines⟩ := hup
  rw [hcount] at htext hlines
  -- The full lines are as long as the lines that they are to be.
  have hsame : ((List.range q).flatMap (full_line fmt buf)).length =
      ((List.range q).flatMap line).length := by
    apply length_flatMap_congr
    intro k hk
    rw [(full_line_isLine (hfull k hk)).length_eq, (hlines k (by omega)).length_eq]
  rw [List.range_succ, List.flatMap_append, List.flatMap_singleton, List.append_assoc] at htext
  obtain ⟨-, hlast⟩ := List.append_inj htext hsame
  obtain ⟨hex, hhex, hlength, hfilter⟩ := hlines q (by omega)
  rw [hhex, List.append_assoc] at hlast
  have hcancel := List.append_cancel_left hlast
  refine ⟨words, more, hex, _, k, _, _, hwords, hrest, ?_, hlength, hfilter⟩
  simpa only [List.append_assoc] using hcancel

/-- The words of a line that ends before word `j`: the loop fills the line up and waits, or, where
the offset of the word wraps, reads behind the buffer. -/
theorem words_loop_full (hlen : len.toNat = buf.length) (hword : 0 < fmt.bytes_per_word.toNat)
    {line j : ℕ} (hline : line ≤ buf.length) {bytes_per_line chars_per_line : u32}
    (hchars : 0 < chars_per_line)
    (h : ∀ i < j, i * fmt.bytes_per_word.toNat < bytes_per_line.toNat ∧
      line + i * fmt.bytes_per_word.toNat ≤ buf.length)
    (hin : j * fmt.bytes_per_word.toNat < bytes_per_line.toNat)
    (hend : buf.length < line + j * fmt.bytes_per_word.toNat) {passes : ℕ} (hpasses : j < passes) :
    ∃ e, words_loop full fmt buf len passes (BitVec.ofNat 32 line) bytes_per_line chars_per_line
      passes 0 0 () = .error e := by
  have hline' : (BitVec.ofNat 32 line).toNat = line := toNat_ofNat_of_lt (by omega)
  have hword' : (BitVec.ofNat 32 (j * fmt.bytes_per_word.toNat)).toNat =
      j * fmt.bytes_per_word.toNat := by
    exact toNat_ofNat_of_lt (by omega)
  obtain ⟨cs, -, hrun⟩ := words_run fmt hlen bytes_per_line chars_per_line j h
  obtain ⟨n, rfl⟩ : ∃ n, passes = j + (n + 1) := ⟨passes - j - 1, by omega⟩
  have hrun' := hrun Unit full () (j + (n + 1)) (n + 1) 0
  rw [deliver_full] at hrun'
  have hin' : BitVec.ofNat 32 (j * fmt.bytes_per_word.toNat) < bytes_per_line := by
    rw [BitVec.lt_def, hword']
    exact hin
  rw [words_loop, if_pos hin'] at hrun'
  by_cases hfill : len < BitVec.ofNat 32 line + BitVec.ofNat 32 (j * fmt.bytes_per_word.toNat)
  · rw [if_pos hfill] at hrun'
    exact ⟨_, hrun'.trans (fill_loop_full hchars _)⟩
  · rw [if_neg hfill] at hrun'
    have hbytes : 0 < (bytes_left fmt len (BitVec.ofNat 32 line)
        (BitVec.ofNat 32 (j * fmt.bytes_per_word.toNat))).toNat := by
      have hleft : 0 < (len - BitVec.ofNat 32 line -
          BitVec.ofNat 32 (j * fmt.bytes_per_word.toNat)).toNat := by
        rw [BitVec.toNat_sub, BitVec.toNat_sub, hline', hword']
        omega
      rw [bytes_left]
      split
      · exact hword
      · exact hleft
    have hdrop : buf.drop (line + j * fmt.bytes_per_word.toNat) = [] :=
      List.drop_eq_nil_of_le (by omega)
    rw [hline', hword', hdrop, bind_ok (hands_blank Unit full ()),
      bind_error (hex_dump_past full _ hbytes)] at hrun'
    exact ⟨_, hrun'⟩

theorem chars_per_line_pos (h : 0 < fmt.words_per_line.toNat) :
    0 < fmt.bytes_per_word * fmt.words_per_line * 2 + fmt.words_per_line := by
  have hzero : (0 : u32).toNat = 0 := rfl
  have htwo : (2 : u32).toNat = 2 := rfl
  rw [BitVec.lt_def, hzero, BitVec.toNat_add, BitVec.toNat_mul, BitVec.toNat_mul, htwo]
  by_contra hneg
  have hdvd : 2 ^ 32 ∣ fmt.words_per_line.toNat * (2 * fmt.bytes_per_word.toNat + 1) := by
    apply Nat.dvd_of_mod_eq_zero
    have hmod : (fmt.bytes_per_word.toNat * fmt.words_per_line.toNat % 2 ^ 32 * 2 % 2 ^ 32 +
        fmt.words_per_line.toNat) % 2 ^ 32 = 0 := by omega
    rw [← hmod, Nat.mul_add, Nat.mul_one, ← mul_assoc, Nat.mul_comm _ 2, Nat.mul_assoc 2,
      Nat.mul_comm fmt.words_per_line.toNat]
    omega
  -- The other factor is odd.
  have hcoprime : Nat.Coprime (2 ^ 32) (2 * fmt.bytes_per_word.toNat + 1) := by
    apply Nat.Coprime.pow_left
    simp
  have hle := Nat.le_of_dvd h (hcoprime.dvd_of_dvd_mul_right hdvd)
  omega

/-- A line that is to be filled up does not end. -/
theorem write_line_full (hlen : len.toNat = buf.length) (hword : 0 < fmt.bytes_per_word.toNat)
    (hwords : 0 < fmt.words_per_line.toNat) {line j : ℕ} (hline : line ≤ buf.length)
    (h : ∀ i < j, i * fmt.bytes_per_word.toNat <
        (fmt.bytes_per_word * fmt.words_per_line).toNat ∧
      line + i * fmt.bytes_per_word.toNat ≤ buf.length)
    (hin : j * fmt.bytes_per_word.toNat < (fmt.bytes_per_word * fmt.words_per_line).toNat)
    (hend : buf.length < line + j * fmt.bytes_per_word.toNat) {passes : ℕ} (hpasses : j < passes) :
    ∃ e, write_line full fmt buf len passes (BitVec.ofNat 32 line) () = .error e := by
  obtain ⟨e, he⟩ := words_loop_full hlen hword hline (chars_per_line_pos hwords) h hin hend hpasses
  have haddress := hands_address (BitVec.ofNat 32 line) Unit full ()
  rw [deliver_full] at haddress
  refine ⟨e, ?_⟩
  rw [write_line, in_turn, bind_ok haddress]
  exact bind_error (bind_error he)

/-- No line of blanks and digits has the end of a line in it. -/
theorem newline_not_in_hex {words glyphs more hex tail bytes : List u8}
    (h : words ++ (text "  " ++ (glyphs ++ (text "\n" ++ more))) = hex ++ tail)
    (hfilter : hex.filter (· ≠ chr ' ') = dump_text false kDigitsLow bytes) :
    hex.length < words.length + (2 + (glyphs.length + 1)) := by
  by_contra hle
  have hwhole : words ++ (text "  " ++ (glyphs ++ text "\n")) <+: hex ++ tail := by
    refine ⟨more, ?_⟩
    rw [← h]
    simp only [List.append_assoc]
  have htext : words ++ (text "  " ++ (glyphs ++ text "\n")) <+: hex := by
    refine List.prefix_of_prefix_length_le hwhole (List.prefix_append hex tail) ?_
    have htwo : (text "  ").length = 2 := rfl
    have hone : (text "\n").length = 1 := rfl
    simp only [List.length_append, htwo, hone]
    omega
  have hmem : chr '\n' ∈ hex := htext.subset (by simp [text])
  have hmem' : chr '\n' ∈ hex.filter (· ≠ chr ' ') := List.mem_filter.mpr ⟨hmem, by decide⟩
  rw [hfilter] at hmem'
  exact (dump_text_digits hmem').2 rfl

/-- What is written behind a line, if anything is. -/
theorem more_lines (hlen : len.toNat = buf.length) {passes n : ℕ}
    (hpasses : (fmt.bytes_per_word * fmt.words_per_line).toNat < passes) {line bw count : u32}
    {t more : List u8}
    (h : lines_loop recorder fmt buf len passes n line bw t = .ok (count, t ++ more)) :
    more = [] ∨ line.toNat < buf.length ∧
      (glyphs_text fmt buf line.toNat (fmt.bytes_per_word * fmt.words_per_line).toNat).length + 3 ≤
        more.length := by
  obtain _ | n := n
  · cases h
  by_cases hin : line < len
  · rw [lines_loop, if_pos hin] at h
    obtain ⟨a, u, hline, hrest⟩ := bind_inv h
    have hline' : line.toNat < buf.length := by rw [BitVec.lt_def] at hin; omega
    have hwrite : write_line recorder fmt buf len passes (BitVec.ofNat 32 line.toNat) t =
        .ok (a, u) := by
      rw [BitVec.ofNat_toNat, BitVec.setWidth_eq]
      exact hline
    obtain ⟨words, k, -, rfl⟩ := write_line_inv hlen (le_of_lt hline') hpasses hwrite
    obtain ⟨rest, hrest'⟩ := grows_lines_loop hlen hpasses _ _ _ _ _ _ hrest
    rw [List.append_assoc] at hrest'
    have hmore := List.append_cancel_left hrest'
    have htwo : (text "  ").length = 2 := rfl
    have hone : (text "\n").length = 1 := rfl
    refine Or.inr ⟨hline', ?_⟩
    rw [← hmore]
    simp only [List.length_append, htwo, hone]
    omega
  · rw [lines_done _ _ _ _ _ _ _ hin] at h
    obtain ⟨-, heq⟩ := Prod.mk.inj (Except.ok.inj h)
    exact Or.inl (List.append_cancel_left ((List.append_nil t).trans heq)).symm

end early

/-! ## Dumps that end in a line that is not full -/

section partial_line

variable {q r : ℕ}

theorem length_glyphs_text (line n : ℕ) :
    (glyphs_text fmt buf line n).length = min n (buf.length - line) := by
  rw [glyphs_text, List.length_map, List.length_take, List.length_drop]

theorem large_passes {P : ℕ → Prop} {n₀ : ℕ} (h : ∀ n ≥ n₀, P n) : ∃ n, 2 ^ 32 < n ∧ P n :=
  ⟨n₀ + (2 ^ 32 + 1), by omega, h _ (Nat.le_add_right _ _)⟩

/-- The run of a sink that takes everything, from the line that is not full on. -/
theorem recorder_run (hlen : buf.length < 2 ^ 32) (hbytes : line_bytes fmt < 2 ^ 32)
    (hpos : 0 < line_bytes fmt) (hq : q * line_bytes fmt ≤ buf.length) {passes : ℕ}
    (hpasses : 2 ^ 32 < passes) {r : Except Fault (u32 × List u8)}
    (h : base_fhexdump_with passes (some recorder) fmt buf (BitVec.ofNat 32 buf.length) [] = r) :
    ∃ n bw, lines_loop recorder fmt buf (BitVec.ofNat 32 buf.length) passes (n + 1)
      (BitVec.ofNat 32 (q * line_bytes fmt)) bw ((List.range q).flatMap (full_line fmt buf)) = r := by
  have hqle : q ≤ buf.length := Nat.le_trans (Nat.le_mul_of_pos_right q hpos) hq
  obtain ⟨cs, hcs, hrun⟩ := lines_run (toNat_ofNat_of_lt hlen) hbytes hpos q hq
  obtain ⟨n, hn⟩ : ∃ n, passes = q + (n + 1) := ⟨passes - q - 1, by omega⟩
  have hstart := hrun _ recorder [] passes (n + 1) 0 hpasses
  rw [← hn, recorder, deliver_accept] at hstart
  rw [← hcs]
  exact ⟨n, _, hstart.symm.trans h⟩

/-- The words of a line that has no others than the first `j`. -/
theorem length_words_run {len : u32} (hlen : len.toNat = buf.length) {line j : ℕ}
    {bytes_per_line chars_per_line : u32}
    (hinside : ∀ i < j, i * fmt.bytes_per_word.toNat < bytes_per_line.toNat ∧
      line + i * fmt.bytes_per_word.toNat ≤ buf.length)
    (hend : bytes_per_line.toNat ≤ j * fmt.bytes_per_word.toNat)
    (hwrap : j * fmt.bytes_per_word.toNat < 2 ^ 32) {passes : ℕ} (hpasses : j < passes)
    {s words : List u8} {k : u32}
    (hrun : words_loop recorder fmt buf len passes (BitVec.ofNat 32 line) bytes_per_line chars_per_line
      passes 0 0 s = .ok (k, s ++ words)) :
    words.length = j + 2 * min (j * fmt.bytes_per_word.toNat) (buf.length - line) := by
  obtain ⟨ws, hws, hhands⟩ :=
    words_hands fmt hlen bytes_per_line chars_per_line hinside hend hwrap
  have hall := run_recorder (hhands passes hpasses) s
  obtain ⟨-, happend⟩ := Prod.mk.inj (Except.ok.inj (hall.symm.trans hrun))
  rw [← List.append_cancel_left happend, hws, length_words_text]

/-- A line ends in its last word: it is not filled up. -/
theorem unfilled_line (hlen : buf.length < 2 ^ 32) (hbytes : line_bytes fmt < 2 ^ 32)
    (hq : buf.length = q * line_bytes fmt + r) (hr : 0 < r)
    (hrB : r < line_bytes fmt)
    (h : ∀ i < fmt.words_per_line.toNat, i * fmt.bytes_per_word.toNat ≤ r) :
    ¬ HexdumpOk fmt buf := by
  rintro ⟨-, n₀, text', hup, hrec⟩
  have hnat := toNat_ofNat_of_lt hlen
  have hbpl := toNat_bytes_per_line hbytes
  have hmul : fmt.words_per_line.toNat * fmt.bytes_per_word.toNat = line_bytes fmt := Nat.mul_comm _ _
  have hcount : line_count fmt buf = q + 1 := by
    rw [line_count]
    exact Nat.div_eq_of_lt_le (by rw [Nat.add_mul]; omega) (by rw [Nat.add_mul, Nat.add_mul]; omega)
  obtain ⟨passes, hpasses, count, hrun⟩ := large_passes hrec
  obtain ⟨n, bw, hstart⟩ := recorder_run (q := q) hlen hbytes (by omega) (by omega) hpasses hrun
  obtain ⟨words, more, hex, s, k, t, bw', hwords, hrest, heq, hlength, hfilter⟩ := early_line hnat
    (by omega) hcount (fun k hk => by
      have hle : (k + 1) * line_bytes fmt ≤ q * line_bytes fmt := Nat.mul_le_mul_right _ hk
      rw [Nat.add_mul, Nat.one_mul] at hle
      omega) hup (by rw [hbpl]; omega) hstart
  -- The words of the line are all there is before the characters.
  have hinside : ∀ i < fmt.words_per_line.toNat, i * fmt.bytes_per_word.toNat <
      (fmt.bytes_per_word * fmt.words_per_line).toNat ∧
      q * line_bytes fmt + i * fmt.bytes_per_word.toNat ≤ buf.length := by
    intro i hi
    have hle := h i hi
    rw [hbpl]
    omega
  have hwords' : words.length = fmt.words_per_line.toNat + 2 * r := by
    rw [length_words_run hnat hinside (by rw [hbpl, hmul]) (by rw [hmul]; exact hbytes) (by omega)
      hwords, hmul, hq]
    omega
  have hglyphs : (glyphs_text fmt buf (q * line_bytes fmt)
      (fmt.bytes_per_word * fmt.words_per_line).toNat).length = r := by
    rw [length_glyphs_text, hbpl]
    omega
  have hbytes' : (bytes_of_line fmt buf q).length = r := by
    rw [bytes_of_line, List.length_take, List.length_drop]
    omega
  have hshort := newline_not_in_hex heq hfilter
  have htotal := congrArg List.length heq
  have htwo : (text "  ").length = 2 := rfl
  have hone : (text "\n").length = 1 := rfl
  simp only [List.length_append, List.length_map, htwo, hone, hwords', hglyphs, hbytes',
    hlength] at htotal
  rw [hlength, hwords', hglyphs] at hshort
  rcases more_lines hnat (by rw [hbpl]; omega) hrest with rfl | ⟨hnext, hmore⟩
  · rw [List.length_nil] at htotal
    omega
  · -- The offset of the line has wrapped.
    have hwrap : (BitVec.ofNat 32 (q * line_bytes fmt) +
        fmt.bytes_per_word * fmt.words_per_line).toNat =
        (q * line_bytes fmt + line_bytes fmt) % 2 ^ 32 := by
      rw [BitVec.toNat_add, hbpl, toNat_ofNat_of_lt (by omega)]
    rw [hwrap] at hnext
    rw [hwrap, length_glyphs_text, hbpl] at hmore
    have hback : (q * line_bytes fmt + line_bytes fmt) % 2 ^ 32 + 2 ^ 32 =
        q * line_bytes fmt + line_bytes fmt := by omega
    omega

theorem lines_loop_full {len line bw : u32} {passes n : ℕ} (hin : line < len) {e : Fault}
    (he : write_line full fmt buf len passes line () = .error e) :
    lines_loop full fmt buf len passes (n + 1) line bw () = .error e := by
  rw [lines_loop, if_pos hin]
  exact bind_error he

/-- A line ends before its last word: the loop that fills it up does not end. -/
theorem filled_line (hlen : buf.length < 2 ^ 32) (hword : 0 < fmt.bytes_per_word.toNat)
    (hwords : 0 < fmt.words_per_line.toNat) (hbytes : line_bytes fmt < 2 ^ 32)
    (hq : buf.length = q * line_bytes fmt + r) (hr : 0 < r) {j : ℕ}
    (h : ∀ i < j, i * fmt.bytes_per_word.toNat ≤ r)
    (hin : j * fmt.bytes_per_word.toNat < line_bytes fmt)
    (hend : r < j * fmt.bytes_per_word.toNat) : ¬ HexdumpOk fmt buf := by
  rintro ⟨hterm, -⟩
  have hnat := toNat_ofNat_of_lt hlen
  have hbpl := toNat_bytes_per_line hbytes
  obtain ⟨n₀, hruns⟩ := hterm Unit (some full) ()
  obtain ⟨passes, hpasses, result, hrun⟩ := large_passes hruns
  have hinside : ∀ i < j, i * fmt.bytes_per_word.toNat <
      (fmt.bytes_per_word * fmt.words_per_line).toNat ∧
      q * line_bytes fmt + i * fmt.bytes_per_word.toNat ≤ buf.length := by
    intro i hi
    have hle := h i hi
    rw [hbpl]
    omega
  have hj : j ≤ j * fmt.bytes_per_word.toNat := Nat.le_mul_of_pos_right j hword
  obtain ⟨e, he⟩ := write_line_full hnat hword hwords (by omega) hinside (by rw [hbpl]; exact hin)
    (by omega) (by omega : j < passes)
  have hpos : 0 < line_bytes fmt := by omega
  have hqle : q ≤ buf.length := Nat.le_trans (Nat.le_mul_of_pos_right q hpos) (by omega)
  obtain ⟨cs, -, hlines⟩ := lines_run hnat hbytes hpos q (by omega)
  obtain ⟨n, rfl⟩ : ∃ n, passes = q + (n + 1) := ⟨passes - q - 1, by omega⟩
  have hstart := hlines Unit full () (q + (n + 1)) (n + 1) 0 hpasses
  have hlast : BitVec.ofNat 32 (q * line_bytes fmt) < BitVec.ofNat 32 buf.length := by
    rw [BitVec.lt_def, toNat_ofNat_of_lt (by omega), hnat]
    omega
  rw [deliver_full, lines_loop_full hlast he] at hstart
  cases hstart.symm.trans hrun

/-- Some line of a dump is not full. -/
theorem not_ok_of_partial (hlen : buf.length < 2 ^ 32) (hword : 0 < fmt.bytes_per_word.toNat)
    (hwords : 0 < fmt.words_per_line.toNat) (hbytes : line_bytes fmt < 2 ^ 32)
    (h : ¬ line_bytes fmt ∣ buf.length) : ¬ HexdumpOk fmt buf := by
  have hpos : 0 < line_bytes fmt := Nat.mul_pos hword hwords
  have hr : 0 < buf.length % line_bytes fmt :=
    Nat.pos_of_ne_zero fun hzero => h (Nat.dvd_of_mod_eq_zero hzero)
  have hq : buf.length = buf.length / line_bytes fmt * line_bytes fmt +
      buf.length % line_bytes fmt := by
    rw [Nat.mul_comm]
    exact (Nat.div_add_mod _ _).symm
  -- The first word that begins behind the end, if it is one of the line.
  by_cases hfill : (buf.length % line_bytes fmt / fmt.bytes_per_word.toNat + 1) *
      fmt.bytes_per_word.toNat < line_bytes fmt
  · refine filled_line hlen hword hwords hbytes hq hr (fun i hi => ?_) hfill ?_
    · exact Nat.le_trans (Nat.mul_le_mul_right _ (Nat.le_of_lt_succ hi)) (Nat.div_mul_le_self _ _)
    · rw [Nat.mul_comm]
      exact Nat.lt_mul_div_succ _ hword
  · refine unfilled_line hlen hbytes hq hr (Nat.mod_lt _ hpos) fun i hi => ?_
    have hle : i ≤ buf.length % line_bytes fmt / fmt.bytes_per_word.toNat := by
      by_contra hgt
      apply hfill
      have hsucc : buf.length % line_bytes fmt / fmt.bytes_per_word.toNat + 1 ≤ i := by omega
      refine Nat.lt_of_le_of_lt (Nat.mul_le_mul_right _ hsucc) ?_
      rw [line_bytes, Nat.mul_comm fmt.bytes_per_word.toNat]
      exact Nat.mul_lt_mul_of_pos_right hi hword
    exact Nat.le_trans (Nat.mul_le_mul_right _ hle) (Nat.div_mul_le_self _ _)

end partial_line

/-! ## Lines that are longer than a `size_t` -/

section wrapped

/-- The offset of the line stays where it is. -/
theorem lines_loop_stuck {σ : Type} (out : SinkFunc σ) {len : u32} (passes n : ℕ) (line bw : u32)
    (s : σ) (hzero : fmt.bytes_per_word * fmt.words_per_line = 0) (hin : line < len) :
    ∃ e, lines_loop out fmt buf len passes n line bw s = .error e := by
  induction n generalizing bw s with
  | zero => exact ⟨_, rfl⟩
  | succ n ih =>
      have hnext : line + fmt.bytes_per_word * fmt.words_per_line = line := by
        rw [hzero]
        exact BitVec.add_zero line
      rw [lines_loop, if_pos hin, hnext]
      cases hline : write_line out fmt buf len passes line s with
      | error e => exact ⟨e, bind_error hline⟩
      | ok r =>
          obtain ⟨k, s'⟩ := r
          rw [bind_ok hline]
          exact ih _ _

/-- The words of a line whose offsets wrap: there is one more behind those that have every byte. -/
theorem wrapped_words {len : u32} (hlen : len.toNat = buf.length) {j : ℕ}
    {bytes_per_line chars_per_line : u32}
    (h : ∀ i < j, i * fmt.bytes_per_word.toNat < bytes_per_line.toNat ∧
      0 + i * fmt.bytes_per_word.toNat ≤ buf.length)
    (hwrap : 2 ^ 32 ≤ j * fmt.bytes_per_word.toNat) {passes : ℕ} (hpasses : j < passes)
    {s words : List u8} {k : u32}
    (hrun : words_loop recorder fmt buf len passes (BitVec.ofNat 32 0) bytes_per_line chars_per_line
      passes 0 0 s = .ok (k, s ++ words)) :
    ∃ word, word + 2 ^ 32 = j * fmt.bytes_per_word.toNat ∧
      words_text fmt buf 0 j ++ (text " " ++ dump_text false kDigitsLow
        ((buf.drop (0 + word)).take fmt.bytes_per_word.toNat)) <+: words := by
  obtain ⟨i, rfl⟩ : ∃ i, j = i + 1 := ⟨j - 1, by
    have hj : j ≠ 0 := by rintro rfl; omega
    omega⟩
  have hlast := h i (by omega)
  have hj : (i + 1) * fmt.bytes_per_word.toNat =
      i * fmt.bytes_per_word.toNat + fmt.bytes_per_word.toNat := by rw [Nat.add_mul, Nat.one_mul]
  obtain ⟨word, hword⟩ : ∃ word, word + 2 ^ 32 = (i + 1) * fmt.bytes_per_word.toNat :=
    ⟨(i + 1) * fmt.bytes_per_word.toNat - 2 ^ 32, by omega⟩
  refine ⟨word, hword, ?_⟩
  have hbits : BitVec.ofNat 32 ((i + 1) * fmt.bytes_per_word.toNat) = BitVec.ofNat 32 word := by
    apply BitVec.eq_of_toNat_eq
    rw [BitVec.toNat_ofNat, BitVec.toNat_ofNat, ← hword, Nat.add_mod_right]
  obtain ⟨cs, hcs, hwords⟩ := words_run fmt hlen bytes_per_line chars_per_line (i + 1) h
  obtain ⟨n, rfl⟩ : ∃ n, passes = i + 1 + (n + 1) := ⟨passes - (i + 1) - 1, by omega⟩
  rw [hwords, recorder, deliver_accept, ← recorder, hbits] at hrun
  have hin : BitVec.ofNat 32 word < bytes_per_line := by
    rw [BitVec.lt_def, toNat_ofNat_of_lt (by omega)]
    omega
  have hend : ¬ len < BitVec.ofNat 32 0 + BitVec.ofNat 32 word := by
    rw [BitVec.lt_def, BitVec.toNat_add, toNat_ofNat_of_lt (by omega), toNat_ofNat_of_lt (by omega)]
    omega
  have hle : 0 + word ≤ buf.length := by omega
  obtain ⟨ds, hds, hdump⟩ := word_hands fmt hlen hle
  rw [words_loop, if_pos hin, if_neg hend] at hrun
  obtain ⟨a, t, hblank, hrun⟩ := bind_inv hrun
  obtain ⟨-, rfl⟩ := Prod.mk.inj (Except.ok.inj ((run_recorder hands_blank _).symm.trans hblank))
  rw [toNat_ofNat_of_lt (by omega), toNat_ofNat_of_lt (by omega)] at hrun
  obtain ⟨b, u, hhex, hrun⟩ := bind_inv hrun
  obtain ⟨-, rfl⟩ := Prod.mk.inj (Except.ok.inj ((run_recorder hdump _).symm.trans hhex))
  obtain ⟨rest, hrest⟩ := grows_words_loop _ _ _ _ _ _ _ _ _ _ _ hrun
  refine ⟨rest, ?_⟩
  have hput : Store.list.put s cs.flatten = s ++ words_text fmt buf 0 (i + 1) := by rw [hcs]; rfl
  rw [hput, hds, List.flatten_singleton] at hrest
  simp only [List.append_assoc] at hrest ⊢
  exact List.append_cancel_left hrest

/-- The words that are begun before the offset `n`. -/
theorem exists_words {w : ℕ} (hw : 0 < w) (n : ℕ) :
    ∃ j, n ≤ j * w ∧ ∀ i < j, i * w < n := by
  refine ⟨(n + w - 1) / w, ?_, fun i hi => ?_⟩
  · have h := Nat.lt_div_mul_add hw (a := n + w - 1)
    omega
  · have h := (Nat.le_div_iff_mul_le hw).mp (Nat.succ_le_of_lt hi)
    rw [Nat.succ_mul] at h
    omega

/-- A word behind the end of the buffer begins in the first line: the loop that fills the line up
does not end. -/
theorem wrapped_filled (hlen : buf.length < 2 ^ 32) (hword : 0 < fmt.bytes_per_word.toNat)
    (hwords : 0 < fmt.words_per_line.toNat) (hpos : 0 < buf.length) {i : ℕ}
    (hi : i * fmt.bytes_per_word.toNat < (fmt.bytes_per_word * fmt.words_per_line).toNat)
    (hlt : buf.length < i * fmt.bytes_per_word.toNat) {n : ℕ} (hn : i ≤ n) :
    ∃ e, lines_loop full fmt buf (BitVec.ofNat 32 buf.length) (n + 1) (n + 1) 0 0 () = .error e := by
  have hnat := toNat_ofNat_of_lt hlen
  have hin : BitVec.ofNat 32 0 < BitVec.ofNat 32 buf.length := by
    rw [BitVec.lt_def, hnat]
    exact hpos
  have hfirst : buf.length / fmt.bytes_per_word.toNat + 1 ≤ i :=
    (Nat.div_lt_iff_lt_mul hword).mpr hlt
  have hbefore : ∀ i' ≤ i, i' * fmt.bytes_per_word.toNat <
      (fmt.bytes_per_word * fmt.words_per_line).toNat := fun i' hi' =>
    Nat.lt_of_le_of_lt (Nat.mul_le_mul_right _ hi') hi
  have hinside : ∀ i < buf.length / fmt.bytes_per_word.toNat + 1, i * fmt.bytes_per_word.toNat <
      (fmt.bytes_per_word * fmt.words_per_line).toNat ∧
      0 + i * fmt.bytes_per_word.toNat ≤ buf.length := by
    intro i' hi'
    rw [Nat.zero_add]
    exact ⟨hbefore i' (by omega), Nat.le_trans (Nat.mul_le_mul_right _ (Nat.le_of_lt_succ hi'))
      (Nat.div_mul_le_self _ _)⟩
  have hbehind : buf.length < 0 + (buf.length / fmt.bytes_per_word.toNat + 1) *
      fmt.bytes_per_word.toNat := by
    rw [Nat.zero_add, Nat.mul_comm]
    exact Nat.lt_mul_div_succ _ hword
  obtain ⟨e, he⟩ := write_line_full hnat hword hwords (Nat.zero_le _) hinside (hbefore _ hfirst)
    hbehind (by omega : buf.length / fmt.bytes_per_word.toNat + 1 < n + 1)
  exact ⟨e, lines_loop_full hin he⟩

/-- With a word that is printed twice there are more digits than the line is to have. -/
theorem wrapped_twice {words hex tail tail' bytes : List u8} {j word : ℕ}
    (hword : 0 < fmt.bytes_per_word.toNat) (hall : buf.length ≤ j * fmt.bytes_per_word.toNat)
    (hin : word < buf.length) (htext : words_text fmt buf 0 j ++ (text " " ++
      dump_text false kDigitsLow ((buf.drop (0 + word)).take fmt.bytes_per_word.toNat)) <+: words)
    (heq : words ++ tail = hex ++ tail')
    (hroom : j + 2 * buf.length + (1 + 2 * fmt.bytes_per_word.toNat) ≤ hex.length)
    (hfilter : hex.filter (· ≠ chr ' ') = dump_text false kDigitsLow bytes)
    (hbytes : bytes.length = buf.length) : False := by
  have hdump : (dump_text false kDigitsLow
      ((buf.drop (0 + word)).take fmt.bytes_per_word.toNat)).length =
      2 * min fmt.bytes_per_word.toNat (buf.length - word) := by
    rw [length_dump_text, List.length_take, List.length_drop, Nat.zero_add]
  have hlength : (words_text fmt buf 0 j ++ (text " " ++ dump_text false kDigitsLow
      ((buf.drop (0 + word)).take fmt.bytes_per_word.toNat))).length =
      j + 2 * buf.length + (1 + 2 * min fmt.bytes_per_word.toNat (buf.length - word)) := by
    have hblank : (text " ").length = 1 := rfl
    rw [List.length_append, List.length_append, length_words_text, hdump, hblank]
    omega
  have hhex := List.prefix_of_prefix_length_le (htext.trans (List.prefix_append words _))
    (heq ▸ List.prefix_append hex _) (by rw [hlength]; omega)
  have hcount := (hhex.filter (· ≠ chr ' ')).length_le
  have hblank : (text " ").filter (· ≠ chr ' ') = [] := by decide
  rw [hfilter, List.filter_append, List.filter_append, filter_words_text, hblank, filter_dump_text,
    List.nil_append, List.length_append, hdump, length_dump_text, length_dump_text, hbytes,
    List.length_take, List.length_drop] at hcount
  omega

/-- No dump is what it is to be where the bytes of a line do not fit into a `size_t`. -/
theorem not_ok_of_wrapped (hlen : buf.length < 2 ^ 32) (hword : 0 < fmt.bytes_per_word.toNat)
    (hwords : 0 < fmt.words_per_line.toNat) (hbytes : 2 ^ 32 ≤ line_bytes fmt)
    (hpos : 0 < buf.length) : ¬ HexdumpOk fmt buf := by
  rintro ⟨hterm, n₀, text', hup, hrec⟩
  have hnat := toNat_ofNat_of_lt hlen
  have hbpl : (fmt.bytes_per_word * fmt.words_per_line).toNat = line_bytes fmt % 2 ^ 32 :=
    BitVec.toNat_mul _ _
  obtain ⟨n₁, hruns⟩ := hterm Unit (some full) ()
  obtain ⟨passes, hpasses, result, hrun⟩ := large_passes hruns
  obtain ⟨n, rfl⟩ : ∃ n, passes = n + 1 := ⟨passes - 1, by omega⟩
  rcases Nat.eq_zero_or_pos (line_bytes fmt % 2 ^ 32) with hzero | hbpl'
  · have hin : BitVec.ofNat 32 0 < BitVec.ofNat 32 buf.length := by
      rw [BitVec.lt_def, hnat]
      exact hpos
    have hstuck : ∃ e, lines_loop full fmt buf (BitVec.ofNat 32 buf.length) (n + 1) (n + 1) 0 0 () =
        .error e := lines_loop_stuck full _ _ 0 0 () (BitVec.eq_of_toNat_eq (hbpl.trans hzero)) hin
    obtain ⟨e, he⟩ := hstuck
    cases he.symm.trans hrun
  obtain ⟨j, hend, hbegun⟩ := exists_words hword (line_bytes fmt % 2 ^ 32)
  have hmul : fmt.words_per_line.toNat * fmt.bytes_per_word.toNat = line_bytes fmt := Nat.mul_comm _ _
  have hjle : j ≤ fmt.words_per_line.toNat := by
    by_contra hgt
    have hlt := hbegun _ (Nat.lt_of_not_le hgt)
    rw [hmul] at hlt
    exact absurd (Nat.mod_le (line_bytes fmt) (2 ^ 32)) (Nat.not_le_of_lt hlt)
  by_cases hfill : ∃ i < j, buf.length < i * fmt.bytes_per_word.toNat
  · obtain ⟨i, hi, hlt⟩ := hfill
    obtain ⟨e, he⟩ := wrapped_filled hlen hword hwords hpos (by rw [hbpl]; exact hbegun i hi) hlt
      (by omega : i ≤ n)
    cases he.symm.trans hrun
  have hinside : ∀ i < j, i * fmt.bytes_per_word.toNat <
      (fmt.bytes_per_word * fmt.words_per_line).toNat ∧
      0 + i * fmt.bytes_per_word.toNat ≤ buf.length := by
    intro i hi
    rw [hbpl, Nat.zero_add]
    exact ⟨hbegun i hi, Nat.le_of_not_lt fun hlt => hfill ⟨i, hi, hlt⟩⟩
  -- the only line of the dump
  have hcount : line_count fmt buf = 0 + 1 := by
    rw [line_count]
    exact Nat.div_eq_of_lt_le (by omega) (by omega)
  obtain ⟨passes, hpasses, count, hrun⟩ := large_passes hrec
  obtain ⟨n, rfl⟩ : ∃ n, passes = n + 1 := ⟨passes - 1, by omega⟩
  have hstart : lines_loop recorder fmt buf (BitVec.ofNat 32 buf.length) (n + 1) (n + 1)
      (BitVec.ofNat 32 (0 * line_bytes fmt)) 0 ((List.range 0).flatMap (full_line fmt buf)) =
        .ok (count, text') := by
    rw [Nat.zero_mul]
    exact hrun
  obtain ⟨words, more, hex, s, k, t, bw', hwords', hrest, heq, hlength, hfilter⟩ := early_line hnat
    (by omega) hcount (fun k hk => by omega) hup (by rw [hbpl]; omega) hstart
  rw [Nat.zero_mul] at hwords' heq
  have hbytes' : (bytes_of_line fmt buf 0).length = buf.length := by
    rw [bytes_of_line, List.length_take, List.length_drop]
    omega
  rcases Nat.lt_or_ge (j * fmt.bytes_per_word.toNat) (2 ^ 32) with hwrap | hwrap
  · -- The end of the first line stands where there are to be digits and blanks.
    have hlength' := length_words_run hnat hinside (by rw [hbpl]; exact hend) hwrap
      (by omega : j < n + 1) hwords'
    have hshort := newline_not_in_hex heq hfilter
    rw [hlength, hlength', length_glyphs_text, hbpl] at hshort
    omega
  · obtain ⟨word, hword', htext⟩ := wrapped_words hnat hinside hwrap (by omega) hwords'
    have htwo : 1 < j := by
      by_contra hle
      have hle' : j * fmt.bytes_per_word.toNat ≤ 1 * fmt.bytes_per_word.toNat :=
        Nat.mul_le_mul_right _ (Nat.le_of_not_lt hle)
      omega
    have hone := hbegun 1 htwo
    have hprev : word < buf.length := by
      have hlast := (hinside (j - 1) (by omega)).2
      have hj : j * fmt.bytes_per_word.toNat =
          (j - 1) * fmt.bytes_per_word.toNat + fmt.bytes_per_word.toNat := by
        rw [← Nat.succ_mul, Nat.succ_eq_add_one, Nat.sub_add_cancel (by omega)]
      omega
    exact wrapped_twice hword (by omega) hprev htext heq (by rw [hlength]; omega) hfilter hbytes'

end wrapped

/-- The bounded form ends, if the dump is what it is to be. -/
theorem snhexdump_ends (h : HexdumpOk fmt buf) (mem : Mem) (out : ℕ) (out_len : u32) :
    ∃ n₀, ∀ passes ≥ n₀, ∃ r,
      base_snhexdump_with passes mem out out_len fmt buf (BitVec.ofNat 32 buf.length) = .ok r := by
  obtain ⟨n₀, hruns⟩ := h.1 _ (some snprintf_sink) ⟨mem, out, out_len.toNat⟩
  refine ⟨n₀, fun passes hpasses => ?_⟩
  obtain ⟨⟨n, data⟩, hrun⟩ := hruns passes hpasses
  refine ⟨(n, data.mem), ?_⟩
  rw [base_snhexdump_with, hrun]
  rfl

/-- A dump is what it is to be exactly if it has full lines only. -/
theorem hexdump_ok_iff (hlen : buf.length < 2 ^ 32) (hword : 0 < fmt.bytes_per_word)
    (hwords : 0 < fmt.words_per_line) :
    HexdumpOk fmt buf ↔ fmt.bytes_per_word.toNat * fmt.words_per_line.toNat ∣ buf.length := by
  have hword' : 0 < fmt.bytes_per_word.toNat := hword
  have hwords' : 0 < fmt.words_per_line.toNat := hwords
  constructor
  · intro hok
    by_contra hdvd
    rcases Nat.lt_or_ge (line_bytes fmt) (2 ^ 32) with hbytes | hbytes
    · exact not_ok_of_partial hlen hword' hwords' hbytes hdvd hok
    · refine not_ok_of_wrapped hlen hword' hwords' hbytes (Nat.pos_of_ne_zero ?_) hok
      intro hzero
      exact hdvd (hzero ▸ Nat.dvd_zero _)
  · exact hexdumpOk_of_dvd hlen (Nat.mul_pos hword' hwords')

theorem hexdump_ok_iff_one_line :
    HexdumpOk kBaseHexdumpDefaultFmt (List.replicate 16 0) ∧
      ¬HexdumpOk kBaseHexdumpDefaultFmt (List.replicate 17 0) :=
  ⟨(hexdump_ok_iff (by decide) (by decide) (by decide)).mpr (by decide),
    (hexdump_ok_iff (by decide) (by decide) (by decide)).not.mpr (by decide)⟩

/-- One byte: with a sink that is full, the loop that fills the line up does not end. -/
theorem one_byte_not_ok : ¬ HexdumpOk kBaseHexdumpDefaultFmt [0x41] :=
  not_ok_of_partial (by decide) (by decide) (by decide) (by decide) (by decide)

end IbexFirmware.Hexdump
