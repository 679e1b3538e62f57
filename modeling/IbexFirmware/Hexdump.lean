/-
Hexdumps (`base_fhexdump_with`).

A line is the address, the bytes in hex, and the bytes as characters. Where the bytes of the last
line end early, a loop is to fill the line up with blanks: it counts what the sink takes, so that
it does not end with a sink that is full, and it is not reached where the line ends in its last
word. `hexdump_ok_iff` says that a dump is what it should be exactly if no line ends early.
-/
import IbexFirmware.PrintFormat

set_option autoImplicit false

namespace IbexFirmware.Hexdump

open Bytes Sinks Json Print

variable {σ : Type}

/-- `base_hexdump_fmt_t`. -/
structure HexdumpFmt where
  bytes_per_word : u32
  words_per_line : u32
  alphabet : u8 → u8

def kBaseHexdumpDefaultFmtAlphabet : List u8 :=
  List.replicate 32 (chr '.') ++
    text (" !\"#$%&'()*+,-./0123456789:;<=>?@ABCDEFGHIJKLMNOPQRSTUVWXYZ[\\]^_`abcdefghijklmnopq" ++
      "rstuvwxyz\x7b|\x7d~") ++
    List.replicate 129 (chr '.')

def kBaseHexdumpDefaultFmt : HexdumpFmt where
  bytes_per_word := 2
  words_per_line := 8
  alphabet := fun b => kBaseHexdumpDefaultFmtAlphabet.getD b.toNat 0

def spaces : List u8 := List.replicate 16 (chr ' ')

section loops

variable (out : SinkFunc σ) (fmt : HexdumpFmt) (buf : List u8) (len : u32)

/-- The loop that fills a line up. -/
def fill_loop (chars_per_line : u32) : (passes : ℕ) → (line_bytes_written : u32) →
    Printing σ u32
  | 0, _ => throw .diverge
  | passes + 1, line_bytes_written =>
      if line_bytes_written < chars_per_line then do
        let to_print := chars_per_line - line_bytes_written
        let to_print := if to_print > 16 then 16 else to_print
        let n ← base_fprintf (some out) (text "%!s" ++ [0]) [.word to_print, .pointer spaces]
        fill_loop chars_per_line passes (line_bytes_written + n)
      else return line_bytes_written

/-- The bytes of a word. -/
def bytes_left (line word : u32) : u32 :=
  let bytes_left := len - line - word
  if bytes_left > fmt.bytes_per_word then fmt.bytes_per_word else bytes_left

/-- The loop over the words of a line. A line that is filled up is at its end. -/
def words_loop (passes : ℕ) (line bytes_per_line chars_per_line : u32) :
    ℕ → (word line_bytes_written : u32) → Printing σ u32
  | 0, _, _ => throw .diverge
  | n + 1, word, line_bytes_written =>
      if word < bytes_per_line then
        if len < line + word then fill_loop out chars_per_line passes line_bytes_written
        else do
          let bytes_left := bytes_left fmt len line word
          let k ← base_fprintf (some out) (text " " ++ [0]) []
          let m ← hex_dump out (buf.drop (line.toNat + word.toNat)) bytes_left bytes_left (chr '0')
            false kDigitsLow
          words_loop passes line bytes_per_line chars_per_line n (word + fmt.bytes_per_word)
            (line_bytes_written + k + m)
      else return line_bytes_written

/-- What is in `glyph_buffer`. -/
def flush (glyph_buffer : List u8) : Printing σ u32 :=
  base_fprintf (some out) (text "%!s" ++ [0])
    [.word (BitVec.ofNat 32 glyph_buffer.length), .pointer glyph_buffer]

/-- A full buffer is printed. -/
def flush_full (glyph_buffer : List u8) : Printing σ (u32 × List u8) :=
  if glyph_buffer.length = 16 then do
    let k ← flush out glyph_buffer
    return (k, [])
  else return (0, glyph_buffer)

/-- The loop over the characters of a line: the bytes written, and what is still buffered. -/
def glyphs_loop (line bytes_per_line : u32) :
    ℕ → (byte : u32) → (glyph_buffer : List u8) → Printing σ (u32 × List u8)
  | 0, _, _ => throw .diverge
  | n + 1, byte, glyph_buffer =>
      if byte < bytes_per_line then do
        let (k, glyph_buffer) ← flush_full out glyph_buffer
        if line + byte ≥ len then return (k, glyph_buffer)
        else
          let b ← read buf (line + byte).toNat
          let (m, glyph_buffer) ← glyphs_loop line bytes_per_line n (byte + 1)
            (glyph_buffer ++ [fmt.alphabet b])
          return (k + m, glyph_buffer)
      else return (0, glyph_buffer)

/-- The characters of a line. -/
def write_glyphs (passes : ℕ) (line bytes_per_line : u32) : Printing σ u32 := do
  let (n, glyph_buffer) ← glyphs_loop out fmt buf len line bytes_per_line passes 0 []
  if glyph_buffer ≠ [] then
    let m ← flush out glyph_buffer
    return n + m
  else return n

/-- One line. -/
def write_line (passes : ℕ) (line : u32) : Printing σ u32 :=
  let bytes_per_line := fmt.bytes_per_word * fmt.words_per_line
  let chars_per_line := bytes_per_line * 2 + fmt.words_per_line
  in_turn
    [base_fprintf (some out) (text "%08x:" ++ [0]) [.word line],
      words_loop out fmt buf len passes line bytes_per_line chars_per_line passes 0 0,
      base_fprintf (some out) (text "  " ++ [0]) [],
      write_glyphs out fmt buf len passes line bytes_per_line,
      base_fprintf (some out) (text "\n" ++ [0]) []]

def lines_loop (passes : ℕ) : ℕ → (line bytes_written : u32) → Printing σ u32
  | 0, _, _ => throw .diverge
  | n + 1, line, bytes_written =>
      if line < len then do
        let k ← write_line out fmt buf len passes line
        lines_loop passes n (line + fmt.bytes_per_word * fmt.words_per_line) (bytes_written + k)
      else return bytes_written

end loops

/-- No loop makes more passes than `passes`. -/
def base_fhexdump_with (passes : ℕ) (out : Option (SinkFunc σ)) (fmt : HexdumpFmt) (buf : List u8)
    (len : u32) : Printing σ u32 :=
  lines_loop (out.getD base_dev_null) fmt buf len passes passes 0 0

/-- The bytes written, and the memory behind. -/
def base_snhexdump_with (passes : ℕ) (mem : Mem) (out : ℕ) (out_len : u32) (fmt : HexdumpFmt)
    (buf : List u8) (len : u32) : Except Fault (u32 × Mem) := do
  let (n, data) ← base_fhexdump_with passes (some snprintf_sink) fmt buf len
    ⟨mem, out, out_len.toNat⟩
  return (n, data.mem)

/-! ## The calls of `base_fprintf` -/

theorem hands_address (line : u32) :
    Hands (fun _ out => base_fprintf (some out) (text "%08x:" ++ [0]) [.word line])
      [digits_text line 8 (chr '0') 16 kDigitsLow, text ":"] := by
  have hdigits : Hands (fun _ out => write_digits out line 8 (chr '0') 16 kDigitsLow)
      [digits_text line 8 (chr '0') 16 kDigitsLow] :=
    hands_digits (by decide) (by decide) line 8 (chr '0')
  have hread : read_specifier (text "08x:") =
      some (⟨kUnsignedHexLow, 8, chr '0', false⟩, text ":") := by decide
  exact fprintf_specifier (by decide) hread (by decide)
    (hands_word (p := fun v _ out => write_digits out v 8 (chr '0') 16 kDigitsLow) hdigits [])

theorem hands_buffer {len : u32} {object : List u8} (h : len.toNat ≤ object.length) :
    Hands (fun _ out => base_fprintf (some out) (text "%!s" ++ [0]) [.word len, .pointer object])
      [object.take len.toNat] := by
  have hread : read_specifier (text "!s") = some (⟨kString, 0, 0, true⟩, []) := by decide
  exact fprintf_specifier (by decide) hread (by decide) (hands_counted h)

theorem hands_blank : Hands (fun _ out => base_fprintf (some out) (text " " ++ [0]) []) [text " "] :=
  fprintf_text (by decide) []

theorem hands_blanks :
    Hands (fun _ out => base_fprintf (some out) (text "  " ++ [0]) []) [text "  "] :=
  fprintf_text (by decide) []

theorem hands_newline :
    Hands (fun _ out => base_fprintf (some out) (text "\n" ++ [0]) []) [text "\n"] :=
  fprintf_text (by decide) []

theorem hands_flush {glyph_buffer : List u8} (h : glyph_buffer.length ≤ 16) :
    Hands (fun _ out => flush out glyph_buffer) [glyph_buffer] := by
  have hlen : (BitVec.ofNat 32 glyph_buffer.length).toNat = glyph_buffer.length := by
    rw [BitVec.toNat_ofNat]
    omega
  have hbuffer := hands_buffer (le_of_eq hlen)
  rwa [hlen, List.take_length] at hbuffer

/-! ## The parts of a line -/

/-- The `i`-th word of the line at `line`, with the blank before it. -/
def word_text (fmt : HexdumpFmt) (buf : List u8) (line i : ℕ) : List u8 :=
  chr ' ' :: dump_text false kDigitsLow
    ((buf.drop (line + i * fmt.bytes_per_word.toNat)).take fmt.bytes_per_word.toNat)

def words_text (fmt : HexdumpFmt) (buf : List u8) (line j : ℕ) : List u8 :=
  (List.range j).flatMap (word_text fmt buf line)

section parts

variable (fmt : HexdumpFmt) {buf : List u8} {len : u32}

theorem toNat_ofNat_of_lt {n : ℕ} (h : n < 2 ^ 32) : (BitVec.ofNat 32 n).toNat = n := by
  rw [BitVec.toNat_ofNat, Nat.mod_eq_of_lt h]

theorem toNat_bytes_left (hlen : len.toNat = buf.length) {line word : ℕ}
    (h : line + word ≤ buf.length) :
    (bytes_left fmt len (BitVec.ofNat 32 line) (BitVec.ofNat 32 word)).toNat =
      min fmt.bytes_per_word.toNat (buf.length - (line + word)) := by
  have hleft : (len - BitVec.ofNat 32 line - BitVec.ofNat 32 word).toNat =
      buf.length - (line + word) := by
    rw [BitVec.toNat_sub, BitVec.toNat_sub, toNat_ofNat_of_lt (by omega),
      toNat_ofNat_of_lt (by omega)]
    omega
  rw [bytes_left]
  split
  · next h => rw [gt_iff_lt, BitVec.lt_def, hleft] at h; omega
  · next h => rw [gt_iff_lt, BitVec.lt_def, hleft] at h; omega

/-- One word, where the line does not end before it. -/
theorem word_hands (hlen : len.toNat = buf.length) {line word : ℕ} (h : line + word ≤ buf.length) :
    ∃ cs : List (List u8),
      cs.flatten = dump_text false kDigitsLow ((buf.drop (line + word)).take
        fmt.bytes_per_word.toNat) ∧
      Hands (fun _ out => hex_dump out (buf.drop (line + word))
        (bytes_left fmt len (BitVec.ofNat 32 line) (BitVec.ofNat 32 word))
        (bytes_left fmt len (BitVec.ofNat 32 line) (BitVec.ofNat 32 word)) (chr '0') false
        kDigitsLow) cs := by
  have hleft := toNat_bytes_left fmt hlen h
  have hlow : 16 ≤ kDigitsLow.length := by decide
  have hle : (bytes_left fmt len (BitVec.ofNat 32 line) (BitVec.ofNat 32 word)).toNat ≤
      (buf.drop (line + word)).length := by
    rw [hleft, List.length_drop]
    omega
  obtain ⟨cs, hcs, hhands⟩ := hands_dump hlow _
    (bytes_left fmt len (BitVec.ofNat 32 line) (BitVec.ofNat 32 word)) (chr '0') false hle
  refine ⟨cs, ?_, hhands⟩
  rw [hcs, hleft, Nat.sub_self, List.replicate_zero, List.nil_append, ← List.length_drop,
    ← List.take_take, List.take_length]

/-- The first `j` words of a line, where none begins behind the end. -/
theorem words_run (hlen : len.toNat = buf.length) (bytes_per_line chars_per_line : u32)
    {line : ℕ} (j : ℕ) (h : ∀ i < j, i * fmt.bytes_per_word.toNat < bytes_per_line.toNat ∧
      line + i * fmt.bytes_per_word.toNat ≤ buf.length) :
    ∃ cs : List (List u8), cs.flatten = words_text fmt buf line j ∧
      ∀ (σ : Type) (out : SinkFunc σ) (s : σ) (passes n : ℕ) (lbw : u32),
        words_loop out fmt buf len passes (BitVec.ofNat 32 line) bytes_per_line chars_per_line
            (j + n) 0 lbw s =
          words_loop out fmt buf len passes (BitVec.ofNat 32 line) bytes_per_line chars_per_line n
            (BitVec.ofNat 32 (j * fmt.bytes_per_word.toNat)) (lbw + (deliver out cs s).1)
            (deliver out cs s).2 := by
  induction j with
  | zero =>
      refine ⟨[], rfl, fun σ out s passes n lbw => ?_⟩
      rw [Nat.zero_add, Nat.zero_mul, deliver_nil]
      exact congrArg (fun x => words_loop out fmt buf len passes _ bytes_per_line chars_per_line n
        0 x s) (BitVec.add_zero lbw).symm
  | succ j ih =>
      obtain ⟨cs, hcs, hrun⟩ := ih fun i hi => h i (by omega)
      obtain ⟨hlt, hle⟩ := h j (by omega)
      obtain ⟨ds, hds, hdump⟩ := word_hands fmt hlen hle
      refine ⟨cs ++ ([text " "] ++ ds), ?_, fun σ out s passes n lbw => ?_⟩
      · rw [List.flatten_append, hcs, List.flatten_append, hds, words_text, words_text,
          List.range_succ, List.flatMap_append]
        simp [word_text, text]
      · have hlt' := len.isLt
        have hline : (BitVec.ofNat 32 line).toNat = line := toNat_ofNat_of_lt (by omega)
        have hword : (BitVec.ofNat 32 (j * fmt.bytes_per_word.toNat)).toNat =
            j * fmt.bytes_per_word.toNat := toNat_ofNat_of_lt (by omega)
        have hin : BitVec.ofNat 32 (j * fmt.bytes_per_word.toNat) < bytes_per_line := by
          rw [BitVec.lt_def, hword]
          exact hlt
        have hend : ¬ len < BitVec.ofNat 32 line +
            BitVec.ofNat 32 (j * fmt.bytes_per_word.toNat) := by
          rw [BitVec.lt_def, BitVec.toNat_add, hline, hword]
          omega
        have hsum : ∀ a b c d : u32, a + b + c + d = a + (b + (c + d)) := by
          intro a b c d
          rw [BitVec.add_assoc, BitVec.add_assoc]
        have hnext : BitVec.ofNat 32 (j * fmt.bytes_per_word.toNat) + fmt.bytes_per_word =
            BitVec.ofNat 32 ((j + 1) * fmt.bytes_per_word.toNat) := by
          apply BitVec.eq_of_toNat_eq
          rw [BitVec.toNat_add, BitVec.toNat_ofNat, BitVec.toNat_ofNat, Nat.add_mul, Nat.one_mul]
          omega
        have hblank (s : σ) : base_fprintf (some out) (text " " ++ [0]) [] s = .ok (out s (text " ")) :=
          (hands_blank σ out s).trans (congrArg Except.ok (deliver_singleton out (text " ") s))
        rw [Nat.add_assoc, Nat.add_comm 1 n, hrun, words_loop, if_pos hin, if_neg hend,
          bind_ok (hblank _), hline, hword, bind_ok (hdump σ out _), hnext,
          deliver_append, deliver_append, deliver_singleton]
        exact congrArg (fun n => words_loop out fmt buf len passes _ _ _ _ _ n _) (hsum _ _ _ _)

/-- The words of a line of `j` words. -/
theorem words_hands (hlen : len.toNat = buf.length) (bytes_per_line chars_per_line : u32)
    {line j : ℕ}
    (h : ∀ i < j, i * fmt.bytes_per_word.toNat < bytes_per_line.toNat ∧
      line + i * fmt.bytes_per_word.toNat ≤ buf.length)
    (hend : bytes_per_line.toNat ≤ j * fmt.bytes_per_word.toNat)
    (hwrap : j * fmt.bytes_per_word.toNat < 2 ^ 32) :
    ∃ cs : List (List u8), cs.flatten = words_text fmt buf line j ∧ ∀ passes, j < passes →
      Hands (fun _ out => words_loop out fmt buf len passes (BitVec.ofNat 32 line) bytes_per_line
        chars_per_line passes 0 0) cs := by
  obtain ⟨cs, hcs, hrun⟩ := words_run fmt hlen bytes_per_line chars_per_line j h
  refine ⟨cs, hcs, fun passes hpasses σ out s => ?_⟩
  obtain ⟨n, rfl⟩ : ∃ n, passes = j + (n + 1) := ⟨passes - j - 1, by omega⟩
  have hstop : ¬ BitVec.ofNat 32 (j * fmt.bytes_per_word.toNat) < bytes_per_line := by
    rw [BitVec.lt_def, toNat_ofNat_of_lt hwrap]
    omega
  refine (hrun σ out s (j + (n + 1)) (n + 1) 0).trans ?_
  rw [words_loop, if_neg hstop]
  exact congrArg (fun n => Except.ok (n, (deliver out cs s).2)) (BitVec.zero_add _)

/-! ### The characters -/

/-- The bytes of the line at `line`, as characters. -/
def glyphs_text (fmt : HexdumpFmt) (buf : List u8) (line bytes_per_line : ℕ) : List u8 :=
  ((buf.drop line).take bytes_per_line).map fmt.alphabet

theorem flush_full_hands {g : List u8} (h : g.length ≤ 16) :
    ∃ (cs : List (List u8)) (g' : List u8), cs.flatten ++ g' = g ∧ g'.length < 16 ∧
      ∀ (σ : Type) (out : SinkFunc σ) (s : σ),
        flush_full out g s = .ok (((deliver out cs s).1, g'), (deliver out cs s).2) := by
  by_cases hfull : g.length = 16
  · refine ⟨[g], [], by simp, by simp, fun σ out s => ?_⟩
    rw [flush_full, if_pos hfull, bind_ok (hands_flush h σ out s)]
    rfl
  · refine ⟨[], g, rfl, by omega, fun σ out s => ?_⟩
    rw [flush_full, if_neg hfull]
    rfl

/-- The invariant of the loop: what is buffered and the `k` bytes left are still to come. -/
theorem glyphs_run (hlen : len.toNat = buf.length) {line : ℕ} (hline : line ≤ buf.length)
    (bytes_per_line : u32) (k byte : ℕ) (g : List u8) (hg : g.length ≤ 16)
    (hk : byte + k = min bytes_per_line.toNat (buf.length - line)) :
    ∃ (cs : List (List u8)) (g' : List u8), g'.length ≤ 16 ∧
      cs.flatten ++ g' = g ++ ((buf.drop (line + byte)).take k).map fmt.alphabet ∧
      ∀ (σ : Type) (out : SinkFunc σ) (s : σ) (n : ℕ), k < n →
        glyphs_loop out fmt buf len (BitVec.ofNat 32 line) bytes_per_line n (BitVec.ofNat 32 byte) g s
          = .ok (((deliver out cs s).1, g'), (deliver out cs s).2) := by
  induction k generalizing byte g with
  | zero =>
      obtain ⟨cs, g', hcs, hg', hflush⟩ := flush_full_hands hg
      have hbyte : (BitVec.ofNat 32 byte).toNat = byte := toNat_ofNat_of_lt (by omega)
      by_cases hin : BitVec.ofNat 32 byte < bytes_per_line
      · -- The dump ends before the line does.
        have hlast : BitVec.ofNat 32 line + BitVec.ofNat 32 byte ≥ len := by
          rw [BitVec.lt_def, hbyte] at hin
          rw [ge_iff_le, BitVec.le_def, BitVec.toNat_add, toNat_ofNat_of_lt (by omega), hbyte]
          omega
        refine ⟨cs, g', by omega, by simpa using hcs, fun σ out s n hn => ?_⟩
        obtain ⟨n, rfl⟩ : ∃ m, n = m + 1 := ⟨n - 1, by omega⟩
        rw [glyphs_loop, if_pos hin, bind_ok (hflush σ out s)]
        dsimp only
        rw [if_pos hlast]
        rfl
      · refine ⟨[], g, hg, by simp, fun σ out s n hn => ?_⟩
        obtain ⟨n, rfl⟩ : ∃ m, n = m + 1 := ⟨n - 1, by omega⟩
        rw [glyphs_loop, if_neg hin]
        rfl
  | succ k ih =>
      obtain ⟨cs, g', hcs, hg', hflush⟩ := flush_full_hands hg
      have hbyte : (BitVec.ofNat 32 byte).toNat = byte := toNat_ofNat_of_lt (by omega)
      have hsum : (BitVec.ofNat 32 line + BitVec.ofNat 32 byte).toNat = line + byte := by
        rw [BitVec.toNat_add, toNat_ofNat_of_lt (by omega), hbyte, Nat.mod_eq_of_lt (by omega)]
      have hin : BitVec.ofNat 32 byte < bytes_per_line := by
        rw [BitVec.lt_def, hbyte]
        omega
      have hmore : ¬ BitVec.ofNat 32 line + BitVec.ofNat 32 byte ≥ len := by
        rw [ge_iff_le, BitVec.le_def, hsum]
        omega
      have hidx : line + byte < buf.length := by omega
      have hread : read buf (BitVec.ofNat 32 line + BitVec.ofNat 32 byte).toNat =
          .ok (buf.getD (line + byte) 0) := by
        rw [hsum, read_eq hidx]
      have hnext : BitVec.ofNat 32 byte + 1 = BitVec.ofNat 32 (byte + 1) :=
        (BitVec.ofNat_add byte 1).symm
      obtain ⟨ds, g'', hg'', hds, hrun⟩ := ih (byte + 1)
        (g' ++ [fmt.alphabet (buf.getD (line + byte) 0)]) (by simp; omega) (by omega)
      refine ⟨cs ++ ds, g'', hg'', ?_, fun σ out s n hn => ?_⟩
      · rw [List.flatten_append, List.append_assoc, hds, List.drop_eq_getElem_cons hidx,
          List.take_succ_cons, List.map_cons, ← hcs, List.getD_eq_getElem _ _ hidx]
        simp [Nat.add_assoc]
      · obtain ⟨n, rfl⟩ : ∃ m, n = m + 1 := ⟨n - 1, by omega⟩
        rw [glyphs_loop, if_pos hin, bind_ok (hflush σ out s)]
        dsimp only
        rw [if_neg hmore, bind_ok (lift_ok hread _), hnext, bind_ok (hrun σ out _ n (by omega)),
          deliver_append]
        rfl

/-- The characters go out in bufferfuls, and what is left in the buffer behind them. -/
theorem write_glyphs_hands (hlen : len.toNat = buf.length) {line : ℕ} (hline : line ≤ buf.length)
    (bytes_per_line : u32) :
    ∃ cs : List (List u8), cs.flatten = glyphs_text fmt buf line bytes_per_line.toNat ∧
      ∀ passes, bytes_per_line.toNat < passes →
        Hands (fun _ out => write_glyphs out fmt buf len passes (BitVec.ofNat 32 line)
          bytes_per_line) cs := by
  obtain ⟨cs, g, hg, hcs, hrun⟩ := glyphs_run fmt hlen hline bytes_per_line
    (min bytes_per_line.toNat (buf.length - line)) 0 [] (by simp) (Nat.zero_add _)
  have htext : cs.flatten ++ g = glyphs_text fmt buf line bytes_per_line.toNat := by
    rw [hcs, List.nil_append, Nat.add_zero, glyphs_text, ← List.length_drop, ← List.take_take,
      List.take_length]
  have hrun' {σ : Type} (out : SinkFunc σ) (s : σ) {passes : ℕ}
      (hpasses : bytes_per_line.toNat < passes) :
      glyphs_loop out fmt buf len (BitVec.ofNat 32 line) bytes_per_line passes 0 [] s =
        .ok (((deliver out cs s).1, g), (deliver out cs s).2) := hrun σ out s passes (by omega)
  by_cases hempty : g = []
  · subst hempty
    refine ⟨cs, by simpa using htext, fun passes hpasses σ out s => ?_⟩
    show write_glyphs out fmt buf len passes (BitVec.ofNat 32 line) bytes_per_line s = _
    rw [write_glyphs, bind_ok (hrun' out s hpasses)]
    rfl
  · refine ⟨cs ++ [g], by simpa using htext, fun passes hpasses σ out s => ?_⟩
    show write_glyphs out fmt buf len passes (BitVec.ofNat 32 line) bytes_per_line s = _
    rw [write_glyphs, bind_ok (hrun' out s hpasses), deliver_append]
    dsimp only
    rw [if_pos hempty, bind_ok (hands_flush hg σ out _)]
    rfl

/-! ### The whole line -/

def address_text (line : ℕ) : List u8 :=
  digits_text (BitVec.ofNat 32 line) 8 (chr '0') 16 kDigitsLow ++ text ":"

/-- A line of `j` words and as many characters as `bytes_per_line`, if there are so many bytes. -/
def line_text (fmt : HexdumpFmt) (buf : List u8) (bytes_per_line j line : ℕ) : List u8 :=
  address_text line ++ (words_text fmt buf line j ++
    (text "  " ++ (glyphs_text fmt buf line bytes_per_line ++ text "\n")))

/-- A line that is not filled up. -/
theorem write_line_hands (hlen : len.toNat = buf.length) {line j : ℕ} (hline : line ≤ buf.length)
    (h : ∀ i < j, i * fmt.bytes_per_word.toNat <
        (fmt.bytes_per_word * fmt.words_per_line).toNat ∧
      line + i * fmt.bytes_per_word.toNat ≤ buf.length)
    (hend : (fmt.bytes_per_word * fmt.words_per_line).toNat ≤ j * fmt.bytes_per_word.toNat)
    (hwrap : j * fmt.bytes_per_word.toNat < 2 ^ 32) :
    ∃ cs : List (List u8),
      cs.flatten = line_text fmt buf (fmt.bytes_per_word * fmt.words_per_line).toNat j line ∧
      ∀ passes, j < passes → (fmt.bytes_per_word * fmt.words_per_line).toNat < passes →
        Hands (fun _ out => write_line out fmt buf len passes (BitVec.ofNat 32 line)) cs := by
  obtain ⟨ws, hws, hwords⟩ := words_hands fmt hlen (fmt.bytes_per_word * fmt.words_per_line)
    (fmt.bytes_per_word * fmt.words_per_line * 2 + fmt.words_per_line) h hend hwrap
  obtain ⟨gs, hgs, hglyphs⟩ := write_glyphs_hands fmt hlen hline
    (fmt.bytes_per_word * fmt.words_per_line)
  refine ⟨_, ?_, fun passes hj hpasses =>
    hands_in_turn_cons (hands_address _) (hands_in_turn_cons (hwords passes hj)
      (hands_in_turn_cons hands_blanks (hands_in_turn_cons (hglyphs passes hpasses)
        (hands_in_turn_cons hands_newline hands_nothing))))⟩
  rw [line_text, ← hws, ← hgs, address_text]
  simp

end parts

/-! ## Full lines -/

section lines

variable {fmt : HexdumpFmt} {buf : List u8} {len : u32}

/-- The bytes of a line, if they are a `size_t`. -/
def line_bytes (fmt : HexdumpFmt) : ℕ := fmt.bytes_per_word.toNat * fmt.words_per_line.toNat

def full_line (fmt : HexdumpFmt) (buf : List u8) (k : ℕ) : List u8 :=
  line_text fmt buf (line_bytes fmt) fmt.words_per_line.toNat (k * line_bytes fmt)

theorem toNat_bytes_per_line (h : line_bytes fmt < 2 ^ 32) :
    (fmt.bytes_per_word * fmt.words_per_line).toNat = line_bytes fmt := by
  rw [BitVec.toNat_mul, ← line_bytes, Nat.mod_eq_of_lt h]

theorem full_line_hands (hlen : len.toNat = buf.length) (hbytes : line_bytes fmt < 2 ^ 32)
    (hpos : 0 < line_bytes fmt) {k : ℕ} (hk : k * line_bytes fmt + line_bytes fmt ≤ buf.length) :
    ∃ cs : List (List u8), cs.flatten = full_line fmt buf k ∧ ∀ passes, 2 ^ 32 < passes →
      Hands (fun _ out => write_line out fmt buf len passes
        (BitVec.ofNat 32 (k * line_bytes fmt))) cs := by
  have hnat := toNat_bytes_per_line hbytes
  have hword : 0 < fmt.bytes_per_word.toNat := Nat.pos_of_mul_pos_right hpos
  have hmul : fmt.words_per_line.toNat * fmt.bytes_per_word.toNat = line_bytes fmt := Nat.mul_comm _ _
  have hwords : ∀ i < fmt.words_per_line.toNat, i * fmt.bytes_per_word.toNat < line_bytes fmt := by
    intro i hi
    rw [← hmul]
    exact Nat.mul_lt_mul_of_pos_right hi hword
  obtain ⟨cs, hcs, hhands⟩ := write_line_hands fmt hlen (Nat.le_trans (Nat.le_add_right _ _) hk)
    (fun i hi => by
      have hi' := hwords i hi
      exact ⟨by rw [hnat]; exact hi', by omega⟩)
    (by rw [hnat, hmul]) (by rw [hmul]; exact hbytes)
  refine ⟨cs, by rw [hcs, hnat]; rfl, fun passes hpasses => hhands passes ?_ (by omega)⟩
  omega

/-- The loop over the first `k` lines. -/
theorem lines_run (hlen : len.toNat = buf.length) (hbytes : line_bytes fmt < 2 ^ 32)
    (hpos : 0 < line_bytes fmt) (k : ℕ) (hk : k * line_bytes fmt ≤ buf.length) :
    ∃ cs : List (List u8), cs.flatten = (List.range k).flatMap (full_line fmt buf) ∧
      ∀ (σ : Type) (out : SinkFunc σ) (s : σ) (passes n : ℕ) (bytes_written : u32),
        2 ^ 32 < passes →
        lines_loop out fmt buf len passes (k + n) 0 bytes_written s =
          lines_loop out fmt buf len passes n (BitVec.ofNat 32 (k * line_bytes fmt))
            (bytes_written + (deliver out cs s).1) (deliver out cs s).2 := by
  induction k with
  | zero =>
      refine ⟨[], rfl, fun σ out s passes n bytes_written _ => ?_⟩
      rw [Nat.zero_add, Nat.zero_mul, deliver_nil]
      exact congrArg (fun x => lines_loop out fmt buf len passes n 0 x s)
        (BitVec.add_zero bytes_written).symm
  | succ k ih =>
      rw [Nat.add_mul, Nat.one_mul] at hk
      obtain ⟨ds, hds, hline⟩ := full_line_hands hlen hbytes hpos hk
      obtain ⟨cs, hcs, hrun⟩ := ih (by omega)
      refine ⟨cs ++ ds, ?_, fun σ out s passes n bytes_written hpasses => ?_⟩
      · rw [List.flatten_append, hcs, hds, List.range_succ, List.flatMap_append,
          List.flatMap_singleton]
      · have hin : BitVec.ofNat 32 (k * line_bytes fmt) < len := by
          rw [BitVec.lt_def, toNat_ofNat_of_lt (by omega)]
          omega
        have hnext : BitVec.ofNat 32 (k * line_bytes fmt) +
            fmt.bytes_per_word * fmt.words_per_line = BitVec.ofNat 32 ((k + 1) * line_bytes fmt) := by
          apply BitVec.eq_of_toNat_eq
          rw [BitVec.toNat_add, toNat_bytes_per_line hbytes, BitVec.toNat_ofNat, BitVec.toNat_ofNat,
            Nat.add_mul, Nat.one_mul]
          omega
        rw [Nat.add_assoc, Nat.add_comm 1 n, hrun σ out s passes _ _ hpasses, lines_loop, if_pos hin,
          bind_ok (hline passes hpasses σ out _), hnext, deliver_append]
        exact congrArg (fun n => lines_loop out fmt buf len passes _ _ n _)
          (BitVec.add_assoc _ _ _)

end lines

end IbexFirmware.Hexdump
