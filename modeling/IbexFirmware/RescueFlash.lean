/-
What a rescue session does to the flash: nothing outside the rescue region of the bank
that the mode selects, and what has been uploaded is there in the end.

An upload reaches the flash in blocks of 2048 bytes. The frames fill the data buffer,
the first block erases the whole region, and each block is written behind the one
before. `Staged` is the state of an upload in these terms: so many blocks written, the
region behind them erased, the rest of the upload in the buffer. `handle_recv_leaves`
is its step, and everything else that a session does either keeps out of the way
(`Grown`) or starts a new upload. `Uploading` is the invariant of the loop, which adds
what is left of it when the end of an upload has been acknowledged.
-/
import IbexFirmware.Rescue

set_option autoImplicit false

namespace IbexFirmware.Rescue

open Bytes OwnerBlock PowerFail Session Xmodem

/-! ## The region -/

/-- A configuration that `owner_block_rescue_check` has accepted, or none. -/
def Acceptable (config : Option Item) : Prop :=
  ∀ rescue ∈ config,
    owner_block_rescue_check (BitVec.ofNat 32 kFlashPagesPerBank) rescue = .ok ()

/-- The rescue region within a bank. -/
def region_start : Option Item → ℕ
  | none => CHIP_ROM_EXT_SIZE_MAX
  | some rescue => (rescue.u16At 12).toNat * kFlashPageSize

def region_limit : Option Item → ℕ
  | none => kFlashBankSize
  | some rescue => ((rescue.u16At 12).toNat + (rescue.u16At 14).toNat) * kFlashPageSize

/-- The address `a` lies in the region, in the bank of the mode. -/
def InRegion (config : Option Item) (mode : u32) (a : ℕ) : Prop :=
  bank_offset mode + region_start config ≤ a ∧ a < bank_offset mode + region_limit config

theorem rescue_state_init_region (config : Option Item) (state : RescueState) :
    (rescue_state_init config state).flash_start = region_start config ∧
      (rescue_state_init config state).flash_limit = region_limit config := by
  cases config <;> exact ⟨rfl, rfl⟩

/-- The region is made of whole pages, behind the ROM_EXT and within the bank. -/
theorem region_pages {config : Option Item} (h : Acceptable config) :
    ∃ s l, region_start config = s * kFlashPageSize ∧ region_limit config = l * kFlashPageSize ∧
      CHIP_ROM_EXT_SIZE_MAX / kFlashPageSize ≤ s ∧ l ≤ kFlashPagesPerBank := by
  cases config with
  | none => exact ⟨32, 256, rfl, rfl, by decide, by decide⟩
  | some rescue =>
      refine ⟨_, _, rfl, rfl, ?_⟩
      have hcheck := h rescue rfl
      unfold owner_block_rescue_check at hcheck
      dsimp only at hcheck
      split_ifs at hcheck with hlen hbounds
      obtain ⟨hstart, hend⟩ := not_or.mp hbounds
      have hs : ((rescue.u16At 12).setWidth 32).toNat = (rescue.u16At 12).toNat := by
        rw [BitVec.toNat_setWidth]
        exact Nat.mod_eq_of_lt ((rescue.u16At 12).isLt.trans (by decide))
      have hn : ((rescue.u16At 14).setWidth 32).toNat = (rescue.u16At 14).toNat := by
        rw [BitVec.toNat_setWidth]
        exact Nat.mod_eq_of_lt ((rescue.u16At 14).isLt.trans (by decide))
      constructor
      · rw [BitVec.lt_def, hs] at hstart
        exact Nat.not_lt.mp hstart
      · rw [gt_iff_lt, BitVec.lt_def, BitVec.toNat_add, hs, hn, Nat.mod_eq_of_lt (by omega)] at hend
        exact Nat.not_lt.mp hend

/-- An event that keeps to the region, if it is one of the flash. -/
def KeepsRegion (config : Option Item) : Event → Prop
  | .data_erase mode addr =>
      ∀ a, a / kFlashPageSize = addr / kFlashPageSize → InRegion config mode a
  | .data_write mode addr data => ∀ a, addr ≤ a → a < addr + data.length → InRegion config mode a
  | _ => True

/-! ## Growing without an upload -/

/-- The events that an upload consists of, and the reset behind them. -/
def Event.marks : Event → Bool
  | .accepted _ | .upload_started | .eof_acked | .rstmgr_reset => true
  | _ => false

/-- From `w` to `w'` the session keeps to the region, and the upload is where it was. -/
structure Grown (config : Option Item) (w w' : World) : Prop where
  start_eq : w'.state.flash_start = w.state.flash_start
  limit_eq : w'.state.flash_limit = w.state.flash_limit
  mode_eq : w'.state.mode = w.state.mode
  log : ∃ events, w'.log = w.log ++ events ∧
    (∀ event ∈ events, KeepsRegion config event ∧ event.marks = false) ∧
      (events = [] → w'.flash = w.flash)

variable {config : Option Item} {w w' w'' : World}

theorem Grown.refl (config : Option Item) (w : World) : Grown config w w :=
  ⟨rfl, rfl, rfl, [], (List.append_nil _).symm, fun _ h => absurd h List.not_mem_nil, fun _ => rfl⟩

theorem Grown.trans (h : Grown config w w') (h' : Grown config w' w'') : Grown config w w'' := by
  obtain ⟨events, hlog, hevents, hflash⟩ := h.log
  obtain ⟨events', hlog', hevents', hflash'⟩ := h'.log
  refine ⟨h'.start_eq.trans h.start_eq, h'.limit_eq.trans h.limit_eq, h'.mode_eq.trans h.mode_eq,
    events ++ events', ?_, ?_, ?_⟩
  · rw [hlog', hlog, List.append_assoc]
  · exact fun event hmem => (List.mem_append.mp hmem).elim (hevents event) (hevents' event)
  · intro hnil
    obtain ⟨hfirst, hsecond⟩ := List.append_eq_nil_iff.mp hnil
    exact (hflash' hsecond).trans (hflash hfirst)

/-- What touches neither the flash nor the log nor the mode. -/
theorem Grown.of_state (hlog : w'.log = w.log) (hflash : w'.flash = w.flash)
    (hstart : w'.state.flash_start = w.state.flash_start)
    (hlimit : w'.state.flash_limit = w.state.flash_limit)
    (hmode : w'.state.mode = w.state.mode) : Grown config w w' :=
  ⟨hstart, hlimit, hmode, [], by rw [hlog, List.append_nil], fun _ h => absurd h List.not_mem_nil,
    fun _ => hflash⟩

/-- One event, with whatever it does to the flash. -/
theorem Grown.of_event {event : Event} (hlog : w'.log = w.log ++ [event])
    (hregion : KeepsRegion config event) (hmarks : event.marks = false)
    (hstart : w'.state.flash_start = w.state.flash_start)
    (hlimit : w'.state.flash_limit = w.state.flash_limit)
    (hmode : w'.state.mode = w.state.mode) : Grown config w w' := by
  refine ⟨hstart, hlimit, hmode, [event], hlog, fun event' hmem => ?_, nofun⟩
  rw [List.mem_singleton.mp hmem]
  exact ⟨hregion, hmarks⟩

/-! ## Writing a block -/

theorem data_erase_leaves {addr : ℕ} (hregion : KeepsRegion config (.data_erase w.state.mode addr)) :
    Leaves (flash_ctrl_data_erase addr) w
      (fun _ w' => Grown config w w' ∧ w'.state = w.state ∧ w'.flash = erase_page w.flash addr)
      (fun _ => Grown config w) (Grown config w) := by
  apply Leaves.modify_bind
  apply Leaves.step
  · exact ⟨Grown.of_event rfl hregion rfl rfl rfl rfl, rfl, rfl⟩
  · exact Grown.of_event rfl hregion rfl rfl rfl rfl
  · exact Grown.of_event rfl hregion rfl rfl rfl rfl

theorem data_write_leaves {addr : ℕ} {data : List u8}
    (hregion : KeepsRegion config (.data_write w.state.mode addr data)) :
    Leaves (flash_ctrl_data_write addr data) w
      (fun _ w' => Grown config w w' ∧ w'.state = w.state ∧ w'.flash = program w.flash addr data)
      (fun _ => Grown config w) (Grown config w) := by
  apply Leaves.modify_bind
  apply Leaves.step
  · exact ⟨Grown.of_event rfl hregion rfl rfl rfl rfl, rfl, rfl⟩
  · exact Grown.of_event rfl hregion rfl rfl rfl rfl
  · exact Grown.of_event rfl hregion rfl rfl rfl rfl

/-- After a step of growth the rest is judged from there. -/
theorem Leaves.grown {α : Type} {p : Protocol α} {Q : α → World → Prop} (h : Grown config w w')
    (hp : Leaves p w' Q (fun _ => Grown config w') (Grown config w')) :
    Leaves p w' Q (fun _ => Grown config w) (Grown config w) :=
  hp.conseq (fun _ _ hq => hq) (fun _ _ he => h.trans he) fun _ hh => h.trans hh

/-- The erase loop, of which the pages are erased that it goes through. -/
theorem erase_pages_leaves (bank : ℕ) (addrs : List ℕ)
    (hregion : ∀ addr ∈ addrs, KeepsRegion config (.data_erase w.state.mode (bank + addr))) :
    Leaves (erase_pages bank addrs) w
      (fun _ w' => Grown config w w' ∧ w'.state = w.state ∧
        ∀ a, (w.flash a = 0xff ∨
          ∃ addr ∈ addrs, a / kFlashPageSize = (bank + addr) / kFlashPageSize) → w'.flash a = 0xff)
      (fun _ => Grown config w) (Grown config w) := by
  induction addrs generalizing w with
  | nil =>
      apply Leaves.pure
      refine ⟨Grown.refl _ _, rfl, fun a ha => ha.resolve_right ?_⟩
      rintro ⟨_, hmem, -⟩
      exact absurd hmem List.not_mem_nil
  | cons addr addrs ih =>
      refine Leaves.bind (data_erase_leaves (hregion addr List.mem_cons_self)) ?_
      rintro - w1 ⟨hgrown, hstate, hflash⟩
      refine Leaves.grown hgrown ((ih ?_).conseq ?_ (fun _ _ h => h) fun _ h => h)
      · rw [hstate]
        exact fun addr' hmem => hregion addr' (List.mem_cons_of_mem _ hmem)
      · rintro - w2 ⟨hgrown', hstate', hflash'⟩
        refine ⟨hgrown.trans hgrown', hstate'.trans hstate, fun a ha => hflash' a ?_⟩
        rw [hflash]
        unfold erase_page
        by_cases hpage : a / kFlashPageSize = (bank + addr) / kFlashPageSize
        · exact .inl (if_pos hpage)
        · rw [if_neg hpage]
          refine ha.imp_right ?_
          rintro ⟨addr', hmem, heq⟩
          obtain rfl | hmem := List.mem_cons.mp hmem
          · exact absurd heq hpage
          · exact ⟨addr', hmem, heq⟩

/-- Programming erased bytes leaves the data. -/
theorem readBytes_program {flash : Mem} {addr : ℕ} {data : List u8}
    (herased : ∀ a, addr ≤ a → a < addr + data.length → flash a = 0xff) :
    readBytes (program flash addr data) addr data.length = data := by
  apply List.ext_getElem (length_readBytes _ _ _)
  intro i hi hlt
  have hones : ∀ b : u8, 0xff &&& b = b := fun b => BitVec.allOnes_and
  rw [getElem_readBytes, program, if_pos ⟨Nat.le_add_right addr i, by omega⟩,
    herased _ (Nat.le_add_right addr i) (by omega), hones, Nat.add_sub_cancel_left,
    List.getD_eq_getElem?_getD, List.getElem?_eq_getElem hlt, Option.getD_some]

theorem program_of_not_mem {flash : Mem} {addr a : ℕ} {data : List u8}
    (h : a < addr ∨ addr + data.length ≤ a) : program flash addr data a = flash a :=
  if_neg fun hmem => by omega

/-- `k` blocks of an upload are written, namely `bytes`, and the region is erased behind
them. -/
structure Written (config : Option Item) (k : ℕ) (bytes : List u8) (w : World) : Prop where
  offset_eq : w.state.flash_offset = region_start config + k * kDataSize
  within : region_start config + k * kDataSize ≤ region_limit config
  bytes_eq : readBytes w.flash (bank_offset w.state.mode + region_start config) (k * kDataSize) =
    bytes
  erased : ∀ a, bank_offset w.state.mode + region_start config + k * kDataSize ≤ a →
    a < bank_offset w.state.mode + region_limit config → w.flash a = 0xff

/-- The upload is in the flash but for what the buffer holds, or it has not got there. -/
def Flashed (config : Option Item) (k : ℕ) (bytes : List u8) (w : World) : Prop :=
  k = 0 ∧ bytes = [] ∧ w.state.flash_offset = 0 ∨ Written config k bytes w

/-- The state has the region of the configuration. -/
structure Located (config : Option Item) (w : World) : Prop where
  start_eq : w.state.flash_start = region_start config
  limit_eq : w.state.flash_limit = region_limit config

theorem Located.of_grown (h : Located config w) (hgrown : Grown config w w') :
    Located config w' :=
  ⟨hgrown.start_eq.trans h.start_eq, hgrown.limit_eq.trans h.limit_eq⟩

theorem region_start_le (config : Option Item) : region_start config ≤ region_limit config := by
  cases config with
  | none => decide
  | some rescue => exact Nat.mul_le_mul_right _ (Nat.le_add_right _ _)

/-- The pages that the erase loop goes through are those of the region. -/
theorem erase_loop_pages (hconfig : Acceptable config) (mode : u32) :
    (∀ addr ∈ page_addrs (region_start config) (region_limit config),
        KeepsRegion config (.data_erase mode (bank_offset mode + addr))) ∧
      ∀ a, InRegion config mode a →
        ∃ addr ∈ page_addrs (region_start config) (region_limit config),
          a / kFlashPageSize = (bank_offset mode + addr) / kFlashPageSize := by
  obtain ⟨s, l, hs, hl, -, -⟩ := region_pages hconfig
  have hbank : ∃ b, bank_offset mode = b * kFlashPageSize := by
    unfold bank_offset
    split_ifs
    · exact ⟨kFlashPagesPerBank, Nat.mul_comm _ _⟩
    · exact ⟨0, rfl⟩
  obtain ⟨b, hb⟩ := hbank
  unfold page_addrs InRegion
  rw [hs, hl, hb]
  constructor
  · intro addr hmem a ha
    obtain ⟨i, hi, rfl⟩ := List.mem_map.mp hmem
    rw [List.mem_range] at hi
    unfold InRegion
    rw [hs, hl, hb]
    simp only [kFlashPageSize] at hi ha ⊢
    omega
  · intro a ha
    simp only [kFlashPageSize] at ha ⊢
    refine ⟨_, List.mem_map.mpr ⟨a / 2048 - b - s, List.mem_range.mpr (by omega), rfl⟩, by omega⟩

/-- Before the first block the region is erased, and before the others nothing happens. -/
theorem flash_firmware_start_leaves (hconfig : Acceptable config) (hlocated : Located config w)
    {k : ℕ} {bytes : List u8} (h : Flashed config k bytes w) :
    Leaves flash_firmware_start w
      (fun _ w' => Grown config w w' ∧ Written config k bytes w' ∧
        w'.state = { w.state with flash_offset := w'.state.flash_offset })
      (fun _ => Grown config w) (Grown config w) := by
  unfold flash_firmware_start
  apply Leaves.get
  obtain ⟨hpages, hcover⟩ := erase_loop_pages hconfig w.state.mode
  obtain ⟨rfl, rfl, hzero⟩ | hwritten := h
  · rw [if_pos hzero, hlocated.start_eq, hlocated.limit_eq]
    refine Leaves.bind (erase_pages_leaves _ _ hpages) ?_
    rintro - w1 ⟨hgrown, hstate, herased⟩
    apply Leaves.modify
    refine ⟨hgrown.trans (Grown.of_state rfl rfl rfl rfl rfl), ⟨?_, ?_, ?_, ?_⟩, ?_⟩
    · show w1.state.flash_start = _
      rw [hstate, hlocated.start_eq, Nat.zero_mul, Nat.add_zero]
    · rw [Nat.zero_mul, Nat.add_zero]
      exact region_start_le config
    · rw [Nat.zero_mul]
      rfl
    · intro a hlow hhigh
      change bank_offset w1.state.mode + region_start config + 0 * kDataSize ≤ a at hlow
      change a < bank_offset w1.state.mode + region_limit config at hhigh
      rw [hstate, Nat.zero_mul, Nat.add_zero] at hlow
      rw [hstate] at hhigh
      exact herased a (.inr (hcover a ⟨hlow, hhigh⟩))
    · show { w1.state with flash_offset := w1.state.flash_start } =
        { w.state with flash_offset := w1.state.flash_start }
      rw [hstate]
  · obtain ⟨s, l, hs, -, hfirst, -⟩ := region_pages hconfig
    have hpos : w.state.flash_offset ≠ 0 := by
      rw [hwritten.offset_eq, hs]
      simp only [CHIP_ROM_EXT_SIZE_MAX, kFlashPageSize] at hfirst ⊢
      omega
    rw [if_neg hpos]
    exact Leaves.pure ⟨Grown.refl _ _, hwritten, rfl⟩

/-- A block that is still within the region can be written whole. -/
theorem block_within (hconfig : Acceptable config) {k : ℕ}
    (h : region_start config + k * kDataSize < region_limit config) :
    region_start config + (k + 1) * kDataSize ≤ region_limit config := by
  obtain ⟨s, l, hs, hl, -, -⟩ := region_pages hconfig
  rw [hs, hl] at h ⊢
  simp only [kFlashPageSize, kDataSize] at h ⊢
  omega

/-- One more block is written, or the session ends. -/
theorem flash_firmware_block_leaves (hconfig : Acceptable config) (hlocated : Located config w)
    {k : ℕ} {bytes : List u8} (h : Flashed config k bytes w) :
    Leaves flash_firmware_block w
      (fun _ w' => Grown config w w' ∧
        Written config (k + 1) (bytes ++ readBytes w.state.data 0 kDataSize) w' ∧
          w'.state = { w.state with flash_offset := w'.state.flash_offset })
      (fun _ => Grown config w) (Grown config w) := by
  unfold flash_firmware_block
  refine Leaves.bind (flash_firmware_start_leaves hconfig hlocated h) ?_
  rintro - w1 ⟨hgrown, hwritten, hstate⟩
  have hdata : w1.state.data = w.state.data := by rw [hstate]
  have hlimit : w1.state.flash_limit = region_limit config :=
    hgrown.limit_eq.trans hlocated.limit_eq
  apply Leaves.get
  rw [hwritten.offset_eq, hlimit, hdata]
  by_cases hroom : region_start config + k * kDataSize < region_limit config
  · rw [if_pos hroom]
    have hwithin := block_within hconfig hroom
    set chunk := readBytes w.state.data 0 kDataSize with hchunk
    have hlen : chunk.length = kDataSize := length_readBytes _ _ _
    have hnext : (k + 1) * kDataSize = k * kDataSize + chunk.length := by
      rw [hlen, Nat.add_mul, Nat.one_mul]
    set addr := bank_offset w1.state.mode + (region_start config + k * kDataSize) with haddr
    have hregion : KeepsRegion config (.data_write w1.state.mode addr chunk) :=
      fun a hlow hhigh => ⟨by omega, by omega⟩
    refine Leaves.bind (Leaves.grown hgrown (data_write_leaves hregion)) ?_
    rintro - w2 ⟨hgrown', hstate', hflash⟩
    apply Leaves.modify
    refine ⟨(hgrown.trans hgrown').trans (Grown.of_state rfl rfl rfl rfl rfl), ⟨?_, hwithin, ?_, ?_⟩,
      ?_⟩
    · show w2.state.flash_offset + kDataSize = _
      rw [hstate', hwritten.offset_eq, Nat.add_mul, Nat.one_mul, Nat.add_assoc]
    · show readBytes w2.flash (bank_offset w2.state.mode + region_start config) _ = _
      have hbelow : readBytes (program w1.flash addr chunk)
          (bank_offset w1.state.mode + region_start config) (k * kDataSize) = bytes := by
        rw [← hwritten.bytes_eq, readBytes_eq_iff]
        exact fun i hi => program_of_not_mem (.inl (by omega))
      have hchunk' : readBytes (program w1.flash addr chunk) addr chunk.length = chunk :=
        readBytes_program fun a hlow hhigh => hwritten.erased a (by omega) (by omega)
      rw [hstate', hflash, hnext, readBytes_add, hbelow, Nat.add_assoc, ← haddr, hchunk']
    · show ∀ a, bank_offset w2.state.mode + region_start config + (k + 1) * kDataSize ≤ a →
        a < bank_offset w2.state.mode + region_limit config → w2.flash a = 0xff
      intro a hlow hhigh
      rw [hstate'] at hlow hhigh
      rw [hflash, program_of_not_mem (.inr (by omega))]
      exact hwritten.erased a (by omega) hhigh
    · show { w2.state with flash_offset := w2.state.flash_offset + kDataSize } =
        { w.state with flash_offset := w2.state.flash_offset + kDataSize }
      rw [hstate', hstate]
  · rw [if_neg hroom]
    exact Leaves.throw hgrown

/-! ## Receiving -/

/-- The modes that write the data partition. -/
def Firmware (mode : u32) : Prop := mode = kRescueModeFirmware ∨ mode = kRescueModeFirmwareSlotB

instance (mode : u32) : Decidable (Firmware mode) := inferInstanceAs (Decidable (_ ∨ _))

/-- `upload` has come in so far: `k` blocks of it are in the flash and the rest is in the
buffer. -/
structure Staged (config : Option Item) (k : ℕ) (upload : List u8) (w : World) : Prop where
  length_eq : upload.length = k * kDataSize + w.state.offset
  offset_le : w.state.offset ≤ kDataSize
  buffer : readBytes w.state.data 0 w.state.offset = upload.drop (k * kDataSize)
  flashed : Flashed config k (upload.take (k * kDataSize)) w

/-- In a firmware mode, where the upload stands between two frames. -/
def Underway (config : Option Item) (upload : List u8) (w : World) : Prop :=
  Firmware w.state.mode → ∃ k, Staged config k upload w ∧ w.state.offset < kDataSize

theorem underway_of_not_firmware {upload : List u8} (h : ¬ Firmware w.state.mode) :
    Underway config upload w := fun h' => absurd h' h

/-- Nothing has come in yet. -/
theorem underway_start {upload : List u8} (hupload : upload = []) (hoffset : w.state.offset = 0)
    (hflash : w.state.flash_offset = 0) : Underway config upload w := by
  subst hupload
  refine fun _ => ⟨0, ⟨?_, ?_, ?_, .inl ⟨rfl, List.take_nil, hflash⟩⟩, ?_⟩
  · rw [hoffset]
    rfl
  · rw [hoffset]
    exact Nat.zero_le _
  · rw [hoffset]
    rfl
  · rw [hoffset]
    decide

/-- What the other receive modes do leaves an upload alone. -/
theorem grown_leaves {p : Protocol Unit} {upload : List u8} (hmode : ¬ Firmware w.state.mode)
    (hp : Maintains (Grown config w) p) :
    Leaves p w (fun _ w' => Grown config w w' ∧ Underway config upload w')
      (fun _ => Grown config w) (Grown config w) := by
  refine (hp w (Grown.refl config w)).conseq ?_ (fun _ _ h => h) fun _ h => h
  exact fun _ w' h => ⟨h, underway_of_not_firmware (h.mode_eq ▸ hmode)⟩

theorem grown_set_state {f : RescueState → RescueState}
    (hstart : ∀ s, (f s).flash_start = s.flash_start)
    (hlimit : ∀ s, (f s).flash_limit = s.flash_limit) (hmode : ∀ s, (f s).mode = s.mode) :
    Maintains (Grown config w) (set_state f) :=
  Maintains.modify fun _ h => h.trans (Grown.of_state rfl rfl (hstart _) (hlimit _) (hmode _))

theorem grown_flash_owner_block : Maintains (Grown config w) flash_owner_block := by
  refine Maintains.get fun w1 => Maintains.ite (fun _ => ?_) fun _ => Maintains.pure ()
  refine Maintains.bind (Maintains.modify fun _ h => ?_) fun _ => ?_
  · exact h.trans (Grown.of_event rfl trivial rfl rfl rfl rfl)
  refine Maintains.bind (Maintains.step fun _ h => ?_) fun _ => ?_
  · exact h.trans (Grown.of_state rfl rfl rfl rfl rfl)
  refine Maintains.bind (Maintains.modify fun _ h => ?_) fun _ => Maintains.step fun _ h => ?_
  · exact h.trans (Grown.of_event rfl trivial rfl rfl rfl rfl)
  · exact h.trans (Grown.of_state rfl rfl rfl rfl rfl)

/-- A full buffer goes to the flash, and in it the upload goes on. -/
theorem full_buffer_leaves (hconfig : Acceptable config) (hlocated : Located config w)
    {k : ℕ} {upload : List u8} (h : Staged config k upload w) (hfull : w.state.offset = kDataSize) :
    Leaves (do
        flash_firmware_block
        set_state fun s => { s with offset := 0 }) w
      (fun _ w' => Grown config w w' ∧ Underway config upload w')
      (fun _ => Grown config w) (Grown config w) := by
  refine Leaves.bind (flash_firmware_block_leaves hconfig hlocated h.flashed) ?_
  rintro - w1 ⟨hgrown, hwritten, -⟩
  apply Leaves.modify
  have hlen : upload.length = (k + 1) * kDataSize := by
    rw [h.length_eq, hfull, Nat.add_mul, Nat.one_mul]
  have hall : upload.take (k * kDataSize) ++ readBytes w.state.data 0 kDataSize =
      upload.take ((k + 1) * kDataSize) := by
    have hbuffer := h.buffer
    rw [hfull] at hbuffer
    rw [hbuffer, List.take_append_drop, List.take_of_length_le hlen.le]
  rw [hall] at hwritten
  refine ⟨hgrown.trans (Grown.of_state rfl rfl rfl rfl rfl), fun _ => ⟨k + 1, ⟨?_, ?_, ?_, ?_⟩, ?_⟩⟩
  · exact hlen.trans (Nat.add_zero ((k + 1) * kDataSize)).symm
  · exact Nat.zero_le _
  · rw [List.drop_of_length_le hlen.le]
    rfl
  · exact .inr ⟨hwritten.offset_eq, hwritten.within, hwritten.bytes_eq, hwritten.erased⟩
  · show 0 < kDataSize
    decide

/-- The receive handler, called with the frame in the buffer. -/
theorem recv_handler_leaves (hconfig : Acceptable config) (hlocated : Located config w)
    {upload : List u8} (h : Firmware w.state.mode → ∃ k, Staged config k upload w) :
    Leaves rescue_recv_handler w (fun _ w' => Grown config w w' ∧ Underway config upload w')
      (fun _ => Grown config w) (Grown config w) := by
  have hother : ∀ mode, w.state.mode = mode → ¬ Firmware mode → ¬ Firmware w.state.mode :=
    fun mode heq hnot => heq ▸ hnot
  apply Leaves.get
  split_ifs with hrefused hsend hreq hsize htype howner hfull hfirmware hfull
  · exact Leaves.throw (Grown.refl _ _)
  · refine grown_leaves ?_ (Maintains.pure ())
    rintro (hmode | hmode)
    · rw [hmode] at hsend
      exact absurd hsend (by decide)
    · rw [hmode] at hsend
      exact absurd hsend (by decide)
  · exact Leaves.throw (Grown.refl _ _)
  · refine grown_leaves (hother _ hreq (by decide)) (Maintains.bind ?_ fun _ =>
      grown_set_state (fun _ => rfl) (fun _ => rfl) fun _ => rfl)
    exact Maintains.modify fun _ h => h.trans (Grown.of_event rfl trivial rfl rfl rfl rfl)
  · exact grown_leaves (hother _ hreq (by decide)) (Maintains.pure ())
  · exact grown_leaves (hother _ howner (by decide)) (Maintains.bind grown_flash_owner_block
      fun _ => grown_set_state (fun _ => rfl) (fun _ => rfl) fun _ => rfl)
  · exact grown_leaves (hother _ howner (by decide)) (Maintains.pure ())
  · obtain ⟨k, hstaged⟩ := h hfirmware
    exact full_buffer_leaves hconfig hlocated hstaged hfull
  · apply Leaves.pure
    refine ⟨Grown.refl _ _, fun hmode => ?_⟩
    obtain ⟨k, hstaged⟩ := h hmode
    exact ⟨k, hstaged, lt_of_le_of_ne hstaged.offset_le hfull⟩
  · exact Leaves.throw (Grown.refl _ _)

theorem handle_recv_leaves (hconfig : Acceptable config) (hlocated : Located config w)
    {upload : List u8} (h : Firmware w.state.mode → ∃ k, Staged config k upload w) :
    Leaves handle_recv_modes w (fun _ w' => Grown config w w' ∧ Underway config upload w')
      (fun _ => Grown config w) (Grown config w) := by
  unfold handle_recv_modes
  refine Leaves.bind (R := fun result w' => Grown config w w' ∧
    (result = .ok () → Underway config upload w')) (Leaves.attempt
      ((recv_handler_leaves hconfig hlocated h).conseq ?_ ?_ fun _ h => h)) ?_
  · exact fun _ w' ⟨hgrown, hunderway⟩ => ⟨hgrown, fun _ => hunderway⟩
  · exact fun e w' hgrown => ⟨hgrown, nofun⟩
  · rintro result w1 ⟨hgrown, hunderway⟩
    split_ifs with hrefused
    · apply Leaves.modify_bind
      refine Leaves.ofExcept (fun _ hok => ?_) fun _ _ =>
        hgrown.trans (Grown.of_state rfl rfl rfl rfl rfl)
      rw [hok] at hrefused
      exact absurd hrefused (by rintro (h | h) <;> cases h)
    · exact Leaves.ofExcept (fun _ hok => ⟨hgrown, hunderway hok⟩) fun _ _ => hgrown

/-! ## Uploads -/

/-- What an event makes of the upload so far. -/
def Event.extend (upload : List u8) : Event → List u8
  | .accepted payload => upload ++ payload
  | .upload_started => []
  | .eof_acked => []
  | _ => upload

/-- The frames accepted since the upload began. -/
def upload_of (log : List Event) : List u8 := log.foldl Event.extend []

theorem upload_of_snoc (log : List Event) (event : Event) :
    upload_of (log ++ [event]) = event.extend (upload_of log) := List.foldl_concat _ _ _ _

theorem extend_of_not_marks {event : Event} (h : event.marks = false) (upload : List u8) :
    event.extend upload = upload := by
  cases event <;> first | rfl | cases h

theorem upload_of_append {events : List Event} (h : ∀ event ∈ events, event.marks = false)
    (log : List Event) : upload_of (log ++ events) = upload_of log := by
  induction events generalizing log with
  | nil => rw [List.append_nil]
  | cons event events ih =>
      obtain ⟨hevent, hevents⟩ := List.forall_mem_cons.mp h
      rw [List.append_cons, ih hevents, upload_of_snoc, extend_of_not_marks hevent]

theorem Grown.upload_eq (h : Grown config w w') : upload_of w'.log = upload_of w.log := by
  obtain ⟨events, hlog, hevents, -⟩ := h.log
  rw [hlog, upload_of_append fun event hmem => (hevents event hmem).2]

/-- An upload extended to whole blocks. -/
def padded (upload : List u8) : List u8 :=
  upload ++ List.replicate ((kDataSize - upload.length % kDataSize) % kDataSize) 0xff

theorem padded_length (upload : List u8) : (padded upload).length % kDataSize = 0 := by
  unfold padded
  rw [List.length_append, List.length_replicate]
  simp only [kDataSize]
  omega

/-- The region holds the padded upload. -/
def Holds (config : Option Item) (upload : List u8) (w : World) : Prop :=
  readBytes w.flash (bank_offset w.state.mode + region_start config) (padded upload).length =
    padded upload

/-- If the last thing that has happened is the acknowledgement of the end of an upload, but
for a reset behind it, then the upload is in the flash. -/
def Settled (config : Option Item) (w : World) : Prop :=
  Firmware w.state.mode → ∀ log,
    w.log = log ++ [.eof_acked] ∨ w.log = log ++ [.eof_acked, .rstmgr_reset] →
      Holds config (upload_of log) w

/-- Whatever else happens last, there is nothing to show. -/
theorem settled_of_snoc {log : List Event} {event : Event} (hlog : w.log = log ++ [event])
    (heof : event ≠ .eof_acked) (hreset : event ≠ .rstmgr_reset) : Settled config w := by
  rintro - log' (hlast | hlast)
  · rw [hlog] at hlast
    exact absurd (List.singleton_inj.mp (List.append_inj' hlast rfl).2) heof
  · rw [hlog, List.append_cons log'] at hlast
    exact absurd (List.singleton_inj.mp (List.append_inj' hlast rfl).2) hreset

theorem Settled.of_grown (h : Settled config w) (hgrown : Grown config w w') :
    Settled config w' := by
  obtain ⟨events, hlog, hevents, hflash⟩ := hgrown.log
  induction events using List.reverseRecOn with
  | nil =>
      unfold Settled Holds
      rw [hgrown.mode_eq, hflash rfl, hlog, List.append_nil]
      exact h
  | append_singleton events event _ =>
      have hmarks := (hevents event (List.mem_append_right _ (List.mem_singleton_self _))).2
      rw [← List.append_assoc] at hlog
      refine settled_of_snoc hlog ?_ ?_
      · rintro rfl
        cases hmarks
      · rintro rfl
        cases hmarks

/-- What every ending of a session leaves. -/
structure Ended (config : Option Item) (w : World) : Prop where
  located : Located config w
  keeps_region : ∀ event ∈ w.log, KeepsRegion config event
  settled : Settled config w

/-- The invariant of the loop. -/
structure Uploading (config : Option Item) (w : World) : Prop extends Ended config w where
  underway : Underway config (upload_of w.log) w

theorem Ended.of_grown (h : Ended config w) (hgrown : Grown config w w') : Ended config w' := by
  refine ⟨h.located.of_grown hgrown, ?_, h.settled.of_grown hgrown⟩
  obtain ⟨events, hlog, hevents, -⟩ := hgrown.log
  rw [hlog]
  intro event hmem
  exact (List.mem_append.mp hmem).elim (h.keeps_region event) fun hmem => (hevents event hmem).1

theorem Uploading.of_grown (h : Ended config w) (hgrown : Grown config w w')
    (hunderway : Underway config (upload_of w.log) w') : Uploading config w' :=
  ⟨h.of_grown hgrown, hgrown.upload_eq.symm ▸ hunderway⟩

/-- An event that leaves the flash alone. -/
theorem Ended.record (h : Ended config w) (event : Event) (hregion : KeepsRegion config event)
    (heof : event ≠ .eof_acked) (hreset : event ≠ .rstmgr_reset) :
    Ended config (w.record [event]) := by
  refine ⟨⟨h.located.start_eq, h.located.limit_eq⟩, fun event' hmem => ?_,
    settled_of_snoc rfl heof hreset⟩
  obtain hmem | hmem := List.mem_append.mp hmem
  · exact h.keeps_region event' hmem
  · exact List.mem_singleton.mp hmem ▸ hregion

/-- What an upload consists of is the same in both, whatever the logs say. -/
structure Aside (w w' : World) : Prop where
  flash_eq : w'.flash = w.flash
  start_eq : w'.state.flash_start = w.state.flash_start
  limit_eq : w'.state.flash_limit = w.state.flash_limit
  mode_eq : w'.state.mode = w.state.mode
  flash_offset_eq : w'.state.flash_offset = w.state.flash_offset
  offset_eq : w'.state.offset = w.state.offset
  buffer_eq : readBytes w'.state.data 0 w.state.offset = readBytes w.state.data 0 w.state.offset

theorem Aside.grown (h : Aside w w') (hlog : w'.log = w.log) : Grown config w w' :=
  .of_state hlog h.flash_eq h.start_eq h.limit_eq h.mode_eq

theorem Flashed.aside {k : ℕ} {bytes : List u8} (h : Flashed config k bytes w) (haside : Aside w w') :
    Flashed config k bytes w' := by
  refine h.imp ?_ fun hwritten => ⟨?_, hwritten.within, ?_, ?_⟩
  · rintro ⟨hk, hbytes, hzero⟩
    exact ⟨hk, hbytes, haside.flash_offset_eq.trans hzero⟩
  · exact haside.flash_offset_eq.trans hwritten.offset_eq
  · rw [haside.flash_eq, haside.mode_eq]
    exact hwritten.bytes_eq
  · rw [haside.flash_eq, haside.mode_eq]
    exact hwritten.erased

theorem Underway.aside {upload : List u8} (h : Underway config upload w) (haside : Aside w w') :
    Underway config upload w' := by
  intro hmode
  obtain ⟨k, hstaged, hlt⟩ := h (haside.mode_eq ▸ hmode)
  refine ⟨k, ⟨?_, ?_, ?_, hstaged.flashed.aside haside⟩, ?_⟩
  · rw [haside.offset_eq]
    exact hstaged.length_eq
  · rw [haside.offset_eq]
    exact hstaged.offset_le
  · rw [haside.offset_eq, haside.buffer_eq]
    exact hstaged.buffer
  · rw [haside.offset_eq]
    exact hlt

theorem Uploading.aside (h : Uploading config w) (haside : Aside w w') (hlog : w'.log = w.log) :
    Uploading config w' :=
  .of_grown h.toEnded (haside.grown hlog) (h.underway.aside haside)

/-- `p` keeps the invariant of the loop, or leaves it for good. -/
def Carries {α : Type} (config : Option Item) (p : Protocol α) : Prop :=
  ∀ w, Uploading config w →
    Leaves p w (fun _ => Uploading config) (fun _ => Ended config) (Ended config)

theorem Carries.pure {α : Type} (a : α) : Carries config (pure a) := fun _ h => Leaves.pure h

theorem Carries.throw {α : Type} (e : RomError) : Carries config (Proc.throw e : Protocol α) :=
  fun _ h => Leaves.throw h.toEnded

theorem Carries.bind {α β : Type} {p : Protocol α} {f : α → Protocol β} (hp : Carries config p)
    (hf : ∀ a, Carries config (f a)) : Carries config (p >>= f) :=
  fun w h => Leaves.bind (hp w h) fun a w' h' => hf a w' h'

theorem Carries.compute {α : Type} {f : World → α × World}
    (hf : ∀ w, Uploading config w → Uploading config (f w).2) : Carries config (compute f) :=
  fun w h => Leaves.get (Leaves.modify_bind (Leaves.pure (hf w h)))

theorem Carries.modify {f : World → World} (hf : ∀ w, Aside w (f w))
    (hlog : ∀ w, (f w).log = w.log) : Carries config (Proc.modify f : Protocol Unit) :=
  fun w h => Leaves.modify (h.aside (hf w) (hlog w))

theorem carries_uart_write (bytes : List u8) : Carries config (uart_write bytes) :=
  .modify (fun _ => ⟨rfl, rfl, rfl, rfl, rfl, rfl, rfl⟩) fun _ => rfl

/-- A handler that leaves the upload where it was, in the terms of the loop. -/
theorem Leaves.uploading {α : Type} {p : Protocol α} (h : Ended config w)
    (hp : Leaves p w (fun _ w' => Grown config w w' ∧ Underway config (upload_of w.log) w')
      (fun _ => Grown config w) (Grown config w)) :
    Leaves p w (fun _ => Uploading config) (fun _ => Ended config) (Ended config) := by
  refine hp.conseq ?_ (fun _ _ hgrown => h.of_grown hgrown) fun _ hgrown => h.of_grown hgrown
  rintro - w' ⟨hgrown, hunderway⟩
  exact .of_grown h hgrown hunderway

/-! ## Modes -/

/-- From `exitproc` on an upload starts anew, whatever was before. -/
theorem Ended.exitproc (h : Ended config w) (result : RomError) :
    Uploading config (exitproc result w).2 := by
  have hreset : Ended config
      { w with state := { w.state with frame := 1, offset := 0, flash_offset := 0 } } :=
    h.of_grown (.of_state rfl rfl rfl rfl rfl)
  refine ⟨hreset.record .upload_started trivial nofun nofun, ?_⟩
  have hupload : upload_of (w.log ++ [Event.upload_started]) = [] := upload_of_snoc _ _
  exact underway_start hupload rfl rfl

theorem Ended.accept_mode (h : Ended config w) (mode : u32) : Ended config (accept_mode mode w) := by
  refine ⟨⟨h.located.start_eq, h.located.limit_eq⟩, fun event hmem => ?_,
    settled_of_snoc rfl nofun nofun⟩
  obtain hmem | hmem := List.mem_append.mp hmem
  · exact h.keeps_region event hmem
  · exact List.mem_singleton.mp hmem ▸ trivial

theorem Uploading.rescue_validate_mode (h : Uploading config w) (mode : u32) :
    Uploading config (Rescue.rescue_validate_mode mode w).2 := by
  unfold Rescue.rescue_validate_mode
  split_ifs
  · exact (h.toEnded.accept_mode mode).exitproc _
  · have hwait : Ended config { w with state := { w.state with reboot := false } } :=
      h.toEnded.of_grown (.of_state rfl rfl rfl rfl rfl)
    exact (hwait.record (.validated mode) trivial nofun nofun).exitproc _
  · exact (h.toEnded.accept_mode mode).exitproc _
  · exact h
  · exact (h.toEnded.accept_mode mode).exitproc _
  · exact h
  · exact h.toEnded.exitproc _

/-- A change of speed is no part of an upload. -/
theorem Uploading.change_speed (h : Uploading config w) :
    Uploading config (Rescue.change_speed w) := by
  have hread : Uploading config { w with line := (xmodem_read 4 w.line).2 } :=
    h.aside ⟨rfl, rfl, rfl, rfl, rfl, rfl, rfl⟩ rfl
  unfold Rescue.change_speed
  dsimp only
  split_ifs
  · refine .of_grown hread.toEnded (.of_event rfl trivial rfl rfl rfl rfl) ?_
    exact hread.underway.aside ⟨rfl, rfl, rfl, rfl, rfl, rfl, rfl⟩
  · exact hread

theorem Uploading.validate_mode (h : Uploading config w) (mode : u32) :
    Uploading config (Rescue.validate_mode mode w).2 := by
  unfold Rescue.validate_mode
  split_ifs
  · exact h.change_speed
  · exact h.rescue_validate_mode mode

/-! ## The session -/

theorem carries_stage (bytes : List u8) (w : World) (h : Ended config w)
    (hmode : ¬ Firmware w.state.mode) :
    Leaves (stage bytes) w (fun _ => Uploading config) (fun _ => Ended config) (Ended config) := by
  apply Leaves.modify_bind
  apply Leaves.pure
  have hgrown : Grown config w ({ w with state := { w.state with
      data := writeBytes w.state.data 0 bytes, staged_len := bytes.length } }.record
        [.staged w.state.mode]) := .of_event rfl trivial rfl rfl rfl rfl
  exact .of_grown h hgrown (underway_of_not_firmware hmode)

theorem carries_read_owner_slot (page : Fin 2) (w : World) (h : Ended config w)
    (hmode : ¬ Firmware w.state.mode) :
    Leaves (read_owner_slot page >>= stage) w (fun _ => Uploading config) (fun _ => Ended config)
      (Ended config) := by
  refine Leaves.bind (R := fun _ w' => w' = w) (Leaves.step rfl h h) ?_
  rintro bytes w' rfl
  exact carries_stage bytes w' h hmode

theorem carries_send_handler : Carries config rescue_send_handler := by
  intro w h
  have hother : ∀ mode, w.state.mode = mode → ¬ Firmware mode → ¬ Firmware w.state.mode :=
    fun mode heq hnot => heq ▸ hnot
  apply Leaves.get
  split_ifs with hrefused hlog hrsp hid hpage0 hpage1 hrecv hreboot
  · exact Leaves.throw h.toEnded
  · exact carries_stage _ w h.toEnded (hother _ hlog (by decide))
  · exact carries_stage _ w h.toEnded (hother _ hrsp (by decide))
  · exact carries_stage _ w h.toEnded (hother _ hid (by decide))
  · exact carries_read_owner_slot 0 w h.toEnded (hother _ hpage0 (by decide))
  · exact carries_read_owner_slot 1 w h.toEnded (hother _ hpage1 (by decide))
  · exact Leaves.pure h
  · exact Leaves.throw h.toEnded
  · exact Leaves.throw h.toEnded

theorem carries_handle_send_modes : Carries config handle_send_modes := by
  refine .bind carries_send_handler fun error w h => Leaves.get ?_
  split_ifs
  · refine Carries.bind (.compute fun w h => h.aside ⟨rfl, rfl, rfl, rfl, rfl, rfl, rfl⟩ rfl)
      (fun _ => ?_) w h
    refine .bind (.modify (fun _ => ⟨rfl, rfl, rfl, rfl, rfl, rfl, rfl⟩) fun _ => rfl) fun _ => ?_
    exact .bind (.compute fun w h => h.validate_mode _) fun _ => .pure _
  · exact Leaves.pure h

/-- What `recv_frame` puts behind the buffered part of an upload does not show in it. -/
theorem aside_recv_frame (w : World) : Aside w (recv_frame w).2 := by
  refine ⟨rfl, rfl, rfl, rfl, rfl, rfl, ?_⟩
  exact readBytes_writeBytes_disjoint _ _ _ _ _ (.inl (Nat.zero_add _).le)

/-- A frame that is as it should be lies in the buffer behind what was there, and fits. -/
theorem recv_frame_payload (h : (recv_frame w).1.result = .kErrorOk) :
    (recv_frame w).1.data.length = (recv_frame w).1.rxlen ∧
      (recv_frame w).1.rxlen ≤ kDataSize - w.state.offset ∧
      readBytes (recv_frame w).2.state.data w.state.offset (recv_frame w).1.rxlen =
        (recv_frame w).1.data := by
  obtain ⟨hlen, hroom⟩ := xmodem_recv_frame_length h
  have hstored := readBytes_writeBytes w.state.data w.state.offset (recv_frame w).1.data
  exact ⟨hlen, hroom, (congrArg _ hlen.symm).trans hstored⟩

/-- A frame is added to what has come in. -/
theorem Staged.extend {k rxlen : ℕ} {upload payload : List u8} (h : Staged config k upload w)
    (hlen : payload.length = rxlen) (hroom : rxlen ≤ kDataSize - w.state.offset)
    (hdata : readBytes w.state.data w.state.offset rxlen = payload)
    (haside : w'.state = { w.state with offset := w.state.offset + rxlen })
    (hflash : w'.flash = w.flash) : Staged config k (upload ++ payload) w' := by
  have hlength := h.length_eq
  have hle : k * kDataSize ≤ upload.length := by omega
  have hoffset := h.offset_le
  have hnext : w'.state.offset = w.state.offset + rxlen := by rw [haside]
  refine ⟨?_, ?_, ?_, ?_⟩
  · rw [hnext, List.length_append, hlen, hlength, Nat.add_assoc]
  · omega
  · have hbuffer := h.buffer
    rw [hnext, haside, readBytes_add, Nat.zero_add, hbuffer, hdata, List.drop_append_of_le_length hle]
  · rw [List.take_append_of_le_length hle]
    refine h.flashed.imp ?_ fun hwritten => ⟨?_, hwritten.within, ?_, ?_⟩
    · rintro ⟨hk, hbytes, hzero⟩
      exact ⟨hk, hbytes, by rw [haside]; exact hzero⟩
    · rw [haside]
      exact hwritten.offset_eq
    · rw [haside, hflash]
      exact hwritten.bytes_eq
    · rw [haside, hflash]
      exact hwritten.erased

theorem packet_ok_leaves (hconfig : Acceptable config) (h : Uploading config w) {rxlen : ℕ}
    {payload : List u8} (hlen : payload.length = rxlen)
    (hroom : rxlen ≤ kDataSize - w.state.offset)
    (hdata : readBytes w.state.data w.state.offset rxlen = payload) :
    Leaves (packet_ok rxlen payload) w (fun _ => Uploading config) (fun _ => Ended config)
      (Ended config) := by
  unfold packet_ok
  apply Leaves.modify_bind
  apply Leaves.modify_bind
  set w0 : World := { w with state := { w.state with offset := w.state.offset + rxlen } }
  set w1 := w0.record [.accepted payload]
  have hmoved : Ended config w0 := h.toEnded.of_grown (.of_state rfl rfl rfl rfl rfl)
  have hended : Ended config w1 := hmoved.record (.accepted payload) trivial nofun nofun
  have hupload : upload_of w1.log = upload_of w.log ++ payload := upload_of_snoc _ _
  have hstaged : Firmware w1.state.mode → ∃ k, Staged config k (upload_of w1.log) w1 := by
    intro hmode
    obtain ⟨k, hk, -⟩ := h.underway hmode
    rw [hupload]
    exact ⟨k, hk.extend hlen hroom hdata rfl rfl⟩
  refine Leaves.bind (Leaves.uploading hended (handle_recv_leaves hconfig hended.located hstaged)) ?_
  rintro - w2 h2
  refine Carries.bind (carries_uart_write _) (fun _ => ?_) w2 h2
  exact .modify (fun _ => ⟨rfl, rfl, rfl, rfl, rfl, rfl, rfl⟩) fun _ => rfl

/-! ### The end of an upload -/

theorem padded_of_whole {upload : List u8} (h : upload.length % kDataSize = 0) :
    padded upload = upload := by
  unfold padded
  rw [h, Nat.sub_zero, Nat.mod_self, List.replicate_zero, List.append_nil]

/-- The residue in the buffer and the bytes that extend it out to a full block. -/
theorem padded_eq {upload : List u8} {k offset : ℕ} (hlen : upload.length = k * kDataSize + offset)
    (hlt : offset < kDataSize) (hpos : offset ≠ 0) :
    padded upload = upload ++ List.replicate (kDataSize - offset) 0xff := by
  unfold padded
  rw [hlen, Nat.add_comm, Nat.add_mul_mod_self_right, Nat.mod_eq_of_lt hlt,
    Nat.mod_eq_of_lt (by omega)]

/-- An upload of whole blocks leaves nothing behind in the buffer. -/
theorem holds_of_underway {upload : List u8} (hmode : Firmware w.state.mode)
    (h : Underway config (padded upload) w) : Holds config upload w := by
  obtain ⟨k, hstaged, hlt⟩ := h hmode
  have hlength := hstaged.length_eq
  have hwhole : w.state.offset = 0 := by
    have hmod := padded_length upload
    rwa [hlength, Nat.add_comm, Nat.add_mul_mod_self_right, Nat.mod_eq_of_lt hlt] at hmod
  rw [hwhole, Nat.add_zero] at hlength
  unfold Holds
  rw [hlength]
  obtain ⟨rfl, hbytes, -⟩ | hwritten := hstaged.flashed
  · rw [Nat.zero_mul] at hlength ⊢
    rw [List.length_eq_zero_iff.mp hlength]
    rfl
  · rw [hwritten.bytes_eq, List.take_of_length_le hlength.le]

/-- The residue is extended and goes to the flash, if there is any. -/
theorem extend_residue_leaves (hconfig : Acceptable config) (h : Uploading config w) :
    Leaves extend_residue w
      (fun _ w' => Grown config w w' ∧ Underway config (padded (upload_of w.log)) w')
      (fun _ => Grown config w) (Grown config w) := by
  unfold extend_residue
  apply Leaves.get
  split_ifs with hresidue
  · apply Leaves.modify_bind
    set missing := kDataSize - w.state.offset % kDataSize with hmissing
    set w0 : World := { w with state := { w.state with
      data := writeBytes w.state.data w.state.offset (List.replicate missing 0xff) } }
    set w1 : World := { w with state := { w.state with
      data := writeBytes w.state.data w.state.offset (List.replicate missing 0xff)
      offset := w.state.offset + missing } }
    have haside : Aside w w0 := ⟨rfl, rfl, rfl, rfl, rfl, rfl,
      readBytes_writeBytes_disjoint _ _ _ _ _ (.inl (Nat.zero_add _).le)⟩
    have hgrown : Grown config w w1 := .of_state rfl rfl rfl rfl rfl
    have hstaged : Firmware w1.state.mode → ∃ k, Staged config k (padded (upload_of w.log)) w1 := by
      intro hmode
      obtain ⟨k, hk, hlt⟩ := h.underway.aside haside hmode
      have hoffset : w.state.offset % kDataSize = w.state.offset := Nat.mod_eq_of_lt hlt
      rw [hoffset] at hresidue hmissing
      have hroom : kDataSize - w0.state.offset = missing := hmissing.symm
      rw [padded_eq hk.length_eq hlt hresidue, hroom]
      refine ⟨k, hk.extend List.length_replicate hroom.ge ?_ rfl rfl⟩
      have hstored := readBytes_writeBytes w.state.data w.state.offset
        (List.replicate missing 0xff)
      rw [List.length_replicate] at hstored
      exact hstored
    exact Leaves.grown hgrown ((handle_recv_leaves hconfig (h.located.of_grown hgrown)
      hstaged).conseq (fun _ _ ⟨hg, hu⟩ => ⟨hgrown.trans hg, hu⟩) (fun _ _ hg => hg) fun _ hg => hg)
  · apply Leaves.pure
    refine ⟨Grown.refl _ _, fun hmode => ?_⟩
    obtain ⟨k, hk, hlt⟩ := h.underway hmode
    rw [not_not, Nat.mod_eq_of_lt hlt] at hresidue
    have hwhole : (upload_of w.log).length % kDataSize = 0 := by
      rw [hk.length_eq, hresidue, Nat.add_zero, Nat.mul_mod_left]
    rw [padded_of_whole hwhole]
    exact ⟨k, hk, hlt⟩

/-- Acknowledged, an upload is where it belongs. -/
theorem Ended.record_eof (h : Ended config w)
    (hunderway : Underway config (padded (upload_of w.log)) w) :
    Ended config (w.record [.eof_acked]) := by
  refine ⟨⟨h.located.start_eq, h.located.limit_eq⟩, fun event hmem => ?_, ?_⟩
  · obtain hmem | hmem := List.mem_append.mp hmem
    · exact h.keeps_region event hmem
    · exact List.mem_singleton.mp hmem ▸ trivial
  · rintro hmode log (hlast | hlast)
    · obtain ⟨rfl, -⟩ := List.append_inj' hlast rfl
      have hholds : Holds config (upload_of w.log) w := holds_of_underway hmode hunderway
      exact hholds
    · rw [List.append_cons log] at hlast
      cases List.singleton_inj.mp (List.append_inj' hlast rfl).2

theorem end_of_file_leaves (hconfig : Acceptable config) (h : Uploading config w) :
    Leaves end_of_file w (fun _ => Uploading config) (fun _ => Ended config) (Ended config) := by
  unfold end_of_file xmodem_ack uart_write record
  refine Leaves.bind ((extend_residue_leaves hconfig h).conseq (fun _ _ hq => hq)
    (fun _ _ hg => h.toEnded.of_grown hg) fun _ hg => h.toEnded.of_grown hg) ?_
  rintro - w1 ⟨hgrown, hunderway⟩
  apply Leaves.modify_bind
  apply Leaves.modify_bind
  apply Leaves.get
  set w2 : World := { w1 with tx := w1.tx ++ [if true then kXModemAck else kXModemNak] }
  have hended : Ended config (w2.record [.eof_acked]) := by
    have hacked : Ended config w2 := (h.toEnded.of_grown hgrown).of_grown (.of_state rfl rfl rfl rfl rfl)
    refine hacked.record_eof ?_
    rw [show upload_of w2.log = upload_of w.log from hgrown.upload_eq]
    exact hunderway.aside ⟨rfl, rfl, rfl, rfl, rfl, rfl, rfl⟩
  split_ifs
  · exact Leaves.throw hended
  · apply Leaves.modify
    refine ⟨hended.of_grown (.of_state rfl rfl rfl rfl rfl), ?_⟩
    have hupload : upload_of (w2.log ++ [Event.eof_acked]) = [] := upload_of_snoc _ _
    exact underway_start hupload rfl rfl

/-! ### The loop -/

theorem handle_frame_leaves (hconfig : Acceptable config) (h : Uploading config w)
    (frame next_mode : u32) :
    Leaves (handle_frame frame next_mode (recv_frame w).1) (recv_frame w).2
      (fun _ => Uploading config) (fun _ => Ended config) (Ended config) := by
  have hframe : Uploading config (recv_frame w).2 := h.aside (aside_recv_frame w) rfl
  unfold handle_frame
  split_ifs with hstart hok heof hcrc hunknown hreturn
  · exact Carries.bind (carries_uart_write _) (fun _ => .pure _) _ hframe
  · obtain ⟨hlen, hroom, hdata⟩ := recv_frame_payload hok
    exact Leaves.bind (packet_ok_leaves hconfig hframe hlen hroom hdata) fun _ _ hnext =>
      Leaves.pure hnext
  · exact Leaves.bind (end_of_file_leaves hconfig hframe) fun _ _ hnext => Leaves.pure hnext
  · exact Carries.bind (carries_uart_write _) (fun _ => .pure _) _ hframe
  · exact Carries.bind (.compute fun w h => h.validate_mode _) (fun _ => .pure _) _ hframe
  · exact Leaves.pure hframe
  · exact Leaves.throw hframe.toEnded

theorem carries_protocol_round (hconfig : Acceptable config) (next_mode : u32) :
    Carries config (protocol_round next_mode) := by
  refine .bind carries_handle_send_modes fun error => .bind ?_ fun _ w h => ?_
  · unfold return_if_error
    split_ifs
    · exact .pure ()
    · exact .throw error
  · exact Leaves.get (leaves_compute_bind (handle_frame_leaves hconfig h _ _))

/-- The default mode is refused or accepted, and either way an upload starts. -/
theorem Ended.start (h : Ended config w) :
    Uploading config (validate_mode kRescueModeFirmware w).2 := by
  unfold validate_mode rescue_validate_mode
  rw [if_neg (by decide), if_neg (by decide), if_neg (by decide)]
  by_cases hallowed : owner_rescue_command_allowed w.state.config kRescueModeFirmware = true
  · rw [if_pos hallowed, if_neg (by decide), if_pos (by decide)]
    exact (h.accept_mode _).exitproc _
  · rw [if_neg hallowed]
    exact h.exitproc _

/-- A reset is recorded behind whatever has ended the session. -/
theorem Ended.record_reset (h : Ended config w) : Ended config (w.record [.rstmgr_reset]) := by
  refine ⟨⟨h.located.start_eq, h.located.limit_eq⟩, fun event hmem => ?_, ?_⟩
  · obtain hmem | hmem := List.mem_append.mp hmem
    · exact h.keeps_region event hmem
    · exact List.mem_singleton.mp hmem ▸ trivial
  · rintro hmode log (hlast | hlast)
    · cases List.singleton_inj.mp (List.append_inj' hlast rfl).2
    · rw [List.append_cons log] at hlast
      exact h.settled hmode log (.inl (List.append_inj' hlast rfl).1)

theorem rescue_protocol_leaves (hconfig : Acceptable config) (n : ℕ) (w : World) :
    Leaves (rescue_protocol config n) { w with log := [] } (fun _ => Ended config)
      (fun _ => Ended config) (Ended config) := by
  obtain ⟨hstart, hlimit⟩ := rescue_state_init_region config w.state
  apply Leaves.modify_bind
  set w0 : World := { w with log := [], state := rescue_state_init config w.state }
  have hinit : Ended config { w0 with state := { w0.state with reboot := true } } := by
    refine ⟨⟨hstart, hlimit⟩, fun _ hmem => absurd hmem List.not_mem_nil, ?_⟩
    rintro - log (hlast | hlast)
    · exact absurd hlast.symm (List.append_ne_nil_of_right_ne_nil _ (List.cons_ne_nil _ _))
    · exact absurd hlast.symm (List.append_ne_nil_of_right_ne_nil _ (List.cons_ne_nil _ _))
  have hprotocol : Leaves (protocol n) w0 (fun _ => Uploading config) (fun _ => Ended config)
      (Ended config) := by
    apply Leaves.modify_bind
    apply leaves_compute_bind
    refine Carries.bind (carries_uart_write _) (fun _ w h => ?_) _ hinit.start
    exact Leaves.rounds (fun next_mode w => carries_protocol_round hconfig next_mode w) n h
  refine Leaves.bind (R := fun _ => Ended config) (Leaves.attempt
    (hprotocol.conseq (fun _ _ h => h.toEnded) (fun _ _ h => h) fun _ h => h)) fun result w' h => ?_
  split_ifs
  · exact Leaves.modify_bind (Leaves.ofExcept (fun _ _ => h.record_reset) fun _ _ => h.record_reset)
  · exact Leaves.ofExcept (fun _ _ => h) fun _ _ => h

/-- Whatever is received, a session erases and writes nothing outside the rescue region of
the bank of its mode, which lies behind the ROM_EXT and within the bank. And if the last
thing it has done in a firmware mode is to acknowledge the end of an upload, the region
starts with that upload. -/
theorem rescue_keeps_region (config : Option Item) (hconfig : Acceptable config) (w : World)
    (fate : ℕ → Fate) (n : ℕ) :
    let w' := (rescue_protocol config n (.on { w with log := [] } fate)).2.mem
    (∀ event ∈ w'.log, KeepsRegion config event) ∧
      CHIP_ROM_EXT_SIZE_MAX ≤ region_start config ∧ region_limit config ≤ kFlashBankSize ∧
        Settled config w' := by
  intro w'
  have hended : Ended config w' := (rescue_protocol_leaves hconfig n w).mem (fun _ _ h => h)
    (fun _ _ h => h) (fun _ h => h) rfl
  obtain ⟨s, l, hs, hl, hfirst, hlast⟩ := region_pages hconfig
  refine ⟨hended.keeps_region, ?_, ?_, hended.settled⟩
  · rw [hs]
    exact Nat.mul_le_mul_right kFlashPageSize hfirst
  · rw [hl, Nat.mul_comm]
    exact Nat.mul_le_mul_left kFlashPageSize hlast

/-- A rescue region of two pages. -/
def two_pages : Item := rescue_config 32 2 [kRescueModeFirmware] (one_command_fits kRescueModeFirmware)

def payload : List u8 := List.replicate 128 0x5a

/-- The world in which a single frame is uploaded. -/
def single_frame : World :=
  World.filled 0 ((block_frame 1 payload).map some ++ [some kXModemEof])

/-- That upload, up to the reset behind it. -/
def uploaded : World :=
  (rescue_protocol (some two_pages) 2 (.on { single_frame with log := [] } fun _ => .done)).2.mem

set_option maxRecDepth 100000 in
theorem rescue_keeps_region_single_frame :
    uploaded.log.drop 6 = [.eof_acked, .rstmgr_reset] ∧
      upload_of (uploaded.log.take 6) = payload ∧
        Holds (some two_pages) payload uploaded := by
  have hlast : uploaded.log.drop 6 = [.eof_acked, .rstmgr_reset] := by decide +kernel
  have hupload : upload_of (uploaded.log.take 6) = payload := by decide +kernel
  have hlog : uploaded.log = uploaded.log.take 6 ++ [Event.eof_acked, Event.rstmgr_reset] := by
    rw [← hlast, List.take_append_drop]
  have hconfig : Acceptable (some two_pages) := by
    rintro rescue ⟨⟩
    decide
  have hsettled : Settled (some two_pages) uploaded := by
    unfold uploaded
    dsimp only
    exact (rescue_keeps_region (some two_pages) hconfig single_frame (fun _ => .done) 2).2.2.2
  have hmode : Firmware uploaded.state.mode := by decide +kernel
  have hholds := hsettled hmode _ (.inr hlog)
  rw [hupload] at hholds
  exact ⟨hlast, hupload, hholds⟩

end IbexFirmware.Rescue
