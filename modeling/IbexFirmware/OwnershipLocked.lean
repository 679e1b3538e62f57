/-
The locked state: what the pages are after a boot, and what is parsed over many boots.

`owner_pages_identical_iff` is about one boot. The repair copies a sealed page over a
page that is not sealed, so afterwards both hold one block, unless both were sealed to
begin with: then nothing compares them.

`config_never_rolls_back` is about any number of boots, with page 1 rewritten and pages
lost between them, and flash operations cut or failing within them. What carries it is
that page 0, as long as it holds a block, holds none older than what was parsed before.
Only the copy of page 1 over a page 0 that is not sealed brings a block in unchecked,
which is what the condition on the boots is about.
-/
import IbexFirmware.OwnershipPages

set_option autoImplicit false

namespace IbexFirmware.Ownership

open Bytes OwnerBlock PowerFail OwnerPageStatus

variable {dev : Device}

/-! ## One boot -/

/-- After a completed repair RAM and flash hold one sealed block everywhere if and only
if the loaded pages did not hold two different ones. -/
theorem repaired_identical_iff {s t s' : RomExt} (hupdated : Updated dev (load_pages dev s) t)
    (hrepaired : Repaired t s') :
    (∃ b, ∀ i, s'.owner_page i = b ∧ Holds dev (s'.slot i) b) ↔
      ¬ ∃ b0 b1, Holds dev (s.slot 0) b0 ∧ Holds dev (s.slot 1) b1 ∧ b0 ≠ b1 := by
  have hbacked := hupdated.backed (backed_load_pages dev s) (filled_load_pages dev s)
  have hholds := hrepaired.holds hbacked
  cases hrepaired with
  | both hboth =>
      -- the pages are those that were loaded
      have hvalid : (load_pages dev s).owner_page_valid 1 = kOwnerPageStatusSealed := by
        cases hupdated with
        | skipped => exact hboth 1
        | failed _ _ hvalid => exact hvalid ▸ hboth 1
        | activated _ => exact absurd (hboth 0) (by simp)
      obtain rfl := hupdated.eq_of_sealed hvalid
      constructor
      · rintro ⟨b, hb⟩ ⟨b0, b1, h0, h1, hne⟩
        exact hne ((h0.unique (hb 0).2).trans (h1.unique (hb 1).2).symm)
      · intro hsame
        have heq : (load_pages dev s).owner_page 0 = (load_pages dev s).owner_page 1 := by
          by_contra hne
          exact hsame ⟨_, _, hholds 0, hholds 1, hne⟩
        exact ⟨_, Fin.forall_fin_two.mpr ⟨⟨rfl, hholds 0⟩, ⟨heq.symm, heq ▸ hholds 1⟩⟩⟩
  | @copied good bad honly =>
      obtain ⟨hne, hgood, hbad⟩ := honly
      have hpage : ∀ i, (copied good bad t).owner_page i = t.owner_page good := by
        intro i
        by_cases hi : i = bad
        · rw [hi]
          exact Function.update_self _ _ _
        · rw [show i = good by omega]
          exact Function.update_of_ne hne _ _
      refine iff_of_true ⟨t.owner_page good, fun i => ⟨hpage i, hpage i ▸ hholds i⟩⟩ ?_
      rintro ⟨b0, b1, h0, h1, -⟩
      -- two held pages load as sealed, and then nothing is copied
      have hvalid : ∀ i, (load_pages dev s).owner_page_valid i = kOwnerPageStatusSealed :=
        Fin.forall_fin_two.mpr
          ⟨(load_pages_sealed_iff s 0).mpr ⟨b0, h0⟩, (load_pages_sealed_iff s 1).mpr ⟨b1, h1⟩⟩
      obtain rfl := hupdated.eq_of_sealed (hvalid 1)
      exact hbad (hvalid bad)

/-- A boot in the locked state that succeeds leaves one sealed block in RAM and in both
flash pages if and only if the flash pages did not hold two different ones before. -/
theorem owner_pages_identical_iff (dev : Device) (m : Machine RomExt) (parsed : Parsed)
    (hstate : m.mem.bootdata.ownership_state = kOwnershipStateLockedOwner)
    (hok : (ownership_init dev m).1 = .ret parsed) :
    (∃ b, ∀ i, (ownership_init dev m).2.mem.owner_page i = b ∧
        Holds dev ((ownership_init dev m).2.mem.slot i) b) ↔
      ¬ ∃ b0 b1, Holds dev (m.mem.slot 0) b0 ∧ Holds dev (m.mem.slot 1) b1 ∧ b0 ≠ b1 := by
  rw [ownership_init_locked_snd hstate]
  rw [ownership_init_locked hstate] at hok
  obtain ⟨u, m', hpages, -⟩ := Proc.bind_eq_ret (Prod.ext hok rfl)
  have hspec := (pages_spec (F := fun _ => True) dev) (loaded dev m) rfl fun _ => trivial
  rw [hpages] at hspec ⊢
  obtain ⟨⟨t, hupdated, hrepaired⟩, -⟩ := hspec
  exact repaired_identical_iff hupdated hrepaired

/-- A boot from a page 0 that holds a block and an erased page 1. -/
def one_page_boot : Machine RomExt :=
  Machine.on (bench_boot kOwnershipStateLockedOwner
    (.programmed (bench_sealed 1 kOwnershipUpdateModeOpen 17)) .erased) fun _ => .done

theorem owner_pages_identical_one_page :
    ∃ b, ∀ i, (ownership_init bench_device one_page_boot).2.mem.owner_page i = b ∧
      Holds bench_device ((ownership_init bench_device one_page_boot).2.mem.slot i) b := by
  refine (owner_pages_identical_iff bench_device one_page_boot
    ⟨{ owner_config_default with sram_exec := 0x5a5a5a5a }, []⟩ (by decide)
    (by decide +kernel)).mpr ?_
  rintro ⟨-, b1, -, hb1, -⟩
  have hsealed := (load_pages_sealed_iff one_page_boot.mem 1).mpr ⟨b1, hb1⟩
  exact absurd hsealed (by decide +kernel)

/-- A boot from two pages that hold different versions. -/
def two_page_boot : Machine RomExt :=
  Machine.on (bench_boot kOwnershipStateLockedOwner
    (.programmed (bench_sealed 1 kOwnershipUpdateModeOpen 17))
    (.programmed (bench_sealed 2 kOwnershipUpdateModeOpen 17))) fun _ => .done

/-- It succeeds and leaves them different. -/
theorem two_sealed_pages_stay_different :
    two_page_boot.mem.bootdata.ownership_state = kOwnershipStateLockedOwner ∧
      (ownership_init bench_device two_page_boot).1
        = .ret ⟨{ owner_config_default with sram_exec := 0x5a5a5a5a }, []⟩ ∧
      (ownership_init bench_device two_page_boot).2.mem.owner_page 0
        ≠ (ownership_init bench_device two_page_boot).2.mem.owner_page 1 ∧
      (ownership_init bench_device two_page_boot).2.mem.slot 0
        ≠ (ownership_init bench_device two_page_boot).2.mem.slot 1 := by
  decide +kernel

/-! ## Any number of boots -/

/-- Block `b` may come after block `p`. -/
def Follows (p b : OwnerBlock) : Prop :=
  p.config_version ≤ b.config_version ∧ b.owner_key = p.owner_key

theorem Follows.refl (b : OwnerBlock) : Follows b b := ⟨BitVec.le_refl _, rfl⟩

theorem Follows.trans {a b c : OwnerBlock} (hab : Follows a b) (hbc : Follows b c) :
    Follows a c :=
  ⟨BitVec.le_trans hab.1 hbc.1, hbc.2.trans hab.2⟩

instance : IsTrans OwnerBlock Follows := ⟨fun _ _ _ => Follows.trans⟩

instance (p b : OwnerBlock) : Decidable (Follows p b) := inferInstanceAs (Decidable (_ ∧ _))

/-- What `locked_owner_init` hands to the parser, if it comes so far. -/
def parsed_block (dev : Device) (m : Machine RomExt) : Option OwnerBlock :=
  match locked_owner_pages dev (loaded dev m) with
  | (.ret _, m') => some (m'.mem.owner_page 0)
  | _ => none

/-- Boots in the locked state that meet `Cond`, whatever becomes of their flash
operations, with the blocks they parse. Between two boots page 0 stays as it is or
becomes unreadable, and nothing is said about anything else. -/
inductive LockedRun (dev : Device) (Cond : List OwnerBlock → RomExt → Prop) :
    List OwnerBlock → RomExt → Prop
  | start (s : RomExt) : LockedRun dev Cond [] s
  | tamper {blocks : List OwnerBlock} {s s' : RomExt} (hrun : LockedRun dev Cond blocks s)
      (hslot : s'.slot 0 = s.slot 0 ∨ s'.slot 0 = .unreadable) : LockedRun dev Cond blocks s'
  | boot {blocks : List OwnerBlock} {s : RomExt} (fate : ℕ → Fate)
      (hrun : LockedRun dev Cond blocks s)
      (hstate : s.bootdata.ownership_state = kOwnershipStateLockedOwner)
      (hcond : Cond blocks s) :
      LockedRun dev Cond (blocks ++ (parsed_block dev (Machine.on s fate)).toList)
        (ownership_init dev (Machine.on s fate)).2.mem

/-- If page 0 holds no block, then what page 1 holds may come after what was parsed last. -/
def Page1Follows (dev : Device) (blocks : List OwnerBlock) (s : RomExt) : Prop :=
  (∀ a, ¬ Holds dev (s.slot 0) a) → ∀ b, Holds dev (s.slot 1) b → ∀ p ∈ blocks.getLast?, Follows p b

/-- What page 0 holds may come after what was parsed last. -/
def Page0Follows (dev : Device) (blocks : List OwnerBlock) (s : RomExt) : Prop :=
  ∀ b, Holds dev (s.slot 0) b → ∀ p ∈ blocks.getLast?, Follows p b

theorem Page0Follows.of_slot {blocks : List OwnerBlock} {s s' : RomExt}
    (h : Page0Follows dev blocks s) (hslot : s'.slot 0 = s.slot 0) : Page0Follows dev blocks s' := by
  intro b hb
  rw [hslot] at hb
  exact h b hb

/-- A boot that does not come to the parser leaves page 0 as it was or erased. -/
theorem page0_unrepaired (hblank : ¬ BlankSealed dev) {blocks : List OwnerBlock}
    {s t s' : RomExt} (h0 : Page0Follows dev blocks s)
    (hupdated : Updated dev (load_pages dev s) t) (hunrepaired : Unrepaired t s') :
    Page0Follows dev blocks s' := by
  have hslot : t.slot 0 = s.slot 0 := hupdated.samePage0.slot
  cases hunrepaired with
  | none _ hnone => exact h0.of_slot (by rw [hnone, hslot])
  | @cut good bad _ _ hcut =>
      rcases hcut with rfl | rfl
      · exact h0.of_slot hslot
      · by_cases hbad : bad = 0
        · subst hbad
          intro b hb
          exact absurd ⟨b, hb⟩ hblank
        · refine h0.of_slot ?_
          rw [← hslot]
          exact Function.update_of_ne (Ne.symm hbad) _ _

/-- A boot that comes to the parser parses a block that may come next. -/
theorem follows_repaired {blocks : List OwnerBlock} {s t s' : RomExt}
    (h0 : Page0Follows dev blocks s) (h1 : Page1Follows dev blocks s)
    (hupdated : Updated dev (load_pages dev s) t) (hrepaired : Repaired t s') :
    ∀ p ∈ blocks.getLast?, Follows p (s'.owner_page 0) := by
  have hload := backed_load_pages dev s
  have hbacked := hupdated.backed hload (filled_load_pages dev s)
  -- a sealed page 0 is the one that was loaded
  have hpage0 : t.owner_page_valid 0 = kOwnerPageStatusSealed →
      ∀ p ∈ blocks.getLast?, Follows p (t.owner_page 0) := by
    intro hvalid
    refine h0 _ ?_
    have hslot : t.slot 0 = s.slot 0 := hupdated.samePage0.slot
    exact hslot ▸ hbacked 0 hvalid
  cases hrepaired with
  | both hboth => exact hpage0 (hboth 0)
  | @copied good bad honly =>
      obtain ⟨hne, hgood, hbad⟩ := honly
      by_cases hbad0 : bad = 0
      · have hgood1 : good = 1 := by omega
        subst hbad0 hgood1
        cases hupdated with
        | skipped =>
            have hno : ∀ a, ¬ Holds dev (s.slot 0) a := fun a ha =>
              hbad ((load_pages_sealed_iff s 0).mpr ⟨a, ha⟩)
            exact h1 hno _ (hbacked 1 hgood)
        | failed hpending _ hvalid =>
            rw [hvalid, (pending_iff.mp hpending).2.1] at hgood
            cases hgood
        | activated hpending =>
            -- the update itself compares the two pages
            obtain ⟨hsealed, -, -, hversion, hkey⟩ := pending_iff.mp hpending
            intro p hp
            refine (h0 _ (hload 0 hsealed) p hp).trans ?_
            exact ⟨BitVec.le_of_lt hversion, hkey.symm⟩
      · have hgood0 : good = 0 := by omega
        subst hgood0
        simp only [Ownership.copied, Function.update_of_ne (Ne.symm hbad0)]
        exact hpage0 hgood

/-- One boot keeps the history in order and page 0 behind it. -/
theorem boot_step (hblank : ¬ BlankSealed dev) {blocks : List OwnerBlock} {s : RomExt}
    (fate : ℕ → Fate) (hstate : s.bootdata.ownership_state = kOwnershipStateLockedOwner)
    (h0 : Page0Follows dev blocks s) (h1 : Page1Follows dev blocks s) :
    (∀ b ∈ parsed_block dev (Machine.on s fate), ∀ p ∈ blocks.getLast?, Follows p b) ∧
      Page0Follows dev (blocks ++ (parsed_block dev (Machine.on s fate)).toList)
        (ownership_init dev (Machine.on s fate)).2.mem := by
  rw [ownership_init_locked_snd (m := Machine.on s fate) hstate]
  unfold parsed_block
  have hspec := (pages_spec (F := fun _ => True) dev) (loaded dev (Machine.on s fate)) rfl
    fun _ => trivial
  rcases hrun : locked_owner_pages dev (loaded dev (Machine.on s fate)) with ⟨outcome, m'⟩
  rw [hrun] at hspec
  obtain ⟨hmeets, -⟩ := hspec
  cases outcome with
  | trap => exact hmeets.elim
  | ret u =>
      obtain ⟨t, hupdated, hrepaired⟩ := hmeets
      have hfollows := follows_repaired h0 h1 hupdated hrepaired
      have hbacked := hupdated.backed (backed_load_pages dev s) (filled_load_pages dev s)
      refine ⟨?_, ?_⟩
      · rintro b ⟨rfl⟩
        exact hfollows
      · intro b hb p hp
        have hlast : p = m'.mem.owner_page 0 := by simpa using hp.symm
        rw [hlast, hb.unique (hrepaired.holds hbacked 0)]
        exact Follows.refl _
  | error e =>
      obtain ⟨t, hupdated, hunrepaired⟩ := hmeets
      refine ⟨fun b hb => (by cases hb), ?_⟩
      simpa using page0_unrepaired hblank h0 hupdated hunrepaired
  | lost =>
      refine ⟨fun b hb => (by cases hb), ?_⟩
      rcases hmeets with ⟨-, hsame⟩ | ⟨t, hupdated, hunrepaired⟩
      · simpa using h0.of_slot hsame.slot
      · simpa using page0_unrepaired hblank h0 hupdated hunrepaired

/-- The blocks seen form a chain, and page 0 is one of it: kept by every step of the run. -/
theorem locked_run_invariant (hblank : ¬ BlankSealed dev) {blocks : List OwnerBlock}
    {s : RomExt} (h : LockedRun dev (Page1Follows dev) blocks s) :
    blocks.IsChain Follows ∧ Page0Follows dev blocks s := by
  induction h with
  | start s => exact ⟨List.IsChain.nil, fun _ _ p hp => by cases hp⟩
  | tamper _ hslot ih =>
      refine ⟨ih.1, ?_⟩
      rcases hslot with hsame | hlost
      · exact ih.2.of_slot hsame
      · intro b hb
        rw [hlost] at hb
        exact absurd hb (not_holds_unreadable b)
  | boot fate _ hstate hcond ih =>
      obtain ⟨hnext, hpage0⟩ := boot_step hblank fate hstate ih.2 hcond
      refine ⟨List.isChain_append.mpr ⟨ih.1, ?_, ?_⟩, hpage0⟩
      · cases parsed_block dev (Machine.on _ fate) with
        | none => exact List.IsChain.nil
        | some b => exact List.IsChain.singleton b
      · intro p hp b hb
        refine hnext b ?_ p hp
        cases hblock : parsed_block dev (Machine.on _ fate) with
        | none =>
            rw [hblock] at hb
            cases hb
        | some c =>
            rw [hblock] at hb
            exact hb

/-- Over boots that find a good page 0, or else a page 1 that may come next, the
configuration that is parsed never goes back and never changes its owner. -/
theorem config_never_rolls_back (dev : Device) (hblank : ¬ BlankSealed dev)
    (blocks : List OwnerBlock) (s : RomExt) (h : LockedRun dev (Page1Follows dev) blocks s) :
    blocks.Pairwise Follows :=
  List.isChain_iff_pairwise.mp (locked_run_invariant hblank h).1

theorem not_blankSealed_bench : ¬ BlankSealed bench_device := by
  rw [blankSealed_iff]
  decide +kernel

/-- What a boot with working flash leaves. -/
def after_boot (s : RomExt) : RomExt :=
  (ownership_init bench_device (Machine.on s fun _ => .done)).2.mem

/-- A first boot from version 1 in both pages. -/
def first_boot : RomExt :=
  bench_boot kOwnershipStateLockedOwner
    (.programmed (bench_sealed 1 kOwnershipUpdateModeNewVersion 17))
    (.programmed (bench_sealed 1 kOwnershipUpdateModeNewVersion 17))

/-- The next one, with version 2 signed by the owner put into page 1. -/
def second_boot : RomExt :=
  { after_boot first_boot with
    slot := Function.update (after_boot first_boot).slot 1
      (.programmed (bench_signed 2 kOwnershipUpdateModeNewVersion 17)) }

/-- A third one, with page 0 lost and version 1, as it was sealed then, put into page 1. -/
def third_boot : RomExt :=
  { after_boot second_boot with
    slot := Function.update (Function.update (after_boot second_boot).slot 1
      (.programmed (bench_sealed 1 kOwnershipUpdateModeNewVersion 17))) 0 .unreadable }

def boot_blocks (s : RomExt) : List OwnerBlock :=
  (parsed_block bench_device (Machine.on s fun _ => .done)).toList

theorem second_boot_slot0 : second_boot.slot 0 = (after_boot first_boot).slot 0 := by
  simp only [second_boot, Function.update_of_ne zero_ne_one_page]

theorem third_boot_slot0 : third_boot.slot 0 = .unreadable := by
  simp only [third_boot, Function.update_self]

/-- Where the later boots start, and the versions that the three parse. -/
theorem three_boots :
    second_boot.bootdata.ownership_state = kOwnershipStateLockedOwner ∧
      (load_pages bench_device second_boot).owner_page_valid 0 = kOwnerPageStatusSealed ∧
      third_boot.bootdata.ownership_state = kOwnershipStateLockedOwner ∧
      ([] ++ boot_blocks first_boot ++ boot_blocks second_boot ++
        boot_blocks third_boot).map OwnerBlock.config_version = [1, 2, 1] := by
  decide +kernel

theorem config_after_update :
    ([] ++ boot_blocks first_boot ++ boot_blocks second_boot).Pairwise Follows := by
  refine config_never_rolls_back bench_device not_blankSealed_bench _ (after_boot second_boot) ?_
  have hfirst : LockedRun bench_device (Page1Follows bench_device) ([] ++ boot_blocks first_boot)
      (after_boot first_boot) :=
    (LockedRun.start first_boot).boot _ rfl fun _ _ _ p hp => by cases hp
  obtain ⟨hstate, hsealed, -, -⟩ := three_boots
  have hheld : ∃ b, Holds bench_device (second_boot.slot 0) b :=
    (load_pages_sealed_iff second_boot 0).mp hsealed
  refine (hfirst.tamper (.inl second_boot_slot0)).boot _ hstate fun hno => ?_
  obtain ⟨b, hb⟩ := hheld
  exact absurd hb (hno b)

/-- The third boot parses version 1 again. -/
theorem replayed_page_rolls_back :
    LockedRun bench_device (fun _ _ => True)
        ([] ++ boot_blocks first_boot ++ boot_blocks second_boot ++ boot_blocks third_boot)
        (after_boot third_boot) ∧
      ([] ++ boot_blocks first_boot ++ boot_blocks second_boot ++ boot_blocks third_boot).map
        OwnerBlock.config_version = [1, 2, 1] ∧
      ¬ ([] ++ boot_blocks first_boot ++ boot_blocks second_boot ++
        boot_blocks third_boot).Pairwise Follows := by
  obtain ⟨hstate2, -, hstate3, hversions⟩ := three_boots
  refine ⟨?_, hversions, fun h => ?_⟩
  · have hfirst : LockedRun bench_device (fun _ _ => True) ([] ++ boot_blocks first_boot)
        (after_boot first_boot) :=
      (LockedRun.start first_boot).boot _ rfl trivial
    have hsecond : LockedRun bench_device (fun _ _ => True)
        ([] ++ boot_blocks first_boot ++ boot_blocks second_boot) (after_boot second_boot) :=
      (hfirst.tamper (.inl second_boot_slot0)).boot _ hstate2 trivial
    exact (hsecond.tamper (.inr third_boot_slot0)).boot _ hstate3 trivial
  · have hsorted := (h.imp And.left).map OwnerBlock.config_version (S := (· ≤ ·)) fun _ _ => id
    rw [hversions] at hsorted
    exact absurd hsorted (by decide)

end IbexFirmware.Ownership
