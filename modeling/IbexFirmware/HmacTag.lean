/-
The tags of `otcrypto_hmac` and of the calls that take a message in pieces.

The driver writes a whole digest, wherever the tag is to go. `otcrypto_hmac_final` compares the
length of the tag with the digest before, `otcrypto_hmac` does not: it writes behind a tag that is
shorter, and above the lowest security level behind its own array of that length too. Into a tag
of the right length all of them write `tag_of` (`otcrypto_hmac_exact`, `hmac_stream_exact`).
-/
import IbexFirmware.Hmac

set_option autoImplicit false

namespace IbexFirmware.Hmac

open Bytes PowerFail Crypto HardenedMemory Absorb Chunks
open Kdf (Device Words Touch Noted StaysInBounds)

/-! ## The tag -/

/-- The tag of a message. -/
def tag_of (hw : Sha2) (d : DigestLength) (key : BlindedKey) (msg : List u8) : List u32 :=
  hw.tag d (key_block_of hw d key) msg

section tag

variable {hw : Sha2} {d : DigestLength} {key : BlindedKey} {s : Device} {base : List Touch}
  {P : Touch → Prop} {I : Device → Prop}

theorem frame_noted : Frame (Noted base P) := fun _ _ h => h

theorem noted_of_touched {t : Device} (hs : Noted base P s) (ht : t.touched = s.touched) :
    Noted base P t := by
  intro x hx
  rw [ht] at hx
  exact hs x hx

theorem noted_of_places {t : Device} {ts : List Touch} (hs : Noted base P s) (hP : ∀ x ∈ ts, P x)
    (ht : t.touched = s.touched ++ ts) : Noted base P t :=
  noted_of_touched (hs.add hP) ht

theorem write_tag_exact {tag : Words} {ws : List u32} (hlen : ws.length = d.digest_words.toNat) :
    Guarded (tag.write 0 ws) s
      (fun r t => r = tag.set 0 ws ∧ t.touched = s.touched ++ tag.places 0 d.digest_words.toNat) I := by
  rw [← hlen]
  exact Guarded.modify_bind (Guarded.pure ⟨rfl, rfl⟩)

theorem hmac_hmac_exact {tag : Words} (msg : List u8) (hI : I s) :
    Guarded (hmac_hmac hw d (hmac_key_of hw d key) msg tag) s
      (fun r t => r = tag.set 0 (tag_of hw d key msg) ∧
        t.touched = s.touched ++ tag.places 0 d.digest_words.toNat) I := by
  refine Guarded.step_bind (Guarded.step_bind ?_ hI) hI
  refine Guarded.bind key_write_exact ?_
  rintro _ _ rfl
  refine Guarded.step_bind ?_ hI
  rw [hmac_key_of, process_hmac (length_key_block key)]
  exact write_tag_exact (length_tag _ _)

/-- The inner hash is over the message behind its key block, and both fit in 32 bits. -/
theorem hmac_hmac_redundant_exact {msg : ByteBuf} {tag : Words} (hmsg : ¬msg.dangling)
    (hroom : d.block_bytes + msg.len.toNat < 2 ^ 32) (hI : I s) :
    Guarded (hmac_hmac_redundant hw d (hmac_key_of hw d key) msg tag) s
      (fun r t => r = tag.set 0 (tag_of hw d key msg.bytes) ∧
        t.touched = s.touched ++ tag.places 0 d.digest_words.toNat) I := by
  have hlen : ((key_block_of hw d key).map (· ^^^ 0x36) ++ msg.bytes).length ≤
      (d.block_words * 4 + msg.len).toNat := by
    rw [BitVec.toNat_add, toNat_block, Nat.mod_eq_of_lt hroom, List.length_append, List.length_map,
      length_key_block, ByteBuf.length_bytes hmsg]
  rw [hmac_hmac_redundant, hmac_key_of]
  rw [List.take_of_length_le hlen]
  refine Guarded.bind (oneshot_hash_exact _ hI) ?_
  rintro _ _ ⟨rfl, rfl⟩
  refine Guarded.bind (oneshot_hash_exact _ hI) ?_
  rintro _ _ ⟨rfl, rfl⟩
  refine write_tag_exact ?_
  rw [List.length_take, length_digest, Nat.min_eq_left d.digest_words_le]

/-- The tags are compared as far as the tag of the caller goes. -/
theorem compare_tags_exact {n : ℕ} {tag tag_redundant : Words} (hs : Noted base P s)
    (htag : ∀ x ∈ tag.places 0 n, P x) (hredundant : ∀ x ∈ tag_redundant.places 0 n, P x)
    (heq : tag.at 0 n = tag_redundant.at 0 n) :
    Guarded (compare_tags n tag tag_redundant) s (fun r t => r = tag ∧ Noted base P t)
      (Noted base P) := by
  refine Words.read_bind (Words.read_bind (Kdf.hardened_check_bind ?_ (Guarded.pure ⟨rfl, ?_⟩)))
  · rw [heq]
    exact Kdf.memeq_self _
  · exact (hs.add htag).add hredundant

/-- The security levels for which the calls compute something. -/
def SupportedLevel (key : BlindedKey) : Prop :=
  key.config.security_level = kOtcryptoKeySecurityLevelLow ∨
    key.config.security_level = kOtcryptoKeySecurityLevelMedium ∨
    key.config.security_level = kOtcryptoKeySecurityLevelHigh

/-- The message lies in memory beside a block of the hash function. -/
def Beside (d : DigestLength) (msg : ByteBuf) : Prop :=
  ∃ start block : ℕ, 0 < start ∧ start + msg.len.toNat < 2 ^ 32 ∧ 0 < block ∧
    block + d.block_bytes < 2 ^ 32 ∧
    (start + msg.len.toNat ≤ block ∨ block + d.block_bytes ≤ start)

theorem Beside.room {msg : ByteBuf} (h : Beside d msg) : d.block_bytes + msg.len.toNat < 2 ^ 32 := by
  obtain ⟨start, block, -, hstart, -, hblock, hapart⟩ := h
  omega

/-- What the calls of HMAC need of their arguments. -/
structure Called (d : DigestLength) (key : BlindedKey) (msg : ByteBuf) (tag : Word32Buf) : Prop where
  accepted : Accepted d key
  level : SupportedLevel key
  tag_data : tag.data ≠ none
  message : ¬msg.dangling
  beside : Beside d msg

/-- The array for the second tag. -/
def redundant_words (stack : ℕ → u32) (n : ℕ) : Words := ⟨.tag_redundant, n, stack⟩

/-- The tag is computed twice at the higher levels, and the two results are compared. -/
theorem hmac_at_level_exact {stack : ℕ → u32} {msg : ByteBuf} {n : ℕ} {tag : Words}
    (h : Accepted d key) (hlevel : SupportedLevel key) (hmsg : ¬msg.dangling)
    (hroom : d.block_bytes + msg.len.toNat < 2 ^ 32) (hn : n = d.digest_words.toNat)
    (hs : Noted base P s) (htag : ∀ x ∈ tag.places 0 n, P x)
    (hredundant : ∀ x ∈ (redundant_words stack n).places 0 n, P x) :
    Guarded (hmac_at_level hw stack key d msg n tag) s
      (fun r t => r.at 0 n = tag_of hw d key msg.bytes ∧ Noted base P t) (Noted base P) := by
  subst hn
  have hat (a : Words) : (a.set 0 (tag_of hw d key msg.bytes)).at 0 d.digest_words.toNat =
      tag_of hw d key msg.bytes := Words.at_set (length_tag _ _)
  refine Guarded.bind (hmac_key_construct_exact h frame_noted hs) ?_
  rintro _ t ⟨rfl, ht⟩
  have hs := noted_of_touched hs ht
  obtain hlow | hmedium | hhigh := hlevel
  · rw [if_pos hlow]
    refine Guarded.mono (hmac_hmac_exact _ hs) ?_ fun _ => id
    rintro _ t ⟨rfl, ht⟩
    exact ⟨hat _, noted_of_places hs htag ht⟩
  · rw [if_neg (by rw [hmedium]; decide), if_pos hmedium]
    refine Guarded.bind (hmac_hmac_exact _ hs) ?_
    rintro _ t ⟨rfl, ht⟩
    have hs := noted_of_places hs htag ht
    refine Guarded.bind (hmac_key_construct_exact h frame_noted hs) ?_
    rintro _ t ⟨rfl, ht⟩
    have hs := noted_of_touched hs ht
    refine Guarded.bind (hmac_hmac_exact _ hs) ?_
    rintro _ t ⟨rfl, ht⟩
    have hs := noted_of_places hs hredundant ht
    refine Guarded.mono (compare_tags_exact hs htag hredundant ?_) ?_ fun _ => id
    · rw [hat, hat]
    · rintro _ t ⟨rfl, ht⟩
      exact ⟨hat _, ht⟩
  · rw [if_neg (by rw [hhigh]; decide), if_neg (by rw [hhigh]; decide)]
    refine Kdf.hardened_check_bind hhigh ?_
    refine Guarded.bind (hmac_hmac_exact _ hs) ?_
    rintro _ t ⟨rfl, ht⟩
    have hs := noted_of_places hs htag ht
    refine Guarded.bind (hmac_key_construct_exact h frame_noted hs) ?_
    rintro _ t ⟨rfl, ht⟩
    have hs := noted_of_touched hs ht
    refine Guarded.bind (hmac_hmac_redundant_exact hmsg hroom hs) ?_
    rintro _ t ⟨rfl, ht⟩
    have hs := noted_of_places hs hredundant ht
    refine Guarded.mono (compare_tags_exact hs htag hredundant ?_) ?_ fun _ => id
    · rw [hat, hat]
    · rintro _ t ⟨rfl, ht⟩
      exact ⟨hat _, ht⟩

/-- A tag buffer of the length of the digest gets the whole tag. -/
theorem otcrypto_hmac_exact {stack : ℕ → u32} {msg : ByteBuf} {tag : Word32Buf}
    (h : Called d key msg tag) (hlen : tag.len = d.digest_words)
    (hs : Noted base Touch.Inside s) :
    Guarded (otcrypto_hmac hw stack key msg tag) s
      (fun r t => r.at 0 d.digest_words.toNat = tag_of hw d key msg.bytes ∧
        Noted base Touch.Inside t) (Noted base Touch.Inside) := by
  have hn : tag.len.toNat = d.digest_words.toNat := by rw [hlen]
  have htag : ∀ x ∈ (tag_words tag stack).places 0 tag.len.toNat, x.Inside :=
    Kdf.places_inside_iff.mpr (.inr (Nat.zero_add _).le)
  have hredundant : ∀ x ∈ (redundant_words stack tag.len.toNat).places 0 tag.len.toNat, x.Inside :=
    Kdf.places_inside_iff.mpr (.inr (Nat.zero_add _).le)
  rw [otcrypto_hmac, if_neg (not_or.mpr ⟨h.tag_data, h.message⟩)]
  refine Kdf.memshred_bind fun random entropy hrandom => Words.write_bind ?_
  rw [hrandom]
  have hwritten : Noted base Touch.Inside { s with
      entropy := entropy
      touched := s.touched ++ (tag_words tag stack).places 0 tag.len.toNat } := hs.add htag
  refine Guarded.ofExcept_bind h.accepted.check ?_
  refine Guarded.bind (R := fun _ t => Noted base Touch.Inside t) ?_ ?_
  · split_ifs
    · exact Guarded.step hwritten hwritten
    · exact Guarded.pure hwritten
  · intro _ t ht
    refine Guarded.ofExcept_bind h.accepted.mode ?_
    rw [← hn]
    exact hmac_at_level_exact h.accepted h.level h.message h.beside.room hn ht htag hredundant

/-! ## A tag of another length -/

/-- Where every operation is carried out no error is reported, and the places `ts` are touched. -/
def Reaches {α : Type} (p : Proc Device CryptoError α) (s : Device) (ts : List Touch) : Prop :=
  ∀ m : Machine Device, m.mem = s → m.Under (· = .done) →
    (∀ e, (p m).1 ≠ .error e) ∧ ts ⊆ (p m).2.mem.touched

variable {ts : List Touch}

theorem reaches_of_does {α : Type} {p : Proc Device CryptoError α} {Q : α → Device → Prop}
    (h : Does p s Q) (hQ : ∀ a t, Q a t → ts ⊆ t.touched) : Reaches p s ts := by
  intro m hm hdone
  obtain ⟨a, m', hrun, ha, -⟩ := h.run hm hdone
  rw [hrun]
  exact ⟨nofun, hQ a _ ha⟩

theorem Reaches.bind {α β : Type} {p : Proc Device CryptoError α}
    {f : α → Proc Device CryptoError β} {R : α → Device → Prop} (hp : Does p s R)
    (hf : ∀ a t, R a t → Reaches (f a) t ts) : Reaches (p >>= f) s ts := by
  intro m hm hdone
  obtain ⟨a, m', hrun, hR, hdone'⟩ := hp.run hm hdone
  rw [Proc.bind_of_ret hrun]
  exact hf a _ hR m' rfl hdone'

/-- The comparison ends with the tag, or it traps. -/
theorem compare_tags_reaches (n : ℕ) (tag tag_redundant : Words) (hts : ts ⊆ s.touched) :
    Reaches (compare_tags n tag tag_redundant) s ts := by
  refine Reaches.bind (R := fun _ t => ts ⊆ t.touched)
    (Does.modify_bind (Does.pure (List.subset_append_of_subset_left _ hts))) fun lhs t ht => ?_
  refine Reaches.bind (R := fun _ t => ts ⊆ t.touched)
    (Does.modify_bind (Does.pure (List.subset_append_of_subset_left _ ht))) fun rhs t ht => ?_
  by_cases heq : hardened_memeq lhs rhs = kHardenedBoolTrue
  · rw [Kdf.hardened_check, if_pos heq]
    exact reaches_of_does (Does.pure (Q := fun _ t => ts ⊆ t.touched) ht) fun _ _ => id
  · rw [Kdf.hardened_check, if_neg heq]
    intro m hm _
    subst hm
    refine ⟨fun e h => ?_, ht⟩
    cases h

/-- Whatever the length of the buffer, a whole digest is written to it. -/
theorem hmac_at_level_reaches {stack : ℕ → u32} {msg : ByteBuf} {n : ℕ} {tag : Words}
    (h : Accepted d key) (hlevel : SupportedLevel key) (hmsg : ¬msg.dangling)
    (hroom : d.block_bytes + msg.len.toNat < 2 ^ 32) :
    Reaches (hmac_at_level hw stack key d msg n tag) s (tag.places 0 d.digest_words.toNat) := by
  have hconstruct (t : Device) : Does (hmac_key_construct hw key d) t _ :=
    (hmac_key_construct_exact (I := fun _ => True) h (fun _ _ => id) trivial).does
  have hhmac (t : Device) (a : Words) :
      Does (hmac_hmac hw d (hmac_key_of hw d key) msg.bytes a) t _ :=
    (hmac_hmac_exact (I := fun _ => True) msg.bytes trivial).does
  refine Reaches.bind (hconstruct s) ?_
  rintro _ t ⟨rfl, -⟩
  obtain hlow | hmedium | hhigh := hlevel
  · rw [if_pos hlow]
    refine reaches_of_does (hhmac t tag) ?_
    rintro _ u ⟨-, hu⟩
    rw [hu]
    exact List.subset_append_right _ _
  · rw [if_neg (by rw [hmedium]; decide), if_pos hmedium]
    refine Reaches.bind (hhmac t tag) ?_
    rintro tag' u ⟨-, hu⟩
    refine Reaches.bind (hconstruct u) ?_
    rintro _ v ⟨rfl, hv⟩
    refine Reaches.bind (hhmac v _) ?_
    rintro _ w ⟨-, hw⟩
    refine compare_tags_reaches _ _ _ ?_
    rw [hw, hv, hu]
    exact List.subset_append_of_subset_left _ (List.subset_append_right _ _)
  · rw [if_neg (by rw [hhigh]; decide), if_neg (by rw [hhigh]; decide), Kdf.hardened_check,
      if_pos hhigh]
    refine Reaches.bind (R := fun _ _ => True) (Does.pure trivial) fun _ t _ => ?_
    refine Reaches.bind (hhmac t tag) ?_
    rintro tag' u ⟨-, hu⟩
    refine Reaches.bind (hconstruct u) ?_
    rintro _ v ⟨rfl, hv⟩
    refine Reaches.bind
      (hmac_hmac_redundant_exact (I := fun _ => True) hmsg hroom trivial).does ?_
    rintro _ w ⟨-, hw⟩
    refine compare_tags_reaches _ _ _ ?_
    rw [hw, hv, hu]
    exact List.subset_append_of_subset_left _ (List.subset_append_right _ _)

/-- Whatever the length of the tag is, it is not refused, and a whole digest is written. -/
theorem otcrypto_hmac_reaches {stack : ℕ → u32} {msg : ByteBuf} {tag : Word32Buf}
    (h : Called d key msg tag) : Reaches (otcrypto_hmac hw stack key msg tag) s
      ((tag_words tag stack).places 0 d.digest_words.toNat) := by
  rw [otcrypto_hmac, if_neg (not_or.mpr ⟨h.tag_data, h.message⟩)]
  refine Reaches.bind (R := fun _ _ => True) (Does.get (Does.modify_bind (Does.pure trivial)))
    fun random t _ => ?_
  refine Reaches.bind (R := fun r _ => r = (tag_words tag stack).set 0 random)
    (Does.modify_bind (Does.pure rfl)) ?_
  rintro _ t rfl
  refine Reaches.bind (Does.ofExcept (Q := fun _ _ => True) h.accepted.check trivial) fun _ t _ => ?_
  refine Reaches.bind (R := fun _ _ => True) ?_ fun _ t _ => ?_
  · split_ifs
    · exact Does.step trivial
    · exact Does.pure trivial
  · refine Reaches.bind (R := fun r _ => r = d) (Does.ofExcept h.accepted.mode rfl) ?_
    rintro _ t rfl
    exact hmac_at_level_reaches h.accepted h.level h.message h.beside.room

end tag

/-! ## The tag of a message in pieces -/

section stream

variable {hw : Sha2} {d : DigestLength} {key : BlindedKey} {s : Device} {base : List Touch}
  {P : Touch → Prop}

theorem hmac_final_exact {ctx : HmacCtx} {m : List u8} {tag : Words} (h : Holds hw d key ctx m)
    (hs : Noted base P s) (htag : ∀ x ∈ tag.places 0 d.digest_words.toNat, P x) :
    Guarded (hmac_final hw ctx tag) s
      (fun r t => r = tag.set 0 (tag_of hw d key m) ∧ Noted base P t) (Noted base P) := by
  refine Guarded.step_bind (Guarded.bind (context_restore_exact h.ctx_key) ?_) hs
  rintro _ _ ⟨rfl, rfl⟩
  refine Guarded.step_bind ?_ hs
  have hprocess : (((restored hw ctx).feed hw ctx.partial_block).process hw).take
      ctx.digest_wordlen.toNat = tag_of hw d key m := by
    rw [h.block, h.kept, feed_feed, full_append_rest, h.digest_words]
    exact process_hmac (length_key_block key) m
  rw [hprocess]
  refine Guarded.bind (write_tag_exact (length_tag _ _)) ?_
  rintro _ t ⟨rfl, ht⟩
  have hs := noted_of_places hs htag ht
  exact Guarded.step_bind (Guarded.pure ⟨rfl, hs⟩) hs

/-- A message in pieces gets the tag of the whole. -/
theorem hmac_stream_exact {stack : ℕ → u32} {pieces : List ByteBuf} {tag : Word32Buf}
    (h : Accepted d key) (hlow : key.config.security_level = kOtcryptoKeySecurityLevelLow)
    (hdata : tag.data ≠ none) (hlen : tag.len = d.digest_words) (hpieces : ∀ p ∈ pieces, ¬p.dangling)
    (hsmall : 8 * (pieces.flatMap ByteBuf.bytes).length < 2 ^ 64) (hs : Noted base P s)
    (htag : ∀ x ∈ (tag_words tag stack).places 0 d.digest_words.toNat, P x) :
    Guarded (hmac_stream hw stack key pieces tag) s
      (fun r t => r.at 0 d.digest_words.toNat = tag_of hw d key (pieces.flatMap ByteBuf.bytes) ∧
        Noted base P t) (Noted base P) := by
  refine Guarded.bind (R := fun r t => Holds hw d key r [] ∧ Noted base P t) ?_ ?_
  · refine Guarded.ofExcept_bind h.check ?_
    rw [if_neg (not_not.mpr hlow)]
    refine Guarded.ofExcept_bind h.mode ?_
    refine Guarded.bind (hmac_key_construct_exact h frame_noted hs) ?_
    rintro _ t ⟨rfl, ht⟩
    exact Guarded.pure ⟨holds_init, noted_of_touched hs ht⟩
  · rintro ctx t ⟨hctx, hs⟩
    refine Guarded.bind (hmac_updates_exact pieces hctx hpieces hsmall hs) ?_
    rintro ctx t ⟨hctx, rfl⟩
    rw [otcrypto_hmac_final, if_neg hdata, if_neg (not_not.mpr (hlen.trans hctx.digest_words.symm))]
    refine Guarded.mono (hmac_final_exact hctx hs htag) ?_ fun _ => id
    rintro _ t ⟨rfl, ht⟩
    exact ⟨Words.at_set (length_tag _ _), ht⟩

/-- Above the lowest level there are no messages in pieces. -/
theorem hmac_stream_refuses {stack : ℕ → u32} {pieces : List ByteBuf} {tag : Word32Buf}
    (hlevel : key.config.security_level ≠ kOtcryptoKeySecurityLevelLow) :
    Refuses (hmac_stream hw stack key pieces tag) s (fun _ => True) := by
  refine Refuses.bind_left (Refuses.ofExcept trivial fun _ _ => ?_)
  rw [if_pos hlevel]
  exact Refuses.throw trivial

end stream

/-! ## The buffer of the tag -/

/-- `otcrypto_hmac` touches nothing but the tag and its second tag, refuses exactly the tags of
another length than that of the digest, and agrees with the calls that take the message in
pieces. -/
structure RespectsTag (hw : Sha2) (stack : ℕ → u32) (key : BlindedKey) (d : DigestLength)
    (msg : ByteBuf) (tag : Word32Buf) : Prop where
  bounds : StaysInBounds (otcrypto_hmac hw stack key msg tag)
  bad_args : ∀ m : Machine Device, m.Under (· = .done) →
    ((otcrypto_hmac hw stack key msg tag m).1 = .error .OTCRYPTO_BAD_ARGS ↔ tag.len ≠ d.digest_words)
  streams : ∀ (pieces : List ByteBuf) (m m' : Machine Device) (r r' : Words),
    (∀ p ∈ pieces, ¬p.dangling) → pieces.flatMap ByteBuf.bytes = msg.bytes →
    (otcrypto_hmac hw stack key msg tag m).1 = .ret r →
    (hmac_stream hw stack key pieces tag m').1 = .ret r' →
    r.at 0 tag.len.toNat = r'.at 0 tag.len.toNat

section buffer

variable {hw : Sha2} {stack : ℕ → u32} {d : DigestLength} {key : BlindedKey} {msg : ByteBuf}
  {tag : Word32Buf}

theorem ret_eq {α : Type} {p : Proc Device CryptoError α} {Q : α → Device → Prop}
    {m : Machine Device} {r : α} (h : Does p m.mem Q) (hret : (p m).1 = .ret r) :
    Q r (p m).2.mem :=
  h.of_ret rfl (Prod.ext hret rfl)

theorem streams_agree (h : Called d key msg tag) (hlen : tag.len = d.digest_words)
    {pieces : List ByteBuf} {m m' : Machine Device} {r r' : Words}
    (hpieces : ∀ p ∈ pieces, ¬p.dangling) (hwhole : pieces.flatMap ByteBuf.bytes = msg.bytes)
    (hr : (otcrypto_hmac hw stack key msg tag m).1 = .ret r)
    (hr' : (hmac_stream hw stack key pieces tag m').1 = .ret r') :
    r.at 0 tag.len.toNat = r'.at 0 tag.len.toNat := by
  by_cases hlow : key.config.security_level = kOtcryptoKeySecurityLevelLow
  · have hsmall : 8 * (pieces.flatMap ByteBuf.bytes).length < 2 ^ 64 := by
      have hlt := msg.len.isLt
      rw [hwhole, ByteBuf.length_bytes h.message]
      omega
    have hbase : Noted m.mem.touched Touch.Inside m.mem := fun _ => .inl
    have hone := ret_eq (otcrypto_hmac_exact h hlen hbase).does hr
    have hbase' : Noted m'.mem.touched (fun _ => True) m'.mem := fun _ => .inl
    have hmany := ret_eq (hmac_stream_exact h.accepted hlow h.tag_data hlen hpieces hsmall hbase'
      fun _ _ => trivial).does hr'
    rw [hlen, hone.1, hmany.1, hwhole]
  · obtain ⟨hmeets, -⟩ := hmac_stream_refuses hlow (fun _ => True) m' rfl fun _ => trivial
    rw [hr'] at hmeets
    exact hmeets.elim

theorem otcrypto_hmac_in_bounds (h : Called d key msg tag) (hlen : tag.len = d.digest_words) :
    StaysInBounds (otcrypto_hmac hw stack key msg tag) := by
  intro m hm hpower x hx
  have hnoted : Noted [] Touch.Inside m.mem := by
    intro y hy
    rw [hm] at hy
    exact .inl hy
  obtain ⟨r, -, -, ht⟩ | ⟨e, -, ht⟩ := (otcrypto_hmac_exact h hlen hnoted).run rfl hpower
  all_goals exact (ht x hx).resolve_left List.not_mem_nil

/-- Behind a tag that is shorter than a digest the rest of the digest is written. -/
theorem otcrypto_hmac_overruns (hw : Sha2) (stack : ℕ → u32) (h : Called d key msg tag)
    (hlen : tag.len.toNat < d.digest_words.toNat) :
    ¬StaysInBounds (otcrypto_hmac hw stack key msg tag) := by
  intro hstays
  let m : Machine Device := Machine.sound ⟨⟨fun _ => 0, 0⟩, []⟩
  have hrun : Reaches (otcrypto_hmac hw stack key msg tag) m.mem _ := otcrypto_hmac_reaches h
  obtain ⟨-, hreaches⟩ := hrun m rfl fun _ => rfl
  have hinside := hstays m rfl fun _ => Fate.noConfusion
  have hplaces : d.digest_words.toNat = 0 ∨ 0 + d.digest_words.toNat ≤ tag.len.toNat :=
    Kdf.places_inside_iff.mp fun x hx => hinside x (hreaches hx)
  omega

theorem not_bad_args (h : Called d key msg tag) {m : Machine Device} (hdone : m.Under (· = .done)) :
    (otcrypto_hmac hw stack key msg tag m).1 ≠ .error .OTCRYPTO_BAD_ARGS :=
  (otcrypto_hmac_reaches h m rfl hdone).1 _

theorem hmac_respects_tag_iff (hw : Sha2) (stack : ℕ → u32) (h : Called d key msg tag) :
    RespectsTag hw stack key d msg tag ↔ tag.len = d.digest_words := by
  constructor
  · intro hrespects
    by_contra hne
    exact not_bad_args h (m := Machine.sound ⟨⟨fun _ => 0, 0⟩, []⟩) (fun _ => rfl)
      ((hrespects.bad_args _ fun _ => rfl).mpr hne)
  · intro hlen
    refine ⟨otcrypto_hmac_in_bounds h hlen, fun m hdone => ?_, fun pieces m m' r r' => ?_⟩
    · exact iff_of_false (not_bad_args h hdone) (not_not.mpr hlen)
    · exact streams_agree h hlen

end buffer

/-! ## SHA-256 -/

def sha256_words (s : Sha256.State) : List u32 := [s.a, s.b, s.c, s.d, s.e, s.f, s.g, s.h]

def sha256_state (ws : List u32) : Sha256.State :=
  ⟨ws.getD 0 0, ws.getD 1 0, ws.getD 2 0, ws.getD 3 0, ws.getD 4 0, ws.getD 5 0, ws.getD 6 0,
    ws.getD 7 0⟩

/-- The block with SHA-256. The digest registers behind the digest are zero, and nothing is said
about the other digest lengths. -/
def sha256_block : Sha2 where
  iv _ := sha256_words Sha256.State.init
  compress _ state block := sha256_words (Sha256.compress (sha256_state state) block)
  finish _ state bits bytes :=
    let padded := bytes ++ [0x80] ++ List.replicate ((119 - bytes.length % 64) % 64) 0 ++
      Sha256.be64 bits
    let state := absorb 64 Sha256.compress (sha256_state state) padded
    (sha256_words state).map bswap32 ++ List.replicate 8 0
  length_finish _ _ _ _ := rfl

example : sha256_block.hash .kDigestLengthSha256 [0x61, 0x62, 0x63] =
    Kdf.sha256_bytes [0x61, 0x62, 0x63] := by decide +kernel

def sample_tag (n : ℕ) (h : n < 2 ^ 32) : Word32Buf :=
  ⟨some (List.replicate n 0), BitVec.ofNat 32 n, fun _ hws => by
    obtain rfl := Option.some.inj hws
    rw [List.length_replicate, BitVec.toNat_ofNat, Nat.mod_eq_of_lt h]⟩

theorem called_sample (n : ℕ) (h : n < 2 ^ 32) :
    Called .kDigestLengthSha256 (Kdf.sample_key 20) (Kdf.sample_bytes [1, 2, 3] (by decide))
      (sample_tag n h) where
  accepted :=
    have husable := Kdf.usable_sample_key 20
    ⟨husable.check, husable.length, rfl, husable.holds⟩
  level := .inl rfl
  tag_data := Option.some_ne_none _
  message := by decide
  beside := ⟨1, 4, by decide, by decide, by decide, by decide, .inl (by decide)⟩

theorem hmac_respects_tag_8 :
    RespectsTag sha256_block (fun _ => 0) (Kdf.sample_key 20) .kDigestLengthSha256
      (Kdf.sample_bytes [1, 2, 3] (by decide)) (sample_tag 8 (by decide)) :=
  (hmac_respects_tag_iff sha256_block (fun _ => 0) (called_sample 8 (by decide))).mpr rfl

/-- A tag of four words for SHA-256: it is taken, and four words are written behind it. -/
theorem hmac_overruns_tag_4 :
    Called .kDigestLengthSha256 (Kdf.sample_key 20) (Kdf.sample_bytes [1, 2, 3] (by decide))
      (sample_tag 4 (by decide)) ∧
    ¬StaysInBounds (otcrypto_hmac sha256_block (fun _ => 0) (Kdf.sample_key 20)
      (Kdf.sample_bytes [1, 2, 3] (by decide)) (sample_tag 4 (by decide))) ∧
    ¬RespectsTag sha256_block (fun _ => 0) (Kdf.sample_key 20) .kDigestLengthSha256
      (Kdf.sample_bytes [1, 2, 3] (by decide)) (sample_tag 4 (by decide)) := by
  have hcalled := called_sample 4 (by decide)
  have hoverrun := otcrypto_hmac_overruns sha256_block (fun _ => 0) hcalled (by decide)
  exact ⟨hcalled, hoverrun, fun hrespects => hoverrun hrespects.bounds⟩

end IbexFirmware.Hmac
