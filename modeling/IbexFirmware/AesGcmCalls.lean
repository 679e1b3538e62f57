/-
Runs of calls on contexts that share a key.

`Inv` is what holds between the calls: the key structure has the property `P`, and each context
in use has taken in its message. `P` is `Stands` for as long as nobody has masked the shares
through a context, and `Held` from then on: the shares still stand for the key, but the
checksum in the key structure is that of other shares.
-/
import IbexFirmware.AesGcmShared

set_option autoImplicit false

namespace IbexFirmware.Aes

open Bytes PowerFail Crypto HardenedMemory Splice Chunks Session

/-! ## What holds between the calls -/

section between

variable (hw : Hardware) (config : KeyConfig) (K : List u32) (addr : ℕ)

/-- The key structure has the property `P`, and every context in use has taken in its message. -/
structure Inv (P : BlindedKey → Prop) (messages : Messages) (s : Caller) : Prop where
  key : KeyAt P addr s.dev
  live : ∀ c m, messages c = some m → Live hw config K addr (s.contexts c) m

/-- What `expected` says is returned, unless a driver fails, and the invariant is kept. If it
says nothing the call is refused. -/
def Serves {α : Type} (P : BlindedKey → Prop) (messages : Messages) (s : Caller)
    (p : Proc Caller CryptoError α) (expected : Option (α × Messages)) : Prop :=
  match expected with
  | some (reply, messages') =>
      Guarded p s (fun a t => a = reply ∧ Inv hw config K addr P messages' t)
        (Inv hw config K addr P messages)
  | none => Refuses p s (Inv hw config K addr P messages)

end between

section calls

variable {hw : Hardware} {config : KeyConfig} {K : List u32} {addr : ℕ} {P : BlindedKey → Prop}
  {messages : Messages} {s : Caller} {α β : Type}

theorem Inv.save (h : Inv hw config K addr P messages s) {ctx : AesGcmContext} {m : Message}
    (c : ℕ) (hlive : Live hw config K addr ctx m) :
    Inv hw config K addr P (Function.update messages c (some m))
      { s with contexts := Function.update s.contexts c ctx } := by
  refine ⟨h.key, fun c' m' hm' => ?_⟩
  by_cases hc : c' = c
  · subst hc
    rw [Function.update_self] at hm'
    obtain rfl := Option.some.inj hm'
    dsimp only
    rw [Function.update_self]
    exact hlive
  · rw [Function.update_of_ne hc] at hm'
    dsimp only
    rw [Function.update_of_ne hc]
    exact h.live c' m' hm'

/-- A context that is no longer in use may hold anything. -/
theorem Inv.drop (h : Inv hw config K addr P messages s) (c : ℕ) (ctx : AesGcmContext) :
    Inv hw config K addr P (Function.update messages c none)
      { s with contexts := Function.update s.contexts c ctx } := by
  refine ⟨h.key, fun c' m' hm' => ?_⟩
  by_cases hc : c' = c
  · rw [hc, Function.update_self] at hm'
    cases hm'
  · rw [Function.update_of_ne hc] at hm'
    dsimp only
    rw [Function.update_of_ne hc]
    exact h.live c' m' hm'

/-- A program on the device that keeps the key. -/
theorem Inv.on_device (h : Inv hw config K addr P messages s) {p : Proc Device CryptoError α}
    {Q : α → Device → Prop} (hp : Guarded p s.dev (fun a d => Q a d ∧ KeyAt P addr d) (KeyAt P addr)) :
    Guarded (zoom device p) s (fun a t => Q a t.dev ∧ Inv hw config K addr P messages t)
      (Inv hw config K addr P messages) :=
  Guarded.zoom (hp.mono (fun _ _ hd => ⟨hd.1, hd.2, h.live⟩) fun _ hd => ⟨hd, h.live⟩)

theorem Inv.on_device_refuses (h : Inv hw config K addr P messages s) {p : Proc Device CryptoError α}
    (hp : Refuses p s.dev (KeyAt P addr)) :
    Refuses (zoom device p) s (Inv hw config K addr P messages) :=
  Refuses.zoom (hp.mono fun _ hd => ⟨hd, h.live⟩)

/-- A program on the device that does not matter to the caller. -/
theorem Inv.quiet (h : Inv hw config K addr P messages s) {p : Proc Device CryptoError α}
    (hp : Guarded p s.dev (fun _ d => d.keys = s.dev.keys) fun d => d.keys = s.dev.keys) :
    Guarded (zoom device p) s (fun _ => Inv hw config K addr P messages)
      (Inv hw config K addr P messages) := by
  exact Guarded.zoom (hp.mono (fun _ d hd => ⟨h.key.congr hd, h.live⟩)
    fun d hd => ⟨h.key.congr hd, h.live⟩)

theorem Inv.entropy_check (h : Inv hw config K addr P messages s) :
    Guarded (zoom device entropy_complex_check) s (fun _ => Inv hw config K addr P messages)
      (Inv hw config K addr P messages) :=
  h.quiet (Guarded.step rfl rfl)

theorem Inv.disable_icache (h : Inv hw config K addr P messages s) :
    Guarded (zoom device ibex_disable_icache) s (fun _ => Inv hw config K addr P messages)
      (Inv hw config K addr P messages) :=
  h.quiet (Guarded.get (Guarded.modify_bind (Guarded.pure rfl)))

theorem Inv.shred (h : Inv hw config K addr P messages s) (n : ℕ) :
    Guarded (zoom device (memshred n)) s (fun _ => Inv hw config K addr P messages)
      (Inv hw config K addr P messages) := by
  refine h.quiet ((memshred_entropy n).mono ?_ fun _ => id)
  rintro _ _ ⟨entropy, rfl⟩
  rfl

/-- The end of every call with a key in shares cannot fail. -/
theorem Inv.close (h : Inv hw config K addr P messages s) {key : AesKey}
    (hside : key.sideload = kHardenedBoolFalse) (icache_saved_state : Bool) {I : Caller → Prop} :
    Guarded (zoom device (close_key icache_saved_state key)) s
      (fun _ => Inv hw config K addr P messages) I := by
  refine Guarded.zoom ((close_key_soft hside icache_saved_state).mono (fun _ d hd => ?_) fun _ => id)
  refine ⟨?_, h.live⟩
  change P (d.keys addr)
  rw [hd]
  exact h.key

/-! ## Contexts -/

/-- A program after one that keeps the invariant. -/
theorem serves_bind {messages' : Messages} {p : Proc Caller CryptoError β}
    {f : β → Proc Caller CryptoError α} {expected : Option (α × Messages)} {Q : β → Caller → Prop}
    (hp : Guarded p s Q (Inv hw config K addr P messages'))
    (hf : ∀ b t, Q b t → Serves hw config K addr P messages' t (f b) expected) :
    Serves hw config K addr P messages' s (p >>= f) expected := by
  cases expected with
  | none => exact Refuses.bind hp hf
  | some r => exact Guarded.bind hp hf

theorem serves_restore {f : AesGcmContext → Proc Caller CryptoError α} {c : ℕ}
    {expected : Option (α × Messages)}
    (h : Serves hw config K addr P messages s (f (s.contexts c)) expected) :
    Serves hw config K addr P messages s (gcm_context_restore c >>= f) expected := by
  refine serves_bind (Q := fun ctx t => ctx = s.contexts c ∧ t = s)
    (Guarded.get (Guarded.pure ⟨rfl, rfl⟩)) ?_
  rintro _ _ ⟨rfl, rfl⟩
  exact h

/-- A NULL pointer is refused, an empty piece changes nothing, and any other goes to the device. -/
theorem update_aad_serves (hsoft : config.hw_backed = kHardenedBoolFalse)
    (h : Inv hw config K addr P messages s) {c : ℕ} {m : Message} (hm : messages c = some m)
    (aad : ByteBuf) :
    Serves hw config K addr P messages s (otcrypto_aes_gcm_update_aad hw (some c) aad)
      ((m.take_aad aad).map fun m' => ((), Function.update messages c (some m'))) := by
  unfold otcrypto_aes_gcm_update_aad
  dsimp only
  by_cases hdata : aad.data = none
  · rw [if_pos hdata, Message.take_aad, if_pos hdata]
    exact Refuses.throw h
  rw [if_neg hdata]
  refine serves_bind h.entropy_check fun _ t ht => ?_
  by_cases hlen : aad.len = 0
  · rw [if_pos hlen, Message.take_aad, if_neg hdata, if_pos hlen, Option.map_some,
      ← hm, Function.update_eq_self]
    exact Guarded.pure ⟨rfl, ht⟩
  rw [if_neg hlen, take_aad_eq hdata hlen]
  refine serves_bind ht.disable_icache fun icache_saved_state u hu => ?_
  have hlive := hu.live c m hm
  refine serves_restore ?_
  split_ifs with hok
  · refine Guarded.bind (hu.on_device ((update_aad_loaded_guarded hsoft hlive hok.1 hok.2).mono
      (fun _ _ hd => ⟨hd.1, hu.key.kept hd.2⟩) fun _ => hu.key.kept)) ?_
    rintro ctx' v ⟨hlive', hv⟩
    refine Guarded.modify_bind ((Inv.close (hv.save c hlive') (hlive'.sideload hsoft) _).mono
      (fun _ _ hw => ⟨rfl, hw⟩) fun _ => id)
  · have hpos : aad.bytes.length ≠ 0 := by
      rw [length_bytes_of_data hdata]
      exact fun hzero => hlen (BitVec.eq_of_toNat_eq hzero)
    refine Refuses.bind_left (hu.on_device_refuses ?_)
    exact (update_aad_loaded_refuses hsoft hlive hpos hok).mono fun _ => hu.key.kept

/-- A call that masks the shares leaves a key structure that is only `Held`. -/
theorem update_encrypted_data_serves (hsoft : config.hw_backed = kHardenedBoolFalse)
    (h : Inv hw config K addr P messages s) {c : ℕ} {m : Message} (hm : messages c = some m)
    {input output : ByteBuf}
    (hmask : input.data ≠ none → output.data ≠ none → input.len ≠ 0 → P = Held hw config K) :
    Serves hw config K addr P messages s (otcrypto_aes_gcm_update_encrypted_data hw (some c) input output)
      ((m.take_text (hw.cipher K) input output).map fun r =>
        (r.1, Function.update messages c (some r.2))) := by
  unfold otcrypto_aes_gcm_update_encrypted_data
  dsimp only
  by_cases hdata : input.data = none ∨ output.data = none
  · rw [if_pos hdata, Message.take_text, if_pos hdata]
    exact Refuses.throw h
  rw [if_neg hdata]
  refine serves_bind h.entropy_check fun _ t ht => ?_
  by_cases hlen : input.len = 0
  · rw [if_pos hlen, Message.take_text, if_neg hdata, if_pos hlen, Option.map_some, ← hm,
      Function.update_eq_self]
    exact Guarded.pure ⟨rfl, ht⟩
  obtain ⟨hin, hout⟩ := not_or.mp hdata
  obtain rfl := hmask hin hout hlen
  rw [if_neg hlen, take_text_eq hdata hlen]
  refine serves_bind ht.disable_icache fun icache_saved_state u hu => ?_
  have hlive := hu.live c m hm
  refine serves_restore ?_
  split_ifs with hok
  · refine Guarded.bind (hu.on_device ((update_encrypted_data_loaded_guarded hsoft hu.key hlive hin
      hok.1 hok.2).mono (fun _ _ hd => ⟨hd.2, hd.1⟩) fun _ => id)) ?_
    rintro ⟨ctx', written⟩ v ⟨⟨hlive', rfl⟩, hv⟩
    refine Guarded.modify_bind (Guarded.bind
      (Inv.close (hv.save c hlive') (hlive'.sideload hsoft) _) fun _ w hw => ?_)
    exact Guarded.pure ⟨rfl, hw⟩
  · have hpos : input.bytes.length ≠ 0 := by
      rw [length_bytes_of_data hin]
      exact fun hzero => hlen (BitVec.eq_of_toNat_eq hzero)
    exact Refuses.bind_left (hu.on_device_refuses
      (update_encrypted_data_loaded_refuses hsoft hu.key hlive hin hpos hok))

/-- The end of a message. The context is no longer in use. -/
theorem gcm_final_serves (hsoft : config.hw_backed = kHardenedBoolFalse) (layout : Layout)
    (h : Inv hw config K addr P messages s) {c : ℕ} {m : Message} (hm : messages c = some m)
    {final : AesGcmContext → Proc Device CryptoError α} {result : α} {tag_words tag_len : u32}
    {output : ByteBuf} (hmask : aes_gcm_check_tag_length tag_words tag_len = .ok () →
      P = Held hw config K)
    (hfinal : aes_gcm_check_tag_length tag_words tag_len = .ok () →
      ∀ t ctx', KeyReady t ctx'.key K → Live hw config K addr ctx' m →
        Guarded (final ctx') t (fun r u => r = result ∧ Kept t u) (Kept t)) :
    Serves hw config K addr P messages s (gcm_final hw layout final c tag_words tag_len output)
      (if aes_gcm_check_tag_length tag_words tag_len = .ok () ∧
          m.text.length % 16 ≤ output.len.toNat then
        some (result, Function.update messages c none) else none) := by
  unfold gcm_final
  refine serves_bind h.entropy_check fun _ t ht => ?_
  refine serves_bind ht.disable_icache fun icache_saved_state u hu => ?_
  by_cases hcheck : aes_gcm_check_tag_length tag_words tag_len = .ok ()
  · obtain rfl := hmask hcheck
    have hlive := hu.live c m hm
    refine serves_bind (Q := fun _ v => v = u) (by rw [hcheck]; exact Guarded.pure rfl) ?_
    rintro _ _ rfl
    refine serves_restore ?_
    split_ifs with hok
    · refine Guarded.bind (hu.on_device ((final_loaded_guarded hsoft hu.key hlive hok.2
        (hfinal hcheck)).mono (Q := fun r d => (r.1.sideload = kHardenedBoolFalse ∧ r.2 = result) ∧
          KeyAt (Held hw config K) addr d) (fun _ _ hd => ⟨⟨hd.1, hd.2.1⟩, hd.2.2⟩) fun _ => id)) ?_
      rintro ⟨key, r⟩ v ⟨⟨hside, rfl⟩, hv⟩
      refine Guarded.bind (R := fun _ => Inv hw config K addr (Held hw config K)
        (Function.update messages c none)) (Guarded.bind (hv.shred _) fun random w hshred =>
          Guarded.modify (hshred.drop c _)) fun _ w hdrop => ?_
      exact Guarded.bind (hdrop.close hside _) fun _ x hx => Guarded.pure ⟨rfl, hx⟩
    · exact Refuses.bind_left (hu.on_device_refuses (final_loaded_refuses hsoft hu.key hlive
        fun hfits => hok ⟨hcheck, hfits⟩))
  · rw [if_neg fun hok => hcheck hok.1]
    exact Refuses.ofExcept hu fun b hb => absurd hb hcheck

/-- The checks of the last two functions, in the order of `Message.ends`. -/
theorem ends_iff {m : Message} {auth_tag : Word32Buf} {tag_len : u32} {output : ByteBuf}
    (hdata : ¬ (auth_tag.data = none ∨ output.dangling)) : m.ends auth_tag tag_len output ↔
      aes_gcm_check_tag_length auth_tag.len tag_len = .ok () ∧
        m.text.length % 16 ≤ output.len.toNat := by
  obtain ⟨htag, hout⟩ := not_or.mp hdata
  rw [Message.ends, and_iff_right htag, and_iff_right hout]

theorem encrypt_final_serves (hsoft : config.hw_backed = kHardenedBoolFalse) (layout : Layout)
    (h : Inv hw config K addr P messages s) {c : ℕ} {m : Message} (hm : messages c = some m)
    {tag_len : u32} {ciphertext : ByteBuf} {auth_tag : Word32Buf}
    (hmask : masks_at_end (some c) auth_tag tag_len ciphertext → P = Held hw config K) :
    Serves hw config K addr P messages s
      (otcrypto_aes_gcm_encrypt_final hw layout (some c) tag_len ciphertext auth_tag)
      (if m.ends auth_tag tag_len ciphertext then
        some ((m.tag (hw.cipher K) auth_tag.len.toNat, m.last (hw.cipher K)),
          Function.update messages c none) else none) := by
  unfold otcrypto_aes_gcm_encrypt_final
  dsimp only
  by_cases hdata : auth_tag.data = none ∨ ciphertext.dangling
  · rw [if_pos hdata, if_neg fun hends => hdata.elim hends.1 hends.2.1]
    exact Refuses.throw h
  obtain ⟨htag, hout⟩ := not_or.mp hdata
  rw [if_neg hdata]
  simp only [ends_iff hdata]
  refine serves_bind (h.shred _) fun _ t ht => ?_
  refine gcm_final_serves hsoft layout ht hm (fun hcheck => hmask ⟨nofun, htag, hout, hcheck⟩) ?_
  intro _ u ctx' hready hlive
  exact encrypt_final_guarded hready hlive _

theorem decrypt_final_serves (hsoft : config.hw_backed = kHardenedBoolFalse) (layout : Layout)
    (h : Inv hw config K addr P messages s) {c : ℕ} {m : Message} (hm : messages c = some m)
    {tag_len : u32} {plaintext : ByteBuf} {auth_tag : Word32Buf}
    (hmask : masks_at_end (some c) auth_tag tag_len plaintext → P = Held hw config K) :
    Serves hw config K addr P messages s
      (otcrypto_aes_gcm_decrypt_final hw layout (some c) auth_tag tag_len plaintext)
      (if m.ends auth_tag tag_len plaintext then
        some (m.check (hw.cipher K) auth_tag.words, Function.update messages c none) else none) := by
  unfold otcrypto_aes_gcm_decrypt_final
  dsimp only
  by_cases hdata : auth_tag.data = none ∨ plaintext.dangling
  · rw [if_pos hdata, if_neg fun hends => hdata.elim hends.1 hends.2.1]
    exact Refuses.throw h
  obtain ⟨htag, hout⟩ := not_or.mp hdata
  rw [if_neg hdata]
  simp only [ends_iff hdata]
  refine gcm_final_serves hsoft layout h hm (fun hcheck => hmask ⟨nofun, htag, hout, hcheck⟩) ?_
  intro hcheck u ctx' hready hlive
  refine decrypt_final_guarded hready hlive ?_
  rw [Word32Buf.length_words htag]
  exact tag_words_le hcheck

/-! ## Whole messages -/

theorem encrypt_serves (h : Inv hw config K addr (Stands hw config K) messages s) {plaintext : ByteBuf}
    {iv : Word32Buf} {aad : ByteBuf} {tag_len : u32} {ciphertext : ByteBuf} {auth_tag : Word32Buf}
    (local_ctx : AesGcmContext) :
    Serves hw config K addr (Stands hw config K) messages s
      (zoom device (otcrypto_aes_gcm_encrypt hw (some addr) plaintext iv aad tag_len ciphertext
        auth_tag local_ctx))
      (if AcceptedArgs plaintext iv aad tag_len auth_tag ciphertext then
        some (encrypted (hw.cipher K) auth_tag.len.toNat (word_bytes iv.words) aad.bytes
          plaintext.bytes, messages) else none) := by
  split_ifs with hargs
  · exact h.on_device (Q := fun r _ => r = _) (otcrypto_aes_gcm_encrypt_guarded h.key hargs local_ctx)
  · exact h.on_device_refuses (otcrypto_aes_gcm_encrypt_refuses h.key hargs local_ctx)

theorem decrypt_serves (h : Inv hw config K addr (Stands hw config K) messages s)
    {ciphertext : ByteBuf} {iv : Word32Buf} {aad : ByteBuf} {tag_len : u32} {auth_tag : Word32Buf}
    {plaintext : ByteBuf} (local_ctx : AesGcmContext) :
    Serves hw config K addr (Stands hw config K) messages s
      (zoom device (otcrypto_aes_gcm_decrypt hw (some addr) ciphertext iv aad tag_len auth_tag
        plaintext local_ctx))
      (if AcceptedArgs ciphertext iv aad tag_len auth_tag plaintext then
        some (decrypted (hw.cipher K) (word_bytes iv.words) aad.bytes ciphertext.bytes auth_tag.words,
          messages) else none) := by
  split_ifs with hargs
  · exact h.on_device (Q := fun r _ => r = _) (otcrypto_aes_gcm_decrypt_guarded h.key hargs local_ctx)
  · exact h.on_device_refuses (otcrypto_aes_gcm_decrypt_refuses h.key hargs local_ctx)

/-! ## New messages -/

section init

variable {init : AesKey → List u32 → AesGcmContext → Proc Device CryptoError AesGcmContext}
  {is_encrypt : u32} {iv : Word32Buf}

/-- What the two functions that begin a message have in common. -/
structure Begins (hw : Hardware) (K : List u32)
    (init : AesKey → List u32 → AesGcmContext → Proc Device CryptoError AesGcmContext)
    (is_encrypt : u32) : Prop where
  does : ∀ t key iv ctx, KeyReady t key K → iv.length = 3 ∨ iv.length = 4 →
    Guarded (init key iv ctx) t (fun ctx' u => (Streams (hw.cipher K) (word_bytes iv) ctx' [] [] ∧
      ctx'.is_encrypt = is_encrypt ∧ ctx'.key = key) ∧ Kept t u) (Kept t)
  refuses : ∀ t key iv ctx, ¬ (iv.length = 3 ∨ iv.length = 4) →
    Refuses (init key iv ctx) t (Kept t)

theorem begins (hw : Hardware) (K : List u32) {is_encrypt : u32}
    (hdir : is_encrypt = kHardenedBoolTrue ∨ is_encrypt = kHardenedBoolFalse) :
    Begins hw K (fun key iv ctx => aes_gcm_init hw key iv { ctx with is_encrypt := is_encrypt })
      is_encrypt := by
  constructor
  · intro t key iv ctx hready hiv
    refine (aes_gcm_init_frame hw key iv _).guarded ((@aes_gcm_init_does hw _ _ _ hready _ hiv
      { ctx with is_encrypt := is_encrypt } hdir).mono ?_)
    rintro ctx' u ⟨-, hstreams, henc, hkey, -⟩
    exact ⟨hstreams, henc, hkey⟩
  · intro t key iv ctx hiv
    exact aes_gcm_init_refuses hiv _

theorem start_message_guarded (hbegins : Begins hw K init is_encrypt) {d : Device}
    (h : KeyAt (Stands hw config K) addr d) (hdata : iv.data ≠ none)
    (hlen : iv.len = 3 ∨ iv.len = 4) (local_ctx : AesGcmContext) :
    Guarded (start_message hw init addr iv local_ctx) d (fun r t =>
      Live hw config K addr r.2 ⟨is_encrypt, iv.words, [], []⟩ ∧ KeyAt (Stands hw config K) addr t)
      (KeyAt (Stands hw config K) addr) := by
  unfold start_message
  refine Guarded.step_bind (Guarded.bind (open_key_guarded h) ?_) h
  rintro ⟨icache_saved_state, key⟩ t hopened
  refine Guarded.get (Guarded.bind ((hbegins.does t key iv.words _ hopened.ready
    ((words_iv_len hdata).mpr hlen)).mono (fun _ _ => id) fun u hu => hopened.stands.kept hu) ?_)
  rintro ctx' u ⟨⟨hstreams, henc, hkey⟩, hkept⟩
  have honkey : key = aes_key_of addr config t := hopened.key_eq
  refine Guarded.pure ⟨⟨?_, henc, hstreams⟩, hopened.stands.kept hkept⟩
  rw [hkey, honkey]
  exact ⟨_, rfl⟩

theorem start_message_refuses (hbegins : Begins hw K init is_encrypt) {d : Device}
    (h : KeyAt (Stands hw config K) addr d) (hdata : iv.data ≠ none)
    (hlen : ¬ (iv.len = 3 ∨ iv.len = 4)) (local_ctx : AesGcmContext) :
    Refuses (start_message hw init addr iv local_ctx) d (KeyAt (Stands hw config K) addr) := by
  unfold start_message
  refine Refuses.step_bind h ?_
  refine Refuses.bind (open_key_guarded h) ?_
  rintro ⟨icache_saved_state, key⟩ t hopened
  refine Refuses.get (Refuses.bind_left ((hbegins.refuses t key iv.words _ fun hwords =>
    hlen ((words_iv_len hdata).mp hwords)).mono fun u hu => hopened.stands.kept hu))

/-- Either start, with the caller's context or without one. -/
theorem gcm_init_serves (hsoft : config.hw_backed = kHardenedBoolFalse)
    (hbegins : Begins hw K init is_encrypt)
    (h : Inv hw config K addr (Stands hw config K) messages s) (ctx : Option ℕ)
    (local_ctx : AesGcmContext) :
    Serves hw config K addr (Stands hw config K) messages s
      (gcm_init hw init (some addr) iv ctx local_ctx)
      ((start messages is_encrypt iv ctx).map fun r => ((), r.2)) := by
  cases ctx with
  | none => exact Refuses.throw h
  | some c =>
    have hstart : start messages is_encrypt iv (some c) =
        if iv.data ≠ none ∧ (iv.len = 3 ∨ iv.len = 4) then
          some (.done, Function.update messages c (some ⟨is_encrypt, iv.words, [], []⟩)) else none := rfl
    rw [hstart]
    refine serves_bind (Q := fun t u => t = s ∧ u = s) (fun _ => Spec.get (Spec.pure ⟨rfl, rfl⟩)) ?_
    rintro _ _ ⟨rfl, rfl⟩
    by_cases hdata : iv.data = none
    · rw [if_pos (Or.inr hdata), if_neg fun hok => hok.1 hdata]
      exact Refuses.throw h
    rw [if_neg (not_or.mpr ⟨h.key.accepted.keyblob, hdata⟩)]
    by_cases hlen : iv.len = 3 ∨ iv.len = 4
    · rw [if_pos ⟨hdata, hlen⟩]
      refine Guarded.bind (h.on_device (start_message_guarded hbegins h.key hdata hlen local_ctx)) ?_
      rintro ⟨icache_saved_state, internal_ctx⟩ t ⟨hlive, ht⟩
      refine Guarded.modify_bind ((Inv.close (ht.save c hlive) (hlive.sideload hsoft) _).mono
        (fun _ _ hu => ⟨rfl, hu⟩) fun _ => id)
    · rw [if_neg fun hok => hlen hok.2]
      exact Refuses.bind_left (h.on_device_refuses
        (start_message_refuses hbegins h.key hdata hlen local_ctx))

/-- A key whose checksum does not fit begins no message. -/
theorem gcm_init_refuses_key (h : Inv hw config K addr P messages s)
    (hstale : integrity_blinded_key_check (s.dev.keys addr) ≠ kHardenedBoolTrue) (ctx : Option ℕ)
    (local_ctx : AesGcmContext) :
    Refuses (gcm_init hw init (some addr) iv ctx local_ctx) s (Inv hw config K addr P messages) := by
  cases ctx with
  | none => exact Refuses.throw h
  | some c =>
    refine Refuses.get (Refuses.ite (fun _ => Refuses.throw h) fun _ => ?_)
    refine Refuses.bind_left (h.on_device_refuses ?_)
    exact Refuses.step_bind h.key
      (Refuses.bind_left ((open_key_refuses hstale).mono fun _ => h.key.congr))

end init

/-! ## All calls -/

/-- A call that is given the key structure, and refuses one whose checksum does not fit. -/
theorem serves_opening (hP : P = Stands hw config K ∨ P = Held hw config K)
    (h : Inv hw config K addr P messages s) {p : Proc Caller CryptoError α}
    {expected : Option (α × Messages)}
    (hserves : Inv hw config K addr (Stands hw config K) messages s →
      Serves hw config K addr (Stands hw config K) messages s p expected)
    (hrefuses : integrity_blinded_key_check (s.dev.keys addr) ≠ kHardenedBoolTrue →
      Refuses p s (Inv hw config K addr P messages)) :
    Serves hw config K addr P messages s p
      (if integrity_blinded_key_check (s.dev.keys addr) ≠ kHardenedBoolTrue then none
      else expected) := by
  split_ifs with hstale
  · exact hrefuses hstale
  · rcases hP with rfl | rfl
    · exact hserves h
    · have hmono : ∀ (messages' : Messages) (t : Caller),
          Inv hw config K addr (Stands hw config K) messages' t →
            Inv hw config K addr (Held hw config K) messages' t :=
        fun _ _ ht => ⟨Stands.held ht.key, ht.live⟩
      have hs := hserves ⟨Held.stands h.key (not_not.mp hstale), h.live⟩
      cases expected with
      | none => exact Refuses.mono hs (hmono messages)
      | some r => exact Guarded.mono hs (fun _ t ht => ⟨ht.1, hmono _ t ht.2⟩) (hmono messages)

/-- The reply is made of what the function returns. -/
theorem serves_map {p : Proc Caller CryptoError β} {expected : Option (β × Messages)} (g : β → α)
    (h : Serves hw config K addr P messages s p expected) {expected' : Option (α × Messages)}
    (heq : expected' = expected.map fun r => (g r.1, r.2)) :
    Serves hw config K addr P messages s (p >>= fun b => pure (g b)) expected' := by
  subst heq
  cases expected with
  | none => exact Refuses.bind_left h
  | some r => exact Guarded.bind h fun _ _ ht => Guarded.pure ⟨congrArg g ht.1, ht.2⟩

end calls

end IbexFirmware.Aes
