/-
Any order of calls on contexts that share a key.

A run is a row of calls, each on the device as the ones before it have left it, whatever the
entropy source gives and whichever drivers fail. In every run each call returns what it would
return if its context were the only one (`alone`), and the shares stand for the same key. The
checksum in the key structure fits for as long as no call has masked the shares through a
context: `gcm_remask_key` writes the shares of the caller and the checksum of the context, and
nobody writes the checksum of the caller.
-/
import IbexFirmware.AesGcmCalls

set_option autoImplicit false

namespace IbexFirmware.Aes

open Bytes PowerFail Crypto HardenedMemory Splice Chunks Session

section

variable {hw : Hardware} {config : KeyConfig} {K : List u32} {addr : ℕ} {P : BlindedKey → Prop}
  {messages : Messages} {s : Caller}

/-- What is to be expected of a call: a key whose checksum does not fit is refused. -/
def expected (E : BitVec 128 → BitVec 128) (addr : ℕ) (messages : Messages) (s : Caller) (c : Call) :
    Option (Reply × Messages) :=
  if c.opens ∧ integrity_blinded_key_check (s.dev.keys addr) ≠ kHardenedBoolTrue then none
  else answer E messages c

theorem expected_of_opens (E : BitVec 128 → BitVec 128) {c : Call} (h : c.opens = true) :
    expected E addr messages s c =
      if integrity_blinded_key_check (s.dev.keys addr) ≠ kHardenedBoolTrue then none
      else answer E messages c := by
  simp only [expected, h, true_and]

theorem expected_of_not_opens (E : BitVec 128 → BitVec 128) {c : Call} (h : c.opens = false) :
    expected E addr messages s c = answer E messages c := by
  simp only [expected, h, Bool.false_eq_true, false_and, if_false]

theorem start_eq_map (messages : Messages) (is_encrypt : u32) (iv : Word32Buf) (ctx : Option ℕ) :
    start messages is_encrypt iv ctx =
      ((start messages is_encrypt iv ctx).map fun r => ((), r.2)).map fun r => (Reply.done, r.2) := by
  cases ctx with
  | none => rfl
  | some c =>
    simp only [start, Option.bind_eq_bind, Option.bind_some]
    split_ifs <;> rfl

theorem expected_of_valid (E : BitVec 128 → BitVec 128) {c : Call}
    (h : c.opens → integrity_blinded_key_check (s.dev.keys addr) = kHardenedBoolTrue) :
    expected E addr messages s c = answer E messages c :=
  if_neg fun hstale => hstale.2 (h hstale.1)

theorem answer_of_expected {E : BitVec 128 → BitVec 128} {c : Call} {r : Reply × Messages}
    (h : expected E addr messages s c = some r) : answer E messages c = some r := by
  unfold expected at h
  split_ifs at h
  exact h

/-- Every call, on contexts that are in use. -/
theorem Call.serves (hsoft : config.hw_backed = kHardenedBoolFalse) (layout : Layout)
    (hP : P = Stands hw config K ∨ P = Held hw config K)
    (h : Inv hw config K addr P messages s) (c : Call)
    (huse : ∀ ctx, c.continues = some ctx → messages ctx ≠ none)
    (hmask : c.remasks → P = Held hw config K) :
    Serves hw config K addr P messages s (c.run hw layout addr)
      (expected (hw.cipher K) addr messages s c) := by
  cases c with
  | encrypt plaintext iv aad tag_len ciphertext auth_tag local_ctx =>
    rw [expected_of_opens _ rfl]
    refine serves_opening hP h (fun hstands => ?_) fun hstale => ?_
    · refine serves_map Reply.encrypted (encrypt_serves hstands local_ctx) ?_
      rw [answer]
      split_ifs <;> rfl
    · exact Refuses.bind_left (h.on_device_refuses
        ((otcrypto_aes_gcm_encrypt_refuses_key hstale local_ctx).mono fun _ => h.key.congr))
  | decrypt ciphertext iv aad tag_len auth_tag plaintext local_ctx =>
    rw [expected_of_opens _ rfl]
    refine serves_opening hP h (fun hstands => ?_) fun hstale => ?_
    · refine serves_map Reply.decrypted (decrypt_serves hstands local_ctx) ?_
      rw [answer]
      split_ifs <;> rfl
    · exact Refuses.bind_left (h.on_device_refuses
        ((otcrypto_aes_gcm_decrypt_refuses_key hstale local_ctx).mono fun _ => h.key.congr))
  | encrypt_init iv ctx local_ctx =>
    rw [expected_of_opens _ rfl]
    refine serves_opening hP h (fun hstands => ?_) fun hstale => ?_
    · exact serves_map (fun _ => Reply.done) (gcm_init_serves hsoft (begins hw K (Or.inl rfl))
        hstands ctx local_ctx) (start_eq_map _ _ _ _)
    · exact Refuses.bind_left (gcm_init_refuses_key h hstale ctx local_ctx)
  | decrypt_init iv ctx local_ctx =>
    rw [expected_of_opens _ rfl]
    refine serves_opening hP h (fun hstands => ?_) fun hstale => ?_
    · exact serves_map (fun _ => Reply.done) (gcm_init_serves hsoft (begins hw K (Or.inr rfl))
        hstands ctx local_ctx) (start_eq_map _ _ _ _)
    · exact Refuses.bind_left (gcm_init_refuses_key h hstale ctx local_ctx)
  | update_aad ctx aad =>
    rw [expected_of_not_opens _ rfl]
    cases ctx with
    | none => exact Refuses.bind_left (Refuses.throw h)
    | some c =>
      obtain ⟨m, hm⟩ := Option.ne_none_iff_exists'.mp (huse c rfl)
      refine serves_map (fun _ => Reply.done) (update_aad_serves hsoft h hm aad) ?_
      simp only [answer, Option.bind_eq_bind, Option.bind_some, hm]
      cases m.take_aad aad <;> rfl
  | update_encrypted_data ctx input output =>
    rw [expected_of_not_opens _ rfl]
    cases ctx with
    | none => exact Refuses.bind_left (Refuses.throw h)
    | some c =>
      obtain ⟨m, hm⟩ := Option.ne_none_iff_exists'.mp (huse c rfl)
      refine serves_map Reply.written (update_encrypted_data_serves hsoft h hm
        fun hin hout hlen => hmask ⟨Option.some_ne_none _, hin, hout, hlen⟩) ?_
      simp only [answer, Option.bind_eq_bind, Option.bind_some, hm]
      cases m.take_text (hw.cipher K) input output <;> rfl
  | encrypt_final ctx tag_len ciphertext auth_tag =>
    rw [expected_of_not_opens _ rfl]
    cases ctx with
    | none => exact Refuses.bind_left (Refuses.throw h)
    | some c =>
      obtain ⟨m, hm⟩ := Option.ne_none_iff_exists'.mp (huse c rfl)
      refine serves_map Reply.tagged (encrypt_final_serves hsoft layout h hm hmask) ?_
      simp only [answer, Option.bind_eq_bind, Option.bind_some, hm]
      split_ifs <;> rfl
  | decrypt_final ctx auth_tag tag_len plaintext =>
    rw [expected_of_not_opens _ rfl]
    cases ctx with
    | none => exact Refuses.bind_left (Refuses.throw h)
    | some c =>
      obtain ⟨m, hm⟩ := Option.ne_none_iff_exists'.mp (huse c rfl)
      refine serves_map Reply.checked (decrypt_final_serves hsoft layout h hm hmask) ?_
      simp only [answer, Option.bind_eq_bind, Option.bind_some, hm]
      split_ifs <;> rfl

end

/-! ## Runs -/

/-- A call, and the machine it is made on. -/
structure Event where
  call : Call
  machine : Machine Caller

section runs

variable (hw : Hardware) (layout : Layout) (addr : ℕ) (K : List u32)

def Event.outcome (e : Event) : Outcome CryptoError Reply := (e.call.run hw layout addr e.machine).1

/-- What is in memory after the call. -/
def Event.after (e : Event) : Caller := (e.call.run hw layout addr e.machine).2.mem

/-- The messages after a call: an error leaves them as they are. -/
def Event.advance (messages : Messages) (e : Event) : Messages :=
  match e.outcome hw layout addr with
  | .ret _ => ((answer (hw.cipher K) messages e.call).map Prod.snd).getD messages
  | _ => messages

/-- The messages of the contexts after a row of calls. -/
def messages_of (log : List Event) : Messages :=
  log.foldl (Event.advance hw layout addr K) fun _ => none

/-- A row of calls from `start`, on contexts that are in use. Any driver may fail. -/
inductive Run (start : Caller) : List Event → Caller → Prop
  | nil : Run start [] start
  | snoc {log : List Event} {s : Caller} (e : Event) (hrun : Run start log s)
      (hmem : e.machine.mem = s) (hpower : e.machine.Under (· ≠ .lost))
      (huse : ∀ ctx, e.call.continues = some ctx → messages_of hw layout addr K log ctx ≠ none) :
      Run start (log ++ [e]) (e.after hw layout addr)

/-- What the call returns if the calls on its own context are the only ones. -/
def alone (log : List Event) (c : Call) : Option Reply :=
  (answer (hw.cipher K) (messages_of hw layout addr K
    (log.filter fun e => e.call.context = c.context)) c).map Prod.fst

end runs

/-! ## Contexts do not meet -/

section local_answers

variable {hw : Hardware} {layout : Layout} {addr : ℕ} {K : List u32} {E : BitVec 128 → BitVec 128}
  {messages messages' : Messages} {c : Call}

theorem start_on {ctx : ℕ} (is_encrypt : u32) (iv : Word32Buf) :
    start messages is_encrypt iv (some ctx) =
      (start (fun _ => messages ctx) is_encrypt iv (some ctx)).map fun r =>
        (r.1, Function.update messages ctx (r.2 ctx)) := by
  simp only [start, Option.bind_eq_bind, Option.bind_some]
  split_ifs
  · simp only [Option.map_some, Function.update_self]
  · rfl

/-- A call looks at its own context only, and changes no other. -/
theorem answer_on {ctx : ℕ} (hc : c.context = some ctx) :
    answer E messages c = (answer E (fun _ => messages ctx) c).map fun r =>
      (r.1, Function.update messages ctx (r.2 ctx)) := by
  cases c with
  | encrypt => cases hc
  | decrypt => cases hc
  | encrypt_init iv c local_ctx =>
    obtain rfl : c = some ctx := hc
    exact start_on _ _
  | decrypt_init iv c local_ctx =>
    obtain rfl : c = some ctx := hc
    exact start_on _ _
  | update_aad c aad =>
    obtain rfl : c = some ctx := hc
    simp only [answer, Option.bind_eq_bind, Option.bind_some]
    cases messages ctx with
    | none => rfl
    | some m => cases hm : m.take_aad aad <;> simp [hm]
  | update_encrypted_data c input output =>
    obtain rfl : c = some ctx := hc
    simp only [answer, Option.bind_eq_bind, Option.bind_some]
    cases messages ctx with
    | none => rfl
    | some m => cases hm : m.take_text E input output <;> simp [hm]
  | encrypt_final c tag_len ciphertext auth_tag =>
    obtain rfl : c = some ctx := hc
    simp only [answer, Option.bind_eq_bind, Option.bind_some]
    cases messages ctx with
    | none => rfl
    | some m => by_cases hm : m.ends auth_tag tag_len ciphertext <;> simp [hm]
  | decrypt_final c auth_tag tag_len plaintext =>
    obtain rfl : c = some ctx := hc
    simp only [answer, Option.bind_eq_bind, Option.bind_some]
    cases messages ctx with
    | none => rfl
    | some m => by_cases hm : m.ends auth_tag tag_len plaintext <;> simp [hm]

/-- A call without a context looks at none and changes none. -/
theorem answer_without (hc : c.context = none) :
    answer E messages c = (answer E (fun _ => none) c).map fun r => (r.1, messages) := by
  cases c with
  | encrypt =>
    simp only [answer]
    split_ifs <;> rfl
  | decrypt =>
    simp only [answer]
    split_ifs <;> rfl
  | encrypt_init iv c local_ctx =>
    obtain rfl : c = none := hc
    rfl
  | decrypt_init iv c local_ctx =>
    obtain rfl : c = none := hc
    rfl
  | update_aad c aad =>
    obtain rfl : c = none := hc
    rfl
  | update_encrypted_data c input output =>
    obtain rfl : c = none := hc
    rfl
  | encrypt_final c tag_len ciphertext auth_tag =>
    obtain rfl : c = none := hc
    rfl
  | decrypt_final c auth_tag tag_len plaintext =>
    obtain rfl : c = none := hc
    rfl

theorem Event.advance_of_ne {e : Event} {ctx : ℕ} (hne : e.call.context ≠ some ctx) :
    e.advance hw layout addr K messages ctx = messages ctx := by
  unfold Event.advance
  cases e.outcome hw layout addr with
  | ret r =>
    cases hc : e.call.context with
    | none =>
      rw [answer_without hc]
      cases answer (hw.cipher K) (fun _ => none) e.call <;> rfl
    | some c₀ =>
      rw [answer_on hc]
      cases answer (hw.cipher K) (fun _ => messages c₀) e.call with
      | none => rfl
      | some r =>
        exact Function.update_of_ne (fun heq => hne (hc.trans (congrArg some heq.symm))) _ _
  | error _ => rfl
  | trap => rfl
  | lost => rfl

/-- What a call makes of the messages depends on that of its own context alone. -/
theorem Event.advance_congr {e : Event} {ctx : ℕ} (hc : e.call.context = some ctx)
    (h : messages ctx = messages' ctx) :
    e.advance hw layout addr K messages ctx = e.advance hw layout addr K messages' ctx := by
  unfold Event.advance
  cases e.outcome hw layout addr with
  | ret r =>
    dsimp only
    rw [answer_on hc, @answer_on _ messages' _ _ hc, h]
    cases answer (hw.cipher K) (fun _ => messages' ctx) e.call with
    | none => exact h
    | some r => simp only [Option.map_some, Option.getD_some, Function.update_self]
  | error _ => exact h
  | trap => exact h
  | lost => exact h

theorem messages_of_snoc (log : List Event) (e : Event) : messages_of hw layout addr K (log ++ [e]) =
    e.advance hw layout addr K (messages_of hw layout addr K log) := by
  rw [messages_of, List.foldl_append]
  rfl

/-- The message of a context is that of its own calls, by induction on the calls. -/
theorem messages_of_own (log : List Event) (ctx : ℕ) :
    messages_of hw layout addr K (log.filter fun e => e.call.context = some ctx) ctx =
      messages_of hw layout addr K log ctx := by
  induction log using List.reverseRecOn with
  | nil => rfl
  | append_singleton log e ih =>
    rw [List.filter_append, messages_of_snoc]
    by_cases hc : e.call.context = some ctx
    · rw [List.filter_singleton, decide_eq_true hc, cond_true, messages_of_snoc]
      exact Event.advance_congr hc ih
    · rw [List.filter_singleton, decide_eq_false hc, cond_false, List.append_nil, ih,
        Event.advance_of_ne hc]

/-- What has been done with other contexts does not matter. -/
theorem alone_eq (log : List Event) (c : Call) : alone hw layout addr K log c =
    (answer (hw.cipher K) (messages_of hw layout addr K log) c).map Prod.fst := by
  unfold alone
  cases hc : c.context with
  | none =>
    rw [answer_without hc, @answer_without _ (messages_of hw layout addr K log) _ hc, Option.map_map,
      Option.map_map]
    rfl
  | some ctx =>
    have hown : messages_of hw layout addr K (log.filter fun e => e.call.context = some ctx) ctx =
      messages_of hw layout addr K log ctx := messages_of_own log ctx
    rw [answer_on hc, @answer_on _ (messages_of hw layout addr K log) _ _ hc, hown, Option.map_map,
      Option.map_map]
    rfl

end local_answers

/-! ## What holds after every run -/

section invariant

variable {hw : Hardware} {config : KeyConfig} {K : List u32} {addr : ℕ} {layout : Layout}
  {P : BlindedKey → Prop} {messages : Messages} {start : Caller} {log : List Event} {s : Caller}

/-- A call in a run, and what it returns. -/
structure AsAlone (hw : Hardware) (layout : Layout) (addr : ℕ) (K : List u32) (log : List Event)
    (e : Event) : Prop where
  no_trap : e.outcome hw layout addr ≠ .trap
  reply : ∀ r, e.outcome hw layout addr = .ret r → alone hw layout addr K log e.call = some r
  answered : e.machine.Under (· = .done) →
    (e.call.opens → integrity_blinded_key_check (e.machine.mem.dev.keys addr) = kHardenedBoolTrue) →
      ∀ r, alone hw layout addr K log e.call = some r → e.outcome hw layout addr = .ret r

/-- One call of a run. -/
theorem Event.step (hsoft : config.hw_backed = kHardenedBoolFalse)
    (hP : P = Stands hw config K ∨ P = Held hw config K)
    {e : Event} (h : Inv hw config K addr P (messages_of hw layout addr K log) e.machine.mem)
    (hpower : e.machine.Under (· ≠ .lost))
    (huse : ∀ ctx, e.call.continues = some ctx → messages_of hw layout addr K log ctx ≠ none)
    (hmask : e.call.remasks → P = Held hw config K) :
    Inv hw config K addr P (messages_of hw layout addr K (log ++ [e])) (e.after hw layout addr) ∧
      AsAlone hw layout addr K log e := by
  have hserves := e.call.serves hsoft layout hP h huse hmask
  rw [messages_of_snoc]
  cases hexp : expected (hw.cipher K) addr (messages_of hw layout addr K log) e.machine.mem e.call with
  | none =>
    rw [hexp] at hserves
    obtain ⟨er, herror, hinv⟩ := Refuses.run hserves rfl hpower
    have hout : e.outcome hw layout addr = .error er := herror
    refine ⟨?_, ⟨?_, ?_, ?_⟩⟩
    · rw [Event.advance, hout]
      exact hinv
    · rw [hout]
      exact nofun
    · intro r hr
      cases hout.symm.trans hr
    · intro _ hvalid r hr
      rw [alone_eq, ← expected_of_valid _ hvalid, hexp] at hr
      cases hr
  | some r =>
    obtain ⟨reply, messages'⟩ := r
    rw [hexp] at hserves
    have hanswer := answer_of_expected hexp
    have halone : alone hw layout addr K log e.call = some reply := by
      rw [alone_eq, hanswer]
      rfl
    have hrun := Guarded.run hserves rfl hpower
    refine ⟨?_, ⟨?_, ?_, ?_⟩⟩
    · rcases hrun with ⟨a, hret, rfl, hinv⟩ | ⟨er, herror, hinv⟩
      · rw [Event.advance, show e.outcome hw layout addr = .ret a from hret, hanswer]
        exact hinv
      · rw [Event.advance, show e.outcome hw layout addr = .error er from herror]
        exact hinv
    · intro htrap
      rcases hrun with ⟨a, hret, -⟩ | ⟨er, herror, -⟩
      · cases htrap.symm.trans hret
      · cases htrap.symm.trans herror
    · intro r hr
      rcases hrun with ⟨a, hret, rfl, -⟩ | ⟨er, herror, -⟩
      · cases hret.symm.trans hr
        exact halone
      · cases herror.symm.trans hr
    · intro hdone _ r hr
      obtain ⟨a, m', hret, ⟨rfl, -⟩, -⟩ := (Guarded.does hserves).run rfl hdone
      obtain rfl := Option.some.inj (halone.symm.trans hr)
      exact congrArg Prod.fst hret

/-- All calls of a run, by induction on it. -/
theorem Run.inv (hsoft : config.hw_backed = kHardenedBoolFalse)
    (hP : P = Stands hw config K ∨ P = Held hw config K) (hstart : KeyAt P addr start.dev)
    (hrun : Run hw layout addr K start log s)
    (hmask : ∀ e ∈ log, e.call.remasks → P = Held hw config K) :
    Inv hw config K addr P (messages_of hw layout addr K log) s ∧
      ∀ pre e post, log = pre ++ e :: post →
        Inv hw config K addr P (messages_of hw layout addr K pre) e.machine.mem ∧
          AsAlone hw layout addr K pre e := by
  induction hrun with
  | nil =>
    refine ⟨⟨hstart, nofun⟩, fun pre e post h => ?_⟩
    cases pre with
    | nil => cases h
    | cons _ _ => cases h
  | @snoc log s e _ hmem hpower huse ih =>
    obtain ⟨hinv, hall⟩ := ih fun e' he' => hmask e' (List.mem_append_left _ he')
    subst hmem
    obtain ⟨hnext, halone⟩ := Event.step hsoft hP hinv hpower huse
      (hmask e (List.mem_append_right _ (List.mem_singleton_self e)))
    refine ⟨hnext, fun pre e' post h => ?_⟩
    -- The event is the new one, or one of those before it.
    induction post using List.reverseRecOn with
    | nil =>
      obtain ⟨rfl, heq⟩ := List.append_inj' h rfl
      obtain rfl := List.singleton_inj.mp heq
      exact ⟨hinv, halone⟩
    | append_singleton post last _ =>
      rw [← List.cons_append, ← List.append_assoc] at h
      exact hall pre e' post (List.append_inj' h rfl).1

/-- The words that the two shares of a key make. -/
def unmasked_key (k : BlindedKey) : List u32 :=
  unmasked k.words (keyblob_share_num_words k.config).toNat

/-- In every run on a key in shares the shares go on making the same words, no check traps, and
each call returns what it returns alone. As long as no call masks the shares through a
context, the key structure is valid too, and no call that is answered alone is refused. -/
theorem shared_key_runs (hvalid : AcceptedKey (start.dev.keys addr))
    (hsoft : (start.dev.keys addr).config.hw_backed = kHardenedBoolFalse)
    (hfits : (start.dev.keys addr).keyblob_length.toNat ≤ 4 * (start.dev.keys addr).words.length)
    (hrun : Run hw layout addr (unmasked_key (start.dev.keys addr)) start log s) :
    unmasked_key (s.dev.keys addr) = unmasked_key (start.dev.keys addr) ∧
      (∀ pre e post, log = pre ++ e :: post →
        AsAlone hw layout addr (unmasked_key (start.dev.keys addr)) pre e) ∧
      ((∀ e ∈ log, ¬ e.call.remasks) →
        integrity_blinded_key_check (s.dev.keys addr) = kHardenedBoolTrue ∧
          ∀ pre e post, log = pre ++ e :: post → e.machine.Under (· = .done) →
            ∀ r, alone hw layout addr (unmasked_key (start.dev.keys addr)) pre e.call = some r →
              e.outcome hw layout addr = .ret r) := by
  have hne : ¬ (start.dev.keys addr).config.hw_backed = kHardenedBoolTrue := by
    rw [hsoft]
    decide
  have hstands : KeyAt (Stands hw (start.dev.keys addr).config (unmasked_key (start.dev.keys addr)))
      addr start.dev := ⟨rfl, hvalid, hfits, by rw [gcm_words, if_neg hne, unmasked_key]⟩
  have hheld := hrun.inv hsoft (Or.inr rfl) (Stands.held hstands) fun _ _ _ => rfl
  refine ⟨?_, fun pre e post h => (hheld.2 pre e post h).2, fun hnone => ?_⟩
  · have hkey : Held hw (start.dev.keys addr).config (unmasked_key (start.dev.keys addr))
      (s.dev.keys addr) := hheld.1.key
    have hwords := hkey.words
    have hne' : ¬ (BlindedKey.update_checksum (s.dev.keys addr)).config.hw_backed =
        kHardenedBoolTrue := by
      rw [hkey.config_eq]
      exact hne
    rw [gcm_words, if_neg hne'] at hwords
    exact hwords
  · have hall := hrun.inv hsoft (Or.inl rfl) hstands fun e he hmask => absurd hmask (hnone e he)
    refine ⟨hall.1.key.accepted.integrity, fun pre e post h hdone r hr => ?_⟩
    obtain ⟨hinv, halone⟩ := hall.2 pre e post h
    exact halone.answered hdone (fun _ => hinv.key.accepted.integrity) r hr

end invariant

/-! ## Two calls -/

/-- A caller with the key in memory, and an entropy source that counts. -/
def counting_caller : Caller :=
  ⟨{ Device.holding fun _ => software_key with entropy := ⟨fun i => BitVec.ofNat 32 i, 0⟩ },
    fun _ => cleared_context⟩

def cleared_layout : Layout := fun _ => cleared_context

/-- An encryption is begun, and gets a byte. -/
def first_event : Event :=
  ⟨.encrypt_init (zero_words 3) (some 5) cleared_context, Machine.sound counting_caller⟩

def second_event : Event :=
  ⟨.update_encrypted_data (some 5) (zero_bytes 1) (zero_bytes 1),
    Machine.sound (first_event.after still_hardware cleared_layout 0)⟩

theorem first_run : Run still_hardware cleared_layout 0 (unmasked_key software_key) counting_caller
    [first_event] (first_event.after still_hardware cleared_layout 0) :=
  Run.snoc first_event Run.nil rfl (fun _ => nofun) nofun

theorem second_event_mem :
    second_event.machine.mem = first_event.after still_hardware cleared_layout 0 := by
  rw [second_event]
  exact Machine.sound_mem _

theorem second_run : Run still_hardware cleared_layout 0 (unmasked_key software_key) counting_caller
    [first_event, second_event] (second_event.after still_hardware cleared_layout 0) := by
  refine Run.snoc second_event first_run second_event_mem (fun _ => nofun) ?_
  intro ctx hctx
  obtain rfl := Option.some.inj hctx
  decide +kernel

theorem software_key_accepted : AcceptedKey software_key := software_key_stands.accepted

theorem software_key_fits : software_key.keyblob_length.toNat ≤ 4 * software_key.words.length := by
  decide

theorem first_event_not_remasks : ∀ e ∈ [first_event], ¬ e.call.remasks := by
  intro e he
  obtain rfl := List.mem_singleton.mp he
  exact id

/-- The words stay the same over both calls, and the key is valid after the first. -/
theorem shared_key_runs_two_calls :
    unmasked_key ((second_event.after still_hardware cleared_layout 0).dev.keys 0) =
        unmasked_key software_key ∧
      integrity_blinded_key_check ((first_event.after still_hardware cleared_layout 0).dev.keys 0) =
        kHardenedBoolTrue := by
  have hsecond := @shared_key_runs still_hardware 0 cleared_layout counting_caller _ _
    software_key_accepted rfl software_key_fits second_run
  have hfirst := @shared_key_runs still_hardware 0 cleared_layout counting_caller _ _
    software_key_accepted rfl software_key_fits first_run
  exact ⟨hsecond.1, (hfirst.2.2 first_event_not_remasks).1⟩

/-- After the second call the key structure is not valid any more. -/
theorem update_leaves_stale_checksum : ¬ ∀ log s, Run still_hardware cleared_layout 0
    (unmasked_key software_key) counting_caller log s →
      integrity_blinded_key_check (s.dev.keys 0) = kHardenedBoolTrue := by
  intro hvalid
  have hstale : integrity_blinded_key_check
      ((second_event.after still_hardware cleared_layout 0).dev.keys 0) =
      kHardenedBoolFalse := by decide +kernel
  have hcheck := hstale.symm.trans (hvalid _ _ second_run)
  revert hcheck
  decide

end IbexFirmware.Aes
